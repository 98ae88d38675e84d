import Transpiler.Source.Ref

/-!
# Faults

Why a compilation, a source map or a command can fail. A fault is a cause; `Fault.kind` is the
name under which the program reports it, and `Fault.message` its wording.
-/

namespace Transpiler

open Source (Ref)

inductive Requirement where
  | allAssignment | defaultAssignment | fString | dependImport | dictUpdate | dictCopy | template
  | taggedTemplate | importStatement | importFrom | parameters | forOf | classStatement
  | asyncStuff
  deriving Inhabited, Repr, DecidableEq

def Requirement.text : Requirement → String
  | .allAssignment => "'__all__' assignment requires ES6"
  | .defaultAssignment => "'__default__' assignment requires ES6"
  | .fString => "f-strings require ES6"
  | .dependImport => "'__import__()' call requires ES6"
  | .dictUpdate => "dict.update() requires ES6"
  | .dictCopy => "dict.copy() requires ES6"
  | .template => "template literals require ES6"
  | .taggedTemplate => "tagged templates require ES6"
  | .importStatement => "'import' statement requires ES6"
  | .importFrom => "'import from' statement requires ES6"
  | .parameters => "Arguments definitions other than plain params require ES6 to be enabled"
  | .forOf => "for...of statement requires ES6"
  | .classStatement => "'class' statement requires ES6"
  | .asyncStuff => "Async stuff requires 'stage3' to be enabled"

inductive Refusal where
  | allNotList
  | allNotString
  | defaultList
  | keywordSpread
  | fStringConversion
  | fStringFormat
  | sliceStep
  | moduleName (name : String)
  | defaultImportAlias
  | keyType (type : String)
  | functionDecorator
  | severalDecorators
  | methodDecorator
  | keywordsAndAccumulator
  | restAndKeywords
  | setterArgument
  | loopTarget
  | arrayLoopTarget
  | severalBases
  | classMember
  | classAssignment
  | methodSelf
  | superAttribute
  | superSubscript
  | tryElse
  | bareRaise
  | reserved (name : String)
  deriving Inhabited, Repr, DecidableEq

def Refusal.text : Refusal → String
  | .allNotList => "Please define a '__default__' member for default export."
  | .allNotString => "Must be a string literal."
  | .defaultList => "Only one symbol can be exported using '__default__'."
  | .keywordSpread => "'**kwargs' syntax isn't supported"
  | .fStringConversion => "f-string conversion spec isn't supported"
  | .fStringFormat => "f-string format spec isn't supported"
  | .sliceStep => "Slice step is unsupported"
  | .moduleName name =>
    "Invalid module name: '" ++ name ++ "': use 'as' to give it a new name."
  | .defaultImportAlias => "Default import must declare an 'as' clause."
  | .keyType type => "Value of type <class '" ++ type ++ "'> cannot be use as key"
  | .functionDecorator => "Function decorators are unsupported yet"
  | .severalDecorators => "No more than one decorator is supported"
  | .methodDecorator => "Unsupported method decorator"
  | .keywordsAndAccumulator =>
    "Keyword arguments together with keyword args accumulator are unsupported"
  | .restAndKeywords => "Having both param accumulator and keyword args is unsupported"
  | .setterArgument => "Missing argument in setter"
  | .loopTarget => "Target must be a name"
  | .arrayLoopTarget => "Target must be a name, Are you sure is only one?"
  | .severalBases => "Multiple inheritance is not supported"
  | .classMember => "Class' body members must be functions or assignments"
  | .classAssignment => "Assignments must have only one target"
  | .methodSelf => "First arg on method must be 'self'"
  | .superAttribute => "'super().attr' cannot be used in constructors"
  | .superSubscript => "'super()[expr]' cannot be used in constructors"
  | .tryElse => "'else' block of 'try' statement isn't supported"
  | .bareRaise => "'raise' has no argument but failed obtaining implicit exception"
  | .reserved name => "Name '" ++ name ++ "' is reserved in JavaScript."

inductive MapDefect where
  | openQuantity
  | negativeColumn (segment : String)
  | fieldCount (segment : String) (fields : List Int)
  | unknownSource (segment : String) (id : Int)
  | negativeSourceLine (segment : String)
  | negativeSourceColumn (segment : String)
  | unknownName (segment : String) (id : Int)
  deriving Inhabited, Repr, DecidableEq

def MapDefect.text : MapDefect → String
  | .openQuantity => "leftover vlq/shift in vlq decode"
  | .negativeColumn segment => "Segment " ++ segment ++ " has negative dst_col"
  | .fieldCount segment fields =>
    "Invalid segment " ++ segment ++ ", parsed as [" ++ ", ".intercalate (fields.map toString) ++
      "]"
  | .unknownSource segment id =>
    "Segment " ++ segment ++ " references source " ++ toString id ++ " which does not exist"
  | .negativeSourceLine segment => "Segment " ++ segment ++ " has negative src_line"
  | .negativeSourceColumn segment => "Segment " ++ segment ++ " has negative src_col"
  | .unknownName segment id =>
    "Segment " ++ segment ++ " references name " ++ toString id ++ " which does not exist"

inductive Fault where
  | noRule (node : Ref)
  /-- A rule applies, but needs a feature that is off. -/
  | requires (node : Ref) (what : Requirement)
  | unsupported (node : Option Ref) (why : Refusal)
  | namesExhausted
  | unknownConstant
  /-- A value that cannot be a key and has no place to cite. -/
  | unusableKey (type : String)
  /-- A reserved word where a name is expected, without a source to cite. -/
  | reservedName (name : String)
  /-- A source map has a token at that place already. -/
  | tokenExists
  | sourceNameNeeded
  /-- A condition that a construct relies on does not hold. -/
  | unmet (text : String)
  /-- A part is asked of something that has no such part. -/
  | noPart (text : String)
  /-- A list or a text is shorter than the position asked for. -/
  | outOfRange
  | noKey (text : String)
  /-- A value has a type that the operation does not take. -/
  | wrongType (text : String)
  | undefinedName (name : String)
  | unassigned (name : String)
  | divisionByZero
  | notJson
  | notSource
  | missingFile (path : String)
  | nameTooLong (path : String)
  /-- A directory stands where a file is to be written. -/
  | isDirectory (path : String)
  /-- A file stands where a directory is to be entered. -/
  | notDirectory (path : String)
  | badMap (defect : MapDefect)
  deriving Inhabited, Repr, DecidableEq

namespace Fault

def kind : Fault → String
  | noRule _ | requires _ _ | namesExhausted => "TransformationError"
  | unsupported _ _ => "UnsupportedSyntaxError"
  | unknownConstant | unusableKey _ | reservedName _ | tokenExists | sourceNameNeeded =>
    "ValueError"
  | unmet _ => "AssertionError"
  | noPart _ => "AttributeError"
  | outOfRange => "IndexError"
  | noKey _ => "KeyError"
  | wrongType _ => "TypeError"
  | undefinedName _ => "NameError"
  | unassigned _ => "UnboundLocalError"
  | divisionByZero => "ZeroDivisionError"
  | notJson => "JSONDecodeError"
  | notSource => "SyntaxError"
  | missingFile _ => "FileNotFoundError"
  | nameTooLong _ => "OSError"
  | isDirectory _ => "IsADirectoryError"
  | notDirectory _ => "NotADirectoryError"
  | badMap _ => "SourceMapDecodeError"

def message : Fault → String
  | noRule node => Ref.citation (some node) ++ ". No transformation for the node"
  | requires node what => Ref.citation (some node) ++ ". " ++ what.text
  | unsupported node why => Ref.citation node ++ ". " ++ why.text
  | namesExhausted => Ref.citation (some (.uncited "str" none))
  | unknownConstant => "Unknown data type received."
  | unusableKey type => (Refusal.keyType type).text
  | reservedName name => "Name " ++ name ++ " is reserved in JavaScript."
  | tokenExists => "Token with given dst_line and dst_col already exists:"
  | sourceNameNeeded =>
    "A source name is needed, please specify it using the '--source-name option."
  | unmet text | noPart text | noKey text | wrongType text => text
  | outOfRange => "list index out of range"
  | undefinedName name => "name '" ++ name ++ "' is not defined"
  | unassigned name =>
    "cannot access local variable '" ++ name ++ "' where it is not associated with a value"
  | divisionByZero => "integer division or modulo by zero"
  | notJson => "Expecting value"
  | notSource => ""
  | missingFile path => "[Errno 2] No such file or directory: '" ++ path ++ "'"
  | nameTooLong path => "[Errno 36] File name too long: '" ++ path ++ "'"
  | isDirectory path => "[Errno 21] Is a directory: '" ++ path ++ "'"
  | notDirectory path => "[Errno 20] Not a directory: '" ++ path ++ "'"
  | badMap defect => defect.text

end Fault

end Transpiler

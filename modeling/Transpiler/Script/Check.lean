import Transpiler.Fault
import Transpiler.Script.Render
import Transpiler.Script.Word

/-!
# Whether a tree can be written

`Js.check` finds the first fault that writing a tree meets: reserved words where a name is declared
or used, fields that are no names, declarations without variables, and the like. A tree is checked
in the order in which it is written, because the first fault is the one that is reported.
-/

namespace Transpiler.Script

abbrev Verdict := Except Fault Unit

def passed : Verdict := .ok ()

def expect (cond : Bool) : Verdict :=
  if cond then passed else .error (.unmet "")

/-- Refuses a reserved word. With settings the source of the node is cited. -/
def Origin.checkWord (o : Origin) (word : String) : Verdict :=
  match o.settings with
  | some s =>
    if isReserved s.es6 word then .error (.unsupported o.source (.reserved word)) else passed
  | none => if isReserved false word then .error (.reservedName word) else passed

def firstFault : List Verdict → Verdict
  | [] => passed
  | .ok _ :: rest => firstFault rest
  | .error e :: _ => .error e

def inTurns : List Verdict → List Verdict → List Verdict
  | a :: as, b :: bs => a :: b :: inTurns as bs
  | _, _ => []

def checkOutput (i : Item) : Verdict :=
  if i.isOutput then passed
  else .error (.noPart "'str' object has no attribute 'serialize'")

def checkNode (j : Js) : Verdict :=
  if j.isNode then passed
  else .error (.noPart "'str' object has no attribute 'serialize'")

def endsComment : List Char → Bool
  | '*' :: '/' :: _ => true
  | _ :: rest => endsComment rest
  | [] => false

/-- Whether two entries for one name differ in having another name; such entries have no order. -/
def clashing (names : List (String × Option String)) : Bool :=
  names.any fun n => names.any fun m => n.1 == m.1 && n.2.isNone != m.2.isNone

def Import.check : Import → Verdict
  | .named _ names =>
    if clashing names then
      .error (.wrongType "'<' not supported between instances of 'NoneType' and 'str'")
    else passed
  | _ => passed

mutual
def Js.check : Js → Verdict
  | .bare _ | .text _ | .num _ _ | .json _ _ | .atom _ _ | .op _ _ | .template _ _ | .literal _ _
  | .jump _ _ | .pass _ => passed
  | .name o id =>
    firstFault [match id with | .text s => o.checkWord s | _ => passed, id.check, checkOutput (o.part .own id.items)]
  | .paren _ e => e.check
  | .assign _ left right => firstFault [left.check, right.check]
  | .ifExp _ test body orelse => firstFault [test.check, body.check, orelse.check]
  | .call _ _ func args kwargs => firstFault (func.check :: checkEach args ++ [kwargs.check])
  | .dot o obj field => firstFault [expect (isField field), o.checkWord field, obj.check]
  | .subscript _ obj key => firstFault [obj.check, key.check]
  | .keySubscript _ key => key.check
  | .binOp _ left op right => firstFault [left.check, op.check, right.check]
  | .tests _ conj ops lefts rights =>
    let n := lefts.length
    firstFault ([expect (n > 1), if ops.length < n then .error .outOfRange else passed] ++
      ((checkEach lefts).zip ((checkEach ops).zip (checkEach rights))).flatMap
        (fun (l, op, r) => [l, op, r]) ++ [conj.check])
  | .unaryOp _ op right =>
    firstFault [expect (match op with | .op _ s => s.isUnary | _ => false), op.check, right.check]
  | .tagged _ _ tag => firstFault [checkNode tag, tag.check]
  | .dict _ keys values =>
    firstFault ((if values.length < keys.length then .error .outOfRange else passed) ::
      inTurns (checkEach keys) (checkEach values))
  | .list _ elts => firstFault (checkEach elts)
  | .marked _ _ value => value.check
  | .statements _ items => firstFault (arrange (slottedChecks items))
  | .exprStmt o value => firstFault [value.check, checkOutput (o.part .none value.items)]
  | .declare o _ _ keys values =>
    firstFault (keys.map o.checkWord ++
      [expect (keys.length > 0), expect (keys.length == values.length)] ++ checkEach values)
  | .augAssign _ target op value => firstFault [target.check, op.check, value.check]
  | .ret _ value => value.check
  | .command _ _ value => value.check
  | .ifStmt _ test body orelse => firstFault (test.check :: checkEach body ++ checkEach orelse)
  | .whileStmt _ test body => firstFault (test.check :: checkEach body)
  | .forStmt _ left test right body =>
    firstFault ([left.check, test.check, right.check] ++ checkEach body)
  | .forEach _ _ target source body => firstFault ([target.check, source.check] ++ checkEach body)
  | .tryStmt _ body target catchBody finallyBody =>
    let catching := if catchBody.isEmpty then [] else target.check :: checkEach catchBody
    firstFault (expect (!(catchBody.isEmpty && finallyBody.isEmpty)) :: checkEach body ++ catching ++
      checkEach finallyBody)
  | .func _ _ _ args body rest kwargs =>
    firstFault (checkEach kwargs ++ checkEach args ++ [rest.check] ++ checkEach body)
  | .classDef _ name superclass members =>
    firstFault ([name.check, superclass.check] ++ checkEach members)
  | .member _ _ _ _ args body rest kwargs =>
    firstFault (checkEach kwargs ++ checkEach args ++ [rest.check] ++ checkEach body)
  | .importOf _ i => i.check
  | .exportNames _ names => firstFault (checkEach names)
  | .exportDefault _ value => value.check
  | .comment _ value => expect (!endsComment value.toList)

def checkEach : List Js → List Verdict
  | [] => []
  | j :: rest => j.check :: checkEach rest

/-- The verdicts on the statements of a block with their slots, those of a block directly inside it
included. -/
def slottedChecks : List Js → List (Slot × Verdict)
  | [] => []
  | .statements _ inner :: rest => statementChecks inner ++ slottedChecks rest
  | j :: rest => (j.slot, firstFault [checkNode j, j.check]) :: slottedChecks rest

def statementChecks : List Js → List (Slot × Verdict)
  | [] => []
  | j :: rest => (j.slot, firstFault [checkNode j, j.check]) :: statementChecks rest
end

def Js.items? (j : Js) : Except Fault (List Item) := do
  firstFault [checkNode j, j.check]
  return j.items

def Js.render? (j : Js) : Except Fault String := do
  return Item.joinAll (← j.items?)

end Transpiler.Script

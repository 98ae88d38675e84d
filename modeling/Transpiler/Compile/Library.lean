import Transpiler.Compile.Session
import Transpiler.Source.Build

/-!
# Sources that come along

The functions that compiled code may call when it runs, the module that collects those it does call,
and the definition of an exception. They are written in the source language and compiled like any
other code.
-/

namespace Transpiler.Compile

open Source (Stmt)
open Source.Build

/-- The definition of an exception: a constructor function with the prototype of `Error`. -/
def exceptionSource (name : String) : List Stmt :=
  let self := var "self"
  let capture := field (var "Error") "captureStackTrace"
  [define name ["self", "message"]
    [set (field self "name") (text name),
      set (field self "message") (anyOf [var "message", text ("Custom error " ++ name)]),
      branch (test (call (var "typeof") [capture]) .eq (text "function"))
        [run (call capture [self, field self "constructor"])]
        [set (field self "stack") (field (call (var "Error") [var "message"]) "stack")]],
    set (field (var name) "prototype")
      (method (var "Object") "create" [field (var "Error") "prototype"]),
    set (field (field (var name) "prototype") "constructor") (var name)]

/-- The test whether a container is an array or a text, and so has positions. -/
private def hasPositions (container : Source.Expr) : Source.Expr :=
  anyOf [isA container ["Array"], test (call (var "typeof") [container]) .eq (text "string")]

private def hasPosition : Source.Expr :=
  test (method (var "right") "indexOf" [var "left"]) .gt
    (.unaryOp none .uSub (.constant none (.number "1")))

def Snippet.source : Snippet → Stmt
  | .contains => define "_in" ["left", "right"]
    [globals ["Array", "typeof"],
      branch (hasPositions (var "right")) [give hasPosition]
        [give (test (var "left") .isIn (var "right"))]]
  | .containsEs6 => define "in_es6" ["left", "right"]
    [globals ["Array", "typeof", "Map", "Set", "WeakMap", "WeakSet"],
      branch (hasPositions (var "right")) [give hasPosition]
        [branch (isA (var "right") ["Map", "Set", "WeakMap", "WeakSet"])
          [give (method (var "right") "has" [var "left"])]
          [give (test (var "left") .isIn (var "right"))]]]
  | .setDecorators =>
    let member := item (field (var "cls") "prototype") (var "p")
    define "set_decorators" ["cls", "props"]
      [globals ["Function", "Map", "WeakMap", "Object"],
        each "p" (call (var "dict") [var "props"])
          [set (var "decos") (item (var "props") (var "p")),
            define "reducer" ["val", "deco"]
              [give (call (var "deco") [var "val", var "cls", var "p"])],
            set (var "deco") (method (var "decos") "reduce" [var "reducer", member]),
            branch (allOf [neg (isA (var "deco") ["Function", "Map", "WeakMap"]),
                isA (var "deco") ["Object"],
                anyOf [test (text "value") .isIn (var "deco"),
                  test (text "get") .isIn (var "deco")]])
              [.delete none [member], run (method (var "Object") "defineProperty"
                  [field (var "cls") "prototype", var "p", var "deco"])]
              [set member (var "deco")]]]
  | .setClassDecorators => define "set_class_decorators" ["cls", "decos"]
    [define "reducer" ["val", "deco"] [give (call (var "deco") [var "val", var "cls"])],
      give (method (var "decos") "reduce" [var "reducer", var "cls"])]
  | .setProperties => define "set_properties" ["cls", "props"]
    [globals ["Function", "Map", "WeakMap", "Object"],
      each "p" (call (var "dict") [var "props"])
        [set (var "value") (item (var "props") (var "p")),
          branch (allOf [neg (isA (var "value") ["Map", "WeakMap"]), isA (var "value") ["Object"],
              test (text "get") .isIn (var "value"), isA (field (var "value") "get") ["Function"]])
            [set (var "desc") (var "value")]
            [set (var "desc") (.dict none
              [text "value", text "enumerable", text "configurable", text "writable"]
              [var "value", truth false, truth true, truth true])],
          run (method (var "Object") "defineProperty"
            [field (var "cls") "prototype", var "p", var "desc"])]]
  | .assertion => define "_assert" ["comp", "msg"]
    (globals ["Error", "Object", "typeof"] :: exceptionSource "PJAssertionError" ++
      [set (var "msg") (anyOf [var "msg", text "Assertion failed."]),
        branch (neg (var "comp"))
          [.raise none (call (var "PJAssertionError") [var "msg"]) .absent] []])

/-- The statements that define run-time functions and put them into an object. -/
def libraryBody (fs : List Snippet) : List Stmt :=
  fs.map Snippet.source ++ fs.map (fun f => set (item (var "container") (text f.name)) (var f.name)) ++
    [give (var "container")]

def librarySource (fs : List Snippet) : List Stmt :=
  [define "_pj_snippets" ["container"] (libraryBody (Snippet.all.filter fs.contains)),
    set (var "_pj") (.dict none [] []),
    run (call (var "_pj_snippets") [var "_pj"])]

end Transpiler.Compile

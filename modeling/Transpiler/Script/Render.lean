import Transpiler.Script.Layout

/-!
# The layout of trees

`Js.items` lays a tree out: what it contributes to the node around it, or to the output. It is total
and says nothing about whether the tree makes sense; that is the matter of `Js.check`.
-/

namespace Transpiler.Script

def str (s : String) : Item :=
  .piece (.text s)

def pairItems : List (List Item) → List (List Item) → List (List Item)
  | k :: ks, v :: vs => (k ++ [str ": "] ++ v) :: pairItems ks vs
  | _, _ => []

def testItems : List (List Item) → List (List Item) → List (List Item) → List (List Item)
  | op :: ops, l :: ls, r :: rs =>
    ([str "("] ++ l ++ [str " "] ++ op ++ [str " "] ++ r ++ [str ")"]) :: testItems ops ls rs
  | _, _, _ => []

def declarations : List String → List (Bool × List Item) → List (List Item)
  | k :: ks, (absent, v) :: vs =>
    (if absent then [str k] else [str k, str " = "] ++ v) :: declarations ks vs
  | _, _ => []

def parameters (o : Origin) (args : List (List Item)) (rest : Option (List Item))
    (kwargs : List (List Item)) : List Item :=
  let named := if kwargs.isEmpty then []
    else [[o.part .none ([str "\x7b"] ++ separated [str ", "] kwargs ++ [str "\x7d=\x7b\x7d"])]]
  [str "("] ++ separated [str ", "] (args ++ named ++ rest.toList) ++ [str ") "]

/-- Puts a pair into an ascending list; pairs with the same name go by their other names. -/
def insertImport (n : String × Option String) : List (String × Option String) → List (String × Option String)
  | [] => [n]
  | m :: rest =>
    let before := n.1 < m.1 ∨ (n.1 = m.1 ∧ n.2.getD "" < m.2.getD "")
    if before then n :: m :: rest else m :: insertImport n rest

def sortImports (names : List (String × Option String)) : List (String × Option String) :=
  names.foldl (fun acc n => insertImport n acc) []

def Import.items (o : Origin) : Import → List Item
  | .depend module =>
    [o.lineOf true [str "System.import(", str "'", str module, str "'", str ")"]]
  | .named module names =>
    let one (n : String × Option String) : List Item :=
      match n.2 with
      | some other =>
        if other == "" then [o.part .none [str n.1]]
        else [o.part .none [str n.1, str " as ", str other]]
      | none => [o.part .none [str n.1]]
    [o.lineOf true ([str "import \x7b"] ++ separated [str ", "] ((sortImports names).map one) ++
      [str "\x7d from '", str module, str "'"])]
  | .star module name =>
    [o.lineOf true [str "import * as ", str name, str " from '", str module, str "'"]]
  | .default module name =>
    [o.lineOf true [str "import ", str name, str " from '", str module, str "'"]]

mutual
def Js.items : Js → List Item
  | .bare v => [.bare v]
  | .text s => [str s]
  | .name o id => [o.part .own id.items]
  | .num o digits => [o.part .none [str digits]]
  | .json o value => [o.part .none [str value.render]]
  | .atom o a => [o.part .none [str a.word]]
  | .op o s => [o.part .none [str s.symbol]]
  | .paren o e => [o.part .none ([str "("] ++ e.items ++ [str ")"])]
  | .assign o left right => [o.part .none (left.items ++ [str " = "] ++ right.items)]
  | .ifExp o test body orelse =>
    [o.part .none ([str "("] ++ test.items ++ [str " ? "] ++ body.items ++ [str " : "] ++
      orelse.items ++ [str ")"])]
  | .call o operator func args kwargs =>
    let last := if kwargs.isTruthy then [kwargs.items] else []
    [o.part .none ([str operator] ++ func.items ++ [str "("] ++
      separated [str ", "] (itemsEach args ++ last) ++ [str ")"])]
  | .dot o obj field => [o.part .own (obj.items ++ [str ".", str field])]
  | .subscript o obj key =>
    [o.part .none ([o.part .own obj.items, str "[", o.part .own key.items, str "]"])]
  | .keySubscript o key => [o.part .none [str "[", o.part .none key.items, str "]"]]
  | .binOp o left op right =>
    [o.part .none ([str "("] ++ left.items ++ [str " "] ++ op.items ++ [str " "] ++ right.items ++
      [str ")"])]
  | .tests o conj ops lefts rights =>
    let all := testItems (itemsEach ops) (itemsEach lefts) (itemsEach rights)
    [o.part .none ([str "("] ++ separated ([str " "] ++ conj.items ++ [str " "]) all ++ [str ")"])]
  | .unaryOp o op right =>
    [o.part .none ([str "("] ++ op.items ++ [str " "] ++ right.items ++ [str ")"])]
  | .tagged o value tag => [o.part .none (tag.items ++ o.multiLine "`" "" "" value)]
  | .template o value => o.multiLine "`" "" "" value
  | .literal o value => (o.multiLine "" "" "" value).map (o.toLine 0 false)
  | .dict o keys values =>
    [o.part .none ([str "\x7b"] ++
      separated [str ", "] (pairItems (itemsEach keys) (itemsEach values)) ++ [str "\x7d"])]
  | .list o elts => [o.part .none ([str "["] ++ separated [str ", "] (itemsEach elts) ++ [str "]"])]
  | .marked o m value => [o.part .none ([str m.word] ++ value.items)]
  | .statements o items => (arrange (slottedItems items)).flatMap (·.map (o.toLine 0 true))
  | .exprStmt o value => [o.part .none value.items]
  | .declare o d _ keys values =>
    [o.part .none ([str d.word] ++ separated [str ", "] (declarations keys (valueItems values)))]
  | .augAssign o target op value =>
    let target := target.items
    [o.part (.named (Item.joinAll target)) (target ++ [str " "] ++ op.items ++ [str "= "] ++
      value.items)]
  | .ret o value =>
    if value.isTruthy then [o.lineOf true ([str "return "] ++ value.items)]
    else [o.textLine true "return"]
  | .jump o j => [o.part .none [str j.word]]
  | .command o c value => [o.lineOf true ([str c.word] ++ value.items)]
  | .ifStmt o test body orelse =>
    let closing := if orelse.isEmpty then [] else
      o.lineOf false [str "\x7d else \x7b"] :: o.block (itemsAll orelse)
    o.lineOf false ([str "if ("] ++ test.items ++ [str ") \x7b"]) :: o.block (itemsAll body) ++
      closing ++ [o.textLine false "\x7d"]
  | .whileStmt o test body =>
    o.lineOf false ([str "while ("] ++ test.items ++ [str ") \x7b"]) :: o.block (itemsAll body) ++
      [o.textLine false "\x7d"]
  | .forStmt o left test right body =>
    o.lineOf false ([str "for ("] ++ left.items ++ [str "; "] ++ test.items ++ [str "; "] ++
      right.items ++ [str ") \x7b"]) :: o.block (itemsAll body) ++ [o.textLine false "\x7d"]
  | .forEach o each target source body =>
    o.lineOf false ([str "for (var ", o.part .none target.items, str each.word] ++ source.items ++
      [str ") \x7b"]) :: o.block (itemsAll body) ++ [o.textLine false "\x7d"]
  | .tryStmt o body target catchBody finallyBody =>
    let catching := if catchBody.isEmpty then [] else
      o.lineOf false ([str "\x7d catch("] ++ target.items ++ [str ") \x7b"]) ::
        o.block (itemsAll catchBody)
    let finishing := if finallyBody.isEmpty then [] else
      o.lineOf false [str "\x7d finally \x7b"] :: o.block (itemsAll finallyBody)
    o.textLine false "try \x7b" :: o.block (itemsAll body) ++ catching ++ finishing ++
      [o.textLine false "\x7d"]
  | .func o f name args body rest kwargs =>
    let rest := if rest.isTruthy then some rest.items else none
    let params := parameters o (itemsEach args) rest (itemsEach kwargs)
    let body := o.block (itemsAll body)
    match f, name.getD "" with
    | .arrow, "" =>
      o.lineOf false (params ++ [str "=> ", str "\x7b"]) :: body ++ [o.part .none [str "\x7d"]]
    | .arrow, given =>
      o.lineOf false ([str given, str " = "] ++ params ++ [str "=> ", str "\x7b"]) :: body ++
        [o.textLine true "\x7d"]
    | f, given =>
      o.lineOf false ([str f.word, str given] ++ params ++ [str "\x7b"]) :: body ++
        [o.textLine false "\x7d"]
  | .classDef o name superclass members =>
    let extending := if superclass.isAbsent then [] else [str " extends "] ++ superclass.items
    o.lineOf false ([str "class "] ++ name.items ++ extending ++ [str " \x7b"]) ::
      o.block (itemsAll members) ++ [o.textLine false "\x7d"]
  | .member o m static name args body rest kwargs =>
    let rest := if rest.isTruthy then some rest.items else none
    let params := parameters o (itemsEach args) rest (itemsEach kwargs)
    let opening := if static then [str "static "] else []
    o.lineOf false (opening ++ [str (m.head name)] ++ params ++ [str "\x7b"]) ::
      o.block (itemsAll body) ++ [o.textLine false "\x7d"]
  | .importOf o i => i.items o
  | .exportNames o names =>
    [o.lineOf true ([str "export ", str "\x7b"] ++ separated [str ", "] (itemsEach names) ++
      [str "\x7d"])]
  | .exportDefault o value => [o.lineOf true ([str "export default "] ++ value.items)]
  | .pass _ => []
  | .comment o value => (o.multiLine "/*" "*/" " " value).map (o.toLine 0 false)

def itemsAll : List Js → List Item
  | [] => []
  | j :: rest => j.items ++ itemsAll rest

def itemsEach : List Js → List (List Item)
  | [] => []
  | j :: rest => j.items :: itemsEach rest

def valueItems : List Js → List (Bool × List Item)
  | [] => []
  | j :: rest => (j.isAbsent, j.items) :: valueItems rest

/-- The contributions of the statements of a block with their slots, those of a block directly
inside it included. -/
def slottedItems : List Js → List (Slot × List Item)
  | [] => []
  | .statements _ inner :: rest => slottedEach inner ++ slottedItems rest
  | j :: rest => (j.slot, j.items) :: slottedItems rest

def slottedEach : List Js → List (Slot × List Item)
  | [] => []
  | j :: rest => (j.slot, j.items) :: slottedEach rest
end

def Js.render (j : Js) : String :=
  Item.joinAll j.items

end Transpiler.Script

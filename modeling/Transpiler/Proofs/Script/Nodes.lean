import Transpiler.Script.Tree

/-!
# The nodes of a tree

`Js.nodes` lists a tree and all trees inside it, bare values apart. What holds of a tree if it holds of its parts
holds of all trees (`Js.parts_induction`).

A reference is a field of the object that holds the run-time functions, where nothing in the source
stands for it (`Js.refs`).
-/

namespace Transpiler.Script

variable {k j : Js} {js : List Js}

/-! ### Parts -/

@[simp]
def Js.parts : Js → List Js
  | .bare _ | .text _ | .num _ _ | .json _ _ | .atom _ _ | .op _ _ | .template _ _ | .literal _ _ | .jump _ _
  | .importOf _ _ | .pass _ | .comment _ _ => []
  | .name _ e | .paren _ e | .dot _ e _ | .keySubscript _ e | .tagged _ _ e | .marked _ _ e | .exprStmt _ e
  | .ret _ e | .command _ _ e | .exportDefault _ e => [e]
  | .assign _ e f | .subscript _ e f | .unaryOp _ e f => [e, f]
  | .ifExp _ e f g | .binOp _ e f g | .augAssign _ e f g => [e, f, g]
  | .call _ _ e es f => e :: f :: es
  | .dict _ es fs => es ++ fs
  | .list _ es | .declare _ _ _ _ es | .exportNames _ es => es
  | .statements _ es => es ++ flattenOnce es
  | .whileStmt _ e es => e :: es
  | .ifStmt _ e es fs => e :: (es ++ fs)
  | .forEach _ _ e f es | .classDef _ e f es => e :: f :: es
  | .forStmt _ e f g es => e :: f :: g :: es
  | .tests _ e es fs gs | .tryStmt _ es e fs gs | .func _ _ _ es fs e gs | .member _ _ _ _ es fs e gs =>
    e :: (es ++ fs ++ gs)

theorem sizeOf_lt_of_mem_flattenOnce {items : List Js} (h : k ∈ flattenOnce items) : sizeOf k < sizeOf items := by
  obtain ⟨_, hj, hk⟩ := List.mem_flatMap.mp h
  have hj := List.sizeOf_lt_of_mem hj
  split at hk
  · have hk := List.sizeOf_lt_of_mem hk
    simp at hj
    omega
  · rwa [List.mem_singleton.mp hk]

theorem Js.sizeOf_lt_of_mem_parts (h : k ∈ j.parts) : sizeOf k < sizeOf j := by
  have hmem (js : List Js) (h : k ∈ js) : sizeOf k < sizeOf js := List.sizeOf_lt_of_mem h
  have hinner (js : List Js) (h : k ∈ flattenOnce js) : sizeOf k < sizeOf js := sizeOf_lt_of_mem_flattenOnce h
  cases j <;> grind [parts]

@[elab_as_elim]
theorem Js.parts_induction {P : Js → Prop} (step : ∀ j : Js, (∀ k ∈ j.parts, P k) → P j) (j : Js) : P j :=
  step j fun k _ => parts_induction step k
termination_by sizeOf j
decreasing_by exact sizeOf_lt_of_mem_parts ‹_›

/-! ### Nodes -/

mutual
@[simp]
def Js.nodes : Js → List Js
  | .bare _ => []
  | .text s => [.text s]
  | .name o id => .name o id :: id.nodes
  | .num o digits => [.num o digits]
  | .json o value => [.json o value]
  | .atom o a => [.atom o a]
  | .op o s => [.op o s]
  | .paren o e => .paren o e :: e.nodes
  | .assign o left right => .assign o left right :: (left.nodes ++ right.nodes)
  | .ifExp o test body orelse =>
    .ifExp o test body orelse :: (test.nodes ++ body.nodes ++ orelse.nodes)
  | .call o operator func args kwargs =>
    .call o operator func args kwargs :: (func.nodes ++ nodesAll args ++ kwargs.nodes)
  | .dot o obj field => .dot o obj field :: obj.nodes
  | .subscript o obj key => .subscript o obj key :: (obj.nodes ++ key.nodes)
  | .keySubscript o key => .keySubscript o key :: key.nodes
  | .binOp o left op right => .binOp o left op right :: (left.nodes ++ op.nodes ++ right.nodes)
  | .tests o conj ops lefts rights =>
    .tests o conj ops lefts rights :: (conj.nodes ++ nodesAll ops ++ nodesAll lefts ++ nodesAll rights)
  | .unaryOp o op right => .unaryOp o op right :: (op.nodes ++ right.nodes)
  | .tagged o value tag => .tagged o value tag :: tag.nodes
  | .template o value => [.template o value]
  | .literal o value => [.literal o value]
  | .dict o keys values => .dict o keys values :: (nodesAll keys ++ nodesAll values)
  | .list o elts => .list o elts :: nodesAll elts
  | .marked o m value => .marked o m value :: value.nodes
  | .statements o items => .statements o items :: nodesAll items
  | .exprStmt o value => .exprStmt o value :: value.nodes
  | .declare o d movable keys values => .declare o d movable keys values :: nodesAll values
  | .augAssign o target op value =>
    .augAssign o target op value :: (target.nodes ++ op.nodes ++ value.nodes)
  | .ret o value => .ret o value :: value.nodes
  | .jump o j => [.jump o j]
  | .command o c value => .command o c value :: value.nodes
  | .ifStmt o test body orelse =>
    .ifStmt o test body orelse :: (test.nodes ++ nodesAll body ++ nodesAll orelse)
  | .whileStmt o test body => .whileStmt o test body :: (test.nodes ++ nodesAll body)
  | .forStmt o left test right body =>
    .forStmt o left test right body :: (left.nodes ++ test.nodes ++ right.nodes ++ nodesAll body)
  | .forEach o each target source body =>
    .forEach o each target source body :: (target.nodes ++ source.nodes ++ nodesAll body)
  | .tryStmt o body target catchBody finallyBody =>
    .tryStmt o body target catchBody finallyBody ::
      (nodesAll body ++ target.nodes ++ nodesAll catchBody ++ nodesAll finallyBody)
  | .func o f name args body rest kwargs =>
    .func o f name args body rest kwargs :: (nodesAll args ++ nodesAll body ++ rest.nodes ++ nodesAll kwargs)
  | .classDef o name superclass members =>
    .classDef o name superclass members :: (name.nodes ++ superclass.nodes ++ nodesAll members)
  | .member o m static name args body rest kwargs =>
    .member o m static name args body rest kwargs :: (nodesAll args ++ nodesAll body ++ rest.nodes ++ nodesAll kwargs)
  | .importOf o i => [.importOf o i]
  | .exportNames o names => .exportNames o names :: nodesAll names
  | .exportDefault o value => .exportDefault o value :: value.nodes
  | .pass o => [.pass o]
  | .comment o value => [.comment o value]

def nodesAll : List Js → List Js
  | [] => []
  | j :: rest => j.nodes ++ nodesAll rest
end

attribute [simp] nodesAll

@[simp]
theorem nodesAll_append (js ks : List Js) : nodesAll (js ++ ks) = nodesAll js ++ nodesAll ks := by
  induction js with
  | nil => rfl
  | cons _ _ ih => simp [ih]

theorem mem_nodesAll {t : Js} : t ∈ nodesAll js ↔ ∃ j ∈ js, t ∈ j.nodes := by
  induction js with
  | nil => simp
  | cons _ _ ih => simp [ih]

theorem Js.self_mem_nodes (h : ∀ v, j ≠ .bare v) : j ∈ j.nodes := by
  cases j with
  | bare v => exact absurd rfl (h v)
  | _ => simp

/-! ### References to run-time functions -/

/-- Whether a tree is the object that holds the run-time functions, where nothing in the source stands
for it. -/
def Js.isRuntime : Js → Bool
  | .text s => s == "_pj"
  | .name o (.text s) => o.source.isNone && s == "_pj"
  | _ => false

@[simp]
theorem Js.isRuntime_text (s : String) : (Js.text s).isRuntime = (s == "_pj") :=
  rfl

@[simp]
theorem Js.isRuntime_name_text (o : Origin) (s : String) :
    (Js.name o (.text s)).isRuntime = (o.source.isNone && s == "_pj") :=
  rfl

@[simp]
theorem Js.isRuntime_name (o : Origin) (h : j.isRuntime = false) : (Js.name o j).isRuntime = false := by
  cases j with
  | text => simp_all
  | _ => rfl

@[simp]
theorem Js.isRuntime_of_ne (htext : ∀ s, j ≠ .text s) (hname : ∀ o id, j ≠ .name o id) : j.isRuntime = false := by
  cases j with
  | text s => exact absurd rfl (htext s)
  | name o id => exact absurd rfl (hname o id)
  | _ => rfl

mutual
/-- The names of the run-time functions that a tree refers to. A function of the source may be called
like the object that holds them; binding it is no reference. -/
@[simp]
def Js.refs : Js → List String
  | .bare _ | .text _ | .num _ _ | .json _ _ | .atom _ _ | .op _ _ | .template _ _ | .literal _ _
  | .jump _ _ | .importOf _ _ | .pass _ | .comment _ _ => []
  | .dot o obj field =>
    (if o.source.isNone && obj.isRuntime && field != "bind" then [field] else []) ++ obj.refs
  | .name _ e | .paren _ e | .keySubscript _ e | .tagged _ _ e | .marked _ _ e | .exprStmt _ e
  | .ret _ e | .command _ _ e | .exportDefault _ e => e.refs
  | .assign _ a b | .subscript _ a b | .unaryOp _ a b => a.refs ++ b.refs
  | .ifExp _ a b c | .binOp _ a b c | .augAssign _ a b c => a.refs ++ b.refs ++ c.refs
  | .call _ _ func args kwargs => func.refs ++ refsAll args ++ kwargs.refs
  | .tests _ conj ops lefts rights => conj.refs ++ refsAll ops ++ refsAll lefts ++ refsAll rights
  | .dict _ keys values => refsAll keys ++ refsAll values
  | .list _ js | .statements _ js | .declare _ _ _ _ js | .exportNames _ js => refsAll js
  | .ifStmt _ test body orelse => test.refs ++ refsAll body ++ refsAll orelse
  | .whileStmt _ test body => test.refs ++ refsAll body
  | .forStmt _ left test right body => left.refs ++ test.refs ++ right.refs ++ refsAll body
  | .forEach _ _ target source body => target.refs ++ source.refs ++ refsAll body
  | .tryStmt _ body target catchBody finallyBody =>
    refsAll body ++ target.refs ++ refsAll catchBody ++ refsAll finallyBody
  | .func _ _ _ args body rest kwargs | .member _ _ _ _ args body rest kwargs =>
    refsAll args ++ refsAll body ++ rest.refs ++ refsAll kwargs
  | .classDef _ name superclass members => name.refs ++ superclass.refs ++ refsAll members

def refsAll : List Js → List String
  | [] => []
  | j :: rest => j.refs ++ refsAll rest
end

attribute [simp] refsAll

@[simp]
theorem refsAll_append (js ks : List Js) : refsAll (js ++ ks) = refsAll js ++ refsAll ks := by
  induction js with
  | nil => rfl
  | cons _ _ ih => simp [ih]

theorem mem_refsAll {x : String} : x ∈ refsAll js ↔ ∃ j ∈ js, x ∈ j.refs := by
  induction js with
  | nil => simp
  | cons _ _ ih => simp [ih]

theorem refsAll_eq_nil (h : ∀ j ∈ js, j.refs = []) : refsAll js = [] := by
  rw [List.eq_nil_iff_forall_not_mem]
  intro _ hx
  obtain ⟨j, hj, hx⟩ := mem_refsAll.mp hx
  simp [h j hj] at hx

@[simp]
theorem Js.nodes_absent : Js.absent.nodes = [] := by
  simp [absent]

@[simp]
theorem Js.isRuntime_absent : Js.absent.isRuntime = false :=
  rfl

@[simp]
theorem Js.refs_absent : Js.absent.refs = [] := by
  simp [absent]

end Transpiler.Script

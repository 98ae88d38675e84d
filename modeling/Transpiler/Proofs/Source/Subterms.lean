import Transpiler.Source.Stmt

/-!
# The parts of expressions and statements

An expression occurs in another one if it is the other one or occurs in one of its parts (`Expr.Occurs`), and it
occurs in a statement if it occurs in one of the expressions or in one of the bodies of the statement
(`Expr.OccursIn`). Parts are smaller, and a condition that goes over from an expression to its parts goes over to
all that occurs in it (`Expr.Occurs.of_closed`).
-/

namespace Transpiler.Source

/-! ### Expressions and their parts -/

def Generator.exprs : Generator → List Expr
  | .mk target iter ifs => target :: iter :: ifs

def Expr.evaluated : Expr → List Expr
  | .absent | .name .. | .constant .. => []
  | .attr _ e _ | .unaryOp _ _ e | .await _ e | .yield _ e | .yieldFrom _ e | .starred _ e | .index e => [e]
  | .subscript _ a b | .binOp _ a _ b | .namedExpr _ a b | .formattedValue _ a _ b => [a, b]
  | .ifExp _ a b c | .slice _ a b c => [a, b, c]
  | .call _ func args keywords => func :: args ++ keywords.map Keyword.value
  | .compare _ left _ comparators => left :: comparators
  | .boolOp _ _ es | .list _ es | .tuple _ es | .set _ es | .joinedStr _ es | .extSlice es => es
  | .dict _ keys values => keys ++ values
  | .lambda _ _ kwDefaults defaults _ => kwDefaults ++ defaults
  | .listComp _ elt generators | .setComp _ elt generators | .generatorExp _ elt generators =>
    elt :: generators.flatMap Generator.exprs
  | .dictComp _ key value generators => key :: value :: generators.flatMap Generator.exprs

def Expr.deferred : Expr → List Expr
  | .lambda _ _ _ _ body => [body]
  | _ => []

/-- An expression is another one or occurs in it, in the bodies of lambdas too if `lambdas` says so. -/
inductive Expr.Occurs (lambdas : Bool) (x : Expr) : Expr → Prop
  | here : Occurs lambdas x x
  | evaluated {e part : Expr} (hpart : part ∈ e.evaluated) (h : Occurs lambdas x part) : Occurs lambdas x e
  | deferred {e part : Expr} (hlambdas : lambdas = true) (hpart : part ∈ e.deferred) (h : Occurs lambdas x part) :
      Occurs lambdas x e

theorem Keyword.sizeOf_value (k : Keyword) : sizeOf k.value < sizeOf k := by
  obtain ⟨_, _, _⟩ := k
  simp only [Keyword.value, Keyword.mk.sizeOf_spec]
  omega

theorem Generator.sizeOf_expr {g : Generator} {e : Expr} (h : e ∈ g.exprs) : sizeOf e < sizeOf g := by
  obtain ⟨_, _, _⟩ := g
  simp only [Generator.exprs, List.mem_cons] at h
  simp only [Generator.mk.sizeOf_spec]
  rcases h with rfl | rfl | h
  · omega
  · omega
  · have := List.sizeOf_lt_of_mem h
    omega

theorem sizeOf_evaluated {e part : Expr} (h : part ∈ e.evaluated ++ e.deferred) : sizeOf part < sizeOf e := by
  have hmem {es : List Expr} (h : part ∈ es) := List.sizeOf_lt_of_mem h
  have hclause {gs : List Generator} (h : part ∈ gs.flatMap Generator.exprs) : sizeOf part < sizeOf gs := by
    obtain ⟨_, hg, h⟩ := List.mem_flatMap.mp h
    have := List.sizeOf_lt_of_mem hg
    have := Generator.sizeOf_expr h
    omega
  have hkeyword {ks : List Keyword} (h : part ∈ ks.map Keyword.value) : sizeOf part < sizeOf ks := by
    obtain ⟨k, hk, rfl⟩ := List.mem_map.mp h
    have := List.sizeOf_lt_of_mem hk
    have := k.sizeOf_value
    omega
  cases e <;> simp only [Expr.evaluated, Expr.deferred, List.mem_append, List.mem_cons, List.not_mem_nil, or_false,
    List.append_nil, List.cons_append] at h <;> grind

section

variable {lambdas : Bool} {x y e : Expr}

theorem Expr.Occurs.trans (h : x.Occurs lambdas y) (h' : y.Occurs lambdas e) : x.Occurs lambdas e := by
  induction h' with
  | here => exact h
  | evaluated hpart _ ih => exact .evaluated hpart ih
  | deferred hlambdas hpart _ ih => exact .deferred hlambdas hpart ih

theorem Expr.Occurs.of_mem (h : x ∈ e.evaluated ++ e.deferred) : x.Occurs true e := by
  rcases List.mem_append.mp h with h | h
  · exact .evaluated h .here
  · exact .deferred rfl h .here

theorem Expr.Occurs.sizeOf_le (h : x.Occurs lambdas e) : sizeOf x ≤ sizeOf e := by
  induction h with
  | here => exact Nat.le_refl _
  | evaluated hpart _ ih => exact Nat.le_trans ih (Nat.le_of_lt (sizeOf_evaluated (List.mem_append_left _ hpart)))
  | deferred _ hpart _ ih => exact Nat.le_trans ih (Nat.le_of_lt (sizeOf_evaluated (List.mem_append_right _ hpart)))

theorem Expr.Occurs.of_closed {P : Expr → Prop} (hP : ∀ e, ∀ part ∈ e.evaluated ++ e.deferred, P e → P part)
    (h : x.Occurs lambdas e) (he : P e) : P x := by
  induction h with
  | here => exact he
  | evaluated hpart _ ih => exact ih (hP _ _ (List.mem_append_left _ hpart) he)
  | deferred _ hpart _ ih => exact ih (hP _ _ (List.mem_append_right _ hpart) he)

def Expr.Inside (x e : Expr) : Prop :=
  ∃ part ∈ e.evaluated ++ e.deferred, x.Occurs true part

theorem Expr.Inside.of_mem (h : x ∈ e.evaluated ++ e.deferred) : x.Inside e :=
  ⟨x, h, .here⟩

theorem Expr.Inside.occurs (h : x.Inside e) : x.Occurs true e := by
  obtain ⟨_, hpart, hx⟩ := h
  exact hx.trans (.of_mem hpart)

theorem Expr.Inside.sizeOf_lt (h : x.Inside e) : sizeOf x < sizeOf e := by
  obtain ⟨_, hpart, hx⟩ := h
  exact Nat.lt_of_le_of_lt hx.sizeOf_le (sizeOf_evaluated hpart)

end

/-! ### Statements and their parts -/

/-- The expressions of a statement that are compiled with it. Annotations and the keyword arguments of a class are
not, nor is anything of a statement without a rule. -/
def Stmt.operands : Stmt → List Expr
  | .functionDef _ _ _ ps _ decorators _ => ps.defaults ++ ps.kwDefaults ++ decorators
  | .classDef _ _ bases _ _ decorators => bases ++ decorators
  | .ret _ value | .expr _ value | .bare value => [value]
  | .delete _ targets => targets
  | .assign _ targets value => targets ++ [value]
  | .augAssign _ a _ b | .annAssign _ a _ b | .raise _ a b | .assertion _ a b | .forLoop _ _ a b _ _ => [a, b]
  | .whileLoop _ test _ _ | .ifElse _ test _ _ => [test]
  | .tryBlock _ _ _ handlers _ _ => handlers.map Handler.type
  | _ => []

def MatchCase.body : MatchCase → List Stmt
  | .mk _ _ _ body => body

def Stmt.blocks : Stmt → List (List Stmt)
  | .forLoop _ _ _ _ body orelse | .whileLoop _ _ body orelse | .ifElse _ _ body orelse => [body, orelse]
  | .withBlock _ _ _ body => [body]
  | .tryBlock _ _ body handlers orelse finalbody => body :: handlers.map Handler.body ++ [orelse, finalbody]
  | .matchBlock _ _ cases => cases.map MatchCase.body
  | _ => []

def Stmt.bodies : Stmt → List (List Stmt)
  | .functionDef _ _ _ _ body _ _ | .classDef _ _ _ _ body _ | .withBlock _ _ _ body => [body]
  | .forLoop _ _ _ _ body orelse | .whileLoop _ _ body orelse | .ifElse _ _ body orelse => [body, orelse]
  | .tryBlock _ _ body handlers orelse finalbody => body :: handlers.map Handler.body ++ [orelse, finalbody]
  | _ => []

def Stmt.undecorated : Stmt → Stmt
  | .functionDef p isAsync name params body _ returns => .functionDef p isAsync name params body [] returns
  | s => s

inductive Expr.OccursIn (x : Expr) : Stmt → Prop
  | operand {s : Stmt} {e : Expr} (he : e ∈ s.operands) (hx : x.Occurs true e) : OccursIn x s
  | body {s t : Stmt} {body : List Stmt} (hbody : body ∈ s.bodies) (ht : t ∈ body) (hx : OccursIn x t) :
      OccursIn x s

theorem Expr.OccursIn.of_mem {x : Expr} {s : Stmt} (h : x ∈ s.operands) : x.OccursIn s :=
  .operand h .here

theorem sizeOf_block {s : Stmt} {block : List Stmt} (h : block ∈ s.blocks) : sizeOf block < sizeOf s := by
  cases s <;> simp only [Stmt.blocks, List.not_mem_nil, List.mem_cons, or_false, List.cons_append,
    List.mem_append, List.mem_map] at h
  case tryBlock p star body handlers orelse finalbody =>
    rcases h with rfl | ⟨⟨_, _, _, _⟩, hh, rfl⟩ | rfl | rfl
    case inr.inl =>
      have := List.sizeOf_lt_of_mem hh
      simp only [Handler.body, Handler.mk.sizeOf_spec, Stmt.tryBlock.sizeOf_spec] at this ⊢
      omega
    all_goals
      simp only [Stmt.tryBlock.sizeOf_spec]
      omega
  case matchBlock p subject cases =>
    obtain ⟨⟨_, _, _, _⟩, hc, rfl⟩ := h
    have := List.sizeOf_lt_of_mem hc
    simp only [MatchCase.body, MatchCase.mk.sizeOf_spec, Stmt.matchBlock.sizeOf_spec] at this ⊢
    omega
  all_goals grind

theorem sizeOf_body {s : Stmt} {body : List Stmt} (h : body ∈ s.bodies) : sizeOf body < sizeOf s := by
  cases s with
  | functionDef | classDef => grind [Stmt.bodies]
  | forLoop | whileLoop | ifElse | withBlock | tryBlock => exact sizeOf_block h
  | _ => cases h

theorem Stmt.sizeOf_undecorated (s : Stmt) : sizeOf s.undecorated ≤ sizeOf s := by
  cases s with
  | functionDef _ _ _ _ _ ds =>
    have : 1 ≤ sizeOf ds := by cases ds <;> grind
    simp only [undecorated, functionDef.sizeOf_spec, List.nil.sizeOf_spec]
    omega
  | _ => exact Nat.le_refl _

end Transpiler.Source

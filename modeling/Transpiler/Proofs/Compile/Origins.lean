import Transpiler.Proofs.Compile.Subtasks
import Transpiler.Proofs.Script.Traced

/-!
# The origins of output

Every node of compiled output has the origin of some node of the source, or that of no node. `Grounds` says that
these origins satisfy a condition if the source does. For conditions on single nodes this is `Covers`; that the
nodes of the source satisfy one goes over to the parts of tasks (`hereditary_placed`). What is assigned to in place
has a text, which the output is named after (`yields_target`).
-/

namespace Transpiler.Compile

open Script (Item Js Origin)
open Source (Alias Expr Info Ref Stmt Tree)
open Source.Tree (allOf)

/-- The origins of output that is made for nodes which satisfy `φ` satisfy `Q`: that of no node, that
of an absent one, that of a node, and that of a definition below its last decorator. -/
structure Covers (cfg : Config) (φ : Info → Bool) (Q : Origin → Prop) : Prop where
  none : Q (cfg.origin none)
  absent : Q (cfg.origin (some Expr.absent.ref))
  node (i : Info) (cited : Bool) : φ i = true → Q (cfg.origin (some ⟨i.kind, i.pos, cited, i.pos.map (·.line)⟩))
  decorated (i : Info) (d : Expr) : φ i = true → allOf φ d.trees = true →
    Q (cfg.origin (some ⟨i.kind, i.pos, true, d.pos.map (·.line + 1)⟩))

variable {cfg : Config} {here : Place} {φ : Info → Bool} {Q : Origin → Prop}

theorem Covers.expr (hc : Covers cfg φ Q) {e : Expr} (h : allOf φ e.trees = true) : Q (cfg.origin (some e.ref)) := by
  by_cases he : e = .absent
  · rw [he]
    exact hc.absent
  · exact hc.node _ true (e.info_of_allOf h he)

theorem Covers.stmt (hc : Covers cfg φ Q) {s : Stmt} (hs : ∀ e, s ≠ .bare e) (h : allOf φ s.trees = true) :
    Q (cfg.origin (some s.ref)) := by
  obtain ⟨_, hinfo⟩ := s.info_of_allOf h hs
  unfold Stmt.ref
  split
  next d hlast =>
    refine hc.decorated _ d hinfo (Stmt.allOf_operand ?_ h)
    cases s <;> simp_all [Stmt.decorators, Stmt.operands, List.mem_of_getLast?]
  · exact hc.node _ true hinfo

theorem Covers.alias (hc : Covers cfg φ Q) {names : List Alias} (h : allOf φ (names.map Alias.tree) = true) :
    ∀ a ∈ names, Q (cfg.origin (some a.ref)) := by
  intro a ha
  have hinfo : a.tree.all φ = true := Tree.allOf_iff.mp h a.tree (List.mem_map_of_mem ha)
  simp only [Alias.tree, Tree.all_plain, Tree.allOf_nil, Bool.and_true] at hinfo
  exact hc.node ⟨"alias", a.pos, []⟩ false hinfo

/-! ### Tasks -/

theorem hereditary_placed (φ : Info → Bool) : Hereditary (fun e => allOf φ e.trees = true)
    (fun s => allOf φ s.trees = true ∧ s.isProper = true) fun _ => True where
  part _ _ hx := Expr.allOf_part hx
  absent := rfl
  operand _ _ he hs := Stmt.allOf_operand he hs.1
  body _ _ hbody hs t ht := ⟨Source.allOf_stmtTrees.mp (Stmt.allOf_body hbody hs.1) t ht,
    Source.areProper_iff.mp (Stmt.areProper_body hbody hs.2) t ht⟩
  undecorated s hs := by cases s <;> simp_all [Stmt.undecorated, Stmt.trees, Stmt.isProper, Source.exprTrees]
  draw := trivial
  use _ := trivial
  act _ _ _ _ _ := trivial

/-- The origins of output satisfy `Q` if it is made for expressions in `E` and statements in `S`. These are statements
of the grammar, and their parts belong to them. -/
structure Grounds (cfg : Config) (E : Expr → Prop) (S : Stmt → Prop) (Q : Origin → Prop) : Prop where
  none : Q (cfg.origin none)
  expr (e : Expr) : E e → Q (cfg.origin (some e.ref))
  stmt (s : Stmt) : S s → Q (cfg.origin (some s.ref))
  imported (p : Source.At) (module : Option String) (names : List Alias) (level : Option Int) :
    S (.importFrom p module names level) → ∀ a ∈ names, Q (cfg.origin (some a.ref))
  proper (s : Stmt) : S s → s.isProper = true
  hereditary : Hereditary E S fun _ => True

theorem Covers.grounds (hc : Covers cfg φ Q) : Grounds cfg (fun e => allOf φ e.trees = true)
    (fun s => allOf φ s.trees = true ∧ s.isProper = true) Q where
  none := hc.none
  expr _ he := hc.expr he
  stmt s hs := by
    refine hc.stmt ?_ hs.1
    rintro _ rfl
    simp [Stmt.isProper] at hs
  imported p module names level hs := by
    refine hc.alias ?_
    simp only [Stmt.trees, Tree.allOf_cons, Tree.all_plain, Bool.and_eq_true] at hs
    exact hs.1.1.2
  proper _ hs := hs.2
  hereditary := hereditary_placed φ

/-! ### What is assigned to in place -/

theorem map_isUpper_normalizeChars (cs : List Char) :
    (normalizeChars cs).head?.map Char.isUpper = cs.head?.map Char.isUpper := by
  unfold normalizeChars
  split_ifs with hd hdd hlast
  · obtain ⟨_, rfl⟩ := List.isPrefixOf_iff_prefix.mp hd
    simp [replaceChars]
  · obtain ⟨_, rfl⟩ := List.isPrefixOf_iff_prefix.mp hdd
    simp [replaceChars]
  · -- A name of one letter does not both start and not start with an underscore.
    rcases cs with _ | ⟨_, _ | ⟨_, _⟩⟩
    · rfl
    · simp at hlast
    · rfl
  · rfl

theorem normalizeName_ne_empty {s : String} (h : s ≠ "") : normalizeName s ≠ "" := by
  intro hempty
  have hnil : normalizeChars s.toList = [] := by simpa [normalizeName] using congrArg String.toList hempty
  have hhead := map_isUpper_normalizeChars s.toList
  exact h (by simpa [hnil] using hhead.symm)

theorem yields_target {target : Expr} (h : target.isTarget = true) :
    Yields (compileExpr cfg here target) fun j => Item.joinAll j.items ≠ "" := by
  have hdot (o : Origin) (obj : Js) (field : String) : Item.joinAll (Js.dot o obj field).items ≠ "" := by
    rw [Js.items]
    exact Script.Origin.joinAll_part_ne_empty .own (s := ".") (by simp) (by decide)
  have hsubscript (o : Origin) (obj key : Js) : Item.joinAll (Js.subscript o obj key).items ≠ "" := by
    rw [Js.items]
    exact Script.Origin.joinAll_part_ne_empty .none (s := "[") (by simp) (by decide)
  have hcall (o : Origin) (func : Js) (args : List Js) : Item.joinAll (plainCall o func args).items ≠ "" := by
    rw [plainCall, Js.items]
    exact Script.Origin.joinAll_part_ne_empty .none (s := "(") (by simp) (by decide)
  unfold Expr.isTarget at h
  split at h
  · rw [compileExpr]
    refine .pure ?_
    unfold nameNode
    split_ifs
    iterate 4 exact Script.Origin.joinAll_part_ne_empty .none (List.mem_singleton_self _) (by decide)
    simpa using normalizeName_ne_empty (by simpa using h)
  next p value field =>
    rw [compileExpr]
    unfold attrRule
    dsimp only
    have hplain : Yields (do
        return Js.dot (cfg.origin (some (Expr.attr p value field).ref)) (← compileExpr cfg here value)
          (normalizeName field)) fun j => Item.joinAll j.items ≠ "" :=
      .andThen _ fun _ => .pure (hdot _ _ _)
    split
    · split
      · exact .andThen _ fun _ => .pure (hdot _ _ _)
      · split
        · exact .andThen _ fun _ => .pure (hdot _ _ _)
        · exact hplain
      · exact hplain
    · exact hplain
  · rw [compileExpr]
    unfold subscriptRule
    dsimp only
    split
    · exact .andThen _ fun _ => .andThen _ fun _ => .andThen _ fun _ => .andThen _ fun _ =>
        .pure (hcall _ _ _)
    · refine .andThen _ fun _ => ?_
      split
      · refine .andThen _ fun _ => .andThen _ fun _ => ?_
        split
        · exact .pure (hsubscript _ _ _)
        · exact .pure (hsubscript _ _ _)
      · exact .throw _
  · cases h

end Transpiler.Compile

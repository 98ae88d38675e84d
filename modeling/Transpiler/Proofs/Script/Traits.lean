import Transpiler.Script.Check

/-!
# What a tree writes

The identifiers of a tree and the features of the newer dialect that it uses (`Js.traits`). A
template holds text, and an expression in it is written there at once; what is written in that way
counts as well (`Writes`).
-/

namespace Transpiler.Script

open Source (Ref)

inductive Feature where
  | arrow | generator | classNode | member | template | module | forOf | spread | default
  | destructured | computedKey | pattern
  deriving Inhabited, Repr, DecidableEq

inductive Trait where
  /-- An identifier, with the source of the node that it is the name of. -/
  | name (node : Option Ref) (id : String)
  | feature (f : Feature)
  | template (text : String)
  deriving Inhabited, Repr, DecidableEq

def Import.locals : Import → List String
  | .depend _ => []
  | .named _ names => names.map fun n =>
    match n.2 with
    | some other => if other == "" then n.1 else other
    | none => n.1
  | .star _ name | .default _ name => [name]

def Js.isList : Js → Bool
  | .list .. => true
  | _ => false

def Js.isText : Js → Bool
  | .text _ => true
  | _ => false

def Js.isAssign : Js → Bool
  | .assign .. => true
  | _ => false

def featureIf (cond : Bool) (f : Feature) : List Trait :=
  if cond then [.feature f] else []

def parameterTraits (args kwargs : List Js) : List Trait :=
  featureIf (args.any Js.isAssign) .default ++ featureIf (!kwargs.isEmpty) .destructured

mutual
/-- The identifiers and the features of a tree. The fields of objects, their keys and the members of
classes are not variables and do not count. -/
@[simp]
def Js.traits : Js → List Trait
  | .bare _ | .num _ _ | .json _ _ | .atom _ _ | .op _ _ | .literal _ _ | .jump _ _ | .pass _
  | .comment _ _ => []
  | .text s => [.name none s]
  | .name o (.text s) => [.name o.source s]
  | .name _ id => id.traits
  | .paren _ e | .dot _ e _ | .exprStmt _ e | .ret _ e | .command _ _ e => e.traits
  | .assign _ left right => featureIf left.isList .pattern ++ left.traits ++ right.traits
  | .ifExp _ test body orelse => test.traits ++ body.traits ++ orelse.traits
  | .call _ _ func args kwargs => func.traits ++ traitsAll args ++ kwargs.traits
  | .subscript _ obj key => obj.traits ++ key.traits
  | .keySubscript _ key => .feature .computedKey :: key.traits
  | .binOp _ left op right => left.traits ++ op.traits ++ right.traits
  | .tests _ conj ops lefts rights =>
    conj.traits ++ traitsAll ops ++ traitsAll lefts ++ traitsAll rights
  | .unaryOp _ op right => op.traits ++ right.traits
  | .tagged _ value tag => .feature .template :: .template value :: tag.traits
  | .template _ value => [.feature .template, .template value]
  | .dict _ keys values => traitsAll keys ++ traitsAll values
  | .list _ elts => traitsAll elts
  | .marked _ m value => featureIf (m == .rest) .spread ++ value.traits
  | .statements _ items => traitsAll items
  | .declare _ _ _ keys values => keys.map (.name none) ++ traitsAll values
  | .augAssign _ target op value => target.traits ++ op.traits ++ value.traits
  | .ifStmt _ test body orelse => test.traits ++ traitsAll body ++ traitsAll orelse
  | .whileStmt _ test body => test.traits ++ traitsAll body
  | .forStmt _ left test right body => left.traits ++ test.traits ++ right.traits ++ traitsAll body
  | .forEach _ each target source body =>
    featureIf (each == .elements) .forOf ++ target.traits ++ source.traits ++ traitsAll body
  | .tryStmt _ body target catchBody finallyBody =>
    traitsAll body ++ target.traits ++ traitsAll catchBody ++ traitsAll finallyBody
  | .func o f name args body rest kwargs =>
    featureIf (f == .arrow) .arrow ++ featureIf (f == .generator) .generator ++
      parameterTraits args kwargs ++ name.toList.map (.name o.source) ++ traitsAll args ++
      traitsAll body ++ rest.traits ++ traitsAll kwargs
  | .classDef _ name superclass members =>
    .feature .classNode :: (name.traits ++ superclass.traits ++ traitsAll members)
  | .member _ m _ _ args body rest kwargs =>
    .feature .member :: (featureIf (m == .generator) .generator ++ parameterTraits args kwargs ++
      traitsAll args ++ traitsAll body ++ rest.traits ++ traitsAll kwargs)
  | .importOf _ i => .feature .module :: i.locals.map (.name none)
  | .exportNames _ names => .feature .module :: traitsAll names
  | .exportDefault _ value => .feature .module :: value.traits

def traitsAll : List Js → List Trait
  | [] => []
  | j :: rest => j.traits ++ traitsAll rest
end

theorem Js.traits_name (o : Origin) {id : Js} (h : id.isText = false) : (Js.name o id).traits = id.traits := by
  cases id with
  | text => cases h
  | _ => rfl

attribute [simp] traitsAll

@[simp]
theorem traitsAll_append (js ks : List Js) : traitsAll (js ++ ks) = traitsAll js ++ traitsAll ks := by
  induction js with
  | nil => rfl
  | cons _ _ ih => simp [ih]

theorem traitsAll_map_eq_nil {α : Type} {f : α → Js} (h : ∀ a, (f a).traits = []) (as : List α) :
    traitsAll (as.map f) = [] := by
  induction as with
  | nil => rfl
  | cons _ _ ih => simp [h, ih]

def Quotes (text s : String) : Prop :=
  ∃ before after, text = before ++ ("$\x7b" ++ s ++ "\x7d") ++ after

/-- A trait is among some traits, or it is one of a tree that is written in the text of a template
among them. -/
inductive Writes : List Trait → Trait → Prop
  | direct {ts : List Trait} {t : Trait} (h : t ∈ ts) : Writes ts t
  | quoted {ts : List Trait} {t : Trait} {text s : String} {j : Js} (htext : .template text ∈ ts)
      (hj : j.render? = .ok s) (hs : Quotes text s) (ht : Writes j.traits t) : Writes ts t

theorem Writes.mono {ts us : List Trait} {t : Trait} (h : Writes ts t) (hsub : ts ⊆ us) : Writes us t := by
  cases h with
  | direct h => exact .direct (hsub h)
  | quoted htext hj hs ht => exact .quoted (hsub htext) hj hs ht

theorem Writes.mem {ts : List Trait} {t : Trait} (h : Writes ts t)
    (htemplate : ∀ text, .template text ∉ ts) : t ∈ ts := by
  cases h with
  | direct h => exact h
  | quoted htext => exact absurd htext (htemplate _)

end Transpiler.Script

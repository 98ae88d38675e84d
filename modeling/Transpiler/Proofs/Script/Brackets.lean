import Transpiler.Script.Tree

/-!
# Brackets

Which brackets are open after a text (`scan`). Strings, templates, comments, verbatim text and the
names of imports and exports may hold any brackets; `Js.masked` blots these out and leaves everything
else of a tree as it is. What is then left to say of the words of a tree is that each is neutral
(`Js.Clean`).
-/

namespace Transpiler.Script

/-! ## Scanning -/

def isOpening (c : Char) : Bool :=
  c == '(' || c == '[' || c == '\x7b'

def isClosing (c : Char) : Bool :=
  c == ')' || c == ']' || c == '\x7d'

def partner : Char → Char
  | ')' => '('
  | ']' => '['
  | _ => '\x7b'

/-- The brackets that are open after some characters, innermost first; none if a bracket is closed that
is not the innermost one. -/
def scan : List Char → List Char → Option (List Char)
  | opened, [] => some opened
  | opened, c :: rest =>
    if isOpening c then scan (c :: opened) rest
    else if isClosing c then
      match opened with
      | [] => none
      | o :: outer => if o = partner c then scan outer rest else none
    else scan opened rest

def Neutral (s : String) : Prop :=
  scan [] s.toList = some []

instance (s : String) : Decidable (Neutral s) :=
  inferInstanceAs (Decidable (_ = _))

theorem scan_append (opened first second : List Char) :
    scan opened (first ++ second) = (scan opened first).bind fun o => scan o second := by
  induction first generalizing opened with
  | nil => simp [scan]
  | cons _ _ ih =>
    simp only [List.cons_append, scan]
    split
    · exact ih _
    · split
      · split
        · rfl
        · split
          · exact ih _
          · rfl
      · exact ih _

theorem scan_outer {opened opened' cs : List Char} (h : scan opened cs = some opened')
    (outer : List Char) : scan (opened ++ outer) cs = some (opened' ++ outer) := by
  induction cs generalizing opened with
  | nil =>
    obtain rfl : opened = opened' := by simpa [scan] using h
    rfl
  | cons _ _ ih =>
    simp only [scan] at h ⊢
    split at h
    next hopen =>
      rw [if_pos hopen]
      exact ih h
    next hopen =>
      rw [if_neg hopen]
      split at h
      next hclose =>
        rw [if_pos hclose]
        split at h
        · cases h
        next o inner =>
          split at h
          next ho =>
            rw [List.cons_append]
            simp only [if_pos ho]
            exact ih h
          · cases h
      next hclose =>
        rw [if_neg hclose]
        exact ih h

theorem Neutral.scan {s : String} (h : Neutral s) (opened : List Char) : scan opened s.toList = some opened := by
  simpa using scan_outer h opened

@[simp]
theorem neutral_empty : Neutral "" :=
  rfl

theorem Neutral.append {s t : String} (hs : Neutral s) (ht : Neutral t) : Neutral (s ++ t) := by
  rw [Neutral, String.toList_append, scan_append, hs.scan]
  exact ht.scan []

/-! ## Words without brackets -/

def isBracket (c : Char) : Bool :=
  isOpening c || isClosing c

def bracketFree (s : String) : Bool :=
  s.toList.all fun c => !isBracket c

theorem scan_of_bracketFree {cs : List Char} (h : ∀ c ∈ cs, isBracket c = false) (opened : List Char) :
    scan opened cs = some opened := by
  induction cs with
  | nil => rfl
  | cons c _ ih =>
    obtain ⟨hc, hrest⟩ := List.forall_mem_cons.mp h
    obtain ⟨hopen, hclose⟩ : isOpening c = false ∧ isClosing c = false := by
      simpa [isBracket] using hc
    simpa [scan, hopen, hclose] using ih hrest

theorem neutral_of_bracketFree {s : String} (h : bracketFree s = true) : Neutral s :=
  scan_of_bracketFree (by simpa [bracketFree] using h) []

def hideChar (c : Char) : Char :=
  if isBracket c then '_' else c

def hide (s : String) : String :=
  String.ofList (s.toList.map hideChar)

@[simp]
theorem isBracket_hideChar (c : Char) : isBracket (hideChar c) = false := by
  rw [hideChar]
  split
  · decide
  next hc => simpa using hc

@[simp]
theorem bracketFree_hide (s : String) : bracketFree (hide s) = true := by
  simp [bracketFree, hide]

@[simp]
theorem neutral_hide (s : String) : Neutral (hide s) :=
  neutral_of_bracketFree (bracketFree_hide s)

/-! ## Trees without the brackets of verbatim text -/

/-- An import with the brackets in the path of the module blotted out, and in the name it is bound to as
a whole. -/
def Import.masked : Import → Import
  | .depend module => .depend (hide module)
  | .named module names => .named (hide module) names
  | .star module name => .star (hide module) (hide name)
  | .default module name => .default (hide module) (hide name)

def maskedName : Js → Js
  | .text s => .text (hide s)
  | j => j

mutual
@[simp]
def Js.masked : Js → Js
  | .bare v => .bare v
  | .text s => .text s
  | .name o id => .name o id.masked
  | .num o digits => .num o digits
  | .json o (.str s) => .json o (.str (hide s))
  | .json o value => .json o value
  | .atom o a => .atom o a
  | .op o s => .op o s
  | .paren o e => .paren o e.masked
  | .assign o left right => .assign o left.masked right.masked
  | .ifExp o test body orelse => .ifExp o test.masked body.masked orelse.masked
  | .call o operator func args kwargs =>
    .call o operator func.masked (maskedAll args) kwargs.masked
  | .dot o obj field => .dot o obj.masked field
  | .subscript o obj key => .subscript o obj.masked key.masked
  | .keySubscript o key => .keySubscript o key.masked
  | .binOp o left op right => .binOp o left.masked op.masked right.masked
  | .tests o conj ops lefts rights =>
    .tests o conj.masked (maskedAll ops) (maskedAll lefts) (maskedAll rights)
  | .unaryOp o op right => .unaryOp o op.masked right.masked
  | .tagged o value tag => .tagged o (hide value) tag.masked
  | .template o value => .template o (hide value)
  | .literal o value => .literal o (hide value)
  | .dict o keys values => .dict o (maskedAll keys) (maskedAll values)
  | .list o elts => .list o (maskedAll elts)
  | .marked o m value => .marked o m value.masked
  | .statements o items => .statements o (maskedAll items)
  | .exprStmt o value => .exprStmt o value.masked
  | .declare o d movable keys values => .declare o d movable keys (maskedAll values)
  | .augAssign o target op value => .augAssign o target.masked op.masked value.masked
  | .ret o value => .ret o value.masked
  | .jump o j => .jump o j
  | .command o c value => .command o c value.masked
  | .ifStmt o test body orelse => .ifStmt o test.masked (maskedAll body) (maskedAll orelse)
  | .whileStmt o test body => .whileStmt o test.masked (maskedAll body)
  | .forStmt o left test right body =>
    .forStmt o left.masked test.masked right.masked (maskedAll body)
  | .forEach o each target source body =>
    .forEach o each target.masked source.masked (maskedAll body)
  | .tryStmt o body target catchBody finallyBody =>
    .tryStmt o (maskedAll body) target.masked (maskedAll catchBody) (maskedAll finallyBody)
  | .func o f name args body rest kwargs =>
    .func o f name (maskedAll args) (maskedAll body) rest.masked (maskedAll kwargs)
  | .classDef o name superclass members =>
    .classDef o name.masked superclass.masked (maskedAll members)
  | .member o m static name args body rest kwargs =>
    .member o m static name (maskedAll args) (maskedAll body) rest.masked (maskedAll kwargs)
  | .importOf o i => .importOf o i.masked
  | .exportNames o names => .exportNames o (names.map maskedName)
  | .exportDefault o (.text s) => .exportDefault o (.text (hide s))
  | .exportDefault o value => .exportDefault o value.masked
  | .pass o => .pass o
  | .comment o value => .comment o (hide value)

def maskedAll : List Js → List Js
  | [] => []
  | j :: rest => j.masked :: maskedAll rest
end

@[simp]
theorem maskedAll_eq_map (js : List Js) : maskedAll js = js.map Js.masked := by
  induction js with
  | nil => rfl
  | cons _ _ ih => simp [maskedAll, ih]

/-! ## Trees whose words are neutral -/

def Import.Clean : Import → Prop
  | .depend module => bracketFree module = true
  | .named module names =>
    bracketFree module = true ∧ ∀ n ∈ names, bracketFree n.1 = true ∧ ∀ s ∈ n.2, bracketFree s = true
  | .star module name | .default module name => bracketFree module = true ∧ bracketFree name = true

/-- Whether a tree may stand on lines of its own. An arrow function without a name may not: its last
line is open at the end. -/
def Js.standsAlone : Js → Bool
  | .func _ .arrow given _ _ _ _ => given.getD "" != ""
  | _ => true

@[simp]
theorem Js.standsAlone_named (o : Origin) (f : Func) {name : String} (args body : List Js) (rest : Js)
    (kwargs : List Js) (h : name ≠ "") :
    (Js.func o f (some name) args body rest kwargs).standsAlone = true := by
  cases f with
  | arrow => simpa [standsAlone] using h
  | _ => rfl

@[simp]
theorem Js.standsAlone_of_ne {j : Js} (h : ∀ o f name args body rest kwargs, j ≠ .func o f name args body rest kwargs) :
    j.standsAlone = true := by
  cases j with
  | func o f name args body rest kwargs => exact absurd rfl (h o f name args body rest kwargs)
  | _ => rfl

mutual
/-- All words of a tree are neutral, verbatim text holds no bracket, and all statements may stand on lines
of their own. -/
@[simp]
def Js.Clean : Js → Prop
  | .bare _ | .atom _ _ | .op _ _ | .jump _ _ | .pass _ => True
  | .text s => Neutral s
  | .num _ digits => Neutral digits
  | .json _ value => ∃ s, value = .str s ∧ bracketFree s = true
  | .template _ value | .literal _ value | .comment _ value => bracketFree value = true
  | .name _ e | .paren _ e | .keySubscript _ e | .marked _ _ e | .exprStmt _ e | .ret _ e
  | .command _ _ e | .exportDefault _ e => e.Clean
  | .assign _ a b | .subscript _ a b | .unaryOp _ a b => a.Clean ∧ b.Clean
  | .ifExp _ a b c | .binOp _ a b c | .augAssign _ a b c => a.Clean ∧ b.Clean ∧ c.Clean
  | .call _ operator func args kwargs =>
    Neutral operator ∧ func.Clean ∧ AllClean args ∧ kwargs.Clean
  | .dot _ obj field => obj.Clean ∧ Neutral field
  | .tests _ conj ops lefts rights => conj.Clean ∧ AllClean ops ∧ AllClean lefts ∧ AllClean rights
  | .tagged _ value tag => bracketFree value = true ∧ tag.Clean
  | .dict _ keys values => AllClean keys ∧ AllClean values
  | .list _ js | .exportNames _ js => AllClean js
  | .statements _ items => BlockClean items
  | .declare _ _ _ keys values => (∀ k ∈ keys, Neutral k) ∧ AllClean values
  | .ifStmt _ test body orelse => test.Clean ∧ BlockClean body ∧ BlockClean orelse
  | .whileStmt _ test body => test.Clean ∧ BlockClean body
  | .forStmt _ left test right body => left.Clean ∧ test.Clean ∧ right.Clean ∧ BlockClean body
  | .forEach _ _ target source body => target.Clean ∧ source.Clean ∧ BlockClean body
  | .tryStmt _ body target catchBody finallyBody =>
    BlockClean body ∧ target.Clean ∧ BlockClean catchBody ∧ BlockClean finallyBody
  | .func _ _ name args body rest kwargs =>
    Neutral (name.getD "") ∧ AllClean args ∧ BlockClean body ∧ rest.Clean ∧ AllClean kwargs
  | .classDef _ name superclass members => name.Clean ∧ superclass.Clean ∧ BlockClean members
  | .member _ _ _ name args body rest kwargs =>
    Neutral name ∧ AllClean args ∧ BlockClean body ∧ rest.Clean ∧ AllClean kwargs
  | .importOf _ i => i.Clean

def AllClean : List Js → Prop
  | [] => True
  | j :: rest => j.Clean ∧ AllClean rest

def BlockClean : List Js → Prop
  | [] => True
  | j :: rest => j.Clean ∧ j.standsAlone = true ∧ BlockClean rest
end

@[simp]
theorem allClean_iff {js : List Js} : AllClean js ↔ ∀ j ∈ js, j.Clean := by
  induction js with
  | nil => simp [AllClean]
  | cons _ _ ih => simp [AllClean, ih]

@[simp]
theorem blockClean_iff {js : List Js} : BlockClean js ↔ ∀ j ∈ js, j.Clean ∧ j.standsAlone = true := by
  induction js with
  | nil => simp [BlockClean]
  | cons _ _ ih => simp [BlockClean, ih, and_assoc]

@[simp]
theorem Js.standsAlone_masked (j : Js) : j.masked.standsAlone = j.standsAlone := by
  cases j with
  | json _ value => cases value <;> rfl
  | exportDefault _ value => cases value <;> rfl
  | func _ f => cases f <;> rfl
  | _ => rfl

@[simp]
theorem Js.masked_absent : Js.absent.masked = .absent := by
  simp [absent]

@[simp]
theorem Js.clean_absent : Js.absent.Clean := by
  simp [absent]

end Transpiler.Script

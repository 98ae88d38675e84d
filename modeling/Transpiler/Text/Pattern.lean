/-!
# Patterns

Searching texts with simple patterns: a row of character classes, each taken once or several times,
which may be tied to the start or the end of the text. A pattern is written with `.` for any
character but a line feed, `[…]` for a class, a backslash before a character that stands for itself,
`+` after what may repeat, and `^` and `$` at its ends.
-/

namespace Transpiler.Text

structure PatternStep where
  accepts : Char → Bool
  repeats : Bool

structure Pattern where
  fromStart : Bool
  steps : List PatternStep
  toEnd : Bool

namespace Pattern

/-- The members of a class up to its closing bracket, as ranges, and what follows it. -/
def readClass : List Char → Option (List (Char × Char) × List Char)
  | [] => none
  | ']' :: rest => some ([], rest)
  | a :: '-' :: b :: rest => (readClass rest).map fun (cs, r) => ((a, b) :: cs, r)
  | a :: rest => (readClass rest).map fun (cs, r) => ((a, a) :: cs, r)

def inRanges (ranges : List (Char × Char)) (c : Char) : Bool :=
  ranges.any fun (a, b) => a ≤ c && c ≤ b

def readOne : List Char → Option ((Char → Bool) × List Char)
  | [] => none
  | '.' :: rest => some ((· != '\n'), rest)
  | '[' :: '^' :: rest => (readClass rest).map fun (rs, r) => ((!inRanges rs ·), r)
  | '[' :: rest => (readClass rest).map fun (rs, r) => (inRanges rs, r)
  | '\\' :: c :: rest => some ((· == c), rest)
  | c :: rest => some ((· == c), rest)

/-- The classes of a written pattern, and whether it ends with `$`; `fuel` bounds their number. -/
def readSteps : Nat → List Char → Option (List PatternStep × Bool)
  | 0, _ => none
  | _, [] => some ([], false)
  | _, ['$'] => some ([], true)
  | fuel + 1, cs => do
    let (accepts, rest) ← readOne cs
    match rest with
    | '+' :: rest =>
      let (steps, toEnd) ← readSteps fuel rest
      return (⟨accepts, true⟩ :: steps, toEnd)
    | rest =>
      let (steps, toEnd) ← readSteps fuel rest
      return (⟨accepts, false⟩ :: steps, toEnd)

def parse? (s : String) : Option Pattern :=
  let read (fromStart : Bool) (cs : List Char) : Option Pattern :=
    (readSteps (cs.length + 1) cs).map fun (steps, toEnd) => ⟨fromStart, steps, toEnd⟩
  match s.toList with
  | '^' :: rest => read true rest
  | cs => read false cs

def atEnd : List Char → Bool
  | [] | ['\n'] => true
  | _ => false

/-- Whether some steps accept the start of a text; `inRun` says that the first of them has taken a
character already. -/
def acceptsFrom (toEnd : Bool) : List PatternStep → Bool → List Char → Bool
  | [], _, cs => !toEnd || atEnd cs
  | _ :: steps, inRun, [] => inRun && acceptsFrom toEnd steps false []
  | step :: steps, inRun, c :: cs =>
    (step.accepts c && (if step.repeats then acceptsFrom toEnd (step :: steps) true cs
        else acceptsFrom toEnd steps false cs)) ||
    (inRun && acceptsFrom toEnd steps false (c :: cs))
termination_by steps _ cs => (steps.length + cs.length, steps.length)

def searchFrom (p : Pattern) : List Char → Bool
  | [] => acceptsFrom p.toEnd p.steps false []
  | c :: cs => acceptsFrom p.toEnd p.steps false (c :: cs) || (!p.fromStart && searchFrom p cs)

def search (p : Pattern) (s : String) : Bool :=
  p.searchFrom s.toList

def select (p : Pattern) (invert : Bool) (texts : List String) : List String :=
  texts.filter fun s => p.search s != invert

end Pattern

end Transpiler.Text

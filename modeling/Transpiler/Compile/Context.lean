import Transpiler.Fault
import Transpiler.Source.Names

/-!
# Contexts

What a rule can look up about the statements around it. A context is a chain of frames, one for
each statement that is being compiled; a look-up goes from the innermost frame outwards, and a new
entry goes to the innermost frame, so it is forgotten when the statement is done.
-/

namespace Transpiler.Compile

inductive Entry where
  | number (n : Int)
  | name (s : String)
  | names (ns : List String)
  deriving Inhabited, Repr, DecidableEq

abbrev Frame := List (String × Entry)

/-- A chain of frames; there is always an innermost one. -/
structure Context where
  inner : Frame
  outer : List Frame
  deriving Inhabited, Repr, DecidableEq

def Frame.get? (key : String) (f : Frame) : Option Entry :=
  (f.find? (·.1 == key)).map (·.2)

def Frame.set (key : String) (v : Entry) : Frame → Frame
  | [] => [(key, v)]
  | (k, w) :: rest => if k = key then (k, v) :: rest else (k, w) :: Frame.set key v rest

namespace Context

def empty : Context := ⟨[], []⟩

def depth (c : Context) : Nat :=
  c.outer.length + 1

def push (f : Frame) (c : Context) : Context :=
  ⟨f, c.inner :: c.outer⟩

/-- The context without its innermost frame; the last frame is replaced by an empty one. -/
def pop (c : Context) : Context :=
  match c.outer with
  | [] => empty
  | f :: rest => ⟨f, rest⟩

def get? (key : String) (c : Context) : Option Entry :=
  (c.inner :: c.outer).findSome? (Frame.get? key)

def set (key : String) (v : Entry) (c : Context) : Context :=
  { c with inner := Frame.set key v c.inner }

def visible (c : Context) : Frame :=
  (c.inner :: c.outer).foldr (fun f seen => f.foldl (fun acc (k, v) => Frame.set k v acc) seen) []

/-! ### Keys -/

def nameKey : String := "gen_name_ix"

def varsKey : String := "vars"

def exceptionKey : String := "ename"

def vars (c : Context) : List String :=
  match c.get? varsKey with
  | some (.names ns) => ns
  | _ => []

def exception? (c : Context) : Option String :=
  match c.get? exceptionKey with
  | some (.name s) => if s == "" then none else some s
  | _ => none

/-! ### Generated names -/

def letters : List Char :=
  "abcdefghijklmnopqrstuvwxyzABCDEFGHIJKLMNOPQRSTUVWXYZ".toList

def letter? (ix : Int) : Option Char :=
  let ix := if ix < 0 then ix + letters.length else ix
  if ix < 0 then none else letters[ix.toNat]?

def lastNumber : Option Entry → Int
  | some (.number n) => n
  | _ => -1

def newName (c : Context) : Except Fault String × Context :=
  match c.get? nameKey with
  | some (.name _) | some (.names _) =>
    (.error (.wrongType "can only concatenate str (not \"int\") to str"), c)
  | found =>
    let ix := lastNumber found + 1
    let c := c.set nameKey (.number ix)
    if ix > letters.length then (.error .namesExhausted, c)
    else match letter? ix with
      | some l => (.ok ("_pj_" ++ String.singleton l), c)
      | none => (.error .outOfRange, c)

end Context

end Transpiler.Compile

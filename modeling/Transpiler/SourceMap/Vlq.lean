import Transpiler.Fault
import Transpiler.Text.Base64

/-!
# Variable-length quantities

An integer as base 64 digits, the least significant first. A digit carries five bits and, in its
sixth, whether another digit follows; the lowest bit of the whole is the sign.
-/

namespace Transpiler.SourceMap.Vlq

open Text (Base64.digit Base64.value?)

/-- The bits of an integer: its amount doubled, and one more if it is negative. -/
def zigzag (n : Int) : Nat :=
  if n < 0 then 2 * n.natAbs + 1 else 2 * n.natAbs

def unzigzag (bits : Nat) : Int :=
  if bits % 2 = 1 then -((bits / 2 : Nat) : Int) else (bits / 2 : Nat)

/-- The digits of some bits, of which there are at most five times `fuel + 1`. -/
def digits : Nat → Nat → List Nat
  | 0, bits => [bits % 32]
  | fuel + 1, bits => if bits < 32 then [bits] else (bits % 32 + 32) :: digits fuel (bits / 32)

def encode (n : Int) : String :=
  let bits := zigzag n
  String.ofList ((digits bits.log2 bits).map Base64.digit)

/-- Reads quantities; `bits` and `shift` are of the one that is not complete. -/
def decodeFrom (bits shift : Nat) : List Char → Except Fault (List Int)
  | [] => if bits != 0 || shift != 0 then .error (.badMap .openQuantity) else .ok []
  | c :: rest =>
    match Base64.value? c with
    | none => .error (.noKey ("'" ++ String.singleton c ++ "'"))
    | some v =>
      let bits := bits + (v % 32) <<< shift
      if v < 32 then do return unzigzag bits :: (← decodeFrom 0 0 rest)
      else decodeFrom bits (shift + 5) rest

theorem decodeFrom_last {acc shift v : Nat} {c : Char} {cs : List Char} (h : Base64.value? c = some v) (hv : v < 32) :
    decodeFrom acc shift (c :: cs) = (unzigzag (acc + v <<< shift) :: ·) <$> decodeFrom 0 0 cs := by
  simp [decodeFrom, h, hv, Nat.mod_eq_of_lt hv]

def decode (s : String) : Except Fault (List Int) :=
  decodeFrom 0 0 s.toList

end Transpiler.SourceMap.Vlq

/-!
# Number/Binary64 — the double nearest to a decimal

Numbers are kept as the 64 bits of an IEEE double.  A decimal is read as an exact ratio of naturals
and rounded once, to nearest with ties to even, so two spellings of one number have the same bits.
No machine arithmetic on doubles takes part.
-/

namespace ScriptBundler

/-- A double, by its bits. -/
structure Binary64 where
  bits : UInt64
deriving DecidableEq, Repr, Inhabited

namespace Binary64

/-- The bits of positive infinity: the first word past the finite doubles. -/
def infinityBits : Nat := 0x7ff0000000000000

/-- Positive infinity. -/
def infinity : Binary64 := ⟨UInt64.ofNat infinityBits⟩

/-- The word that stands for what is not a number. -/
def nan : Binary64 := ⟨0x7ff8000000000000⟩

/-- Words past infinity, whatever their sign, are not numbers. -/
def isNaN (x : Binary64) : Bool := infinityBits < (x.bits &&& 0x7fffffffffffffff).toNat

/-- `x`, with one word for all that is not a number. -/
def canonical (x : Binary64) : Binary64 := if x.isNaN then nan else x

/-- A text for each double, and one for all that is not a number: the digits of its word. -/
def text (x : Binary64) : String := toString x.canonical.bits.toNat

/-- `num / den` to the nearest natural, a half going to the even neighbour. -/
def divNearest (num den : Nat) : Nat :=
  let q := num / den
  let twice := 2 * (num % den)
  if den < twice ∨ (twice = den ∧ q % 2 = 1) then q + 1 else q

/-- The exponent of the greatest power of two that is at most `num / den`. -/
def floorLog2 (num den : Nat) : Int :=
  let k : Int := num.log2 - den.log2
  let reached := if 0 ≤ k then den <<< k.toNat ≤ num else den ≤ num <<< (-k).toNat
  if reached then k else k - 1

/-- The bits of the double nearest to `num / den`.

The unit in the last place is `2 ^ e`, where `e` is never below the one of the subnormals.  With the
significand `m` counted in that unit the word is `(e + 1074) * 2 ^ 52 + m`: the leading one of `m`
carries into the exponent field, and so does a significand that rounding lifted to `2 ^ 53`. -/
def ofRatio (num den : Nat) : Binary64 :=
  if num = 0 then ⟨0⟩ else
  let e := max (floorLog2 num den - 52) (-1074)
  let m := if 0 ≤ e then divNearest num (den <<< e.toNat) else divNearest (num <<< (-e).toNat) den
  let word := (e + 1074).toNat <<< 52 + m
  ⟨UInt64.ofNat (min word infinityBits)⟩

/-- The opposite double. -/
def neg (x : Binary64) : Binary64 := ⟨x.bits ^^^ 0x8000000000000000⟩

/-- The double nearest to `m * 10 ^ e`.

Past `10 ^ 310` everything rounds to infinity and below `10 ^ (-330)` to zero, so the power that is
built stays small whatever `e` is. -/
def ofDecimal (m : Nat) (e : Int) : Binary64 :=
  if m = 0 then ⟨0⟩ else
  let digits : Int := (Nat.toDigits 10 m).length
  if 310 < digits + e then infinity
  else if digits + e < -330 then ⟨0⟩
  else if 0 ≤ e then ofRatio (m * Nat.pow 10 e.toNat) 1
  else ofRatio m (Nat.pow 10 (-e).toNat)

/-- Sixteen lower-case hexadecimal digits. -/
def hex (x : Binary64) : String :=
  let digits := Nat.toDigits 16 x.bits.toNat
  String.ofList (List.replicate (16 - digits.length) '0' ++ digits)

end Binary64

end ScriptBundler

import ScriptBundler.Number.Binary64

/-!
# Number/Numeral — how numbers are written

A numeral is digits with an optional fraction, or a fraction alone, and then an optional exponent.
A point belongs to a numeral only if a digit follows it, and so does the mark of an exponent.
`Numeral.scan` finds the longest numeral in front of a text, `Numeral.value?` reads its double.
`Numeral.value?` also reads a sign, and the names of the doubles that no decimal spells.
-/

namespace ScriptBundler

namespace Numeral

/-- The run of digits in front, and what follows it. -/
def digits (cs : List Char) : List Char × List Char :=
  (cs.takeWhile Char.isDigit, cs.dropWhile Char.isDigit)

/-- Whether a digit comes next. -/
def startsDigit : List Char → Bool
  | c :: _ => c.isDigit
  | [] => false

/-- A point and the digits after it; nothing, if no digit follows the point. -/
def fraction : List Char → List Char × List Char
  | '.' :: cs => if startsDigit cs then ('.' :: (digits cs).1, (digits cs).2) else ([], '.' :: cs)
  | cs => ([], cs)

/-- The sign in front, if there is one. -/
def sign : List Char → List Char × List Char
  | '+' :: cs => (['+'], cs)
  | '-' :: cs => (['-'], cs)
  | cs => ([], cs)

/-- An exponent: its mark, an optional sign and digits; nothing, if there are no digits. -/
def exponent : List Char → List Char × List Char
  | [] => ([], [])
  | c :: cs =>
    if (c = 'e' ∨ c = 'E') ∧ startsDigit (sign cs).2 then
      (c :: ((sign cs).1 ++ (digits (sign cs).2).1), (digits (sign cs).2).2)
    else ([], c :: cs)

/-- The longest numeral in front of `cs`, and what follows it. -/
def scan (cs : List Char) : List Char × List Char :=
  let whole := digits cs
  let part := fraction whole.2
  let power := exponent part.2
  (whole.1 ++ part.1 ++ power.1, power.2)

/-- The number a run of digits stands for. -/
def ofDigits (cs : List Char) : Nat := cs.foldl (fun n c => 10 * n + (c.toNat - '0'.toNat)) 0

/-- The exponent written by `cs`: zero if nothing is written. -/
def exponentValue? : List Char → Option Int
  | [] => some 0
  | c :: cs =>
    let (mark, ds) := sign cs
    if (c = 'e' ∨ c = 'E') ∧ ds ≠ [] ∧ ds.all Char.isDigit then
      some (if mark = ['-'] then -(ofDigits ds : Int) else ofDigits ds)
    else none

/-- The double a decimal stands for.  A point may stand first or last, but not alone. -/
def decimalValue? (cs : List Char) : Option Binary64 :=
  let (whole, rest) := digits cs
  let (part, rest) := match rest with
    | '.' :: tail => digits tail
    | _ => ([], rest)
  if whole.isEmpty && part.isEmpty then none
  else (exponentValue? rest).map fun e =>
    Binary64.ofDecimal (ofDigits (whole ++ part)) (e - part.length)

/-- The double a name stands for, in letters of either case. -/
def namedValue? (cs : List Char) : Option Binary64 :=
  let word := String.ofList (cs.map Char.toLower)
  if word = "inf" ∨ word = "infinity" then some .infinity
  else if word = "nan" then some .nan
  else none

/-- The double an unsigned numeral or a name stands for. -/
def unsignedValue? (cs : List Char) : Option Binary64 := namedValue? cs <|> decimalValue? cs

/-- The double a numeral or a name with an optional sign stands for. -/
def value? (cs : List Char) : Option Binary64 :=
  match cs with
  | '-' :: rest => (unsignedValue? rest).map Binary64.neg
  | '+' :: rest => unsignedValue? rest
  | _ => unsignedValue? cs

/-- Digits are split off, none is lost. -/
theorem digits_append (cs : List Char) : (digits cs).1 ++ (digits cs).2 = cs :=
  List.takeWhile_append_dropWhile

theorem sign_append (cs : List Char) : (sign cs).1 ++ (sign cs).2 = cs := by
  fun_cases sign cs <;> rfl

/-- A fraction and what follows it. -/
theorem fraction_append (cs : List Char) : (fraction cs).1 ++ (fraction cs).2 = cs := by
  fun_cases fraction cs <;> simp [digits_append, *]

/-- An exponent and what follows it. -/
theorem exponent_append (cs : List Char) : (exponent cs).1 ++ (exponent cs).2 = cs := by
  fun_cases exponent cs <;> simp [digits_append, sign_append, *]

/-- What a numeral takes and what it leaves are the text. -/
theorem scan_append (cs : List Char) : (scan cs).1 ++ (scan cs).2 = cs := by
  simp only [scan, List.append_assoc, exponent_append, fraction_append, digits_append]

end Numeral

end ScriptBundler

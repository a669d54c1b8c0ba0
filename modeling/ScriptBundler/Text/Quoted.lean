/-!
# Text/Quoted — string literals: a quote inside is written twice

`quote` writes a text as a string literal.  `Quoted.scan` reads what follows an opening quote up to
the closing one, undoing the doubling.
-/

namespace ScriptBundler

namespace Quoted

/-- Every double quote doubled. -/
def escape : List Char → List Char
  | [] => []
  | c :: cs => if c = '"' then '"' :: '"' :: escape cs else c :: escape cs

/-- What reading the inside of a string literal yields. -/
structure Reading where
  /-- The text the literal stands for. -/
  value : List Char
  /-- The characters read, with the closing quote if there is one. -/
  consumed : List Char
  rest : List Char
  closed : Bool

/-- `r` with `read` put in front of what was read, standing for `c`. -/
def Reading.push (c : Char) (read : List Char) (r : Reading) : Reading :=
  ⟨c :: r.value, read ++ r.consumed, r.rest, r.closed⟩

/-- Reads on after an opening quote.  Two quotes in a row stand for one; a single one closes. -/
def scan : List Char → Reading
  | [] => ⟨[], [], [], false⟩
  | '"' :: '"' :: cs => (scan cs).push '"' ['"', '"']
  | c :: cs => if c = '"' then ⟨[], ['"'], cs, true⟩ else (scan cs).push c [c]

/-- What a string takes and what it leaves are the text. -/
theorem scan_append (cs : List Char) : (scan cs).consumed ++ (scan cs).rest = cs := by
  fun_induction scan cs <;> simp_all [Reading.push]

end Quoted

/-- A text as a string literal. -/
def quote (s : String) : String :=
  String.ofList ('"' :: (Quoted.escape s.toList ++ ['"']))

end ScriptBundler

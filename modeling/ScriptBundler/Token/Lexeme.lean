import ScriptBundler.Diagnostic
import ScriptBundler.Number.Numeral
import ScriptBundler.Text.Quoted

/-!
# Token/Lexeme — the next piece of a text

`Lexeme.read` cuts one piece off the front of a text and says what it is: a blank, a token, or a
character that no token starts with.  The piece is never empty, and with the rest it is the text
again (`Lexeme.text_append_rest`), so reading ends.
-/

namespace ScriptBundler

/-- Blanks separate tokens and are otherwise without meaning.  A line feed is not one of them. -/
def isBlank (c : Char) : Bool := c == ' ' || c == '\t' || c == '\r' || c == '\x0c'

/-- Every character outside ASCII may stand in a word. -/
def isWordStart (c : Char) : Bool := c.isAlpha || c == '_' || 128 ≤ c.toNat

/-- What a word can go on with. -/
def isWordChar (c : Char) : Bool := isWordStart c || c.isDigit

/-- What a piece of text is. -/
inductive Lexeme.Class where
  | blank
  | token (kind : Token.Kind) (fault : Option Fault)
  | stray (char : Char)
deriving DecidableEq, Repr

/-- A piece cut off the front of a text. -/
structure Lexeme where
  kind : Lexeme.Class
  text : List Char
  rest : List Char

namespace Lexeme

/-- A string literal.  One that the text ends inside of is closed where the text ends. -/
def ofQuoted (cs : List Char) : Lexeme :=
  let r := Quoted.scan cs
  let raw := '"' :: r.consumed ++ (if r.closed then [] else ['"'])
  { kind := .token (.string (String.ofList raw) (String.ofList r.value))
      (if r.closed then none else some .unterminatedString)
    text := '"' :: r.consumed
    rest := r.rest }

/-- A numeral. -/
def ofNumeral (cs : List Char) : Lexeme :=
  let (text, rest) := Numeral.scan cs
  let raw := String.ofList text
  let kind := match Numeral.value? text with
    | some value => .token (.number raw value) none
    | none => .token (.number raw ⟨0⟩) (some (.invalidNumber raw))
  { kind, text, rest }

/-- A reserved word or a name. -/
def ofWord (cs : List Char) : Lexeme :=
  let text := cs.takeWhile isWordChar
  let word := String.ofList text
  let kind := match Keyword.ofString? word with
    | some k => .keyword k
    | none => .identifier word
  { kind := .token kind none, text, rest := cs.dropWhile isWordChar }

/-- A comment runs to the end of its line.  Carriage returns at its end are no part of what it says. -/
def ofComment (cs : List Char) : Lexeme :=
  let text := cs.takeWhile (· != '\n')
  { kind := .token (.comment (String.ofList (trimReturns (text.drop 2)))) none
    text
    rest := cs.dropWhile (· != '\n') }

/-- A sign, or else a stray character. -/
def ofSign (c : Char) (cs : List Char) : Lexeme :=
  match Symbol.ofChars? (c :: cs) with
  | some s =>
    { kind := .token (.symbol s) none
      text := (c :: cs).take s.spelling.length
      rest := (c :: cs).drop s.spelling.length }
  | none => { kind := .stray c, text := [c], rest := cs }

/-- The first piece of `c :: cs`. -/
def read (c : Char) (cs : List Char) : Lexeme :=
  if isBlank c then { kind := .blank, text := [c], rest := cs }
  else if c = '\n' then { kind := .token .newline none, text := [c], rest := cs }
  else if c = '"' then ofQuoted cs
  else if c.isDigit || (c == '.' && Numeral.startsDigit cs) then ofNumeral (c :: cs)
  else if isWordStart c then ofWord (c :: cs)
  else if c = '/' ∧ cs.head? = some '/' then ofComment (c :: cs)
  else ofSign c cs

/-! ## A piece and its rest make up the text -/

/-- What a string takes and what it leaves are the text. -/
theorem ofQuoted_append (cs : List Char) : (ofQuoted cs).text ++ (ofQuoted cs).rest = '"' :: cs := by
  simp [ofQuoted, Quoted.scan_append]

/-- A number and what follows it. -/
theorem ofNumeral_append (cs : List Char) : (ofNumeral cs).text ++ (ofNumeral cs).rest = cs :=
  Numeral.scan_append cs

/-- A word and what follows it. -/
theorem ofWord_append (cs : List Char) : (ofWord cs).text ++ (ofWord cs).rest = cs :=
  List.takeWhile_append_dropWhile

/-- A comment and what follows it. -/
theorem ofComment_append (cs : List Char) : (ofComment cs).text ++ (ofComment cs).rest = cs :=
  List.takeWhile_append_dropWhile

/-- What a sign takes and what it leaves are the text. -/
theorem ofSign_append (c : Char) (cs : List Char) :
    (ofSign c cs).text ++ (ofSign c cs).rest = c :: cs := by
  fun_cases ofSign c cs
  · exact List.take_append_drop _ _
  · rfl

/-- **Nothing is lost**: a piece followed by the rest is the text it was cut from. -/
theorem text_append_rest (c : Char) (cs : List Char) :
    (read c cs).text ++ (read c cs).rest = c :: cs := by
  fun_cases read c cs with
  | case1 => rfl
  | case2 => rfl
  | case3 _ _ h => exact h ▸ ofQuoted_append cs
  | case4 => exact ofNumeral_append _
  | case5 => exact ofWord_append _
  | case6 => exact ofComment_append _
  | case7 => exact ofSign_append c cs

/-! ## No piece is empty -/

theorem ofNumeral_text_ne_nil {c : Char} {cs : List Char}
    (h : (c.isDigit || (c == '.' && Numeral.startsDigit cs)) = true) :
    (ofNumeral (c :: cs)).text ≠ [] := by
  show (Numeral.scan (c :: cs)).1 ≠ []
  by_cases hc : c.isDigit
  · simp [Numeral.scan, Numeral.digits, hc]
  · have hdot : c = '.' ∧ Numeral.startsDigit cs = true := by simpa [hc] using h
    obtain ⟨rfl, hcs⟩ := hdot
    simp [Numeral.scan, Numeral.digits, hc, Numeral.fraction, hcs]

theorem ofSign_text_ne_nil (c : Char) (cs : List Char) : (ofSign c cs).text ≠ [] := by
  fun_cases ofSign c cs with
  | case1 s _ => cases s <;> simp [Symbol.spelling]
  | case2 => simp

/-- **Every piece has a character**, so what is left is shorter. -/
theorem text_ne_nil (c : Char) (cs : List Char) : (read c cs).text ≠ [] := by
  fun_cases read c cs with
  | case1 => simp
  | case2 => simp
  | case3 => simp [ofQuoted]
  | case4 _ _ _ h => exact ofNumeral_text_ne_nil h
  | case5 _ _ _ _ h => simp [ofWord, isWordChar, h]
  | case6 _ _ _ _ _ h => simp [ofComment, h.1]
  | case7 => exact ofSign_text_ne_nil c cs

/-- A lexeme takes at least one letter. -/
theorem length_rest_lt (c : Char) (cs : List Char) : (read c cs).rest.length < (c :: cs).length := by
  have happ := congrArg List.length (text_append_rest c cs)
  have hpos := List.length_pos_iff.mpr (text_ne_nil c cs)
  simp only [List.length_append] at happ
  omega

end Lexeme

end ScriptBundler

import ScriptBundler.Text.Position

/-!
# Text/Source — a named text, its lines and its byte ranges

Lines are what stands between line feeds, without the carriage returns that end them.  A byte range
names a piece of the text only if both of its ends fall between characters.
-/

namespace ScriptBundler

/-- A text with the name it is reported under. -/
structure Source where
  name : String
  text : String
deriving DecidableEq, Repr, Inhabited

/-- `cs` without the run of carriage returns at its end. -/
def trimReturns (cs : List Char) : List Char := (cs.reverse.dropWhile (· == '\r')).reverse

/-- What follows the `n`-th line feed, if there are that many. -/
def dropLines : Nat → List Char → Option (List Char)
  | 0, cs => some cs
  | n + 1, cs =>
    match cs.dropWhile (· != '\n') with
    | [] => none
    | _ :: rest => dropLines n rest

/-- What follows the first `n` bytes, if they end between two characters. -/
def dropBytes : Nat → List Char → Option (List Char)
  | 0, cs => some cs
  | _ + 1, [] => none
  | n + 1, c :: cs => if c.utf8Size ≤ n + 1 then dropBytes (n + 1 - c.utf8Size) cs else none

/-- The first `n` bytes, if they end between two characters. -/
def takeBytes : Nat → List Char → Option (List Char)
  | 0, _ => some []
  | _ + 1, [] => none
  | n + 1, c :: cs =>
    if c.utf8Size ≤ n + 1 then (takeBytes (n + 1 - c.utf8Size) cs).map (c :: ·) else none

namespace Source

/-- The text of line `n`, counted from one. -/
def line (s : Source) : Nat → Option String
  | 0 => none
  | n + 1 => (dropLines n s.text.toList).map fun cs =>
      String.ofList (trimReturns (cs.takeWhile (· != '\n')))

/-- The text of the bytes from `start` up to `stop`. -/
def slice (s : Source) (start stop : Nat) : Option String :=
  if start ≤ stop then
    ((dropBytes start s.text.toList).bind (takeBytes (stop - start))).map String.ofList
  else none

/-- One more than the number of line feeds. -/
def lineCount (s : Source) : Nat := s.text.toList.count '\n' + 1

end Source

end ScriptBundler

/-!
# Layout — pieces of output text

Text is written as a sequence of pieces, so that a comment can still be told from text and a line
break from a line feed inside a string.  `Layout.join` turns the pieces into text: a trailing comment
goes to the end of the line before it, and the output does not end in line breaks.
-/

namespace ScriptBundler

/-- A piece of output. -/
inductive Layout.Piece where
  | text (s : String)
  /-- A line comment.  A trailing one continues the line before it. -/
  | comment (s : String) (trailing : Bool)
  /-- A line break. -/
  | eol
deriving DecidableEq, Repr, Inhabited

/-- Pieces of output in their order. -/
abbrev Layout := List Layout.Piece

namespace Layout

/-- A text; an empty one is no piece. -/
def text (s : String) : Layout := if s.isEmpty then [] else [.text s]

/-- A comment on a line of its own. -/
def comment (s : String) : Layout := [.comment s false]

/-- A comment that continues the line before it. -/
def trailing (s : String) : Layout := [.comment s true]

/-- A line break. -/
def eol : Layout := [.eol]

/-- Some line breaks. -/
def eols (n : Nat) : Layout := List.replicate n .eol

/-- Whether there is a line break outside of strings. -/
def hasBreak (l : Layout) : Bool := l.any (· == .eol)

/-- `ls` with `sep` between them. -/
def intercalate (sep : String) (ls : List Layout) : Layout := (ls.intersperse (text sep)).flatten

/-- Continues the line that `out`, which is reversed, ends with: the line break after it is taken
back, and a blank set behind what stands on it. -/
def continueLine (out : List Char) : List Char :=
  let line := match out with
    | '\n' :: rest => rest
    | _ => out
  match line with
  | [] => []
  | '\n' :: _ => line
  | _ => ' ' :: line

/-- Writes a piece behind `out`, which is reversed. -/
def write (out : List Char) : Piece → List Char
  | .text s => s.toList.reverse ++ out
  | .eol => '\n' :: out
  | .comment s true => s.toList.reverse ++ '/' :: '/' :: continueLine out
  | .comment s false => s.toList.reverse ++ '/' :: '/' :: out

/-- The text of a layout, without line breaks at its end. -/
def join (l : Layout) : String :=
  String.ofList (((l.foldl write []).dropWhile (· == '\n')).reverse)

end Layout

end ScriptBundler

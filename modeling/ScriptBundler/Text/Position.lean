/-!
# Text/Position — where a character stands, and the stretch between two such places

A position counts lines and columns from one, columns in characters, and offsets from zero in UTF-8
bytes.  Reading a character moves a position by `Position.step`, so the position of every place in a
text is a fold over the characters before it (`Position.after`).
-/

namespace ScriptBundler

/-- A place in a text: line and column count from one, the byte offset from zero. -/
structure Position where
  line : Nat
  column : Nat
  offset : Nat
deriving DecidableEq, Repr, Inhabited

namespace Position

/-- The first place of every text. -/
def first : Position := ⟨1, 1, 0⟩

/-- The place after reading `c`: a line feed opens a new line, all else is one column. -/
def step (p : Position) (c : Char) : Position :=
  if c = '\n' then ⟨p.line + 1, 1, p.offset + c.utf8Size⟩
  else ⟨p.line, p.column + 1, p.offset + c.utf8Size⟩

/-- The place after reading all of `cs`. -/
def after (p : Position) (cs : List Char) : Position := cs.foldl step p

@[simp] theorem after_nil (p : Position) : p.after [] = p := rfl

@[simp] theorem after_cons (p : Position) (c : Char) (cs : List Char) :
    p.after (c :: cs) = (p.step c).after cs := rfl

/-- Going over a text is going over its parts. -/
theorem after_append (p : Position) (cs ds : List Char) :
    p.after (cs ++ ds) = (p.after cs).after ds := List.foldl_append

/-- The earlier of two places.  Line and column are compared together, offsets on their own. -/
def earlier (p q : Position) : Position where
  line := min p.line q.line
  column :=
    if p.line < q.line then p.column
    else if q.line < p.line then q.column
    else min p.column q.column
  offset := min p.offset q.offset

/-- The later of two places.  Line and column are compared together, offsets on their own. -/
def later (p q : Position) : Position where
  line := max p.line q.line
  column :=
    if q.line < p.line then p.column
    else if p.line < q.line then q.column
    else max p.column q.column
  offset := max p.offset q.offset

end Position

/-- A stretch of text from `start` up to, and without, `stop`. -/
structure Span where
  start : Position
  stop : Position
deriving DecidableEq, Repr, Inhabited

namespace Span

/-- The least stretch that covers both. -/
def merge (s t : Span) : Span := ⟨s.start.earlier t.start, s.stop.later t.stop⟩

/-- The empty stretch at a place. -/
def point (p : Position) : Span := ⟨p, p⟩

/-- How many lines a stretch touches; one that ends before it starts touches one. -/
def lineCount (s : Span) : Nat := s.stop.line - s.start.line + 1

/-- A stretch is shown by its start, as `line:column`. -/
def display (s : Span) : String := s!"{s.start.line}:{s.start.column}"

end Span

/-- How many blank lines lie between something that ends on line `prev` and something that starts on
line `next`. -/
def blankLines (prev next : Nat) : Nat := next - prev - 1

end ScriptBundler

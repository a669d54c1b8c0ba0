import ScriptBundler.Name.Supply
import ScriptBundler.Tree

/-!
# Name/LiteralPool — constants that are worth a name

A pool counts how often each constant occurs.  One that occurs often enough, and is long enough to
write, gets a name from the supply and is then written once.
-/

namespace ScriptBundler

namespace Literal

/-- What makes two constants the same, as a text: strings by their spelling, numbers by sign and value,
where all that is not a number has one value.  The kind comes first. -/
def key : Literal → String
  | number _ value negated => (if negated then "n-" else "n+") ++ value.text
  | string raw _ => "s" ++ raw
  | bool value => "b" ++ toString value
  | null => "null"

/-- Strings and numbers whose spelling takes more than two bytes. -/
def isHoistable : Literal → Bool
  | bool _ | null => false
  | l => 2 < l.raw.utf8ByteSize

end Literal

/-- A constant of a pool. -/
structure LiteralPool.Entry where
  /-- The constant as it occurred first. -/
  literal : Literal
  count : Nat := 1
  slot : Option String := none
deriving DecidableEq, Repr, Inhabited

/-- Constants by first occurrence, with how often they occur. -/
structure LiteralPool where
  threshold : Nat
  entries : List LiteralPool.Entry := []
deriving DecidableEq, Repr, Inhabited

namespace LiteralPool

/-- Counts one more occurrence of `l` among `entries`. -/
def countIn (l : Literal) : List Entry → List Entry
  | [] => [{ literal := l }]
  | e :: es =>
    if e.literal.key = l.key then { e with count := e.count + 1 } :: es else e :: countIn l es

/-- Counts one more occurrence of a constant. -/
def add (p : LiteralPool) (l : Literal) : LiteralPool := { p with entries := countIn l p.entries }

/-- What is held of a constant. -/
def get? (p : LiteralPool) (l : Literal) : Option Entry :=
  p.entries.find? fun e => e.literal.key = l.key

/-- How many constants are told apart. -/
def size (p : LiteralPool) : Nat := p.entries.length

/-- Whether a constant gets a slot now. -/
def isDue (p : LiteralPool) (e : Entry) : Bool :=
  e.slot.isNone && e.literal.isHoistable && p.threshold ≤ e.count

/-- Gives a slot to each of `es` that is due; the first of them is entry number `i`.  Also yields how
many there were. -/
def assign (p : LiteralPool) : Nat → List Entry → NameSupply → List Entry × Nat × NameSupply
  | _, [], names => ([], 0, names)
  | i, e :: es, names =>
    if p.isDue e then
      let (slot, names) := names.create s!"literal:{i}"
      let (es, n, names) := assign p (i + 1) es names
      ({ e with slot := some slot } :: es, n + 1, names)
    else
      let (es, n, names) := assign p (i + 1) es names
      (e :: es, n, names)

/-- Gives a slot to each constant that is due, and yields how many there were. -/
def finalize (p : LiteralPool) (names : NameSupply) : LiteralPool × Nat × NameSupply :=
  let (entries, n, names) := p.assign 0 p.entries names
  ({ p with entries }, n, names)

/-- The slots and what they stand for. -/
def hoisted (p : LiteralPool) : List (String × String) :=
  p.entries.filterMap fun e => e.slot.map fun slot => (slot, e.literal.raw)

end LiteralPool

end ScriptBundler

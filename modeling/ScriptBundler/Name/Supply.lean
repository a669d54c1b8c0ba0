/-!
# Name/Supply — short names, each given once

The words over an alphabet are counted through by length and, at one length, by the order of their
letters (`Word.encode`).  A `NameSupply` gives each key the first word from its counter on that is
not forbidden, not given to another key and does not start with a digit.
-/

namespace ScriptBundler

/-- The letters names are made of unless others are chosen. -/
def defaultAlphabet : String := "abcdefghijklmnopqrstuvwxyzABCDEFGHIJKLMNOPQRSTUVWXYZ"

namespace Word

/-- The `n`-th word: all words of one letter, then all of two, and so on. -/
def encode (alphabet : List Char) (n : Nat) : List Char :=
  let q := n / alphabet.length
  let last := alphabet.getD (n % alphabet.length) 'a'
  if _h : q = 0 then [last] else encode alphabet (q - 1) ++ [last]
termination_by n
decreasing_by exact Nat.lt_of_lt_of_le (Nat.sub_one_lt _h) (Nat.div_le_self n alphabet.length)

/-- Whether a letter can start a name. -/
def isInitial (c : Char) : Bool := !c.isDigit

/-- The letters of `s` that may stand in a name, each once.  If none of them can start one, the
default letters. -/
def normalize (s : String) : List Char :=
  let letters := (s.toList.filter fun c => c.isAlphanum || c == '_').eraseDups
  if letters.any isInitial then letters else defaultAlphabet.toList

end Word

/-- Names by key, and the words that are left. -/
structure NameSupply where
  alphabet : List Char
  /-- Every word before this one is given, forbidden or no name. -/
  counter : Nat := 0
  /-- Keys and their names, in the order they were given. -/
  names : List (String × String) := []
  forbidden : List String := []
deriving DecidableEq, Repr, Inhabited

namespace NameSupply

/-- The name that was given for a key. -/
def get? (s : NameSupply) (key : String) : Option String := s.names.lookup key

/-- How many names were given. -/
def size (s : NameSupply) : Nat := s.names.length

/-- A name that must not be given from now on. -/
def forbid (s : NameSupply) (name : String) : NameSupply :=
  if name ∈ s.forbidden then s else { s with forbidden := name :: s.forbidden }

/-- The `n`-th word, as a name. -/
def word (s : NameSupply) (n : Nat) : String := String.ofList (Word.encode s.alphabet n)

/-- Whether a word can be given to a new key. -/
def isFree (s : NameSupply) (name : String) : Bool :=
  (name.toList.head?.any Word.isInitial) && !s.forbidden.contains name &&
    !(s.names.any fun (_, given) => given == name)

/-- Counts on from `n` to a free word, in at most the given number of steps. -/
def search (s : NameSupply) : Nat → Nat → Nat
  | 0, n => n
  | steps + 1, n => if s.isFree (s.word n) then n else search s steps (n + 1)

/-- Steps in which a free word is met: of the words of one letter that can start a name, repeated,
that are longer than the next word, one more is met than there are words not to give. -/
def searchBound (s : NameSupply) : Nat :=
  Nat.pow (s.alphabet.length + 1)
    ((Word.encode s.alphabet s.counter).length + s.forbidden.length + s.names.length + 1)

/-- The name of `key`, which is a new one if it had none. -/
def create (s : NameSupply) (key : String) : String × NameSupply :=
  match s.get? key with
  | some name => (name, s)
  | none =>
    let n := s.search s.searchBound s.counter
    let name := s.word n
    (name, { s with counter := n + 1, names := s.names ++ [(key, name)] })

/-- A supply that names `keys` first. -/
def ofAlphabet (alphabet : String) (keys forbidden : List String) : NameSupply :=
  keys.foldl (fun s key => (s.create key).2) { alphabet := Word.normalize alphabet, forbidden }

end NameSupply

end ScriptBundler

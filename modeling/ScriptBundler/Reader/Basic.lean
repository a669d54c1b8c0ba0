import ScriptBundler.Token.Scan
import ScriptBundler.Tree

/-!
# Reader/Basic — reading a tree off a sequence of tokens

A `Reader` moves over tokens and yields a value or nothing; either way it keeps the faults it found
and what it recorded.  A reader that yields nothing has reported why, so reading can go on with the
next statement.

The sequence is split at the current token (`Reader.State`), so there always is one; the last one is
never left.
-/

namespace ScriptBundler

/-- Where a reader stands and what it has gathered. -/
structure Reader.State where
  current : Token
  /-- The tokens after the current one. -/
  ahead : List Token
  previous : Option Token := none
  faults : List Located := []
  /-- How many expressions the reader is inside of. -/
  depth : Nat := 0
  mentions : Mentions := {}
  /-- The scopes the reader is inside of, as places in `mentions.scopes`, innermost first. -/
  openScopes : List Nat := []

/-- A step over tokens that yields a value or nothing. -/
def Reader (α : Type) : Type := Reader.State → Option α × Reader.State

namespace Reader

variable {α : Type}

instance : Monad Reader where
  pure a := fun s => (some a, s)
  bind p f := fun s =>
    match p s with
    | (some a, t) => f a t
    | (none, t) => (none, t)

/-! ## States -/

namespace State

/-- The start of a sequence of tokens. -/
def ofTokens : List Token → State
  | [] => { current := ⟨.eof, default⟩, ahead := [] }
  | t :: ts => { current := t, ahead := ts }

/-- One token on; the last token is never left. -/
def advance (s : State) : State :=
  match s.ahead with
  | [] => s
  | t :: ts => { s with current := t, ahead := ts, previous := some s.current }

/-- Moves on over `ts`, the tokens ahead, while the current one is of a kind in `p`. -/
def skipOver (p : Token.Kind → Bool) (s : State) : List Token → List Token × State
  | [] => ([], s)
  | _ :: ts =>
    if p s.current.kind then
      let (skipped, t) := skipOver p s.advance ts
      (s.current :: skipped, t)
    else ([], s)

/-- Where the token before the current one stands. -/
def behind (s : State) : Span := (s.previous.map Token.span).getD (.point .first)

/-- Whether so many faults were found that reading stops. -/
def isFull (s : State) : Bool := Report.limit ≤ s.faults.length

/-- Changes what was mentioned. -/
def mapMentions (s : State) (f : Mentions → Mentions) : State := { s with mentions := f s.mentions }

/-- Opens a scope inside the innermost one. -/
def openScope (s : State) (span : Span) : State :=
  { s with
    mentions := { s.mentions with scopes := s.mentions.scopes ++ [{ span }] }
    openScopes := s.mentions.scopes.length :: s.openScopes }

/-- Closes the innermost scope, which then reaches to `stop`. -/
def closeScope (s : State) (stop : Span) : State :=
  match s.openScopes with
  | [] => s
  | i :: rest =>
    { s with
      mentions := { s.mentions with
        scopes := s.mentions.scopes.modify i fun sc => { sc with span := sc.span.merge stop } }
      openScopes := rest }

/-- Records a name in the innermost scope. -/
def mention (s : State) (name : String) : State :=
  match s.openScopes with
  | [] => s
  | i :: _ => s.mapMentions fun m => { m with scopes := m.scopes.modify i (·.add name) }

end State

/-! ## Steps -/

/-- Changes the state and yields nothing of interest. -/
def update (f : State → State) : Reader Unit := fun s => (some (), f s)

/-- Looks at the state. -/
def get (f : State → α) : Reader α := fun s => (some (f s), s)

/-- Yields nothing. -/
def fail : Reader α := fun s => (none, s)

/-- What `p` yields, or that it yields nothing. -/
def attempt (p : Reader α) : Reader (Option α) := fun s =>
  let (r, t) := p s
  (some r, t)

/-- A value that may be missing, as a step that may fail. -/
def ofOption : Option α → Reader α
  | some a => pure a
  | none => fail

/-- The kind of the current token. -/
def kind : Reader Token.Kind := get (·.current.kind)

/-- Where the current token stands. -/
def here : Reader Span := get (·.current.span)

/-- Where the token before the current one stands. -/
def behind : Reader Span := get State.behind

/-- Takes a token. -/
def advance : Reader Token := fun s => (some s.current, s.advance)

/-- Notes a fault. -/
def report (fault : Fault) (span : Span) : Reader Unit :=
  update fun s => { s with faults := s.faults ++ [⟨fault, span⟩] }

/-- Reports a fault at `span` and yields nothing. -/
def rejectAt (span : Span) (fault : Fault) : Reader α := do
  report fault span
  fail

/-- Reports a fault at the current token and yields nothing. -/
def reject (fault : Fault) : Reader α := do rejectAt (← here) fault

/-- Whether the next token is of a kind. -/
def check (k : Token.Kind) : Reader Bool := get (·.current.kind == k)

/-- Moves past the current token if it is a `k`. -/
def eat (k : Token.Kind) : Reader Bool := do
  if ← check k then
    let _ ← advance
    return true
  else return false

/-- Moves past the current token, which has to be a `k`. -/
def expect (k : Token.Kind) : Reader Token := do
  if ← check k then advance else reject (.expected k (← kind))

/-- A name, which must come next. -/
def identifier : Reader Ident := do
  match ← kind with
  | .identifier name => return ⟨name, (← advance).span⟩
  | got => reject (.expectedIdentifier got)

/-- A string literal that names a file. -/
def path : Reader String := do
  match ← kind with
  | .string _ value =>
    let _ ← advance
    return value
  | got => reject (.expectedPath got)

/-- Takes the tokens that `p` holds of, as far as they go. -/
def skip (p : Token.Kind → Bool) : Reader (List Token) := fun s =>
  let (skipped, t) := s.skipOver p s.ahead
  (some skipped, t)

/-- Line breaks and comments, where a line break has no meaning. -/
def isLayout : Token.Kind → Bool
  | .newline | .comment _ => true
  | _ => false

/-- What stands between statements. -/
def isSeparator : Token.Kind → Bool
  | .newline | .symbol .semicolon => true
  | _ => false

/-- Words that end a block. -/
def isCloser : Token.Kind → Bool
  | .keyword .end_ | .keyword .else_ => true
  | _ => false

/-- The comment a token is. -/
def comment? (t : Token) : Option Comment :=
  match t.kind with
  | .comment text => some ⟨text, t.span⟩
  | _ => none

/-- Moves to where the line goes on, and yields the comments in between. -/
def continuation : Reader (List Comment) := do return (← skip isLayout).filterMap comment?

/-- Passes over what stands between statements. -/
def separators : Reader Unit := do let _ ← skip isSeparator

/-- Moves to the next statement.  A comment is one. -/
def synchronize : Reader Unit := do
  let _ ← skip fun k => !k.isTerminator
  if isSeparator (← kind) then
    let _ ← advance

/-- Requires that a statement ends here.  Some directives bring the semicolon that ends them. -/
def terminator : Reader Unit := do
  let got ← kind
  let ended ← get fun s => (s.previous.map Token.kind) == some (.symbol .semicolon)
  if got.isTerminator || isCloser got || ended then return ()
  else reject (.expectedStatementEnd got)

/-- Runs `p` inside one more expression, unless that is one too many. -/
def nested (p : Reader α) : Reader α := fun s =>
  if nestingLimit ≤ s.depth then reject .nestedTooDeep s
  else
    let (r, t) := p { s with depth := s.depth + 1 }
    (r, { t with depth := t.depth - 1 })

/-- Runs `p` in a scope of its own. -/
def withScope (span : Span) (p : Reader α) : Reader α := do
  update (·.openScope span)
  let r ← attempt p
  update fun s => s.closeScope s.behind
  ofOption r

/-- Notes that a name occurs. -/
def mention (name : String) : Reader Unit := update (·.mention name)

/-- Notes that something is mentioned. -/
def mentioned (f : Mentions → Mentions) : Reader Unit := update (·.mapMentions f)

end Reader

end ScriptBundler

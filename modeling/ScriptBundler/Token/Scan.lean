import ScriptBundler.Token.Lexeme

/-!
# Token/Scan — a text as a sequence of tokens

`scan` cuts a text into lexemes one after the other, drops the blanks and reports the strays.
It always ends with one `eof` token.  Once `Report.limit` faults are found it stops after the next
token, and `eof` then stands there.
-/

namespace ScriptBundler

/-- A fault and where it was found. -/
structure Located where
  fault : Fault
  span : Span
deriving DecidableEq, Repr, Inhabited

/-- The report on the faults found in a text. -/
def Report.ofFaults (source : Source) (faults : List Located) : Report :=
  faults.foldl (fun r f => r.addError (.locate source f.fault f.span)) {}

/-- The tokens of a text, and its faults in the order they were found. -/
structure Scanned where
  tokens : List Token
  faults : List Located
deriving DecidableEq, Repr, Inhabited

namespace Scanned

/-- A token before the others. -/
def token (t : Token) (s : Scanned) : Scanned := { s with tokens := t :: s.tokens }

/-- A fault before the others. -/
def fault (f : Located) (s : Scanned) : Scanned := { s with faults := f :: s.faults }

/-- Nothing but the end of the text, at `p`. -/
def done (p : Position) : Scanned := ⟨[⟨.eof, .point p⟩], []⟩

end Scanned

/-- Reads on from `p`, where `cs` is ahead and `found` faults are behind. -/
def scanFrom (p : Position) (found : Nat) : List Char → Scanned
  | [] => .done p
  | c :: cs =>
    let piece := Lexeme.read c cs
    let next := p.after piece.text
    let span : Span := ⟨p, next⟩
    match piece.kind with
    | .blank => scanFrom next found piece.rest
    | .stray c => (scanFrom next (found + 1) piece.rest).fault ⟨.unexpectedCharacter c, span⟩
    | .token kind none =>
      (if Report.limit ≤ found then .done next else scanFrom next found piece.rest).token
        ⟨kind, span⟩
    | .token kind (some f) =>
      ((if Report.limit ≤ found + 1 then .done next else scanFrom next (found + 1) piece.rest).token
        ⟨kind, span⟩).fault ⟨f, span⟩
termination_by cs => cs.length
decreasing_by all_goals exact Lexeme.length_rest_lt c cs

/-- The tokens of a text. -/
def scan (text : String) : Scanned := scanFrom .first 0 text.toList

end ScriptBundler

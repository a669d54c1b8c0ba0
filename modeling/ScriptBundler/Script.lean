import ScriptBundler.Reader.Grammar

/-!
# Script — reading a text as a script

`Script.ofTokens` reads whatever tokens it is given, and goes on after every fault with the next
statement.  `Source.parse` yields a script only if there was no fault at all.
-/

namespace ScriptBundler

/-- A script as far as it could be read, with the faults found on the way. -/
structure Script.Reading where
  script : Script
  faults : List Located

/-- Reads tokens, of which the last is the end of the text. -/
def Script.ofTokens (tokens : List Token) : Script.Reading :=
  match Reader.script (Reader.bound tokens.length) (.ofTokens tokens) with
  | (some script, s) => ⟨script, s.faults⟩
  | (none, s) => ⟨⟨[], s.mentions, default⟩, s.faults⟩

namespace Source

/-- The tokens of a text. -/
def scan (source : Source) : Scanned := ScriptBundler.scan source.text

/-- The script a text is, or all that is wrong with it: first its tokens, then its grammar. -/
def parse (source : Source) : Except Report Script :=
  let scanned := source.scan
  let reading := Script.ofTokens scanned.tokens
  let report := (Report.ofFaults source scanned.faults).append (.ofFaults source reading.faults)
  if report.hasErrors then .error report else .ok reading.script

end Source

end ScriptBundler

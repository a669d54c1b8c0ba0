import ScriptBundler.Diagnostic
import ScriptBundler.Write.Basic

/-!
# BuildError — why a program cannot be built

Every failure names the file it belongs to and, where it is known, the place in it.
-/

namespace ScriptBundler

/-- What went wrong. -/
inductive BuildError.Cause where
  /-- No file is at the path. -/
  | notFound (path : String)
  /-- A file refers to one that leads back to it. -/
  | circular (source target : String)
  | malformed (report : Report)
  /-- The file is there, but reading it fails. -/
  | unreadable (path message : String)
  | unwritable (error : WriteError)
deriving DecidableEq, Repr

/-- What is shown of a cause. -/
def BuildError.Cause.message : Cause → String
  | notFound path => s!"resource not found: {path}"
  | circular source target => s!"circular dependency: {source} -> {target}"
  | malformed report => report.display
  | unreadable path message => s!"fetch failed: {path}: {message}"
  | unwritable error => error.message

/-- A failure, the file it belongs to and the place in it. -/
structure BuildError where
  target : String
  range : Option Span := none
  cause : BuildError.Cause
deriving DecidableEq, Repr

namespace BuildError

/-- The file and what went wrong with it, as it is shown. -/
def display (e : BuildError) : String :=
  let place := e.range.elim "" fun span => s!":{span.display}"
  s!"{e.target}{place}: {e.cause.message}"

/-- A script that does not parse; the place is that of the first error. -/
def ofReport (target : String) (report : Report) : BuildError where
  target
  range := report.first?.map (·.span)
  cause := .malformed report

/-- A script that cannot be written. -/
def ofWriteError (target : String) (error : WriteError) : BuildError where
  target
  range := match error with
    | .unsupportedOperator _ span => some span
    | .inlineBody _ => none
  cause := .unwritable error

end BuildError

end ScriptBundler

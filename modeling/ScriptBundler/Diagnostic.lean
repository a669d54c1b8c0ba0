import ScriptBundler.Text.Source
import ScriptBundler.Token

/-!
# Diagnostic — what can be wrong with a script, and how it is reported

A `Fault` is a cause with its number and wording.  A `Diagnostic` is a fault located in a named text.
A `Report` collects diagnostics: it counts every error and keeps the first `Report.limit` of them.
-/

namespace ScriptBundler

/-- Deepest nesting of one expression in another. -/
def nestingLimit : Nat := 100

/-- Why a text is not a script. -/
inductive Fault where
  | unexpectedCharacter (char : Char)
  | unterminatedString
  | invalidNumber (raw : String)
  /-- A closing word where no block is open. -/
  | outsideBlock (got : Token.Kind)
  | expected (want got : Token.Kind)
  | expectedIdentifier (got : Token.Kind)
  | expectedExpression (got : Token.Kind)
  | expectedIndex
  | expectedStatementEnd (got : Token.Kind)
  | unclosedBlock (word : Keyword) (openedAt : Nat) (got : Token.Kind)
  | invalidTarget
  | nestedTooDeep
  | unknownDirective (name : String)
  | expectedDirective (got : Token.Kind)
  | expectedPath (got : Token.Kind)
  | expectedFrom (got : Token.Kind)
  | directiveAsValue (name : String)
deriving DecidableEq, Repr, Inhabited

namespace Fault

/-- The number a fault is reported under. -/
def code : Fault → Nat
  | unexpectedCharacter _ => 100
  | unterminatedString => 101
  | invalidNumber _ => 102
  | outsideBlock _ | expected .. | expectedIdentifier _ | expectedExpression _ | expectedIndex
  | expectedStatementEnd _ => 200
  | unclosedBlock .. => 201
  | invalidTarget => 202
  | nestedTooDeep => 203
  | unknownDirective _ => 300
  | expectedDirective _ | expectedPath _ | expectedFrom _ | directiveAsValue _ => 301

/-- The wording of a fault. -/
def message : Fault → String
  | unexpectedCharacter c => s!"Unexpected character '{c}'"
  | unterminatedString => "Unterminated string literal"
  | invalidNumber raw => s!"Invalid number literal '{raw}'"
  | outsideBlock got => s!"unexpected '{got.spelling}' outside of a block"
  | expected want got => s!"expected '{want.spelling}', got '{got.spelling}'"
  | expectedIdentifier got => s!"expected identifier, got '{got.spelling}'"
  | expectedExpression got => s!"expected expression, got '{got.spelling}'"
  | expectedIndex => "expected index expression"
  | expectedStatementEnd got => s!"expected end of statement, got '{got.spelling}'"
  | unclosedBlock word openedAt got =>
    s!"expected 'end {word.spelling}' to close the block opened at line {openedAt}, " ++
      s!"got '{got.spelling}'"
  | invalidTarget => "invalid assignment target"
  | nestedTooDeep => s!"maximum expression nesting depth is {nestingLimit}"
  | unknownDirective name => s!"unknown directive '#{name}'"
  | expectedDirective got => s!"expected directive name after '#', got '{got.spelling}'"
  | expectedPath got => s!"expected string literal, got '{got.spelling}'"
  | expectedFrom got => s!"expected 'from' in '#import', got '{got.spelling}'"
  | directiveAsValue name => s!"'#{name}' cannot be used as a value"

end Fault

/-- The families of fault numbers. -/
inductive Category where
  | lexical | grammar | directive
deriving DecidableEq, Repr, Inhabited

namespace Category

/-- Numbers from 100 are lexical and those from 300 are about directives, each for one hundred; all
others are about grammar. -/
def ofCode (code : Nat) : Category :=
  if 100 ≤ code ∧ code ≤ 199 then lexical
  else if 300 ≤ code ∧ code ≤ 399 then directive
  else grammar

/-- The word for a category in a report. -/
def name : Category → String
  | lexical => "lexical"
  | grammar => "syntax"
  | directive => "directive"

end Category

/-- A fault as it is reported: in which text, where, and with the line it starts on. -/
structure Diagnostic where
  file : String
  code : Nat
  message : String
  span : Span
  sourceLine : String
  suggestion : Option String := none
deriving DecidableEq, Repr, Inhabited

namespace Diagnostic

/-- The category that the code of a diagnostic belongs to. -/
def category (d : Diagnostic) : Category := .ofCode d.code

/-- One line: place, number, family and wording. -/
def display (d : Diagnostic) : String :=
  s!"{d.span.display}: E{d.code} [{d.category.name}] {d.message}"

/-- The diagnostic of a fault found at `span` of `source`. -/
def locate (source : Source) (fault : Fault) (span : Span) : Diagnostic where
  file := source.name
  code := fault.code
  message := fault.message
  span := span
  sourceLine := (source.line span.start.line).getD ""

end Diagnostic

/-- Diagnostics in the order they were found. -/
structure Report where
  errors : List Diagnostic := []
  warnings : List Diagnostic := []
  errorCount : Nat := 0
  warningCount : Nat := 0
deriving DecidableEq, Repr, Inhabited

namespace Report

/-- How many errors are kept; later ones are only counted. -/
def limit : Nat := 20

/-- An error more; past the limit it is only counted. -/
def addError (r : Report) (d : Diagnostic) : Report :=
  { r with
    errors := if r.errors.length < limit then r.errors ++ [d] else r.errors
    errorCount := r.errorCount + 1 }

/-- A warning more. -/
def addWarning (r : Report) (d : Diagnostic) : Report :=
  { r with warnings := r.warnings ++ [d], warningCount := r.warningCount + 1 }

/-- Everything of `r`, then everything of `s`.  Errors that `s` only counted are counted. -/
def append (r s : Report) : Report :=
  let merged := s.errors.foldl addError r
  let counted := { merged with errorCount := merged.errorCount + (s.errorCount - s.errors.length) }
  s.warnings.foldl addWarning counted

/-- Whether there was an error, kept or only counted. -/
def hasErrors (r : Report) : Bool := 0 < r.errorCount

/-- The error that was found first. -/
def first? (r : Report) : Option Diagnostic := r.errors.head?

/-- The first error, and how many more there are. -/
def display (r : Report) : String :=
  match r.errors with
  | [] => "no errors"
  | d :: _ =>
    if 1 < r.errorCount then s!"{d.display} (and {r.errorCount - 1} more)" else d.display

end Report

end ScriptBundler

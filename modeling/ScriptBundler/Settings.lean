import ScriptBundler.Name.Supply

/-!
# Settings — what a build is asked to do
-/

namespace ScriptBundler

/-- How the output is laid out. -/
inductive Mode where
  /-- As the input is. -/
  | verbatim
  /-- As short as possible. -/
  | minified
  /-- In one canonical way. -/
  | reformatted
deriving DecidableEq, Repr, Inhabited

/-- What one level of indentation is. -/
inductive IndentationStyle where
  | tab
  | spaces (count : Nat)
deriving DecidableEq, Repr, Inhabited

/-- The text of one level of indentation. -/
def IndentationStyle.unit : IndentationStyle → String
  | tab => "\t"
  | spaces n => String.ofList (List.replicate n ' ')

/-- The settings of a build. -/
structure Settings where
  /-- Gives names in minified output short spellings. -/
  obfuscate : Bool := false
  mode : Mode := .verbatim
  /-- Writes every constant where it occurs. -/
  disableLiteralHoisting : Bool := false
  /-- Registers modules under their paths. -/
  disableNamespaceRenaming : Bool := false
  /-- Keeps parentheses that group nothing, when reformatting. -/
  keepRedundantParens : Bool := false
  indentationStyle : IndentationStyle := .tab
  /-- Writes directives as they are and links nothing. -/
  devMode : Bool := false
  environmentVariables : List (String × String) := []
  /-- Names that keep their spelling. -/
  excludedIdentifiers : List String := []
  /-- Makes each script that is loaded while the program runs an output of its own. -/
  nativeImports : Bool := false
  /-- From how many occurrences on a constant is written once. -/
  literalThreshold : Nat := 2
  /-- The letters of made-up names. -/
  alphabet : String := defaultAlphabet
deriving DecidableEq, Repr, Inhabited

namespace Settings

/-- Whether names are given short spellings. -/
def renames (s : Settings) : Bool := s.mode == .minified && s.obfuscate && !s.devMode

/-- Whether constants that recur are written once. -/
def hoists (s : Settings) : Bool := s.mode == .minified && !s.disableLiteralHoisting && !s.devMode

end Settings

end ScriptBundler

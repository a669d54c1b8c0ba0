import ScriptBundler.Name.LiteralPool
import ScriptBundler.Name.Reserved
import ScriptBundler.Settings

/-!
# Naming — every name one output uses

Before any text is written, all modules, names and constants that go into an output are entered into
a `Naming`.  Writing only looks names up, so each has one spelling throughout.
-/

namespace ScriptBundler

/-- The names of one output. -/
structure Naming where
  settings : Settings
  modules : NameSupply
  names : NameSupply
  literals : LiteralPool
  /-- Where a script that is loaded while the program runs is found then. -/
  relocate : String → String := id

namespace Naming

/-- Nothing but the names of the module table. -/
def ofSettings (settings : Settings) (relocate : String → String := id) : Naming where
  settings
  modules := .ofAlphabet settings.alphabet [] []
  names :=
    .ofAlphabet settings.alphabet Reserved.runtimeNames
      (Reserved.forbidden settings.excludedIdentifiers)
  literals := { threshold := settings.literalThreshold }
  relocate

/-! ## Entering names -/

/-- Whether a name keeps its spelling whatever the settings are. -/
def keeps (n : Naming) (name : String) : Bool :=
  Reserved.intrinsics.contains name || n.settings.excludedIdentifiers.contains name

/-- Asks for the id of a module. -/
def addModule (n : Naming) (path : String) : Naming :=
  { n with modules := (n.modules.create path).2 }

/-- Enters a name.  If names keep their spellings, slots are kept away from it. -/
def addIdentifier (n : Naming) (name : String) : Naming :=
  if n.keeps name then n
  else if n.settings.renames then { n with names := (n.names.create name).2 }
  else { n with names := n.names.forbid name }

/-- Counts a constant. -/
def addLiteral (n : Naming) (l : Literal) : Naming := { n with literals := n.literals.add l }

/-- Decides which constants are written once, and yields how many are new among them. -/
def finalize (n : Naming) : Naming × Nat :=
  if n.settings.hoists then
    let (literals, count, names) := n.literals.finalize n.names
    ({ n with literals, names }, count)
  else (n, 0)

/-- Enters what goes into an output: first the modules, then the names in `named`, then the constants
in `counted`.  Also yields how many constants are written once. -/
def enter (n : Naming) (paths : List String) (named counted : List Script) : Naming × Nat :=
  let n := paths.foldl addModule n
  let n := (named.flatMap Script.identifiers).foldl addIdentifier n
  finalize ((counted.flatMap (·.mentions.literals)).foldl addLiteral n)

/-! ## Looking names up -/

/-- How a name is written. -/
def identifier (n : Naming) (name : String) : String :=
  if !n.settings.renames || n.keeps name then name else (n.names.get? name).getD name

/-- How a name of the module table is written. -/
def runtimeName (n : Naming) (name : String) : String :=
  if n.settings.renames then (n.names.get? name).getD name else name

/-- What a module is registered under. -/
def moduleId (n : Naming) (path : String) : String :=
  if n.settings.disableNamespaceRenaming then path else (n.modules.get? path).getD path

/-- The slot written in place of a constant. -/
def slot? (n : Naming) (l : Literal) : Option String :=
  if n.settings.hoists then (n.literals.get? l).bind (·.slot) else none

/-- The slots and what they stand for. -/
def hoisted (n : Naming) : List (String × String) :=
  if n.settings.hoists then n.literals.hoisted else []

end Naming

end ScriptBundler

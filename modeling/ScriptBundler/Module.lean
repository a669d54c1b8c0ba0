import ScriptBundler.Script

/-!
# Module — a script and what its references stand for

The modules of a program are numbered by their place in a list.  A module knows, for each reference
as it is written, which module or text is meant.
-/

namespace ScriptBundler

/-- A script among others. -/
structure Module where
  path : String
  script : Script
  /-- The modules that imports name, by reference. -/
  imports : List (String × Nat) := []
  /-- The modules that includes name, by reference. -/
  includes : List (String × Nat) := []
  /-- The texts that are injected, by reference. -/
  injections : List (String × String) := []
  /-- The scripts that are loaded while the program runs, by reference. -/
  natives : List (String × String) := []

/-- The number and the module that a reference stands for. -/
def Module.target? (modules : List Module) (edges : List (String × Nat)) (path : String) :
    Option (Nat × Module) := do
  let i ← edges.lookup path
  let m ← modules[i]?
  return (i, m)

end ScriptBundler

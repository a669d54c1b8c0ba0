import ScriptBundler.Graph
import ScriptBundler.Write

/-!
# Bundle — one output from one graph

An output starts with the constants that are written once.  If modules are imported, the function
that loads them and the modules themselves follow.  The code of the entry comes last.

All names are settled before anything is written, so every part spells them the same way.
-/

namespace ScriptBundler

/-- The module table: a module is run when it is loaded first, and what it exports is kept. -/
def runtimeSource : Source where
  name := "<module runtime>"
  text := "\n".intercalate
    ["__MODULES = \x7b\x7d",
      "__EXPORTED = \x7b\x7d",
      "__REQUIRE = function(id)",
      "\tif not __EXPORTED.hasIndex(id) then",
      "\t\tmodule = \x7b\"exports\": null\x7d",
      "\t\t__MODULES[id](module)",
      "\t\t__EXPORTED[id] = module.exports",
      "\tend if",
      "\treturn __EXPORTED[id]",
      "end function"]

namespace Bundle

/-- The text between two parts of an output. -/
def separator : Mode → String
  | .minified => "\n"
  | _ => "\n\n"

/-- Parts that are not empty, with `sep` between them. -/
def joinParts (sep : String) (parts : List String) : String :=
  sep.intercalate (parts.filter (!·.isEmpty))

/-- A line for each constant that is written once. -/
def preamble (n : Naming) : String :=
  "\n".intercalate (n.hoisted.map fun (slot, value) => s!"{slot}={value}")

/-- The modules that an output registers; none where references stay as they are. -/
def registered (settings : Settings) (g : Graph) : List Module :=
  if settings.devMode then [] else g.registered.filterMap (g.modules[·]?)

/-- The module table, if there is something to register. -/
def runtime (modules : List Module) : Except BuildError (Option Script) :=
  if modules.isEmpty then .ok none
  else match runtimeSource.parse with
    | .ok s => .ok (some s)
    | .error report => .error (.ofReport runtimeSource.name report)

/-- The names of an output. -/
def naming (settings : Settings) (relocate : String → String) (g : Graph)
    (runtime : Option Script) : Naming :=
  let scripts := g.modules.map (·.script)
  ((Naming.ofSettings settings relocate).enter (g.modules.map (·.path))
    (runtime.toList ++ scripts) scripts).1

/-- A text, or why the script of the file `path` cannot be written. -/
def part (path : String) (text : Except WriteError String) : Except BuildError String :=
  text.mapError (.ofWriteError path)

end Bundle

/-- The output of a graph.  `relocate` says where a script that is loaded while the program runs is
found then. -/
def Graph.bundle (g : Graph) (settings : Settings) (relocate : String → String := id) :
    Except BuildError String := do
  let modules := Bundle.registered settings g
  let runtime ← Bundle.runtime modules
  let n := Bundle.naming settings relocate g runtime
  let header ← runtime.toList.mapM fun s => Bundle.part runtimeSource.name (Scene.standalone n s)
  let bodies ← modules.mapM fun m =>
    Bundle.part m.path (Scene.registration n g.modules (n.moduleId m.path) m)
  let entry ← Bundle.part g.entry.path (Scene.entry n g.modules g.entry.toModule)
  let lead := if settings.devMode then "" else Bundle.preamble n
  return Bundle.joinParts (Bundle.separator settings.mode) (lead :: header ++ bodies ++ [entry])

end ScriptBundler

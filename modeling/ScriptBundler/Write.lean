import ScriptBundler.Write.Minified
import ScriptBundler.Write.Reformatted
import ScriptBundler.Write.Verbatim

/-!
# Write — the text of a script

The mode in the settings chooses one of three ways of writing.  Every text starts with no module put
in place of an include, so it does not depend on what was written before it.
-/

namespace ScriptBundler.Scene

/-- The layout of a script. -/
def script (scene : Scene) (s : Script) : Write Layout :=
  match scene.settings.mode with
  | .verbatim => Verbatim.script scene s
  | .minified => Minified.script scene s
  | .reformatted => Reformatted.script scene s

/-- The layout of a script as the module that is registered under `id`. -/
def registered (scene : Scene) (id : String) (s : Script) : Write Layout :=
  match scene.settings.mode with
  | .verbatim => Verbatim.registered scene id s
  | .minified => Minified.registered scene id s
  | .reformatted => Reformatted.registered scene id s

/-- The text of a layout that is written from the start. -/
def textOf (write : Write Layout) : Except WriteError String := Layout.join <$> write.run' []

/-- The text of a script that is not a module. -/
def standalone (naming : Naming) (s : Script) : Except WriteError String :=
  textOf (script { naming } s)

/-- The text of a module. -/
def entry (naming : Naming) (modules : List Module) (m : Module) : Except WriteError String :=
  textOf (script { naming, modules, active := m } m.script)

/-- The text that registers a module under `id`. -/
def registration (naming : Naming) (modules : List Module) (id : String) (m : Module) :
    Except WriteError String :=
  textOf (registered { naming, modules, active := m } id m.script)

end ScriptBundler.Scene

import ScriptBundler.Bundle

/-!
# Program — from files to outputs

The entry is one output.  Every script that an output loads while it runs is an output of its own.
-/

namespace ScriptBundler

/-- The output of a script by itself; what it refers to is not looked for. -/
def Source.bundle (s : Source) (settings : Settings) : Except BuildError String :=
  match s.parse with
  | .ok script => (Graph.single ⟨s.name, s.text, script⟩).bundle settings
  | .error report => .error (.ofReport s.name report)

/-- Files, and how outputs are made of them. -/
structure Program where
  files : Files
  settings : Settings
  relocate : String → String := id

namespace Program

/-- Nothing loaded yet. -/
def library (p : Program) : Library where
  nativeImports := p.settings.nativeImports && !p.settings.devMode

/-- The output of a module that is loaded, and the scripts it loads while it runs. -/
def output (p : Program) (lib : Library) (path : String) :
    Except BuildError (List String × String) := do
  let g ← Graph.resolve lib path
  return (g.nativeTargets, ← g.bundle p.settings p.relocate)

/-- Adds an output for each path of the queue, and for each script those load while they run.  The
number bounds how long the queue can get. -/
def outputs (p : Program) (lib : Library) :
    Nat → List String → List (String × String) → Except BuildError (List (String × String))
  | 0, _, done | _, [], done => return done
  | n + 1, path :: queue, done => do
    if (done.lookup path).isSome then outputs p lib n queue done
    else
      let (targets, text) ← p.output lib path
      outputs p lib n (queue ++ targets) (done ++ [(path, text)])

/-- The entry is queued, and every module is queued by every other at most once. -/
def queueBound (lib : Library) : Nat := lib.modules.length * lib.modules.length + 1

/-- Loads an entry and makes its outputs, by path.  Also yields the library that was loaded. -/
def build (p : Program) (entry : String) :
    Except BuildError (List (String × String)) × Library :=
  let (result, lib) := p.library.load p.files entry
  (result.bind fun path => p.outputs lib (queueBound lib) [path] [], lib)

end Program

end ScriptBundler

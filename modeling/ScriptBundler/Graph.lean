import ScriptBundler.Library
import ScriptBundler.Module

/-!
# Graph — the modules of one output

The modules that an entry leads to through imports and includes, each once, numbered in the order in
which a walk comes to them first.  The walk takes the references of a module in the order they are
written, and fails on one that leads back to a module it is still in.
-/

namespace ScriptBundler

/-- How a module is reached. -/
inductive Graph.Kind where
  | main
  | import_
  | include_
deriving DecidableEq, Repr, Inhabited

/-- A module of an output. -/
structure Graph.Node extends Module where
  source : String
  /-- How it is reached first. -/
  kind : Graph.Kind
  /-- Whether an import names it. -/
  imported : Bool := kind == .import_

namespace Graph.Node

/-- The module of a file, with no reference in it followed yet. -/
def ofResource (r : Resource) (kind : Kind) : Node where
  path := r.path
  script := r.script
  source := r.source
  kind

/-- What tells modules apart: the digest of the source. -/
def id (n : Node) : String := Sha256.hex n.source

end Graph.Node

/-- An entry and the modules it leads to; the entry is number 0. -/
structure Graph where
  entry : Graph.Node
  rest : List Graph.Node := []

namespace Graph

/-- All modules, the entry first. -/
def nodes (g : Graph) : List Node := g.entry :: g.rest

/-- The modules as they are written. -/
def modules (g : Graph) : List Module := g.nodes.map (·.toModule)

/-- How many modules there are. -/
def size (g : Graph) : Nat := g.nodes.length

/-- The number of the module at a path. -/
def find? (g : Graph) (path : String) : Option Nat := g.nodes.findIdx? (·.path == path)

/-- The numbers of the modules that are registered. -/
def registered (g : Graph) : List Nat :=
  (List.range g.size).filter fun i => i ≠ 0 ∧ g.nodes[i]?.any (·.imported)

/-- The scripts that are loaded while the program runs, by first mention.  Those of one module are
taken in the order of their paths. -/
def nativeTargets (g : Graph) : List String :=
  let sort (paths : List String) := paths.mergeSort fun a b => Path.precedes a.toList b.toList
  (g.nodes.flatMap fun n => sort (n.natives.map (·.2))).eraseDups

/-- A graph of one module that refers to none. -/
def single (r : Resource) : Graph where
  entry := .ofResource r .main

/-! ## The walk -/

/-- Changes module `i`. -/
def modify (g : Graph) (i : Nat) (f : Node → Node) : Graph :=
  match i with
  | 0 => { g with entry := f g.entry }
  | i + 1 => { g with rest := g.rest.modify i f }

/-- One module more, behind the others. -/
def push (g : Graph) (n : Node) : Graph := { g with rest := g.rest ++ [n] }

/-- Notes that a reference in module `i` means module `j`. -/
def connect (g : Graph) (i : Nat) (kind : Kind) (reference : String) (j : Nat) : Graph :=
  match kind with
  | .import_ =>
    (g.modify i fun n => { n with imports := n.imports ++ [(reference, j)] }).modify j
      fun n => { n with imported := true }
  | _ => g.modify i fun n => { n with includes := n.includes ++ [(reference, j)] }

/-- Whether a reference stands before another, or at the same place. -/
def isBefore (a b : Reference × Kind) : Bool :=
  let p := a.1.span.start
  let q := b.1.span.start
  p.line < q.line || (p.line == q.line && p.column ≤ q.column)

/-- The imports and includes of a script, in the order they are written. -/
def references (s : Script) : List (Reference × Kind) :=
  (s.mentions.imports.map (·, Kind.import_) ++ s.mentions.includes.map (·, Kind.include_)).mergeSort
    isBefore

/-- Where a reference of the file `base` leads. -/
def target (lib : Library) (base : String) (reference : Reference) : Except BuildError String :=
  match lib.resolved? base reference.path with
  | some path => .ok path
  | none => .error { target := base, range := reference.span, cause := .notFound reference.path }

/-- The module at a path. -/
def resource (lib : Library) (path : String) : Except BuildError Resource :=
  match lib.resource? path with
  | some r => .ok r
  | none => .error { target := path, cause := .notFound path }

/-- The text that a reference of the file `base` injects. -/
def injection (lib : Library) (base : String) (reference : Reference) :
    Except BuildError (String × String) := do
  let path ← target lib base reference
  match lib.text? path with
  | some text => return (reference.path, text)
  | none => throw { target := base, range := reference.span, cause := .notFound path }

/-- The script that a reference of the file `base` loads while the program runs, if it is loaded. -/
def native? (lib : Library) (base : String) (reference : Reference) : Option (String × String) := do
  let path ← lib.resolved? base reference.path
  guard (lib.resource? path).isSome
  return (reference.path, path)

/-- Walks from module `i`, whose script is that of `r`.  `stack` holds the paths the walk is in, and
the number bounds how many more it can enter. -/
def walk (lib : Library) :
    Nat → (stack : List String) → (i : Nat) → Resource → Graph → Except BuildError Graph
  | 0, _, _, _, g => return g
  | n + 1, stack, i, r, g => do
    let g ← (references r.script).foldlM
      (fun g (reference, kind) => do
        let path ← target lib r.path reference
        match g.find? path with
        | some j =>
          if path ∈ stack then
            throw { target := r.path, range := reference.span, cause := .circular r.path path }
          return g.connect i kind reference.path j
        | none =>
          let child ← resource lib path
          let j := g.size
          let g ← walk lib n (path :: stack) j child (g.push (.ofResource child kind))
          return g.connect i kind reference.path j)
      g
    let injections ← r.script.mentions.injects.mapM (injection lib r.path)
    let natives := r.script.mentions.natives.filterMap (native? lib r.path)
    return g.modify i fun n => { n with injections, natives }

/-- The graph of an entry whose files are loaded. -/
def resolve (lib : Library) (entry : String) : Except BuildError Graph := do
  let r ← resource lib entry
  walk lib (lib.modules.length + 1) [entry] 0 r (single r)

end Graph

end ScriptBundler

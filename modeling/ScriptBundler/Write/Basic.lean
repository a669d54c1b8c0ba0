import ScriptBundler.Layout
import ScriptBundler.Module
import ScriptBundler.Naming

/-!
# Write/Basic — what all ways of writing a script share

Writing a tree yields a `Layout`.  It remembers which modules were already put in place of an
include, because each is put into one output text once; beyond that a node is written the same way
whatever was written before it.
-/

namespace ScriptBundler

/-- Why a tree cannot be written. -/
inductive WriteError where
  /-- Minified output has no way to write a shift. -/
  | unsupportedOperator (op : BinaryOp) (span : Span)
  /-- An `if` on one line whose body is not one statement. -/
  | inlineBody (count : Nat)
deriving DecidableEq, Repr, Inhabited

/-- What is shown of a failure. -/
def WriteError.message : WriteError → String
  | unsupportedOperator op span => s!"unsupported operator '{op.spelling}' at {span.display}"
  | inlineBody n => s!"internal codegen error: single-line if body with {n} statements"

/-- A step of writing; the state are the modules put in place of an include so far. -/
abbrev Write := StateT (List Nat) (Except WriteError)

/-- What a script is written against. -/
structure Scene where
  naming : Naming
  modules : List Module := []
  /-- The module that is written, if it is one of `modules`. -/
  active : Option Module := none

namespace Scene

/-- The settings that names were given for. -/
def settings (s : Scene) : Settings := s.naming.settings

/-- The module that is written, unless references stay as they are. -/
def linked? (s : Scene) : Option Module := if s.settings.devMode then none else s.active

/-- The module that an import stands for in the module that is written. -/
def import? (s : Scene) (path : String) : Option Module := do
  let m ← s.linked?
  return (← Module.target? s.modules m.imports path).2

/-- The module that an include stands for in the module that is written, with its number. -/
def include? (s : Scene) (path : String) : Option (Nat × Module) := do
  let m ← s.linked?
  Module.target? s.modules m.includes path

/-- How a directive is written where it is left as it is. -/
def directiveText : ValueDirective → String
  | .envar name => s!"#envar {name};"
  | .inject path => s!"#inject {quote path};"
  | .line => "#line;"
  | .filename => "#filename;"

/-- A text as a literal, and `null` for none. -/
def quoteOrNull : Option String → String
  | some s => quote s
  | none => "null"

/-- How a directive that stands for a value is written; `line` is the line it stands on. -/
def value (s : Scene) (d : ValueDirective) (line : Nat) : String :=
  if s.settings.devMode then directiveText d
  else match d with
    | .envar name => quoteOrNull (s.settings.environmentVariables.lookup name)
    | .inject path => quoteOrNull (s.active.bind (·.injections.lookup path))
    | .line => toString line
    | .filename => quoteOrNull (s.active.map (·.path))

/-- How an import is written: as a call that loads the module, or as it is if it names none. -/
def importText (s : Scene) (equals name path : String) : String :=
  match s.import? path with
  | some m =>
    let require := s.naming.runtimeName "__REQUIRE"
    s!"{name}{equals}{require}({quote (s.naming.moduleId m.path)})"
  | none => s!"#import {name} from {quote path};"

/-- An include that is left as it is. -/
def includeText (path : String) : String := s!"#include {quote path};"

/-- The call that loads another script while the program runs, if `callee` on `args` is one that is
linked. -/
def nativeCall? (s : Scene) (callee : Expr) (args : List Expr) : Option String :=
  match callee.form, args with
  | .identifier name, [⟨.literal (.string _ value), _, _⟩] =>
    if s.settings.nativeImports && name == nativeImport then do
      let m ← s.linked?
      let target ← m.natives.lookup value
      return s!"{nativeImport}({quote (s.naming.relocate target)})"
    else none
  | _, _ => none

/-- The first line of a registered module. -/
def moduleHeader (s : Scene) (equals id : String) : String :=
  let table := s.naming.runtimeName "__MODULES"
  let param := s.naming.runtimeName "module"
  s!"{table}[{quote id}]{equals}function({param})"

/-- The statements of module `i`, as `body` writes them, unless they are already written. -/
def splice (i : Nat) (body : Write Layout) : Write Layout := do
  if (← get).contains i then return []
  modify (i :: ·)
  body

/-- What is written in place of an include: the statements of the module it names, as `body` writes
them. -/
def spliced? (scene : Scene) (body : Scene → Write Layout) (s : Stmt) : Option (Write Layout) :=
  match s.form with
  | .directive (.include_ path) => do
    let (i, m) ← scene.include? path
    return splice i (body { scene with active := some m })
  | _ => none

end Scene

/-- A unary operator before its operand. -/
def UnaryOp.lead (op : UnaryOp) : String := if op.isWord then s!"{op.spelling} " else op.spelling

/-! ## Statements line by line -/

/-- A statement as it was written. -/
structure Row where
  span : Span
  /-- What a comment says. -/
  comment : Option String := none
  layout : Layout

namespace Row

/-- The row of a statement. -/
def ofStmt (s : Stmt) (layout : Layout) : Row where
  span := s.span
  comment := match s.form with
    | .comment text => some text
    | _ => none
  layout

/-- The blank lines between two lines, if both are known. -/
def gap : Option Nat → Option Nat → Layout
  | some prev, some next => Layout.eols (blankLines prev next)
  | _, _ => []

/-- Rows one below the other, with as many blank lines between them as in the text they were read
from.  `prev` is the line of what stands before them, `close` of what stands after them.  A comment
that shares the line before it goes to the end of it. -/
def arrange (close : Option Nat) : Option Nat → List Row → Layout
  | prev, [] => gap prev close
  | prev, r :: rs =>
    match r.comment with
    | some text =>
      if prev = some r.span.start.line then
        Layout.trailing text ++ Layout.eol ++ arrange close prev rs
      else gap prev (some r.span.start.line) ++ r.layout ++ arrange close (some r.span.stop.line) rs
    | none =>
      gap prev (some r.span.start.line) ++ r.layout ++ arrange close (some r.span.stop.line) rs

/-- The rows of a block. -/
def arrangeBlock (span : Span) (rows : List Row) : Layout :=
  arrange (some span.stop.line) (some span.start.line) rows

/-- Rows that nothing encloses. -/
def arrangeAll (rows : List Row) : Layout := arrange none none rows

end Row

/-- The indentation of a line `depth` levels deep. -/
def Settings.indent (s : Settings) (depth : Nat) : Layout :=
  Layout.text (String.join (List.replicate depth s.indentationStyle.unit))

end ScriptBundler

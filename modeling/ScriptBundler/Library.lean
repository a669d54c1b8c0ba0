import ScriptBundler.BuildError
import ScriptBundler.Digest.Sha256
import ScriptBundler.Path
import ScriptBundler.Script

/-!
# Library — the files of a program

A file is loaded in one of two forms: parsed as a module, or as a plain text that is injected.
Loading an entry requests its file; a file that arrives requests what it refers to, and nothing is
requested twice in one form.  Requests are completed first come, first served, and the first failure
ends the loading.
-/

namespace ScriptBundler

/-- Texts by path.  Some paths exist and still cannot be read. -/
structure Files where
  texts : List (String × String)
  /-- The reasons why paths cannot be read. -/
  unreadable : List (String × String) := []

/-- Why there is no text at a path. -/
inductive Files.Failure where
  | missing
  | unreadable (message : String)
deriving DecidableEq, Repr

namespace Files

/-- Whether there is a file. -/
def has (files : Files) (path : String) : Bool :=
  (files.unreadable.lookup path).isSome || (files.texts.lookup path).isSome

/-- The text of a file, or why it cannot be had. -/
def read (files : Files) (path : String) : Except Failure String :=
  match files.unreadable.lookup path with
  | some message => .error (.unreadable message)
  | none => match files.texts.lookup path with
    | some text => .ok text
    | none => .error .missing

/-- Where a reference that stands in the file `base` leads.  The extension of scripts is added if
only the path with it exists. -/
def resolve (files : Files) (base reference : String) : String :=
  let path := Path.resolve base reference
  let extended := path ++ Path.extension
  if !Path.hasExtension path && !files.has path && files.has extended then extended else path

end Files

/-- What a file is loaded as. -/
inductive Form where
  | module
  | text
deriving DecidableEq, Repr

/-- A script that is loaded. -/
structure Resource where
  path : String
  source : String
  script : Script

/-- What tells texts apart: the digest of the source. -/
def Resource.id (r : Resource) : String := Sha256.hex r.source

/-- A file that is asked for. -/
structure Request where
  path : String
  form : Form
  /-- The file and the place that refer to it; the entry has none. -/
  origin : Option (String × Span) := none
deriving DecidableEq, Repr

/-- A file that has arrived. -/
inductive Fetched where
  | module (resource : Resource)
  | text (path text : String)

namespace Request

/-- A failure to read, at the place that asked for the file. -/
def failure (r : Request) (cause : BuildError.Cause) : BuildError :=
  match r.origin with
  | some (source, span) => { target := source, range := span, cause }
  | none => { target := r.path, cause }

/-- Reads the file and, as a module, parses it. -/
def fetch (files : Files) (r : Request) : Except BuildError Fetched :=
  match files.read r.path with
  | .error .missing => .error (r.failure (.notFound r.path))
  | .error (.unreadable message) => .error (r.failure (.unreadable r.path message))
  | .ok text =>
    match r.form with
    | .text => .ok (.text r.path text)
    | .module =>
      match Source.parse ⟨r.path, text⟩ with
      | .ok script => .ok (.module ⟨r.path, text, script⟩)
      | .error report => .error (.ofReport r.path report)

end Request

/-- Whether a file has arrived. -/
inductive Progress where
  | pending
  | ready
deriving DecidableEq, Repr

/-- The files that were asked for and those that have arrived. -/
structure Library where
  /-- Whether scripts that are loaded while the program runs belong to it. -/
  nativeImports : Bool := false
  /-- Where references lead, by the file they stand in and their text. -/
  resolved : List ((String × String) × String) := []
  states : List ((String × Form) × Progress) := []
  modules : List (String × Resource) := []
  texts : List (String × String) := []
  /-- Every reading of a file that gave a text, the last first. -/
  reads : List String := []

namespace Library

/-! ## Looking up -/

/-- The script of a file, if it is held. -/
def resource? (lib : Library) (path : String) : Option Resource := lib.modules.lookup path

/-- The text of a file, if it is held. -/
def text? (lib : Library) (path : String) : Option String := lib.texts.lookup path

/-- Where a reference leads, if it was followed. -/
def resolved? (lib : Library) (base reference : String) : Option String :=
  lib.resolved.lookup (base, reference)

/-- How far a path is; one that was asked for in both forms is ready if both are. -/
def state? (lib : Library) (path : String) : Option Progress :=
  match lib.states.lookup (path, .module), lib.states.lookup (path, .text) with
  | some .ready, some .ready => some .ready
  | some _, some _ => some .pending
  | some p, none | none, some p => some p
  | none, none => none

/-- Follows a reference, once. -/
def resolve (files : Files) (lib : Library) (base reference : String) : String × Library :=
  match lib.resolved? base reference with
  | some path => (path, lib)
  | none =>
    let path := files.resolve base reference
    (path, { lib with resolved := lib.resolved ++ [((base, reference), path)] })

/-- Follows references of the file `base`, in their order. -/
def resolveAll (files : Files) (base : String) :
    Library → List (Reference × Form) → List Request × Library
  | lib, [] => ([], lib)
  | lib, (reference, form) :: rest =>
    let (path, lib) := lib.resolve files base reference.path
    let (requests, lib) := resolveAll files base lib rest
    (⟨path, form, some (base, reference.span)⟩ :: requests, lib)

/-- What a script refers to, and in which form. -/
def references (lib : Library) (s : Script) : List (Reference × Form) :=
  let m := s.mentions
  let natives := if lib.nativeImports then m.natives else []
  (m.imports ++ m.includes ++ natives).map (·, .module) ++ m.injects.map (·, .text)

/-- Takes those requests into account that were not made before. -/
def schedule : Library → List Request → List Request × Library
  | lib, [] => ([], lib)
  | lib, r :: rs =>
    if (lib.states.lookup (r.path, r.form)).isSome then schedule lib rs
    else
      let (new, lib) :=
        schedule { lib with states := lib.states ++ [((r.path, r.form), .pending)] } rs
      (r :: new, lib)

/-- Notes that a file has arrived. -/
def markReady (lib : Library) (path : String) (form : Form) : Library :=
  { lib with states := lib.states.map fun (k, p) => (k, if k = (path, form) then .ready else p) }

/-- Keeps a file that has arrived, and yields the requests that follow from it. -/
def store (files : Files) (lib : Library) : Fetched → List Request × Library
  | .module r =>
    let (requests, lib) := resolveAll files r.path lib (lib.references r.script)
    let (new, lib) := lib.schedule requests
    (new, { lib with modules := lib.modules ++ [(r.path, r)] }.markReady r.path .module)
  | .text path text => ([], { lib with texts := lib.texts ++ [(path, text)] }.markReady path .text)

/-- Notes that a file was read. -/
def noteRead (files : Files) (lib : Library) (path : String) : Library :=
  if (files.read path).isOk then { lib with reads := path :: lib.reads } else lib

/-- Completes a request. -/
def complete (files : Files) (lib : Library) (r : Request) :
    Except BuildError (List Request) × Library :=
  let lib := lib.noteRead files r.path
  match r.fetch files with
  | .ok fetched =>
    let (new, lib) := lib.store files fetched
    (.ok new, lib)
  | .error e => (.error e, lib)

/-- Completes requests until there are none or one fails, at most the given number of them. -/
def completeAll (files : Files) : Nat → Library → List Request → Except BuildError Unit × Library
  | 0, lib, _ => (.ok (), lib)
  | _, lib, [] => (.ok (), lib)
  | n + 1, lib, r :: queue =>
    match lib.complete files r with
    | (.ok new, lib) => completeAll files n lib (queue ++ new)
    | (.error e, lib) => (.error e, lib)

/-- Every file is requested at most once in either form, and one request more can fail. -/
def requestBound (files : Files) : Nat := 2 * files.texts.length + 1

/-- Loads an entry and all it refers to, and yields the path of the entry. -/
def load (files : Files) (lib : Library) (entry : String) : Except BuildError String × Library :=
  let (path, lib) := lib.resolve files "" entry
  let (requests, lib) := lib.schedule [{ path, form := .module }]
  let (result, lib) := completeAll files (requestBound files) lib requests
  (result.map fun _ => path, lib)

end Library

end ScriptBundler

import ScriptBundler.Bundle
import ScriptBundler.Proofs.Naming
import ScriptBundler.Proofs.Scopes
import ScriptBundler.Proofs.Walk

/-!
# Proofs/Capture — made-up names capture nothing

The names of an output are entered from the records of its scripts.  A record has every name that
occurs in the script (`Source.exists_scope_of_parse`), and it has names only, so no name that is written is
missing from the naming and no slot can be taken for one (`Naming.Apart`).
-/

namespace ScriptBundler

/-- How a naming treats the names that occur in an output. -/
structure Naming.Apart (names : List String) (n : Naming) : Prop where
  /-- Different names are written differently. -/
  injective : ∀ x ∈ names, ∀ y ∈ names, n.identifier x = n.identifier y → x = y
  /-- What the host provides and what the settings exclude keeps its spelling. -/
  kept : ∀ x ∈ names, x ∈ Reserved.intrinsics ∨ x ∈ n.settings.excludedIdentifiers →
    n.identifier x = x
  /-- Any other name has a spelling of its own on record, which is that of a name without another
  meaning. -/
  renamed : n.settings.renames = true → ∀ x ∈ names, x ∉ Reserved.intrinsics →
    x ∉ n.settings.excludedIdentifiers → n.names.get? x = some (n.identifier x) ∧
      IsName (n.identifier x) ∧ n.identifier x ∉ Reserved.intrinsics ∧
      n.identifier x ∉ Reserved.runtimeNames ∧ n.identifier x ∉ n.settings.excludedIdentifiers
  /-- If names keep their spellings, none of these can be made up. -/
  forbidden : n.settings.renames = false → ∀ x ∈ names, n.identifier x = x ∧ x ∈ n.names.forbidden
  slots_nodup : (n.hoisted.map Prod.fst).Nodup
  /-- No slot is written like a name. -/
  slots_apart : ∀ slot ∈ n.hoisted.map Prod.fst, ∀ x ∈ names, slot ≠ n.identifier x

/-! ## What is on the record of a script -/

namespace Source

variable {source : Source} {script : Script}

/-- The names of a script are names. -/
theorem isName_of_parse (h : source.parse = .ok script) : ∀ x ∈ script.identifiers, IsName x := by
  intro x hx
  obtain ⟨scope, hscope, hx⟩ := List.mem_flatMap.mp hx
  have hread := readFrom_of_parse (S := { token := Token.Kind.Valid }) h (fun _ _ hv => hv)
    (fun _ _ => trivial) fun _ => trivial
  exact hread.record.names scope hscope x hx

/-- Every name of a node is on record. -/
theorem mem_identifiers_of_parse (h : source.parse = .ok script) :
    ∀ x ∈ script.names, x ∈ script.identifiers := by
  intro x hx
  obtain ⟨scope, hscope, hx⟩ := exists_scope_of_parse h (Script.mem_names.mp hx)
  exact List.mem_flatMap.mpr ⟨scope, hscope, hx⟩

end Source

/-- A name has letters of words only. -/
theorem IsName.not_mem {x : String} (h : IsName x) {c : Char} (hc : isWordChar c = false) :
    c ∉ x.toList := by
  obtain ⟨⟨d, cs, heq, hd, hcs⟩, -⟩ := h
  intro hmem
  rw [heq] at hmem
  rcases List.mem_cons.mp hmem with rfl | hmem
  · rw [isWordChar_of_isWordStart hd] at hc
    cases hc
  · rw [hcs c hmem] at hc
    cases hc

theorem Source.colon_not_mem {source : Source} {script : Script} (h : source.parse = .ok script) :
    ∀ x ∈ script.identifiers, ':' ∉ x.toList := fun x hx => (isName_of_parse h x hx).not_mem rfl

/-! ## A settled naming -/

namespace Naming

variable {n : Naming} {xs names : List String} {x : String}

/-- Names that are kept: intrinsic ones and excluded ones. -/
theorem keeps_iff : n.keeps x = true ↔
    x ∈ Reserved.intrinsics ∨ x ∈ n.settings.excludedIdentifiers := by
  simp [keeps]

theorem not_mem_reserved (h : x ∉ n.reserved) : x ∉ Reserved.intrinsics ∧
    x ∉ Reserved.runtimeNames ∧ x ∉ n.settings.excludedIdentifiers := by
  rw [reserved, Reserved.forbidden, List.mem_eraseDups] at h
  simp only [List.mem_append, not_or] at h
  exact ⟨h.1.1.2, h.1.2, h.2⟩

/-- **A settled naming keeps names apart**. -/
theorem Settled.apart (h : n.Settled xs) (hsub : names ⊆ xs) (hcolon : ∀ x ∈ names, ':' ∉ x.toList) :
    n.Apart names where
  injective x hx y hy := h.identifier_injective (hsub hx) (hsub hy)
  kept x _ hkept := Settled.identifier_of_keeps (keeps_iff.mpr hkept)
  renamed hrenames x hx hintrinsic hexcluded := by
    have hkeeps : n.keeps x = false := by
      rw [← Bool.not_eq_true, keeps_iff]
      exact fun hor => hor.elim hintrinsic hexcluded
    obtain ⟨hname, hfree⟩ := h.isName (hsub hx) hrenames hkeeps
    exact ⟨h.get?_eq_some (hsub hx) hrenames hkeeps, hname, not_mem_reserved hfree⟩
  forbidden hrenames x hx := by
    refine ⟨identifier_of_not_renames n hrenames x, ?_⟩
    cases hkeeps : n.keeps x with
    | true => exact h.sound.reserves (mem_reserved_of_keeps hkeeps)
    | false =>
      have hseed := h.seeded x (hsub hx) hkeeps
      rwa [Seeded, if_neg (by simp [hrenames])] at hseed
  slots_nodup := h.nodup
  slots_apart slot hslot x hx := h.slot_ne_identifier (hsub hx) (hcolon x hx) hslot

end Naming

/-! ## Outputs -/

/-- Every module of a graph was read from a text. -/
theorem Graph.parsed_of_resolve {files : Files} {lib : Library} {entry : String} {g : Graph}
    (hlib : lib.Reached files) (hg : resolve lib entry = .ok g) :
    ∀ m ∈ g.modules, ∃ source : Source, source.parse = .ok m.script := by
  intro m hm
  obtain ⟨node, hnode, rfl⟩ := List.mem_map.mp hm
  obtain ⟨path, r, hr, -, hscript⟩ := fromFile_of_resolve hg node hnode
  have hparse := hlib.faithful (path, r) (mem_of_lookup hr)
  exact ⟨_, hscript ▸ hparse.2⟩

namespace Bundle

/-- What is registered is a module of the graph. -/
theorem mem_modules_of_registered {settings : Settings} {g : Graph} {m : Module}
    (h : m ∈ registered settings g) : m ∈ g.modules := by
  unfold registered at h
  split at h
  · cases h
  · obtain ⟨i, -, hi⟩ := List.mem_filterMap.mp h
    exact List.mem_of_getElem? hi

/-- The module table is a script that starts with an assignment. -/
theorem exists_parse_runtimeSource : ∃ (s : Script) (op : AssignOp) (target value : Expr) (span : Span)
    (ss : List Stmt), runtimeSource.parse = .ok s ∧ s.body = ⟨.assign op target value, span⟩ :: ss := by
  have hstart : ∀ x : Except Report Script, (x.toOption.bind (·.body.head?)).any
      (fun t => t.form matches .assign _ _ _) = true → ∃ (s : Script) (op : AssignOp) (target value : Expr)
        (span : Span) (ss : List Stmt), x = .ok s ∧ s.body = ⟨.assign op target value, span⟩ :: ss := by
    intro x hx
    obtain ⟨⟨form, span⟩, ht, hform⟩ := (Option.any_eq_true _ _).mp hx
    obtain ⟨s, hs, ht⟩ := Option.bind_eq_some_iff.mp ht
    obtain ⟨ss, hss⟩ := List.head?_eq_some_iff.mp ht
    cases x with
    | error report => cases hs
    | ok s' =>
      obtain rfl := Option.some.inj hs
      cases form with
      | assign op target value => exact ⟨s', op, target, value, span, ss, rfl, hss⟩
      | _ => cases hform
  exact hstart _ (by decide +kernel)

/-- The runtime can be read. -/
theorem exists_runtime (modules : List Module) : ∃ runtime, Bundle.runtime modules = .ok runtime ∧
    ∀ s ∈ runtime, runtimeSource.parse = .ok s := by
  obtain ⟨s, -, -, -, -, -, hparse, -⟩ := exists_parse_runtimeSource
  unfold Bundle.runtime
  split
  · exact ⟨none, rfl, nofun⟩
  · rw [hparse]
    exact ⟨some s, rfl, fun t ht => Option.some.inj ht ▸ rfl⟩

/-- Every script of an output was read from a text. -/
theorem parsed_scripts {files : Files} {lib : Library} {entry : String} {g : Graph}
    (hlib : lib.Reached files) (hg : Graph.resolve lib entry = .ok g) {runtime : Option Script}
    (hruntime : ∀ s ∈ runtime, runtimeSource.parse = .ok s) :
    ∀ s ∈ runtime.toList ++ g.modules.map (·.script), ∃ source : Source, source.parse = .ok s := by
  intro s hs
  rcases List.mem_append.mp hs with hs | hs
  · exact ⟨_, hruntime s (Option.mem_toList.mp hs)⟩
  · obtain ⟨m, hm, rfl⟩ := List.mem_map.mp hs
    exact Graph.parsed_of_resolve hlib hg m hm

theorem settings_naming (settings : Settings) (relocate : String → String) (g : Graph)
    (runtime : Option Script) : (naming settings relocate g runtime).settings = settings :=
  Naming.settings_enter ..

/-- **The naming of an output is settled**, with all names of its scripts. -/
theorem settled_naming {g : Graph} {runtime : Option Script}
    (hall : ∀ s ∈ runtime.toList ++ g.modules.map (·.script), ∃ source : Source,
      source.parse = .ok s) (settings : Settings) (relocate : String → String) :
    (naming settings relocate g runtime).Settled
      ((runtime.toList ++ g.modules.map (·.script)).flatMap Script.identifiers) :=
  Naming.settled_enter settings relocate _ _ _ fun s hs => by
    obtain ⟨source, hparse⟩ := hall s hs
    exact Source.colon_not_mem hparse

/-- **Made-up names capture nothing**, whatever the letters they are made of and whatever is
excluded: all names that occur in the modules of an output or in its module table stay apart, and so
do the slots of its constants. -/
theorem naming_apart {files : Files} {lib : Library} {entry : String} {g : Graph}
    (hlib : lib.Reached files) (hg : Graph.resolve lib entry = .ok g) (settings : Settings)
    (relocate : String → String) :
    ∃ runtime, Bundle.runtime (Bundle.registered settings g) = .ok runtime ∧
      (Bundle.naming settings relocate g runtime).settings = settings ∧
      (Bundle.naming settings relocate g runtime).Apart
        ((runtime.toList ++ g.modules.map (·.script)).flatMap Script.names) := by
  obtain ⟨runtime, hruntime, hparsed⟩ := exists_runtime (Bundle.registered settings g)
  refine ⟨runtime, hruntime, settings_naming settings relocate g runtime, ?_⟩
  have hall := parsed_scripts hlib hg hparsed
  have hnames : ∀ s ∈ runtime.toList ++ g.modules.map (·.script), ∀ x ∈ s.names,
      x ∈ s.identifiers ∧ ':' ∉ x.toList := by
    intro s hs x hx
    obtain ⟨source, hparse⟩ := hall s hs
    have hmem := Source.mem_identifiers_of_parse hparse x hx
    exact ⟨hmem, Source.colon_not_mem hparse x hmem⟩
  refine (settled_naming hall settings relocate).apart (fun x hx => ?_) fun x hx => ?_
  · obtain ⟨s, hs, hx⟩ := List.mem_flatMap.mp hx
    exact List.mem_flatMap.mpr ⟨s, hs, (hnames s hs x hx).1⟩
  · obtain ⟨s, hs, hx⟩ := List.mem_flatMap.mp hx
    exact (hnames s hs x hx).2

/-- An entry that imports another file. -/
def importing : Files where
  texts := [("a.src", "#import m from \"b\"\nfoo=m.bar(123)+123+123"),
    ("b.src", "f=function(x)\nreturn abs(x)\nend function\nmodule.exports=f")]

theorem naming_apart_importing : ∃ g,
    Graph.resolve (Library.load importing {} "a.src").2 "a.src" = .ok g ∧
    ∃ runtime, Bundle.runtime (Bundle.registered
        { mode := .minified, obfuscate := true, excludedIdentifiers := ["foo"] } g) = .ok runtime ∧
      (Bundle.naming { mode := .minified, obfuscate := true, excludedIdentifiers := ["foo"] } id g
        runtime).settings = { mode := .minified, obfuscate := true, excludedIdentifiers := ["foo"] } ∧
      (Bundle.naming { mode := .minified, obfuscate := true, excludedIdentifiers := ["foo"] } id g
        runtime).Apart ((runtime.toList ++ g.modules.map (·.script)).flatMap Script.names) := by
  have hsome : (Graph.resolve (Library.load importing {} "a.src").2 "a.src").toOption.isSome = true := by
    decide +kernel
  cases hg : Graph.resolve (Library.load importing {} "a.src").2 "a.src" with
  | error e => simp [hg, Except.toOption] at hsome
  | ok g => exact ⟨g, rfl, naming_apart (.load _ (.empty _)) hg _ _⟩

end Bundle

end ScriptBundler

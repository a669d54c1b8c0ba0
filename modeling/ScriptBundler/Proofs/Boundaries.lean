import ScriptBundler.Proofs.Ledger
import ScriptBundler.Proofs.Linking

/-!
# Proofs/Boundaries — where one output ends and another begins

    a ──imports, includes──▸ q ──call──▸ b

A call that loads the script `b` while the program runs leads out of the graph of `a`.  A walk notes the
calls of every module it has left (`Graph.natives_of_resolve`), so which scripts a graph leads to can be
read off the files: all that its modules call (`Library.crosses_iff_calls`), or, where such scripts are
not followed, those that a directive of the same module names and that are loaded anyway
(`Library.crosses_of_repeats`).
-/

namespace ScriptBundler

/-! ## Records and files -/

namespace Mention

variable {m : Mention} {path : String}

theorem import?_eq_some : m.import? = some path ↔ m = .import_ path := by
  cases m <;> simp [import?]

theorem include?_eq_some : m.include? = some path ↔ m = .include_ path := by
  cases m <;> simp [include?]

theorem inject?_eq_some : m.inject? = some path ↔ m = .inject path := by
  cases m <;> simp [inject?]

end Mention

/-- The references that are recorded for a script are the directives and calls written in it. -/
theorem Source.mem_references_of_parse {source : Source} {script : Script}
    (h : source.parse = .ok script) (path : String) :
    (path ∈ script.mentions.imports.map Reference.path ↔ .import_ path ∈ mentionsOf script.nodes) ∧
    (path ∈ script.mentions.includes.map Reference.path ↔ .include_ path ∈ mentionsOf script.nodes) ∧
    (path ∈ script.mentions.injects.map Reference.path ↔ .inject path ∈ mentionsOf script.nodes) := by
  obtain ⟨himports, hincludes, hinjects⟩ := Source.paths_of_parse h
  rw [himports, hincludes, hinjects]
  simp [Mention.import?_eq_some, Mention.include?_eq_some, Mention.inject?_eq_some]

namespace Files

variable {files : Files} {a b : String}

/-- A module that can be fetched was read from its text. -/
theorem parse_of_content? {r : Resource} (h : files.content? (a, .module) = some (.module r)) :
    Source.parse ⟨a, r.source⟩ = .ok r.script := by
  unfold content? Request.fetch at h
  cases hread : files.read a with
  | error e => cases e <;> simp [hread, Except.toOption] at h
  | ok text =>
    cases hparse : Source.parse ⟨a, text⟩ with
    | error report => simp [hread, hparse, Except.toOption] at h
    | ok script =>
      simp only [hread, hparse, Except.toOption, Option.some.injEq, Fetched.module.injEq] at h
      rw [← h]
      exact hparse

/-- The module at `a` imports or includes the one at `b`. -/
def Links (files : Files) (a b : String) : Prop :=
  ∃ r, files.content? (a, .module) = some (.module r) ∧ ∃ path,
    (.import_ path ∈ mentionsOf r.script.nodes ∨ .include_ path ∈ mentionsOf r.script.nodes) ∧
    files.resolve a path = b

/-- A call of the module at `a` loads the script at `b`. -/
def Calls (files : Files) (a b : String) : Prop :=
  ∃ r, files.content? (a, .module) = some (.module r) ∧
    ∃ path ∈ r.script.nodes.filterMap Node.native?, files.resolve a path = b

/-- The module at `a`, or one it leads to, has a call that loads the script at `b`. -/
def Summons (files : Files) (a b : String) : Prop :=
  ∃ q, Relation.ReflTransGen files.Links a q ∧ files.Calls q b

/-- A call of the module at `a` loads the script at `b`, and a directive has the same text as the call. -/
def Repeats (files : Files) (a b : String) : Prop :=
  ∃ r, files.content? (a, .module) = some (.module r) ∧
    ∃ path ∈ r.script.nodes.filterMap Node.native?,
      (.import_ path ∈ mentionsOf r.script.nodes ∨ .include_ path ∈ mentionsOf r.script.nodes ∨
        .inject path ∈ mentionsOf r.script.nodes) ∧
      files.resolve a path = b

/-- What a module needs is what its references lead to. -/
theorem mem_needs_module {r : Resource} {nativeImports : Bool} {k : String × Form} :
    k ∈ (Fetched.module r).needs files nativeImports ↔ ∃ ref form,
      (ref, form) ∈ ({ nativeImports } : Library).references r.script ∧
      k = (files.resolve r.path ref.path, form) := by
  rw [Fetched.needs, Fetched.references, List.map_map, List.mem_map]
  constructor
  · rintro ⟨⟨ref, form⟩, href, rfl⟩
    exact ⟨ref, form, href, rfl⟩
  · rintro ⟨ref, form, href, rfl⟩
    exact ⟨(ref, form), href, rfl⟩

/-- Where calls are not followed, modules are loaded because of imports and includes only. -/
theorem links_of_reaches {k : String × Form} (h : files.Reaches false (a, .module) k)
    (hk : k.2 = .module) : Relation.ReflTransGen files.Links a k.1 := by
  induction h with
  | refl => exact .refl
  | @tail c k _ hleads ih =>
    obtain ⟨f, hf, hneeds⟩ := hleads
    obtain ⟨rfl, -⟩ := Files.key_of_content? hf
    cases f with
    | text => cases hneeds
    | module r =>
      have hcontent : files.content? (r.path, .module) = some (.module r) := hf
      have hpath : Relation.ReflTransGen files.Links a r.path := ih rfl
      obtain ⟨ref, form, href, rfl⟩ := mem_needs_module.mp hneeds
      dsimp only at hk ⊢
      subst hk
      have hmem : ref ∈ r.script.mentions.imports ++ r.script.mentions.includes := by
        simpa [Library.references] using href
      obtain ⟨himports, hincludes, -⟩ := Source.mem_references_of_parse (parse_of_content? hcontent) ref.path
      refine hpath.tail ⟨r, hcontent, ref.path, ?_, rfl⟩
      exact (List.mem_append.mp hmem).imp (fun h => himports.mp (List.mem_map_of_mem h))
        fun h => hincludes.mp (List.mem_map_of_mem h)

end Files

/-! ## What a walk notes -/

namespace Graph

variable {lib : Library} {g g' : Graph} {stack : List String}

/-- The calls of modules are noted, except for those on the stack. -/
def Noted (lib : Library) (stack : List String) (g : Graph) : Prop :=
  ∀ n ∈ g.nodes, n.path ∉ stack →
    n.natives = n.script.mentions.natives.filterMap (native? lib n.path)

namespace Noted

/-- Noting a reference leaves the calls. -/
theorem connect (h : Noted lib stack g) (i : Nat) (kind : Kind) (reference : String) (j : Nat) :
    Noted lib stack (g.connect i kind reference j) := by
  intro n hn hopen
  obtain ⟨k, hk⟩ := List.mem_iff_getElem?.mp hn
  rw [getElem?_connect] at hk
  obtain ⟨n₀, hn₀, rfl⟩ := Option.map_eq_some_iff.mp hk
  exact h n₀ (List.mem_of_getElem? hn₀) hopen

/-- A module that is new is put on the stack. -/
theorem push (h : Noted lib stack g) (child : Resource) (kind : Kind) :
    Noted lib (child.path :: stack) (g.push (.ofResource child kind)) := by
  intro n hn hopen
  rw [nodes_push] at hn
  rcases List.mem_append.mp hn with hn | hn
  · exact h n hn fun hmem => hopen (List.mem_cons_of_mem _ hmem)
  · rw [List.mem_singleton.mp hn] at hopen
    exact absurd List.mem_cons_self hopen

/-- Noting the calls of module `i` takes it off the stack. -/
theorem note {i : Nat} {r : Resource} {m : Node} (h : Noted lib (r.path :: stack) g)
    (hexploring : Exploring lib (r.path :: stack) g) (hi : g.nodes[i]? = some m) (hm : m.path = r.path)
    (hr : lib.resource? r.path = some r) (injections : List (String × String)) :
    Noted lib stack (g.modify i fun n =>
      { n with injections, natives := r.script.mentions.natives.filterMap (native? lib r.path) }) := by
  intro n hn hopen
  obtain ⟨k, hk⟩ := List.mem_iff_getElem?.mp hn
  rw [nodes_modify, List.getElem?_modify] at hk
  obtain ⟨n₀, hn₀, rfl⟩ := Option.map_eq_some_iff.mp hk
  by_cases hik : i = k
  · rw [if_pos hik]
    obtain rfl : m = n₀ := Option.some.inj (hi.symm.trans (hik ▸ hn₀))
    obtain ⟨r', hr', hscript⟩ := hexploring.fromFile m (List.mem_of_getElem? hi)
    rw [hm, hr] at hr'
    show r.script.mentions.natives.filterMap (native? lib r.path) =
      m.script.mentions.natives.filterMap (native? lib m.path)
    rw [hscript, hm, Option.some.inj hr']
  · rw [if_neg hik] at hopen ⊢
    refine h n₀ (List.mem_of_getElem? hn₀) fun hmem => ?_
    rcases List.mem_cons.mp hmem with hpath | hmem
    · exact hik (getElem?_paths_inj hexploring.nodup (getElem?_paths hi hm) (getElem?_paths hn₀ hpath))
    · exact hopen hmem

end Noted

/-- A walk notes the calls of the modules it comes through.  The induction is on the bound, which the
modules that are open cannot use up. -/
theorem walk_noted (hkeyed : lib.Keyed) {n : Nat} {stack : List String} {i : Nat} {r : Resource}
    {g g' : Graph} {m : Node} (hexploring : Exploring lib (r.path :: stack) g)
    (hi : g.nodes[i]? = some m) (hm : m.path = r.path) (hr : lib.resource? r.path = some r)
    (hn : lib.modules.length + 1 ≤ n + stack.length) (hnoted : Noted lib (r.path :: stack) g)
    (h : walk lib n (r.path :: stack) i r g = .ok g') : Noted lib stack g' := by
  induction n generalizing stack i r g g' m with
  | zero =>
    have hlength := hexploring.length_stack
    rw [List.length_cons] at hlength
    omega
  | succ n ih =>
    rw [walk_succ] at h
    obtain ⟨g₁, hfold, h⟩ := Except.bind_eq_ok.mp h
    obtain ⟨injections, -, h⟩ := Except.bind_eq_ok.mp h
    rw [← Except.ok.inj h]
    have hrun : Exploring lib (r.path :: stack) g₁ ∧ Grows g g₁ ∧ Noted lib (r.path :: stack) g₁ := by
      refine foldlM_preserves_of_mem
        (P := fun g' => Exploring lib (r.path :: stack) g' ∧ Grows g g' ∧ Noted lib (r.path :: stack) g')
        (fun g₂ ref g₃ href hg₂ hfollow => ?_) ⟨hexploring, .refl g, hnoted⟩ hfold
      obtain ⟨hexploring₂, hgrows₂, hnoted₂⟩ := hg₂
      obtain ⟨m₂, hi₂, hm₂, -⟩ := hgrows₂ i m hi
      have hends := follow_ends hkeyed (walk_ends hkeyed n) hexploring₂ hi₂ (hm₂.trans hm) hr href
        (by omega)
      rw [hfollow] at hends
      obtain ⟨-, -, hexploring₃, hgrows₃, -⟩ := hends
      refine ⟨hexploring₃, hgrows₂.trans hgrows₃, ?_⟩
      obtain ⟨path, hpath, ⟨j, -, -, rfl⟩ | ⟨hnone, child, g₄, hchild, hwalk, rfl⟩⟩ := follow_eq_ok hfollow
      · exact hnoted₂.connect _ _ _ _
      · obtain rfl := hkeyed hchild
        have hpush : Exploring lib (child.path :: r.path :: stack) (g₂.push (.ofResource child ref.2)) :=
          hexploring₂.push (find?_eq_none hnone) hchild rfl (cites_of_reference hr href hpath)
        have hnoted₄ : Noted lib (r.path :: stack) g₄ := ih hpush (getElem?_push g₂ _) rfl hchild
          (by simp only [List.length_cons]; omega) (hnoted₂.push child ref.2) hwalk
        exact hnoted₄.connect _ _ _ _
    obtain ⟨hexploring₁, hgrows₁, hnoted₁⟩ := hrun
    obtain ⟨m₁, hi₁, hm₁, -⟩ := hgrows₁ i m hi
    exact hnoted₁.note hexploring₁ hi₁ (hm₁.trans hm) hr injections

/-- In a graph that was resolved, all calls are noted. -/
theorem natives_of_resolve {entry : String} (hkeyed : lib.Keyed) (h : resolve lib entry = .ok g)
    {n : Node} (hn : n ∈ g.nodes) :
    n.natives = n.script.mentions.natives.filterMap (native? lib n.path) := by
  obtain ⟨r, hr, h⟩ := Except.bind_eq_ok.mp h
  have hresource := resource_eq_ok hr
  obtain rfl := hkeyed hresource
  have hstart : Noted lib [r.path] (single r) := by
    intro n hn hopen
    rw [List.mem_singleton.mp hn] at hopen
    exact absurd List.mem_cons_self hopen
  exact walk_noted hkeyed (exploring_single hresource) rfl rfl hresource (by simp) hstart h n hn
    List.not_mem_nil

/-- A call is noted if its script is there. -/
theorem native?_eq_some {base path target : String} {reference : Reference} :
    native? lib base reference = some (path, target) ↔
      path = reference.path ∧ lib.resolved? base reference.path = some target ∧
        (lib.resource? target).isSome := by
  simp only [native?, Option.bind_eq_bind, Option.bind_eq_some_iff, Option.guard_eq_some', Option.pure_def,
    Option.some.injEq, Prod.mk.injEq]
  constructor
  · rintro ⟨_, htarget, _, hsome, rfl, rfl⟩
    exact ⟨rfl, htarget, hsome⟩
  · rintro ⟨rfl, htarget, hsome⟩
    exact ⟨target, htarget, (), hsome, rfl, rfl⟩

/-- The scripts that modules load. -/
theorem mem_nativeTargets {b : String} :
    b ∈ g.nativeTargets ↔ ∃ n ∈ g.nodes, b ∈ n.natives.map Prod.snd := by
  simp only [nativeTargets, List.mem_eraseDups, List.mem_flatMap, List.mem_mergeSort]

end Graph

/-! ## What a library leads to -/

namespace Library

variable {files : Files} {lib : Library} {a b q : String} {r : Resource}

/-- What is held of a path is the file there. -/
theorem Sound.content_of_resource (h : lib.Sound files) (hr : lib.resource? a = some r) :
    files.content? (a, .module) = some (.module r) := h.content (by rw [held?, hr]; rfl)

theorem Sound.parse_of_resource (h : lib.Sound files) (hr : lib.resource? a = some r) :
    Source.parse ⟨a, r.source⟩ = .ok r.script := Files.parse_of_content? (h.content_of_resource hr)

/-- A call of the module at `q` is noted for the script at `b`. -/
def Crosses (lib : Library) (q b : String) : Prop :=
  ∃ r, lib.resource? q = some r ∧ ∃ path ∈ r.script.nodes.filterMap Node.native?,
    lib.resolved? q path = some b ∧ (lib.resource? b).isSome

/-- The scripts that a graph leads to are those noted for the calls of its modules. -/
theorem mem_nativeTargets_iff (hsound : lib.Sound files) {g : Graph} (h : Graph.resolve lib a = .ok g) :
    b ∈ g.nativeTargets ↔ ∃ q, lib.Reaches a q ∧ lib.Crosses q b := by
  have hkeyed : lib.Keyed := hsound.path_of_resource
  obtain ⟨hexploring, hvisits, -⟩ := Graph.exploring_of_resolve hkeyed h
  have hspans := hexploring.spans hvisits
  rw [Graph.mem_nativeTargets]
  constructor
  · rintro ⟨n, hn, hb⟩
    obtain ⟨r, hr, hscript⟩ := hexploring.fromFile n hn
    rw [Graph.natives_of_resolve hkeyed h hn, hscript] at hb
    obtain ⟨⟨path, target⟩, he, rfl⟩ := List.mem_map.mp hb
    obtain ⟨ref, href, he⟩ := List.mem_filterMap.mp he
    obtain ⟨-, hresolved, hsome⟩ := Graph.native?_eq_some.mp he
    refine ⟨n.path, (hspans.mem_iff _).mp (List.mem_map_of_mem hn), r, hr, ref.path, ?_, hresolved, hsome⟩
    rw [← Source.natives_of_parse (hsound.parse_of_resource hr)]
    exact List.mem_map_of_mem href
  · rintro ⟨q, hreach, r, hr, path, hpath, hresolved, hsome⟩
    obtain ⟨n, hn, rfl⟩ := List.mem_map.mp ((hspans.mem_iff _).mpr hreach)
    obtain ⟨r', hr', hscript⟩ := hexploring.fromFile n hn
    obtain rfl : r = r' := Option.some.inj (hr.symm.trans hr')
    rw [← Source.natives_of_parse (hsound.parse_of_resource hr)] at hpath
    obtain ⟨ref, href, rfl⟩ := List.mem_map.mp hpath
    refine ⟨n, hn, List.mem_map.mpr ⟨(ref.path, b), ?_, rfl⟩⟩
    rw [Graph.natives_of_resolve hkeyed h hn, hscript]
    exact List.mem_filterMap.mpr ⟨ref, href, Graph.native?_eq_some.mpr ⟨rfl, hresolved, hsome⟩⟩

/-- What a module cites is what its file links to. -/
theorem links_of_cites (hsound : lib.Sound files) (h : lib.Cites a b) : files.Links a b := by
  obtain ⟨r, hr, ref, href, hresolved⟩ := Graph.cites_iff.mp h
  obtain ⟨himports, hincludes, -⟩ :=
    Source.mem_references_of_parse (hsound.parse_of_resource hr) ref.path
  refine ⟨r, hsound.content_of_resource hr, ref.path, ?_, (hsound.consistent _ _ _ hresolved).symm⟩
  exact (List.mem_append.mp href).imp (fun h => himports.mp (List.mem_map_of_mem h))
    fun h => hincludes.mp (List.mem_map_of_mem h)

/-- In a closed library, what a module links to was followed. -/
theorem cites_of_links (hsound : lib.Sound files) (hclosed : lib.Closed) (hr : lib.resource? a = some r)
    (h : files.Links a b) : lib.Cites a b := by
  obtain ⟨r', hr', path, hpath, rfl⟩ := h
  obtain rfl : r = r' := Fetched.module.inj (Option.some.inj ((hsound.content_of_resource hr).symm.trans hr'))
  obtain ⟨himports, hincludes, -⟩ := Source.mem_references_of_parse (hsound.parse_of_resource hr) path
  have hmem : path ∈ (r.script.mentions.imports ++ r.script.mentions.includes).map Reference.path := by
    rw [List.map_append, List.mem_append]
    exact hpath.imp himports.mpr hincludes.mpr
  obtain ⟨ref, href, rfl⟩ := List.mem_map.mp hmem
  obtain ⟨target, htarget, -⟩ := hclosed hr (ref, .module) (by
    simp only [references, List.mem_append, List.mem_map, Prod.mk.injEq, and_true, exists_eq_right]
    exact .inl (.inl (List.mem_append.mp href)))
  exact Graph.cites_iff.mpr ⟨r, hr, ref, href, by rw [htarget, hsound.consistent _ _ _ htarget]⟩

/-- In a closed library, modules lead where their files lead. -/
theorem reaches_iff (hsound : lib.Sound files) (hclosed : lib.Closed) (hr : lib.resource? a = some r) :
    lib.Reaches a q ↔ Relation.ReflTransGen files.Links a q := by
  constructor
  · exact fun h => h.lift id fun _ _ => links_of_cites hsound
  · intro h
    induction h with
    | refl => exact .refl
    | tail _ hlinks ih =>
      obtain ⟨r', hr'⟩ := Graph.resource_of_reaches hsound.path_of_resource hclosed hr ih
      exact ih.tail (cites_of_links hsound hclosed hr' hlinks)

/-- Where calls are followed, the scripts they load are loaded. -/
theorem resolved_of_native (hsound : lib.Sound files) (hclosed : lib.Closed)
    (hnative : lib.nativeImports = true) (hr : lib.resource? q = some r) {path : String}
    (hpath : path ∈ r.script.nodes.filterMap Node.native?) :
    lib.resolved? q path = some (files.resolve q path) ∧
      (lib.resource? (files.resolve q path)).isSome := by
  rw [← Source.natives_of_parse (hsound.parse_of_resource hr)] at hpath
  obtain ⟨ref, href, rfl⟩ := List.mem_map.mp hpath
  obtain ⟨target, htarget, hheld⟩ := hclosed hr (ref, .module) (by
    simp only [references, hnative, List.mem_append, List.mem_map, Prod.mk.injEq, and_true,
      exists_eq_right]
    exact .inl (.inr href))
  rw [← hsound.consistent _ _ _ htarget]
  exact ⟨htarget, Option.isSome_map ▸ hheld⟩

/-- Where calls are followed, all of them are noted. -/
theorem crosses_iff_calls (hsound : lib.Sound files) (hclosed : lib.Closed)
    (hnative : lib.nativeImports = true) (hr : lib.resource? q = some r) :
    lib.Crosses q b ↔ files.Calls q b := by
  constructor
  · rintro ⟨r, hr, path, hpath, hresolved, -⟩
    exact ⟨r, hsound.content_of_resource hr, path, hpath, (hsound.consistent _ _ _ hresolved).symm⟩
  · rintro ⟨r', hr', path, hpath, rfl⟩
    obtain rfl : r = r' :=
      Fetched.module.inj (Option.some.inj ((hsound.content_of_resource hr).symm.trans hr'))
    exact ⟨r, hr, path, hpath, resolved_of_native hsound hclosed hnative hr hpath⟩

/-- Where calls are followed, each is noted for the script it loads. -/
theorem lookup_natives (hsound : lib.Sound files) (hclosed : lib.Closed)
    (hnative : lib.nativeImports = true) {g : Graph} (h : Graph.resolve lib a = .ok g) {m : Module}
    (hm : m ∈ g.modules) {path : String} (hpath : path ∈ m.script.nodes.filterMap Node.native?) :
    m.natives.lookup path = some (files.resolve m.path path) := by
  obtain ⟨n, hn, rfl⟩ := List.mem_map.mp hm
  have hkeyed : lib.Keyed := hsound.path_of_resource
  obtain ⟨hexploring, -, -⟩ := Graph.exploring_of_resolve hkeyed h
  obtain ⟨r, hr, hscript⟩ := hexploring.fromFile n hn
  have hnatives := Graph.natives_of_resolve hkeyed h hn
  rw [hscript] at hpath hnatives
  -- The call is noted, and whatever is noted for its text is the same.
  obtain ⟨hresolved, hsome⟩ := resolved_of_native hsound hclosed hnative hr hpath
  rw [← Source.natives_of_parse (hsound.parse_of_resource hr)] at hpath
  obtain ⟨ref, href, rfl⟩ := List.mem_map.mp hpath
  have hmem : (ref.path, files.resolve n.path ref.path) ∈ n.natives := by
    rw [hnatives]
    exact List.mem_filterMap.mpr ⟨ref, href, Graph.native?_eq_some.mpr ⟨rfl, hresolved, hsome⟩⟩
  obtain ⟨target, htarget, hfound⟩ := exists_lookup (List.mem_map_of_mem hmem)
  rw [hnatives] at hfound
  obtain ⟨ref', -, hfound⟩ := List.mem_filterMap.mp hfound
  obtain ⟨hsame, hresolved', -⟩ := Graph.native?_eq_some.mp hfound
  rw [htarget, ← hresolved', ← hsame, hresolved]

/-- A call is noted for a module that is loaded, if a directive has the same text. -/
theorem crosses_of_repeats (hsound : lib.Sound files) (hclosed : lib.Closed)
    (hr : lib.resource? q = some r) (h : files.Repeats q b) (hb : (lib.resource? b).isSome) :
    lib.Crosses q b := by
  obtain ⟨r', hr', path, hpath, hdirective, rfl⟩ := h
  obtain rfl : r = r' := Fetched.module.inj (Option.some.inj ((hsound.content_of_resource hr).symm.trans hr'))
  obtain ⟨himports, hincludes, hinjects⟩ :=
    Source.mem_references_of_parse (hsound.parse_of_resource hr) path
  rw [← himports, ← hincludes, ← hinjects, List.mem_map, List.mem_map, List.mem_map] at hdirective
  have href : ∃ ref ∈ lib.references r.script, ref.1.path = path := by
    simp only [references, List.mem_append, List.mem_map]
    rcases hdirective with ⟨ref, href, hpath⟩ | ⟨ref, href, hpath⟩ | ⟨ref, href, hpath⟩
    · exact ⟨(ref, .module), .inl ⟨ref, .inl (.inl href), rfl⟩, hpath⟩
    · exact ⟨(ref, .module), .inl ⟨ref, .inl (.inr href), rfl⟩, hpath⟩
    · exact ⟨(ref, .text), .inr ⟨ref, href, rfl⟩, hpath⟩
  obtain ⟨ref, href, rfl⟩ := href
  obtain ⟨target, htarget, -⟩ := hclosed hr ref href
  exact ⟨r, hr, ref.1.path, hpath, by rw [htarget, hsound.consistent _ _ _ htarget], hb⟩

section Load

variable {entry path : String} (h : Library.load files { nativeImports := false } entry = (.ok path, lib))

include h

/-- Where calls are not followed, one is noted only if a directive has the same text.  The text of the
entry itself is resolved as well; it leads back to the entry. -/
theorem repeats_of_crosses (hcrosses : lib.Crosses q b) : b = path ∨ files.Repeats q b := by
  obtain ⟨hpath, t, rfl, -, -, hrun⟩ := exists_underway_of_load h
  obtain ⟨r, hr, call, hcall, hresolved, -⟩ := hcrosses
  have hb : b = files.resolve q call := hrun.sound.consistent _ _ _ hresolved
  have hmeans := (hrun.resolved q call).mp (by rw [hresolved]; exact Option.some_ne_none b)
  rcases hmeans with hnone | heq | ⟨⟨_, form⟩, f, hheld, hmem⟩
  · cases hnone rfl
  · obtain ⟨rfl, rfl⟩ := Prod.mk.inj heq
    exact .inl (hb.trans hpath.symm)
  · cases f with
    | text => cases hmem
    | module r' =>
      obtain ⟨hkey, -⟩ := Files.key_of_content? (hrun.sound.content hheld)
      obtain ⟨rfl, rfl⟩ := Prod.mk.inj hkey
      rw [Fetched.references, List.map_map, List.mem_map] at hmem
      obtain ⟨ref, href, heq⟩ := hmem
      obtain ⟨rfl, rfl⟩ := Prod.mk.inj heq
      have hr' : t.library.resource? r'.path = some r' := by
        obtain ⟨r₀, hr₀, heq⟩ := Option.map_eq_some_iff.mp hheld
        rw [hr₀, Fetched.module.inj heq]
      obtain rfl : r = r' := Option.some.inj (hr.symm.trans hr')
      obtain ⟨himports, hincludes, hinjects⟩ :=
        Source.mem_references_of_parse (hrun.sound.parse_of_resource hr) ref.1.path
      refine .inr ⟨r, hrun.sound.content_of_resource hr, ref.1.path, hcall, ?_, hb.symm⟩
      rw [← himports, ← hincludes, ← hinjects, List.mem_map, List.mem_map, List.mem_map]
      simp only [references, Bool.false_eq_true, if_false, List.append_nil, List.mem_append,
        List.mem_map] at href
      rcases href with ⟨x, hx | hx, rfl⟩ | ⟨x, hx, rfl⟩
      · exact .inl ⟨x, hx, rfl⟩
      · exact .inr (.inl ⟨x, hx, rfl⟩)
      · exact .inr (.inr ⟨x, hx, rfl⟩)

/-- Where calls are not followed, only what imports and includes lead to is loaded. -/
theorem links_of_load (hb : (lib.resource? b).isSome) : Relation.ReflTransGen files.Links path b := by
  obtain ⟨hpath, t, rfl, -, -, hrun⟩ := exists_underway_of_load h
  rw [hpath]
  have hheld : (t.library.held? (b, .module)).isSome := by rwa [held?, Option.isSome_map]
  have hmade : (b, Form.module) ∈ t.made := (hrun.mem_made _).mpr
    ⟨rfl, by rw [(hrun.sound.ready_iff _).mpr hheld]; exact Option.some_ne_none _⟩
  exact Files.links_of_reaches (hrun.reached _ hmade) rfl

end Load

end Library

end ScriptBundler

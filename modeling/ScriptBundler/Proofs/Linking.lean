import Mathlib.Data.List.TakeWhile
import ScriptBundler.Proofs.Exploration
import ScriptBundler.Proofs.Hoisting
import ScriptBundler.Proofs.Inclusion

/-!
# Proofs/Linking — imports find the modules they name

    an import in a file ──resolve──▸ path ──id──▸ call in the text of a part
                                      │
                           module with that path, registered under the id

An output registers the modules that imports lead to, each under an id of its own, and an import becomes
a call with the id of the module it stands for.  Three things have to agree: the marks a walk leaves on
modules that are imported (`Graph.Flagged`), the ids (`Naming.moduleId`), and what each module makes of
the references written in it, also where it is put in place of an include (`Naming.importCalls`).
-/

namespace ScriptBundler

open scoped List

namespace Graph

variable {lib : Library} {g g' : Graph}

/-! ## Modules that are imported -/

/-- Some import leads to module `k`. -/
def HasImport (g : Graph) (k : Nat) : Prop := ∃ n ∈ g.nodes, ∃ reference, (reference, k) ∈ n.imports

/-- An import that leads to module `k`, by the number of the module it is in. -/
theorem hasImport_iff {k : Nat} : g.HasImport k ↔
    ∃ (i : Nat) (n : Node), g.nodes[i]? = some n ∧ ∃ reference, (reference, k) ∈ n.imports := by
  constructor
  · rintro ⟨n, hn, hedge⟩
    obtain ⟨i, hi⟩ := List.mem_iff_getElem?.mp hn
    exact ⟨i, n, hi, hedge⟩
  · rintro ⟨i, n, hi, hedge⟩
    exact ⟨n, List.mem_of_getElem? hi, hedge⟩

theorem size_connect (g : Graph) (i : Nat) (kind : Kind) (reference : String) (j : Nat) :
    (g.connect i kind reference j).size = g.size := by
  cases kind <;> simp [connect, size]

/-- A new edge is an import that leads to its target, if it is one. -/
theorem hasImport_connect {i j k : Nat} {kind : Kind} {reference : String} (hi : i < g.size) :
    (g.connect i kind reference j).HasImport k ↔ g.HasImport k ∨ (j = k ∧ kind.isImport) := by
  rw [hasImport_iff, hasImport_iff]
  constructor
  · rintro ⟨i', n, hn, reference', hedge⟩
    rw [getElem?_connect] at hn
    obtain ⟨n₀, hn₀, rfl⟩ := Option.map_eq_some_iff.mp hn
    rcases List.mem_append.mp hedge with hedge | hedge
    · exact .inl ⟨i', n₀, hn₀, reference', hedge⟩
    · split at hedge
      · rename_i hik
        exact .inr ⟨(Prod.mk.inj (List.mem_singleton.mp hedge)).2.symm, hik.2⟩
      · cases hedge
  · rintro (⟨i', n, hn, reference', hedge⟩ | ⟨rfl, hkind⟩)
    · refine ⟨i', _, by rw [getElem?_connect, hn]; rfl, reference', ?_⟩
      exact List.mem_append_left _ hedge
    · refine ⟨i, _, by rw [getElem?_connect, List.getElem?_eq_getElem hi]; rfl, reference, ?_⟩
      simp [hkind]

/-- **The invariant of a walk**: the modules marked are those that an import leads to, and those in
`pending`, whose import is being followed. -/
structure Flagged (pending : List Nat) (g : Graph) : Prop where
  inRange : ∀ k, g.HasImport k → k < g.size
  pending_lt : ∀ k ∈ pending, k < g.size
  imported_iff : ∀ (k : Nat) (n : Node), g.nodes[k]? = some n →
    (n.imported = true ↔ k ∈ pending ∨ g.HasImport k)

namespace Flagged

variable {pending : List Nat}

/-- A new module is pending if it is imported. -/
theorem push (h : Flagged pending g) (child : Resource) (kind : Kind) :
    Flagged (if kind.isImport then g.size :: pending else pending) (g.push (.ofResource child kind)) := by
  have hsize : (g.push (.ofResource child kind)).size = g.size + 1 := by simp [size]
  have himport : ∀ k, (g.push (.ofResource child kind)).HasImport k ↔ g.HasImport k := by
    intro k
    constructor
    · rintro ⟨n, hn, reference, hedge⟩
      rw [nodes_push] at hn
      rcases List.mem_append.mp hn with hn | hn
      · exact ⟨n, hn, reference, hedge⟩
      · rw [List.mem_singleton.mp hn] at hedge
        cases hedge
    · rintro ⟨n, hn, hedge⟩
      exact ⟨n, List.mem_append_left _ hn, hedge⟩
  have hmem : ∀ k, k ∈ (if kind.isImport then g.size :: pending else pending) ↔
      (k = g.size ∧ kind.isImport) ∨ k ∈ pending := by
    intro k
    split <;> simp [*]
  refine ⟨fun k hk => ?_, fun k hk => ?_, fun k n hn => ?_⟩
  · have := h.inRange k ((himport k).mp hk)
    omega
  · rcases (hmem k).mp hk with ⟨rfl, -⟩ | hk
    · omega
    · have := h.pending_lt k hk
      omega
  · rw [himport, hmem]
    by_cases hk : k < g.size
    · rw [nodes_push, List.getElem?_append_left hk] at hn
      have hne : k ≠ g.size := Nat.ne_of_lt hk
      simpa [hne] using h.imported_iff k n hn
    · -- The module that was added: no edge leads to it yet.
      have hkn : k = g.size := by
        have := (List.getElem?_eq_some_iff.mp hn).1
        rw [nodes_push, List.length_append] at this
        simp only [size, List.length_singleton] at this hk ⊢
        omega
      subst hkn
      have hedge : ¬ g.HasImport g.size := fun hedge => Nat.lt_irrefl _ (h.inRange _ hedge)
      have hpending : g.size ∉ pending := fun hmem => Nat.lt_irrefl _ (h.pending_lt _ hmem)
      rw [Option.some.inj (hn.symm.trans (getElem?_push g _))]
      cases kind <;> simp [Node.ofResource, Kind.isImport, hedge, hpending]

/-- Once an import is noted, the module it leads to is no longer pending. -/
theorem connect {pending' : List Nat} {i j : Nat} {kind : Kind} (h : Flagged pending' g) (hi : i < g.size)
    (hj : j < g.size) (reference : String) (hsub : pending ⊆ pending')
    (hdone : ∀ k ∈ pending', k ∈ pending ∨ (j = k ∧ kind.isImport)) :
    Flagged pending (g.connect i kind reference j) := by
  refine ⟨fun k hk => ?_, fun k hk => ?_, fun k n hn => ?_⟩
  · rw [size_connect]
    rcases (hasImport_connect hi).mp hk with hk | ⟨rfl, -⟩
    · exact h.inRange k hk
    · exact hj
  · rw [size_connect]
    exact h.pending_lt k (hsub hk)
  · rw [getElem?_connect] at hn
    obtain ⟨n₀, hn₀, rfl⟩ := Option.map_eq_some_iff.mp hn
    rw [hasImport_connect hi, Bool.or_eq_true, decide_eq_true_eq, h.imported_iff k n₀ hn₀]
    constructor
    · rintro ((hk | hk) | hk)
      · exact (hdone k hk).imp_right .inr
      · exact .inr (.inl hk)
      · exact .inr (.inr hk)
    · rintro (hk | hk | hk)
      · exact .inl (.inl (hsub hk))
      · exact .inl (.inr hk)
      · exact .inr hk

/-- What a module reads besides modules does not matter. -/
theorem note (h : Flagged pending g) (i : Nat) (injections natives : List (String × String)) :
    Flagged pending (g.modify i fun n => { n with injections, natives }) := by
  have hnode : ∀ (k : Nat), ∃ f : Node → Node,
      (g.modify i fun n => { n with injections, natives }).nodes[k]? = (g.nodes[k]?).map f ∧
      ∀ n, (f n).imports = n.imports ∧ (f n).imported = n.imported := by
    intro k
    refine ⟨fun n => if i = k then { n with injections, natives } else n, ?_, fun n => ?_⟩
    · rw [nodes_modify, List.getElem?_modify]
      rfl
    · dsimp only
      split <;> exact ⟨rfl, rfl⟩
  have himport : ∀ k, (g.modify i fun n => { n with injections, natives }).HasImport k ↔ g.HasImport k := by
    intro k
    rw [hasImport_iff, hasImport_iff]
    constructor
    · rintro ⟨i', n, hn, reference, hedge⟩
      obtain ⟨f, hf, hkeep⟩ := hnode i'
      rw [hf] at hn
      obtain ⟨n₀, hn₀, rfl⟩ := Option.map_eq_some_iff.mp hn
      exact ⟨i', n₀, hn₀, reference, (hkeep n₀).1 ▸ hedge⟩
    · rintro ⟨i', n, hn, reference, hedge⟩
      obtain ⟨f, hf, hkeep⟩ := hnode i'
      exact ⟨i', f n, by rw [hf, hn]; rfl, reference, (hkeep n).1.symm ▸ hedge⟩
  have hsize : (g.modify i fun n => { n with injections, natives }).size = g.size := by simp [size]
  refine ⟨fun k hk => ?_, fun k hk => ?_, fun k n hn => ?_⟩
  · rw [hsize]
    exact h.inRange k ((himport k).mp hk)
  · rw [hsize]
    exact h.pending_lt k hk
  · obtain ⟨f, hf, hkeep⟩ := hnode k
    rw [hf] at hn
    obtain ⟨n₀, hn₀, rfl⟩ := Option.map_eq_some_iff.mp hn
    rw [himport, (hkeep n₀).2, h.imported_iff k n₀ hn₀]

end Flagged

/-- A walk keeps the marks right.  The induction is on the bound; while a new module is walked from, it
is pending if an import led to it. -/
theorem walk_flagged : ∀ {n : Nat} {stack : List String} {i : Nat} {r : Resource} {g g' : Graph}
    {pending : List Nat}, Flagged pending g → i < g.size → walk lib n stack i r g = .ok g' →
      Flagged pending g' ∧ g.size ≤ g'.size
  | 0, _, _, _, g, g', _, hg, _, h => by
    obtain rfl := Except.ok.inj h
    exact ⟨hg, Nat.le_refl _⟩
  | n + 1, stack, i, r, g, g', pending, hg, hi, h => by
    rw [walk_succ] at h
    obtain ⟨g₁, hfold, h⟩ := Except.bind_eq_ok.mp h
    obtain ⟨injections, -, h⟩ := Except.bind_eq_ok.mp h
    rw [← Except.ok.inj h]
    have hsize : ∀ g : Graph, (g.modify i fun n => { n with
        injections, natives := r.script.mentions.natives.filterMap (native? lib r.path) }).size = g.size :=
      fun g => by simp [size]
    have hrun : Flagged pending g₁ ∧ g.size ≤ g₁.size := by
      refine foldlM_preserves (P := fun g' => Flagged pending g' ∧ g.size ≤ g'.size)
        (fun g₂ ref g₃ hg₂ hfollow => ?_) ⟨hg, Nat.le_refl _⟩ hfold
      obtain ⟨hg₂, hle⟩ := hg₂
      obtain ⟨path, -, ⟨j, hj, -, rfl⟩ | ⟨-, child, g₄, hchild, hwalk, rfl⟩⟩ := follow_eq_ok hfollow
      · obtain ⟨m, hm, -⟩ := find?_eq_some hj
        rw [size_connect]
        exact ⟨hg₂.connect (by omega) (List.getElem?_eq_some_iff.mp hm).1 _ (List.Subset.refl _)
          fun k hk => .inl hk, hle⟩
      · have hpush : (g₂.push (.ofResource child ref.2)).size = g₂.size + 1 := by simp [size]
        obtain ⟨hg₄, hle'⟩ := walk_flagged (hg₂.push child ref.2) (by omega) hwalk
        rw [size_connect]
        refine ⟨hg₄.connect (by omega) (by omega) _ (fun k hk => ?_) fun k hk => ?_, by omega⟩
        · split
          · exact List.mem_cons_of_mem _ hk
          · exact hk
        · split at hk
          · rename_i hkind
            rcases List.mem_cons.mp hk with rfl | hk
            · exact .inr ⟨rfl, hkind⟩
            · exact .inl hk
          · exact .inl hk
    exact ⟨hrun.1.note i _ _, by rw [hsize]; exact hrun.2⟩

/-- Modules are flagged when all imports were followed. -/
theorem flagged_of_resolve {entry : String} (h : resolve lib entry = .ok g) : Flagged [] g := by
  obtain ⟨r, -, h⟩ := Except.bind_eq_ok.mp h
  have hsingle : ∀ k, ¬ (single r).HasImport k := by
    rintro k ⟨n, hn, reference, hedge⟩
    rw [List.mem_singleton.mp hn] at hedge
    cases hedge
  have hstart : Flagged [] (single r) := by
    refine ⟨fun k hk => absurd hk (hsingle k), by simp, fun k n hn => ?_⟩
    have hmarked : n.imported = false := by
      rw [List.mem_singleton.mp (List.mem_of_getElem? hn)]
      rfl
    simp [hmarked, hsingle k]
  exact (walk_flagged hstart Nat.one_pos h).1

/-! ## What references stand for -/

/-- A graph that was resolved: its walk has ended, and no cycle can be reached from its entry. -/
theorem exploring_of_resolve {entry : String} (hkeyed : lib.Keyed) (h : resolve lib entry = .ok g) :
    Exploring lib [] g ∧ Visits lib.targets [] [entry] g.paths ∧ lib.Grounded entry := by
  obtain ⟨r, hr, -⟩ := Except.bind_eq_ok.mp h
  have hends := resolve_ends hkeyed (resource_eq_ok hr)
  rwa [h] at hends

/-- No import leads to the entry. -/
theorem not_hasImport_entry {entry : String} (hkeyed : lib.Keyed) (h : resolve lib entry = .ok g) :
    ¬ g.HasImport 0 := by
  obtain ⟨hexploring, hvisits, hgrounded⟩ := exploring_of_resolve hkeyed h
  rintro ⟨n, hn, reference, hedge⟩
  obtain ⟨m, hm, -, hcites⟩ := hexploring.meant n hn true (reference, 0) hedge
  -- The entry is the module the walk comes to first.
  have hentry : m.path = entry := by
    have hhead := hvisits.head?_eq
    rw [List.head?_eq_getElem?, getElem?_paths hm rfl] at hhead
    exact Option.some.inj hhead
  have hreach : lib.Reaches entry n.path := hvisits.mem_iff.mp (List.mem_map_of_mem hn)
  exact hgrounded.acyclic n.path hreach (.head' (hentry ▸ hcites) hreach)

/-- A module of a graph that was resolved: what an import of its script stands for. -/
theorem exists_target_of_resolve {entry : String} (hkeyed : lib.Keyed) (h : resolve lib entry = .ok g)
    {n : Node} (hn : n ∈ g.nodes) {ref : Reference} (href : ref ∈ n.script.mentions.imports) :
    ∃ j t, g.nodes[j]? = some t ∧ n.imports.lookup ref.path = some j ∧ j ≠ 0 ∧ g.HasImport j ∧
      lib.resolved? n.path ref.path = some t.path := by
  obtain ⟨hexploring, hvisits, -⟩ := exploring_of_resolve hkeyed h
  obtain ⟨r, hr, hscript, hlinked⟩ := (hexploring.spans hvisits).linked n hn
  have hmem : (ref, Kind.import_) ∈ references r.script :=
    mem_references.mpr (.inl ⟨hscript ▸ href, rfl⟩)
  obtain ⟨q, j, hq, hj, hfind⟩ := hlinked _ hmem
  obtain ⟨t, ht, rfl⟩ := find?_eq_some hfind
  have hlookup : n.imports.lookup ref.path = some j := hj
  have himport : g.HasImport j := ⟨n, hn, ref.path, mem_of_lookup hlookup⟩
  exact ⟨j, t, ht, hlookup, fun hzero => not_hasImport_entry hkeyed h (hzero ▸ himport), himport, hq⟩

/-- **What is registered** are the imported modules, apart from the entry. -/
theorem mem_registered {entry : String} (h : resolve lib entry = .ok g) {i : Nat} :
    i ∈ g.registered ↔ i ≠ 0 ∧ g.HasImport i := by
  have hflagged := flagged_of_resolve h
  simp only [registered, List.mem_filter, List.mem_range, decide_eq_true_eq]
  constructor
  · rintro ⟨hi, hne, himported⟩
    obtain ⟨n, hn, himported⟩ := (Option.any_eq_true _ _).mp himported
    exact ⟨hne, ((hflagged.imported_iff i n hn).mp himported).resolve_left List.not_mem_nil⟩
  · rintro ⟨hne, himport⟩
    have hi := hflagged.inRange i himport
    have hget : g.nodes[i]? = some g.nodes[i] := List.getElem?_eq_getElem hi
    exact ⟨hi, hne, (Option.any_eq_true _ _).mpr
      ⟨_, hget, (hflagged.imported_iff i _ hget).mpr (.inr himport)⟩⟩

/-- The modules that are registered: all but the entry that some import leads to. -/
theorem mem_bundle_registered {entry : String} (h : resolve lib entry = .ok g) {settings : Settings}
    (hdev : settings.devMode = false) {m : Module} : m ∈ Bundle.registered settings g ↔
      ∃ i, i ≠ 0 ∧ g.modules[i]? = some m ∧ g.HasImport i := by
  rw [Bundle.registered, if_neg (by simp [hdev]), List.mem_filterMap]
  constructor
  · rintro ⟨i, hi, hm⟩
    exact ⟨i, (mem_registered h).mp hi |>.1, hm, (mem_registered h).mp hi |>.2⟩
  · rintro ⟨i, hne, hm, himport⟩
    exact ⟨i, (mem_registered h).mpr ⟨hne, himport⟩, hm⟩

theorem map_path_modules (g : Graph) : g.modules.map (·.path) = g.paths := by
  rw [modules, List.map_map]
  rfl

/-- Modules are registered once. -/
theorem nodup_registered {entry : String} (hkeyed : lib.Keyed) (h : resolve lib entry = .ok g)
    (settings : Settings) : ((Bundle.registered settings g).map (·.path)).Nodup := by
  obtain ⟨hexploring, -, -⟩ := exploring_of_resolve hkeyed h
  unfold Bundle.registered
  split
  · exact List.nodup_nil
  · rw [List.map_filterMap]
    have hnodup : g.registered.Nodup := List.nodup_range.filter _
    have hpath : ∀ {i : Nat} {p : String}, p ∈ (g.modules[i]?).map Module.path → g.paths[i]? = some p := by
      intro i p hp
      rwa [← List.getElem?_map, map_path_modules] at hp
    exact hnodup.filterMap fun i j p hi hj =>
      getElem?_paths_inj hexploring.nodup (hpath hi) (hpath hj)

end Graph

/-! ## Ids -/

namespace Naming

theorem modules_addIdentifier (n : Naming) (x : String) : (n.addIdentifier x).modules = n.modules := by
  unfold addIdentifier
  split
  · rfl
  · split <;> rfl

theorem modules_finalize (n : Naming) : n.finalize.1.modules = n.modules := by
  unfold finalize
  split <;> rfl

/-- The ids of modules are asked for in the order of their paths. -/
theorem modules_enter (n : Naming) (paths : List String) (named counted : List Script) :
    (n.enter paths named counted).1.modules =
      paths.foldl (fun s path => (s.create path).2) n.modules := by
  have hmodules : ∀ n : Naming, (paths.foldl addModule n).modules =
      paths.foldl (fun s path => (s.create path).2) n.modules := by
    induction paths with
    | nil => exact fun _ => rfl
    | cons path paths ih => exact fun n => ih (n.addModule path)
  rw [enter, modules_finalize, foldl_keeps Naming.modules addLiteral fun _ _ => rfl,
    foldl_keeps Naming.modules addIdentifier modules_addIdentifier, hmodules]

end Naming

/-- Every key that is asked for gets a name. -/
theorem NameSupply.exists_get?_foldl_create {keys : List String} {key : String} (h : key ∈ keys)
    (s : NameSupply) : ∃ name, (keys.foldl (fun s key => (s.create key).2) s).get? key = some name := by
  have hkept : ∀ (keys : List String) (s : NameSupply) {name : String}, s.get? key = some name →
      (keys.foldl (fun s key => (s.create key).2) s).get? key = some name := by
    intro keys
    induction keys with
    | nil => exact fun _ _ h => h
    | cons other keys ih => exact fun s _ h => ih _ (get?_create_of_eq_some h)
  induction keys generalizing s with
  | nil => cases h
  | cons other keys ih =>
    rcases List.mem_cons.mp h with rfl | h
    · exact ⟨_, hkept keys _ (get?_create_self s key)⟩
    · exact ih h _

/-- **Modules have ids of their own.** -/
theorem Bundle.moduleId_injective {settings : Settings} {relocate : String → String} {g : Graph}
    {runtime : Option Script} {p q : String} (hp : p ∈ g.modules.map (·.path))
    (hq : q ∈ g.modules.map (·.path))
    (h : (naming settings relocate g runtime).moduleId p = (naming settings relocate g runtime).moduleId q) :
    p = q := by
  unfold Naming.moduleId at h
  split at h
  · exact h
  · have hmodules : (naming settings relocate g runtime).modules =
        (g.modules.map (·.path)).foldl (fun s path => (s.create path).2)
          (.ofAlphabet settings.alphabet [] []) := Naming.modules_enter ..
    rw [hmodules] at h
    have hsound := (NameSupply.Sound.ofAlphabet settings.alphabet [] []).foldl_create
      (g.modules.map (·.path))
    obtain ⟨x, hx⟩ := NameSupply.exists_get?_foldl_create hp (.ofAlphabet settings.alphabet [] [])
    obtain ⟨y, hy⟩ := NameSupply.exists_get?_foldl_create hq (.ofAlphabet settings.alphabet [] [])
    rw [hx, hy, Option.getD_some, Option.getD_some] at h
    exact hsound.get?_injective hx (h ▸ hy)

/-! ## Texts that are not empty -/

namespace Layout

/-- Some text of a layout has a letter that is no line break. -/
def Inked (l : Layout) : Prop := ∃ s, .text s ∈ l ∧ ∃ c ∈ s.toList, c ≠ '\n'

theorem Inked.append_left {l : Layout} (h : Inked l) (m : Layout) : Inked (l ++ m) := by
  obtain ⟨s, hs, hc⟩ := h
  exact ⟨s, List.mem_append_left _ hs, hc⟩

theorem Inked.append_right {m : Layout} (h : Inked m) (l : Layout) : Inked (l ++ m) := by
  obtain ⟨s, hs, hc⟩ := h
  exact ⟨s, List.mem_append_right _ hs, hc⟩

theorem inked_text {s : String} {c : Char} (h : c ∈ s.toList) (hc : c ≠ '\n') : Inked (text s) := by
  have hne : s.isEmpty = false := by
    rw [String.isEmpty_eq_false_iff]
    rintro rfl
    cases h
  exact ⟨s, by simp [text, hne], c, h, hc⟩

theorem suffix_continueLine {c : Char} {base out : List Char} (h : c :: base <:+ out) (hc : c ≠ '\n') :
    c :: base <:+ continueLine out := by
  unfold continueLine
  split
  · rename_i rest
    have hrest : c :: base <:+ rest :=
      (List.suffix_cons_iff.mp h).resolve_left fun heq => hc (List.cons.inj heq).1
    dsimp only
    split
    · exact hrest
    · exact hrest
    · exact hrest.trans (List.suffix_cons _ _)
  · dsimp only
    split
    · exact h
    · exact h
    · exact h.trans (List.suffix_cons _ _)

/-- What is written up to a letter that is no line break stays. -/
theorem suffix_write {c : Char} {base out : List Char} (h : c :: base <:+ out) (hc : c ≠ '\n') (p : Piece) :
    c :: base <:+ write out p := by
  have hcomment : ∀ (s : List Char) {out : List Char}, c :: base <:+ out →
      c :: base <:+ s ++ '/' :: '/' :: out := fun s out h =>
    h.trans (((List.suffix_cons _ _).trans (List.suffix_cons _ _)).trans (List.suffix_append _ _))
  match p with
  | .text s => exact h.trans (List.suffix_append _ _)
  | .eol => exact h.trans (List.suffix_cons _ _)
  | .comment s true => exact hcomment _ (suffix_continueLine h hc)
  | .comment s false => exact hcomment _ h

/-- What was written before a line break is not taken back. -/
theorem prefix_join {c : Char} {base : List Char} (hc : c ≠ '\n') (l m : Layout)
    (h : c :: base <:+ l.foldl write []) : (c :: base).reverse <+: (l ++ m).join.toList := by
  have hkept : ∀ (m : Layout) {out : List Char}, c :: base <:+ out → c :: base <:+ m.foldl write out := by
    intro m
    induction m with
    | nil => exact fun h => h
    | cons p m ih => exact fun h => ih (suffix_write h hc p)
  have hdrop : ∀ out : List Char, c :: base <:+ out → c :: base <:+ out.dropWhile (· == '\n') := by
    intro out h
    induction out with
    | nil => exact h
    | cons d out ih =>
      rw [List.dropWhile_cons]
      split
      · rename_i hd
        rcases List.suffix_cons_iff.mp h with heq | h
        · obtain ⟨rfl, -⟩ := List.cons.inj heq
          exact absurd (beq_iff_eq.mp hd) hc
        · exact ih h
      · exact h
  rw [join, String.toList_ofList, List.reverse_prefix, List.foldl_append]
  exact hdrop _ (hkept m h)

/-- A layout starts with a text that does not end in a line break. -/
theorem prefix_join_text {s : String} {c : Char} {init : List Char} (hs : s.toList = init ++ [c])
    (hc : c ≠ '\n') (l : Layout) : s.toList <+: (text s ++ l).join.toList := by
  have hne : s.isEmpty = false := by
    rw [String.isEmpty_eq_false_iff]
    rintro rfl
    simp at hs
  have hwritten : c :: init.reverse <:+ (text s).foldl write [] := by
    simp [text, hne, write, hs]
  simpa [hs] using prefix_join hc (text s) l hwritten

/-- A layout with a letter in it leaves a text. -/
theorem Inked.join_ne_empty {l : Layout} (h : Inked l) : l.join ≠ "" := by
  obtain ⟨s, hs, c, hmem, hc⟩ := h
  obtain ⟨before, after, rfl⟩ := List.append_of_mem hs
  obtain ⟨init, rest, hsplit⟩ := List.append_of_mem hmem
  have hwritten : c :: (init.reverse ++ before.foldl write []) <:+
      (before ++ [Piece.text s]).foldl write [] := by
    simp [write, hsplit]
  have hprefix := prefix_join hc (before ++ [Piece.text s]) after hwritten
  intro hempty
  rw [List.append_assoc, List.singleton_append] at hprefix
  rw [hempty] at hprefix
  simpa using hprefix.length_le

end Layout

/-- From every state on, what is written has `P`. -/
def Write.Leaves {α : Type} (P : α → Prop) (w : Write α) : Prop :=
  ∀ s, Ends (w s) (fun p => P p.1) fun _ => True

namespace Write.Leaves

variable {α β : Type} {P : α → Prop} {Q : β → Prop} {w : Write α}

protected theorem pure {a : α} (h : P a) : Leaves P (pure a) := fun _ => h

theorem bind {k : α → Write β} (h : Leaves P w) (hk : ∀ a, P a → Leaves Q (k a)) : Leaves Q (w >>= k) :=
  fun s => Ends.bind (h s) fun p hp => hk p.1 hp p.2

/-- What is written first need not be known. -/
theorem after {k : α → Write β} (hk : ∀ a, Leaves Q (k a)) : Leaves Q (w >>= k) := by
  refine bind (P := fun _ => True) (fun s => ?_) fun a _ => hk a
  cases w s <;> trivial

end Write.Leaves

/-- A text that was written is that of a layout. -/
theorem Scene.textOf_eq_ok {w : Write Layout} {t : String} (h : Scene.textOf w = .ok t) :
    ∃ l inlined, w [] = .ok (l, inlined) ∧ t = l.join := by
  have hrun : Scene.textOf w = (w []).map fun p => p.1.join := by
    show Layout.join <$> (Prod.fst <$> w []) = _
    cases w [] <;> rfl
  rw [hrun] at h
  cases hw : w [] with
  | error e =>
    rw [hw] at h
    cases h
  | ok p =>
    rw [hw] at h
    exact ⟨p.1, p.2, rfl, (Except.ok.inj h).symm⟩

theorem Write.Leaves.exists_layout {P : Layout → Prop} {w : Write Layout} (h : w.Leaves P) {t : String}
    (ht : Scene.textOf w = .ok t) : ∃ l, P l ∧ t = l.join := by
  obtain ⟨l, inlined, hrun, hjoin⟩ := Scene.textOf_eq_ok ht
  have hends := h []
  rw [hrun] at hends
  exact ⟨l, hends, hjoin⟩

/-- The place of the module `id` in the module table. -/
def Naming.tableCell (n : Naming) (id : String) : String :=
  let table := n.runtimeName "__MODULES"
  s!"{table}[{quote id}]"

/-- The call that loads the module `id`. -/
def Naming.requireCall (n : Naming) (id : String) : String :=
  let require := n.runtimeName "__REQUIRE"
  s!"{require}({quote id})"

/-- How an import of the module at `path` under the name `name` is written. -/
def Naming.importCall (n : Naming) (name path : String) : Layout.Piece :=
  let call := n.requireCall (n.moduleId path)
  match n.settings.mode with
  | .minified => .text s!"{n.identifier name}={call}"
  | _ => .text s!"{name} = {call}"

/-- The name and the path of an import. -/
def Node.import? : Node → Option (Ident × String)
  | .stmt ⟨.directive (.import_ name path), _⟩ => some (name, path)
  | _ => none

/-- An import is a statement of that form. -/
theorem Node.import?_eq_some {n : Node} {name : Ident} {path : String} :
    n.import? = some (name, path) ↔ ∃ span, n = .stmt ⟨.directive (.import_ name path), span⟩ := by
  constructor
  · intro h
    unfold Node.import? at h
    split at h
    · obtain ⟨rfl, rfl⟩ := Prod.mk.inj (Option.some.inj h)
      exact ⟨_, rfl⟩
    · cases h
  · rintro ⟨span, rfl⟩
    rfl

/-- The imports of a module as they are written: each is a call for the module that it stands for in the
file it is written in. -/
def Naming.importCalls (files : Files) (n : Naming) (m : Module) : Layout :=
  (m.script.nodes.filterMap Node.import?).map fun p => n.importCall p.1.name (files.resolve m.path p.2)

namespace Scene

open Layout (text eol)

/-- An import is written as a call for the module that its path stands for. -/
theorem marks_of_import (scene : Scene) {m : Module} (hdev : scene.settings.devMode = false) {node : Node}
    {name : Ident} {path : String} (hnode : node.import? = some (name, path)) {p : Nat × Module}
    (h : Module.target? scene.modules m.imports path = some p) :
    (scene.inside m).marks node = [scene.naming.importCall name.name p.2.path] := by
  obtain ⟨span, rfl⟩ := Node.import?_eq_some.mp hnode
  have himport : (scene.inside m).import? path = some p.2 := by
    rw [import?_inside hdev, h]
    rfl
  have hcall : ∀ equals name, equals ≠ "" → text ((scene.inside m).importText equals name path) =
      [.text s!"{name}{equals}{scene.naming.requireCall (scene.naming.moduleId p.2.path)}"] := by
    intro equals name hequals
    rw [importText, himport, text, if_neg (by simp [toString, hequals])]
    simp only [Naming.requireCall, String.append_assoc, toString]
    rfl
  show text ((scene.inside m).importLine name path) = _
  unfold importLine Naming.importCall
  rw [settings_inside, settings]
  cases scene.naming.settings.mode with
  | minified => exact hcall "=" (scene.naming.identifier name.name) (by decide)
  | verbatim | reformatted => exact hcall " = " name.name (by decide)

/-- The text of a module that is registered starts with its place in the module table. -/
theorem prefix_registered (scene : Scene) {id : String} {s : Script} {l : Layout} {placed inlined : List Nat}
    (h : scene.registered id s placed = .ok (l, inlined)) :
    (scene.naming.tableCell id).toList <+: l.join.toList := by
  rw [registered_eq, map_eq_pure_bind] at h
  obtain ⟨p, -, hp⟩ := Except.bind_eq_ok.mp h
  obtain rfl : scene.framed (some id) p.1 = l := (Prod.mk.inj (Except.ok.inj hp)).1
  have hcell : (scene.moduleHeader scene.naming.manner.equals id).toList =
      (scene.naming.tableCell id).toList ++ (scene.naming.manner.equals.toList ++ "function(".toList ++
        (scene.naming.runtimeName "module").toList) ++ [')'] := by
    simp [moduleHeader, Naming.tableCell, toString]
  have hjoin := Layout.prefix_join_text hcell (by decide) (eol ++ p.1 ++ text "end function")
  refine List.IsPrefix.trans ?_ (by simpa only [framed, Option.elim_some, List.append_assoc] using hjoin)
  rw [hcell, List.append_assoc]
  exact List.prefix_append _ _

/-- The first of some rows is no comment and leaves a text. -/
def FirstInked (rows : List Row) : Prop :=
  ∃ r rs, rows = r :: rs ∧ Row.comment r = none ∧ Layout.Inked r.layout

/-- Arranged rows leave a text if the first of them does. -/
theorem FirstInked.arrangeAll {rows : List Row} (h : FirstInked rows) :
    Layout.Inked (Row.arrangeAll rows) := by
  obtain ⟨r, rs, rfl, hcomment, hlayout⟩ := h
  rw [Row.arrangeAll, Row.arrange, hcomment]
  exact (hlayout.append_right _).append_left _

/-- A script that starts with an assignment leaves a text. -/
theorem leaves_script (scene : Scene) {s : Script} {op : AssignOp} {target value : Expr} {span : Span}
    {ss : List Stmt} (h : s.body = ⟨.assign op target value, span⟩ :: ss) :
    (scene.script s).Leaves Layout.Inked := by
  have hspaced : Layout.Inked (text s!" {op.symbol.spelling} ") := by
    refine Layout.inked_text (c := ' ') ?_ (by decide)
    rw [String.toList_append]
    exact List.mem_append_right _ (List.mem_singleton_self _)
  have hline : ∀ l l' indent, Layout.Inked (indent ++ (l ++ text s!" {op.symbol.spelling} " ++ l') ++ eol) :=
    fun l l' indent => (((hspaced.append_right l).append_left l').append_right indent).append_left eol
  have hplain : Layout.Inked (text op.symbol.spelling) := by
    cases op <;> exact Layout.inked_text (c := '=') (by decide) (by decide)
  unfold Scene.script
  cases scene.settings.mode with
  | verbatim =>
    rw [Verbatim.script, Verbatim.scriptAt, h, Verbatim.rows, Verbatim.line, map_eq_pure_bind]
    refine .bind (P := FirstInked) (.bind (P := fun l => ∃ k k', l = k ++ text s!" {op.symbol.spelling} " ++ k')
      (.after fun k => .after fun k' => .pure ⟨k, k', rfl⟩) ?_) fun rows hrows => .pure hrows.arrangeAll
    rintro l ⟨k, k', rfl⟩
    rw [pure_bind]
    exact .after fun rs => .pure ⟨_, rs, rfl, rfl, hline k k' _⟩
  | minified =>
    have hend : ∀ l l', Layout.Inked (Minified.endLine scene ⟨.assign op target value, span⟩
        (l ++ text op.symbol.spelling ++ l')) := by
      intro l l'
      have hl := (hplain.append_right l).append_left l'
      exact hl.append_left eol
    rw [Minified.script, h, Minified.stmts, Minified.line, map_eq_pure_bind]
    refine .bind (P := Layout.Inked) ?_ fun l hl => .after fun l' => .pure (hl.append_left l')
    refine .bind (P := fun l => ∃ k k', l = k ++ text op.symbol.spelling ++ k')
      (.after fun k => .after fun k' => .pure ⟨k, k', rfl⟩) ?_
    rintro l ⟨k, k', rfl⟩
    exact .pure (hend k k')
  | reformatted =>
    rw [Reformatted.script, Reformatted.scriptAt, h, Reformatted.rows, Reformatted.line, map_eq_pure_bind]
    refine .bind (P := FirstInked) (.bind (P := fun l => ∃ k k', l = k ++ text s!" {op.symbol.spelling} " ++ k')
      (.after fun k => .after fun k' => .pure ⟨k, k', rfl⟩) ?_) fun rows hrows => .pure hrows.arrangeAll
    rintro l ⟨k, k', rfl⟩
    rw [pure_bind]
    exact .after fun rs => .pure ⟨_, rs, rfl, rfl, hline k k' _⟩

end Scene

/-! ## Outputs -/

/-- What is made of a list is made of its items one by one. -/
theorem forall₂_of_mapM {ε α β : Type} {f : α → Except ε β} {R : α → β → Prop} :
    ∀ {as : List α} {bs : List β}, (∀ a ∈ as, ∀ b, f a = .ok b → R a b) → as.mapM f = .ok bs →
      List.Forall₂ R as bs
  | [], bs, _, h => by
    obtain rfl := Except.ok.inj h
    exact .nil
  | a :: as, bs, hall, h => by
    rw [List.mapM_cons] at h
    obtain ⟨b, hb, h⟩ := Except.bind_eq_ok.mp h
    obtain ⟨bs', hbs, h⟩ := Except.bind_eq_ok.mp h
    obtain rfl := Except.ok.inj h
    exact .cons (hall a (List.mem_cons_self ..) b hb)
      (forall₂_of_mapM (fun a ha => hall a (List.mem_cons_of_mem _ ha)) hbs)

/-- Pairs that each have something in common have a list of it. -/
theorem exists_of_forall₂ {α β γ : Type} {f : γ → α} {k : γ → β} {P : γ → Prop} {as : List α}
    {bs : List β} (h : List.Forall₂ (fun a b => ∃ c, f c = a ∧ k c = b ∧ P c) as bs) :
    ∃ cs : List γ, cs.map f = as ∧ cs.map k = bs ∧ ∀ c ∈ cs, P c := by
  induction h with
  | nil => exact ⟨[], rfl, rfl, by simp⟩
  | cons hab _ ih =>
    obtain ⟨c, rfl, rfl, hc⟩ := hab
    obtain ⟨cs, rfl, rfl, hcs⟩ := ih
    exact ⟨c :: cs, rfl, rfl, List.forall_mem_cons.mpr ⟨hc, hcs⟩⟩

/-- A part of an output that comes from a module: what is written, and which modules are put in place of
includes in it. -/
structure Chunk where
  module : Module
  layout : Layout
  inlined : List Nat

namespace Chunk

/-- The modules whose statements are in a part. -/
def modules (c : Chunk) (g : Graph) : List Module := c.module :: c.inlined.filterMap (g.modules[·]?)

/-- The parts of an output come from modules of the graph. -/
theorem mem_modules {g : Graph} {chunks : List Chunk} {settings : Settings}
    (h : chunks.map (·.module) = Bundle.registered settings g ++ [g.entry.toModule]) {c : Chunk}
    (hc : c ∈ chunks) {m : Module} (hm : m ∈ c.modules g) : m ∈ g.modules := by
  rcases List.mem_cons.mp hm with rfl | hm
  · have hmem : c.module ∈ Bundle.registered settings g ++ [g.entry.toModule] :=
      h ▸ List.mem_map_of_mem hc
    rcases List.mem_append.mp hmem with hmem | hmem
    · exact Bundle.mem_modules_of_registered hmem
    · rw [List.mem_singleton.mp hmem]
      exact List.mem_cons_self
  · obtain ⟨i, -, hi⟩ := List.mem_filterMap.mp hm
    exact List.mem_of_getElem? hi

end Chunk

namespace Bundle

theorem part_eq_ok {path t : String} {text : Except WriteError String} (h : part path text = .ok t) :
    text = .ok t := by
  cases text with
  | error e => cases h
  | ok s => exact congrArg _ (Except.ok.inj h)

/-- The runtime leaves a text. -/
theorem standalone_runtimeSource_ne_empty {n : Naming} {s : Script} {t : String}
    (hs : runtimeSource.parse = .ok s) (ht : Scene.standalone n s = .ok t) : t ≠ "" := by
  obtain ⟨s', op, target, value, span, ss, hs', hbody⟩ := exists_parse_runtimeSource
  obtain rfl : s = s' := Except.ok.inj (hs.symm.trans hs')
  obtain ⟨l, hl, rfl⟩ := (Scene.leaves_script _ hbody).exists_layout ht
  exact hl.join_ne_empty

/-- The runtime is there exactly if there are modules to load. -/
theorem isSome_runtime {modules : List Module} {runtime : Option Script}
    (h : Bundle.runtime modules = .ok runtime) : runtime.isSome ↔ modules ≠ [] := by
  unfold Bundle.runtime at h
  cases modules with
  | nil =>
    obtain rfl := Except.ok.inj h
    simp
  | cons m modules =>
    rw [if_neg (by simp)] at h
    obtain ⟨s, -, -, -, -, -, hparse, -⟩ := exists_parse_runtimeSource
    rw [hparse] at h
    obtain rfl := Except.ok.inj h
    simp

end Bundle

/-- A name of the runtime is written as any other, unless it was excluded. -/
theorem Naming.runtimeName_eq_identifier {n : Naming} {x : String} (hx : x ∈ Reserved.runtimeNames)
    (hexcluded : x ∉ n.settings.excludedIdentifiers) : n.runtimeName x = n.identifier x := by
  have hintrinsic : ∀ x ∈ Reserved.runtimeNames, x ∉ Reserved.intrinsics := by decide
  have hkeeps : n.keeps x = false := by simp [keeps, hintrinsic x hx, hexcluded]
  rw [runtimeName, identifier, hkeeps]
  cases n.settings.renames <;> rfl

namespace Graph

variable {files : Files} {lib : Library} {entry : String} {g : Graph}

/-- What an import of a module stands for, in the graph and among the files. -/
theorem exists_target_of_import (hlib : lib.Reached files) (hg : resolve lib entry = .ok g) {m : Module}
    (hm : m ∈ g.modules) {p : Ident × String} (hp : p ∈ m.script.nodes.filterMap Node.import?) :
    ∃ j t, Module.target? g.modules m.imports p.2 = some (j, t) ∧ j ≠ 0 ∧ g.HasImport j ∧
      files.resolve m.path p.2 = t.path := by
  have hmention : .import_ p.2 ∈ mentionsOf m.script.nodes := by
    obtain ⟨n, hn, himport⟩ := List.mem_filterMap.mp hp
    obtain ⟨span, rfl⟩ := Node.import?_eq_some.mp himport
    exact List.mem_flatMap.mpr ⟨_, hn, by simp [Node.mentions, Directive.mentions]⟩
  obtain ⟨source, hparse⟩ := parsed_of_resolve hlib hg m hm
  obtain ⟨node, hnode, rfl⟩ := List.mem_map.mp hm
  have hrecorded : p.2 ∈ node.script.mentions.imports.map Reference.path := by
    rw [(Source.paths_of_parse hparse).1]
    exact List.mem_filterMap.mpr ⟨_, hmention, rfl⟩
  obtain ⟨ref, href, href'⟩ := List.mem_map.mp hrecorded
  rw [← href']
  obtain ⟨j, t, ht, hlookup, hne, himport, hresolved⟩ := exists_target_of_resolve hlib.keyed hg hnode href
  obtain ⟨made, hhistory⟩ := hlib.history
  refine ⟨j, t.toModule, Module.target?_eq_some.mpr ⟨hlookup, ?_⟩, hne, himport,
    (hhistory.sound.consistent _ _ _ hresolved).symm⟩
  rw [modules, List.getElem?_map, ht]
  rfl

/-- The imports of a module are written as calls for the modules they stand for. -/
theorem importCalls_sublist (hlib : lib.Reached files) (hg : resolve lib entry = .ok g) {n : Naming}
    (hdev : n.settings.devMode = false) {m : Module} (hm : m ∈ g.modules) :
    n.importCalls files m <+ Scene.marksOf { naming := n, modules := g.modules } m := by
  rw [Naming.importCalls, List.filterMap_eq_flatMap_toList, List.map_flatMap, Scene.marksOf]
  refine List.Sublist.flatMap_right _ fun node hnode => ?_
  cases himport : node.import? with
  | none => exact List.nil_sublist _
  | some p =>
    have hpath : p ∈ m.script.nodes.filterMap Node.import? := List.mem_filterMap.mpr ⟨node, hnode, himport⟩
    obtain ⟨j, t, htarget, -, -, hresolved⟩ := exists_target_of_import hlib hg hm hpath
    rw [Scene.marks_of_import { naming := n, modules := g.modules } hdev himport htarget, ← hresolved]
    exact .refl _

/-- The parts of an output, each import in them written as the call for the module it stands for in the
file it is written in. -/
structure Links (files : Files) (g : Graph) (settings : Settings) (n : Naming) (runtime : Option Script)
    (header : List String) (bodies : List Chunk) (main : Chunk) : Prop where
  /-- All modules but the entry that some import leads to are registered, and no others. -/
  registered_iff : ∀ m, m ∈ Bundle.registered settings g ↔
    ∃ i, i ≠ 0 ∧ g.modules[i]? = some m ∧ g.HasImport i
  /-- Each is registered once. -/
  registered_nodup : ((Bundle.registered settings g).map (·.path)).Nodup
  /-- Modules have ids of their own. -/
  ids_nodup : (g.modules.map fun m => n.moduleId m.path).Nodup
  /-- The module table is there if something is registered. -/
  runtime_iff : runtime.isSome ↔ Bundle.registered settings g ≠ []
  runtime_parse : ∀ s ∈ runtime, runtimeSource.parse = .ok s
  header : List.Forall₂ (fun s text => text ≠ "" ∧ Scene.standalone n s = .ok text) runtime.toList header
  /-- There is one part for each module that is registered. -/
  registered : bodies.map (·.module) = Bundle.registered settings g
  /-- It puts the module in the module table under its id. -/
  table : ∀ c ∈ bodies, (n.tableCell (n.moduleId c.module.path)).toList <+: c.layout.join.toList ∧
    Scene.registered ⟨n, g.modules, c.module⟩ (n.moduleId c.module.path) c.module.script [] =
      .ok (c.layout, c.inlined)
  /-- The last part is that of the entry. -/
  last : main.module = g.entry.toModule ∧
    Scene.script ⟨n, g.modules, main.module⟩ main.module.script [] = .ok (main.layout, main.inlined)
  /-- The modules that are put in place in a part are those that includes of its module lead to. -/
  inlined : ∀ c ∈ bodies ++ [main], ∀ i, i ∈ c.inlined ↔
    ∃ t, .module t ∈ Scene.allDemands ⟨n, g.modules, c.module⟩ c.module.script.body ∧
      Relation.ReflTransGen (Scene.Leads ⟨n, g.modules, none⟩) t i
  /-- An import stands for a module that is registered. -/
  destination : ∀ m ∈ g.modules, ∀ p ∈ m.script.nodes.filterMap Node.import?,
    ∃ t ∈ Bundle.registered settings g, files.resolve m.path p.2 = t.path
  /-- **Every import of the module of a part, and of the modules put in place in it, is written there as a
  call**, with the id of the module that it stands for in the file it is written in. -/
  calls : ∀ c ∈ bodies ++ [main], (c.modules g).flatMap (n.importCalls files) <+~ c.layout
  /-- The names that modules use of the module table are those it is written with. -/
  tableNames : ∀ x ∈ Reserved.runtimeNames, x ∉ settings.excludedIdentifiers →
    n.runtimeName x = n.identifier x

/-- The ids of the modules of a graph. -/
theorem nodup_ids (hlib : lib.Reached files) (hg : resolve lib entry = .ok g) (settings : Settings)
    (relocate : String → String) (runtime : Option Script) :
    (g.modules.map fun m => (Bundle.naming settings relocate g runtime).moduleId m.path).Nodup := by
  obtain ⟨hexploring, -, -⟩ := exploring_of_resolve hlib.keyed hg
  have hpaths : (g.modules.map (·.path)).Nodup := by
    rw [map_path_modules]
    exact hexploring.nodup
  have hids := hpaths.map_on (f := (Bundle.naming settings relocate g runtime).moduleId)
    fun p hp q hq h => Bundle.moduleId_injective hp hq h
  rwa [List.map_map] at hids

/-- The parts of an output in their order. -/
theorem exists_chunks {settings : Settings} (hdev : settings.devMode = false) {relocate : String → String}
    {runtime : Option Script} (hruntime : Bundle.runtime (Bundle.registered settings g) = .ok runtime)
    {n : Naming} (hn : Bundle.naming settings relocate g runtime = n) {output : String}
    (h : g.bundle settings relocate = .ok output) : ∃ (header : List String) (bodies : List Chunk)
      (main : Chunk),
      runtime.toList.mapM (fun s => Bundle.part runtimeSource.name (Scene.standalone n s)) = .ok header ∧
      bodies.map (·.module) = Bundle.registered settings g ∧
      (∀ c ∈ bodies, Scene.registered ⟨n, g.modules, c.module⟩ (n.moduleId c.module.path) c.module.script [] =
        .ok (c.layout, c.inlined)) ∧
      (main.module = g.entry.toModule ∧
        Scene.script ⟨n, g.modules, main.module⟩ main.module.script [] = .ok (main.layout, main.inlined)) ∧
      output = Bundle.joinParts (Bundle.separator settings.mode)
        (Bundle.preamble n :: header ++ (bodies ++ [main]).map (·.layout.join)) := by
  unfold Graph.bundle at h
  obtain ⟨runtime', hruntime', h⟩ := Except.bind_eq_ok.mp h
  obtain rfl : runtime = runtime' := Except.ok.inj (hruntime.symm.trans hruntime')
  rw [hn, hdev] at h
  obtain ⟨header, hheader, h⟩ := Except.bind_eq_ok.mp h
  obtain ⟨bodies, hbodies, h⟩ := Except.bind_eq_ok.mp h
  obtain ⟨main, hmain, h⟩ := Except.bind_eq_ok.mp h
  -- A text comes from a layout, which is written with some modules in place of includes.
  obtain ⟨chunks, hmodules, rfl, hchunks⟩ := exists_of_forall₂ (f := Chunk.module) (k := (·.layout.join))
    (P := fun c => Scene.registered ⟨n, g.modules, c.module⟩ (n.moduleId c.module.path) c.module.script [] =
      .ok (c.layout, c.inlined)) <| forall₂_of_mapM (fun m _ t ht => by
        obtain ⟨l, inlined, hrun, rfl⟩ := Scene.textOf_eq_ok (Bundle.part_eq_ok ht)
        exact ⟨⟨m, l, inlined⟩, rfl, rfl, hrun⟩) hbodies
  obtain ⟨l, inlined, hrun, rfl⟩ := Scene.textOf_eq_ok (Bundle.part_eq_ok hmain)
  refine ⟨header, chunks, ⟨g.entry.toModule, l, inlined⟩, hheader, hmodules, hchunks, ⟨rfl, hrun⟩, ?_⟩
  rw [← Except.ok.inj h, List.map_append, ← List.append_assoc]
  rfl

/-- **Imports find the modules they name**, in the entry, in modules that are registered and in those
put in place of an include, however deep. -/
theorem bundle_links (hlib : lib.Reached files) (hg : resolve lib entry = .ok g) {settings : Settings}
    (hdev : settings.devMode = false) {relocate : String → String} {output : String}
    (h : g.bundle settings relocate = .ok output) :
    ∃ (runtime : Option Script) (header : List String) (bodies : List Chunk) (main : Chunk),
      output = Bundle.joinParts (Bundle.separator settings.mode)
        (Bundle.preamble (Bundle.naming settings relocate g runtime) :: header ++
          (bodies ++ [main]).map (·.layout.join)) ∧
      Links files g settings (Bundle.naming settings relocate g runtime) runtime header bodies main := by
  obtain ⟨runtime, hruntime, hparse⟩ := Bundle.exists_runtime (Bundle.registered settings g)
  have hsettings := Bundle.settings_naming settings relocate g runtime
  obtain ⟨header, bodies, main, hheader, hmodules, hbodies, hmain, houtput⟩ :=
    exists_chunks hdev hruntime rfl h
  refine ⟨runtime, header, bodies, main, houtput, ?_⟩
  have hndev : (Bundle.naming settings relocate g runtime).settings.devMode = false := by
    rw [hsettings, hdev]
  have hchunk : ∀ c ∈ bodies ++ [main], ∃ w, w [] = .ok (c.layout, c.inlined) ∧
      Scene.IsChunk ⟨Bundle.naming settings relocate g runtime, g.modules, none⟩ c.module w := by
    intro c hc
    rcases List.mem_append.mp hc with hc | hc
    · exact ⟨_, hbodies c hc, .inr ⟨_, rfl⟩⟩
    · obtain rfl := List.mem_singleton.mp hc
      exact ⟨_, hmain.2, .inl rfl⟩
  have hparts : (bodies ++ [main]).map (·.module) = Bundle.registered settings g ++ [g.entry.toModule] := by
    rw [List.map_append, hmodules, List.map_singleton, hmain.1]
  exact {
    registered_iff := fun m => mem_bundle_registered hg hdev
    registered_nodup := nodup_registered hlib.keyed hg settings
    ids_nodup := nodup_ids hlib hg settings relocate runtime
    runtime_iff := Bundle.isSome_runtime hruntime
    runtime_parse := hparse
    header := by
      refine forall₂_of_mapM (fun s hs text htext => ?_) hheader
      have htext := Bundle.part_eq_ok htext
      exact ⟨Bundle.standalone_runtimeSource_ne_empty (hparse s (Option.mem_toList.mp hs)) htext, htext⟩
    registered := hmodules
    table := by
      intro c hc
      have hcell := Scene.prefix_registered _ (hbodies c hc)
      exact ⟨hcell, hbodies c hc⟩
    last := hmain
    inlined := by
      intro c hc i
      obtain ⟨w, hrun, hw⟩ := hchunk c hc
      exact (hw.gathers hrun).mem_iff
    destination := by
      intro m hm p hp
      obtain ⟨j, t, htarget, hne, himport, hresolved⟩ := exists_target_of_import hlib hg hm hp
      have hget := (Module.target?_eq_some.mp htarget).2
      exact ⟨t, (mem_bundle_registered hg hdev).mpr ⟨j, hne, hget, himport⟩, hresolved⟩
    calls := by
      intro c hc
      obtain ⟨w, hrun, hw⟩ := hchunk c hc
      have hsublist := List.Sublist.flatMap_right (c.modules g) fun m hm =>
        importCalls_sublist hlib hg hndev (Chunk.mem_modules hparts hc hm)
      exact hsublist.subperm.trans (hw.marks_subperm hrun)
    tableNames := fun x hx hexcluded =>
      Naming.runtimeName_eq_identifier hx (by rwa [hsettings]) }

/-- An entry that includes a file in a directory, which imports a file next to it. -/
def nested : Files where
  texts := [("a.src", "#include \"lib/b\"\nx=m"), ("lib/b.src", "#import m from \"c\""),
    ("lib/c.src", "module.exports=1")]

theorem bundle_links_nested : ∃ g output,
    resolve (Library.load nested {} "a.src").2 "a.src" = .ok g ∧
    g.bundle { mode := .minified } = .ok output ∧
    ∃ (runtime : Option Script) (header : List String) (bodies : List Chunk) (main : Chunk),
      output = Bundle.joinParts "\n"
        (Bundle.preamble (Bundle.naming { mode := .minified } id g runtime) :: header ++
          (bodies ++ [main]).map (·.layout.join)) ∧
      Links nested g { mode := .minified } (Bundle.naming { mode := .minified } id g runtime) runtime
        header bodies main := by
  have hsome : ((resolve (Library.load nested {} "a.src").2 "a.src").toOption.bind fun g =>
      (g.bundle { mode := .minified }).toOption).isSome = true := by decide +kernel
  obtain ⟨output, hsome⟩ := Option.isSome_iff_exists.mp hsome
  obtain ⟨g, hresolve, hbundle⟩ := Option.bind_eq_some_iff.mp hsome
  have hresolve := Except.toOption_eq_some hresolve
  have hbundle := Except.toOption_eq_some hbundle
  have hlib : (Library.load nested {} "a.src").2.Reached nested := .load "a.src" (.empty false)
  have hlinks := bundle_links hlib hresolve rfl hbundle
  exact ⟨g, output, hresolve, hbundle, hlinks⟩

end Graph

end ScriptBundler

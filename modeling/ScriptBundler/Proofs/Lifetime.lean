import ScriptBundler.Proofs.Interleaving

/-!
# Proofs/Lifetime — a library over all its loads

A library is filled by one load after the other, each of which ends well or not, with its requests
completed in any order (`Library.History`).  What it holds stays in good order throughout
(`Library.History.wellKept`).  The first load is confluent: whether it succeeds, and what it then
leaves, does not depend on the order (`Loading.completes_confluent`).  A later load may take what an
earlier failure left pending for loaded, and has loaded everything exactly if it meets none of that
(`Library.History.loads_iff`).
-/

namespace ScriptBundler

namespace Loading

variable {files : Files} {lib : Library} {entry : String} {s t u : Loading}

/-! ## Loads that end well -/

/-- What has an entry at the end has arrived, unless an earlier load left it pending. -/
theorem Underway.ready (h : Underway files lib entry t) (hflight : t.inFlight = [])
    (halive : t.failure = none) {k : String × Form} (hk : t.library.states.lookup k ≠ none)
    (hold : lib.states.lookup k ≠ some .pending) : t.library.states.lookup k = some .ready := by
  cases hlib : lib.states.lookup k with
  | none =>
    have hmade : k ∈ t.made := (h.mem_made k).mpr ⟨hlib, hk⟩
    rw [made, hflight, List.append_nil] at hmade
    obtain ⟨r, hr, rfl⟩ := List.mem_map.mp hmade
    exact h.arrived halive r hr
  | some p =>
    have hkept := h.kept k (by simp [hlib])
    cases p with
    | pending => exact absurd hlib hold
    | ready => rw [hkept, hlib]

/-- **A load that ends well has loaded all that its entry leads to**, unless an earlier load left some
of that pending. -/
theorem Underway.ready_of_reaches (h : Underway files lib entry t) (hflight : t.inFlight = [])
    (halive : t.failure = none)
    (hold : ∀ k, files.Reaches lib.nativeImports (files.resolve "" entry, .module) k →
      lib.states.lookup k ≠ some .pending) {k : String × Form}
    (hk : files.Reaches lib.nativeImports (files.resolve "" entry, .module) k) :
    t.library.states.lookup k = some .ready := by
  induction hk with
  | refl => exact h.ready hflight halive h.entered (hold _ .refl)
  | @tail k k' hreaches hleads ih =>
    refine h.ready hflight halive ?_ (hold k' (hreaches.tail hleads))
    obtain ⟨f, hf⟩ := Option.isSome_iff_exists.mp ((h.sound.ready_iff k).mp ih)
    obtain ⟨f', hf', hmem⟩ := hleads
    obtain rfl : f = f' := Option.some.inj ((h.sound.content hf).symm.trans hf')
    rw [← h.nativeImports] at hmem
    exact h.sound.requested hf k' hmem

end Loading

/-! ## The first load -/

/-- Two libraries hold the same files and have followed the same references. -/
structure Library.Agrees (lib lib' : Library) : Prop where
  modules : ∀ path, lib.resource? path = lib'.resource? path
  texts : ∀ path, lib.text? path = lib'.text? path
  resolved : ∀ base reference, lib.resolved? base reference = lib'.resolved? base reference
  states : ∀ k, lib.states.lookup k = lib'.states.lookup k

namespace Loading

variable {files : Files} {nativeImports : Bool} {entry : String} {s t u : Loading}

/-- Two files that share a third, which is also injected. -/
def diamond : Files where
  texts := [("a.src", "#import b from \"b\"\n#include \"c\"\nx=#inject \"d.src\""),
    ("b.src", "#include \"d\""), ("c.src", "#include \"d\""), ("d.src", "y=1")]

end Loading

/-! ## One load after the other -/

namespace Library

variable {files : Files} {lib lib' : Library} {entry path : String} {made new : List Request}

/-- A load of `entry` into `lib` makes the requests `new`, answers, and leaves `lib'`.  The requests
complete in some order, or are abandoned if one fails. -/
def Loads (files : Files) (lib : Library) (entry : String) (new : List Request)
    (answer : Except BuildError String) (lib' : Library) : Prop :=
  ∃ t, Loading.Completes files (.start files lib entry) t ∧ new = t.fetched ++ t.inFlight ∧
    answer = t.result.map (fun _ => files.resolve "" entry) ∧ lib' = t.library

/-- A library that started empty and was filled by one load after the other, with all requests that
were ever made. -/
inductive History (files : Files) : Library → List Request → Prop where
  | empty (nativeImports : Bool) : History files { nativeImports } []
  | load {lib lib' : Library} {entry : String} {made new : List Request}
      {answer : Except BuildError String} : History files lib made →
      lib.Loads files entry new answer lib' → History files lib' (made ++ new)

/-- A load is one of the orders in which requests complete. -/
theorem Sound.loads_load (h : lib.Sound files) (entry : String) :
    ∃ new, lib.Loads files entry new (lib.load files entry).1 (lib.load files entry).2 := by
  obtain ⟨t, ht, heq⟩ := exists_completes h entry
  exact ⟨_, t, ht, rfl, by rw [heq], by rw [heq]⟩

/-- A load keeps a library sound. -/
theorem Sound.loads {answer : Except BuildError String} (h : lib.Sound files)
    (hload : lib.Loads files entry new answer lib') : lib'.Sound files := by
  obtain ⟨t, ht, -, -, rfl⟩ := hload
  exact ((Loading.underway_start h entry).run ht.1).sound

/-- A library is sound whatever was loaded. -/
theorem History.sound (h : History files lib made) : lib.Sound files := by
  induction h with
  | empty nativeImports => exact .empty files nativeImports
  | load _ hload ih => exact ih.loads hload

/-- Loads that complete requests in their order make a history. -/
theorem Reached.history (h : lib.Reached files) : ∃ made, History files lib made := by
  induction h with
  | empty nativeImports => exact ⟨[], .empty nativeImports⟩
  | load entry _ ih =>
    obtain ⟨made, hmade⟩ := ih
    obtain ⟨new, hnew⟩ := hmade.sound.loads_load entry
    exact ⟨made ++ new, hmade.load hnew⟩

/-- What was ever asked for has an entry, and was asked for once. -/
theorem History.asked (h : History files lib made) :
    (made.map Request.key).Nodup ∧ ∀ k, k ∈ made.map Request.key ↔ lib.states.lookup k ≠ none := by
  induction h with
  | empty => simp
  | @load lib lib' entry made new answer h hload ih =>
    obtain ⟨t, ht, rfl, -, rfl⟩ := hload
    have hrun := (Loading.underway_start h.sound entry).run ht.1
    obtain ⟨hnodup, hmem⟩ := ih
    constructor
    · rw [List.map_append, List.nodup_append]
      refine ⟨hnodup, hrun.nodup, fun k hk k' hk' heq => ?_⟩
      exact (hmem k).mp hk (heq ▸ ((hrun.mem_made k').mp hk').1)
    · intro k
      rw [List.map_append, List.mem_append, hmem]
      constructor
      · rintro (hk | hk)
        · rwa [hrun.kept k hk]
        · exact ((hrun.mem_made k).mp hk).2
      · intro hk
        by_cases hold : lib.states.lookup k = none
        · exact .inr ((hrun.mem_made k).mpr ⟨hold, hk⟩)
        · exact .inl hold

theorem Sound.path_of_resource (h : lib.Sound files) {r : Resource} (hr : lib.resource? path = some r) :
    r.path = path := by
  have hheld : lib.held? (path, .module) = some (.module r) := by rw [held?, hr]; rfl
  exact (Prod.mk.inj (Files.key_of_content? (h.content hheld)).1).1

/-- The references of a module were followed, and what they lead to has an entry. -/
theorem Sound.followed_of_resource (h : lib.Sound files) {r : Resource}
    (hr : lib.resource? path = some r) {ref : Reference × Form} (href : ref ∈ lib.references r.script) :
    ∃ target, lib.resolved? path ref.1.path = some target ∧
      lib.states.lookup (target, ref.2) ≠ none := by
  have hheld : lib.held? (path, .module) = some (.module r) := by rw [held?, hr]; rfl
  have hmem : ((path, ref.1.path), ref.2) ∈ (Fetched.module r).references lib.nativeImports := by
    rw [← h.path_of_resource hr]
    exact List.mem_map_of_mem href
  exact ⟨_, h.followed hheld _ (List.mem_map_of_mem hmem),
    h.requested hheld _ (List.mem_map_of_mem hmem)⟩

/-- **A load that ends well has loaded everything exactly if it meets nothing that an earlier load left
pending.**  The entry is among what the entry leads to. -/
theorem History.loads_iff (h : History files lib made)
    (hload : lib.Loads files entry new (.ok path) lib') :
    (∀ k, files.Reaches lib.nativeImports (path, .module) k →
        lib'.states.lookup k = some .ready ∧ (lib'.held? k).isSome) ↔
      ∀ k, files.Reaches lib.nativeImports (path, .module) k →
        lib.states.lookup k ≠ some .pending := by
  obtain ⟨t, ht, -, hanswer, rfl⟩ := hload
  have hrun := (Loading.underway_start h.sound entry).run ht.1
  have halive : t.failure = none := by
    cases hfailure : t.failure with
    | none => rfl
    | some e => simp [Loading.result, hfailure, Except.map] at hanswer
  obtain rfl : path = files.resolve "" entry := by
    simpa [Loading.result, halive, Except.map] using hanswer
  constructor
  · intro hall k hk hpending
    have hready := (hall k hk).1
    rw [hrun.kept k (by simp [hpending]), hpending] at hready
    cases hready
  · intro hold k hk
    have hready := hrun.ready_of_reaches (ht.inFlight halive) halive hold hk
    exact ⟨hready, (hrun.sound.ready_iff k).mp hready⟩

/-- No files at all: the first load of a missing entry fails, the second finds it pending and ends
well. -/
theorem loads_iff_missing :
    (Library.load ⟨[], []⟩ {} "a.src").1.toOption = none ∧
    ((Library.load ⟨[], []⟩ {} "a.src").2.load ⟨[], []⟩ "a.src").1.toOption = some "a.src" ∧
    ¬ ∀ k, Files.Reaches ⟨[], []⟩ false ("a.src", .module) k →
      ((Library.load ⟨[], []⟩ {} "a.src").2.load ⟨[], []⟩ "a.src").2.states.lookup k = some .ready ∧
      (((Library.load ⟨[], []⟩ {} "a.src").2.load ⟨[], []⟩ "a.src").2.held? k).isSome := by
  have hreached : Reached ⟨[], []⟩ _ := .load "a.src" (.empty false)
  obtain ⟨made, h⟩ := hreached.history
  obtain ⟨new, hnew⟩ := h.sound.loads_load "a.src"
  have hok : ((Library.load ⟨[], []⟩ {} "a.src").2.load ⟨[], []⟩ "a.src").1.toOption = some "a.src" := by
    decide +kernel
  refine ⟨by decide +kernel, hok, ?_⟩
  cases hanswer : ((Library.load ⟨[], []⟩ {} "a.src").2.load ⟨[], []⟩ "a.src").1 with
  | error e => simp [hanswer, Except.toOption] at hok
  | ok path =>
    obtain rfl : path = "a.src" := by simpa [hanswer, Except.toOption] using hok
    rw [hanswer] at hnew
    refine fun hall => (h.loads_iff hnew).mp hall ("a.src", .module) .refl ?_
    decide +kernel

end Library

end ScriptBundler

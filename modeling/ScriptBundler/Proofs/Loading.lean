import ScriptBundler.Library

/-!
# Proofs/Loading — what a library holds after loading

A library that loads have filled (`Library.Reached`) holds modules under their own paths, each with
the script that its text was read as.
-/

namespace ScriptBundler

/-! ## Tables -/

section Lookup

variable {α β : Type} [BEq α] [LawfulBEq α] {l : List (α × β)} {a : α}

theorem mem_of_lookup {b : β} (h : l.lookup a = some b) : (a, b) ∈ l := by
  obtain ⟨before, after, heq, -⟩ := List.lookup_eq_some_iff.mp h
  simp [heq]

theorem isSome_lookup_iff : (l.lookup a).isSome ↔ a ∈ l.map Prod.fst := by
  rw [List.lookup_isSome_iff, List.mem_map]
  exact exists_congr fun _ => and_congr_right fun _ => by rw [beq_iff_eq, eq_comm]

/-- What stands under a key is an entry for it. -/
theorem exists_lookup (h : a ∈ l.map Prod.fst) : ∃ b, l.lookup a = some b ∧ (a, b) ∈ l := by
  obtain ⟨b, hb⟩ := Option.isSome_iff_exists.mp (isSome_lookup_iff.mpr h)
  exact ⟨b, hb, mem_of_lookup hb⟩

end Lookup

namespace Library

variable {files : Files} {lib : Library}

/-- A library that started empty and was filled by loading one entry after the other. -/
inductive Reached (files : Files) : Library → Prop where
  | empty (nativeImports : Bool) : Reached files { nativeImports }
  | load {lib : Library} (entry : String) : Reached files lib → Reached files (lib.load files entry).2

/-- The library and the requests before the first one is completed. -/
def opened (files : Files) (lib : Library) (entry : String) : List Request × Library :=
  let (path, lib) := lib.resolve files "" entry
  lib.schedule [{ path, form := .module }]

/-- Loading opens the entry and completes all requests. -/
theorem load_eq (entry : String) : lib.load files entry =
    ((completeAll files (requestBound files) (lib.opened files entry).2
        (lib.opened files entry).1).1.map fun _ => (lib.resolve files "" entry).1,
      (completeAll files (requestBound files) (lib.opened files entry).2
        (lib.opened files entry).1).2) := rfl

/-! ## Steps that leave the modules -/

@[simp] theorem resolve_modules (base reference : String) :
    (lib.resolve files base reference).2.modules = lib.modules := by
  unfold resolve
  split <;> rfl

/-- Following references loads no module. -/
@[simp] theorem resolveAll_modules (base : String) (refs : List (Reference × Form)) :
    (resolveAll files base lib refs).2.modules = lib.modules := by
  induction refs generalizing lib with
  | nil => rfl
  | cons r refs ih =>
    obtain ⟨reference, form⟩ := r
    exact ih.trans (resolve_modules base reference.path)

/-- Asking for files loads no module. -/
@[simp] theorem schedule_modules (rs : List Request) : (lib.schedule rs).2.modules = lib.modules := by
  induction rs generalizing lib with
  | nil => rfl
  | cons r rs ih =>
    unfold schedule
    split
    · exact ih
    · exact ih

@[simp] theorem noteRead_modules (path : String) :
    (lib.noteRead files path).modules = lib.modules := by
  unfold noteRead
  split <;> rfl

/-! ## Modules and their scripts -/

/-- Every module stands under its own path, with the script that its text was read as. -/
def Faithful (lib : Library) : Prop :=
  ∀ p ∈ lib.modules, p.2.path = p.1 ∧ Source.parse ⟨p.2.path, p.2.source⟩ = .ok p.2.script

/-- Whether a library is faithful depends on its modules. -/
theorem Faithful.of_modules {lib' : Library} (h : lib.Faithful) (heq : lib'.modules = lib.modules) :
    lib'.Faithful := by
  rw [Faithful, heq]
  exact h

/-- A module that arrives was read from its text. -/
theorem parse_of_fetch {r : Request} {resource : Resource}
    (h : r.fetch files = .ok (.module resource)) :
    Source.parse ⟨resource.path, resource.source⟩ = .ok resource.script := by
  unfold Request.fetch at h
  split at h
  · cases h
  · cases h
  · split at h
    · cases h
    · split at h
      · rename_i script hparse
        obtain rfl : Resource.mk r.path _ script = resource := by
          injection Except.ok.inj h
        exact hparse
      · cases h

/-- A request that is completed keeps a library faithful. -/
theorem Faithful.complete (h : lib.Faithful) (r : Request) : (lib.complete files r).2.Faithful := by
  have hread : (lib.noteRead files r.path).Faithful := h.of_modules (noteRead_modules _)
  unfold Library.complete
  split
  · rename_i fetched hfetch
    cases fetched with
    | text path text => exact hread.of_modules rfl
    | module resource =>
      intro p hp
      simp only [store, markReady, schedule_modules, resolveAll_modules] at hp
      rcases List.mem_append.mp hp with hp | hp
      · exact hread p hp
      · rw [List.mem_singleton.mp hp]
        exact ⟨rfl, parse_of_fetch hfetch⟩
  · exact hread

/-- All requests that are completed keep a library faithful. -/
theorem Faithful.completeAll (h : lib.Faithful) (n : Nat) (queue : List Request) :
    (completeAll files n lib queue).2.Faithful := by
  induction n generalizing lib queue with
  | zero => exact h
  | succ n ih =>
    cases queue with
    | nil => exact h
    | cons r queue =>
      have hnext : (lib.complete files r).2.Faithful := h.complete r
      unfold Library.completeAll
      split
      · rename_i new lib' hrun
        rw [hrun] at hnext
        exact ih hnext _
      · rename_i e lib' hrun
        rw [hrun] at hnext
        exact hnext

/-- **Whatever is loaded, every module has the script of its text.** -/
theorem Reached.faithful (h : lib.Reached files) : lib.Faithful := by
  induction h with
  | empty nativeImports => exact fun p hp => absurd hp List.not_mem_nil
  | @load lib entry _ ih =>
    rw [load_eq]
    refine Faithful.completeAll (ih.of_modules ?_) _ _
    rw [opened, schedule_modules, resolve_modules]

end Library

end ScriptBundler

import Mathlib.Data.List.Nodup
import ScriptBundler.Proofs.Loading

/-!
# Proofs/Requests — what completing a request does

A library is read through three maps: how far a file is in a form (`states`), what of it is held
(`held?`), and where references lead (`resolved?`).  Completing a request changes them in one way
(`Library.Arrival`): the file becomes ready and is held, and what it refers to becomes pending unless
it was asked for before.
-/

namespace ScriptBundler

theorem lookup_concat {α β : Type} [BEq α] [LawfulBEq α] [DecidableEq α] (l : List (α × β))
    (a k : α) (b : β) : (l ++ [(a, b)]).lookup k = (l.lookup k).or (if k = a then some b else none) := by
  rw [List.lookup_append]
  by_cases hk : k = a
  · simp [hk]
  · have hne : (k == a) = false := by simpa using hk
    simp [List.lookup_cons, hne, hk]

/-! ## Files in a form -/

/-- The file and the form that a request asks for. -/
def Request.key (r : Request) : String × Form := (r.path, r.form)

/-- What arrives for a file in a form, if it can be fetched. -/
def Files.content? (files : Files) (k : String × Form) : Option Fetched :=
  (Request.fetch files { path := k.1, form := k.2 }).toOption

/-- Who asks for a file matters for the failure only. -/
theorem Files.content?_key (files : Files) (r : Request) :
    files.content? r.key = (r.fetch files).toOption := by
  unfold Files.content? Request.key Request.fetch
  cases files.read r.path with
  | error e => cases e <;> rfl
  | ok text =>
    cases r.form with
    | text => rfl
    | module => cases Source.parse ⟨r.path, text⟩ <;> rfl

/-- A request is answered with what the files hold. -/
theorem Request.fetch_eq_ok_iff {files : Files} {r : Request} {f : Fetched} :
    r.fetch files = .ok f ↔ files.content? r.key = some f := by
  rw [Files.content?_key]
  cases r.fetch files with
  | ok g => exact ⟨fun h => congrArg some (Except.ok.inj h), fun h => congrArg _ (Option.some.inj h)⟩
  | error e =>
    constructor
    · intro h
      cases h
    · intro h
      cases h

/-- The file and the form that have arrived. -/
def Fetched.key : Fetched → String × Form
  | .module r => (r.path, .module)
  | .text path _ => (path, .text)

/-- What arrives is what was asked for, and its file can be read. -/
theorem Files.key_of_content? {files : Files} {k : String × Form} {f : Fetched}
    (h : files.content? k = some f) : f.key = k ∧ ∃ text, files.read k.1 = .ok text := by
  obtain ⟨path, form⟩ := k
  unfold Files.content? Request.fetch at h
  cases hread : files.read path with
  | error e => cases e <;> simp [hread, Except.toOption] at h
  | ok text =>
    refine ⟨?_, text, rfl⟩
    cases form with
    | text =>
      simp only [hread, Except.toOption, Option.some.injEq] at h
      rw [← h]
      rfl
    | module =>
      cases hparse : Source.parse ⟨path, text⟩ with
      | error report => simp [hread, hparse, Except.toOption] at h
      | ok script =>
        simp only [hread, hparse, Except.toOption, Option.some.injEq] at h
        rw [← h]
        rfl

/-- The references of what has arrived, each with the file it stands in. -/
def Fetched.references (nativeImports : Bool) : Fetched → List ((String × String) × Form)
  | .module r =>
    (({ nativeImports } : Library).references r.script).map fun (ref, form) => ((r.path, ref.path), form)
  | .text _ _ => []

/-- The files that what has arrived refers to, in their forms. -/
def Fetched.needs (files : Files) (nativeImports : Bool) (f : Fetched) : List (String × Form) :=
  (f.references nativeImports).map fun (ref, form) => (files.resolve ref.1 ref.2, form)

namespace Library

variable {files : Files} {lib lib' : Library}

/-- What is held of a file in a form. -/
def held? (lib : Library) : String × Form → Option Fetched
  | (path, .module) => (lib.resource? path).map .module
  | (path, .text) => (lib.text? path).map (.text path)

theorem held?_congr (hmodules : lib'.modules = lib.modules) (htexts : lib'.texts = lib.texts)
    (k : String × Form) : lib'.held? k = lib.held? k := by
  obtain ⟨path, _ | _⟩ := k
  · simp only [held?, resource?, hmodules]
  · simp only [held?, text?, htexts]

/-! ## Following references -/

/-- Every reference that was followed leads where the files say. -/
def Consistent (files : Files) (lib : Library) : Prop :=
  ∀ base reference path : String,
    lib.resolved? base reference = some path → path = files.resolve base reference

theorem Consistent.congr (h : lib.Consistent files) (heq : lib'.resolved = lib.resolved) :
    lib'.Consistent files := by
  intro base reference path hpath
  refine h base reference path ?_
  rwa [resolved?, ← heq]

/-- The library `lib'` differs from `lib` in the references that were followed only, and those are the
ones of `lib` and of `refs`. -/
structure Follows (files : Files) (refs : List (String × String)) (lib lib' : Library) : Prop where
  nativeImports : lib'.nativeImports = lib.nativeImports
  states : lib'.states = lib.states
  modules : lib'.modules = lib.modules
  texts : lib'.texts = lib.texts
  resolved : ∀ base reference, lib'.resolved? base reference =
    if (base, reference) ∈ refs then some (files.resolve base reference)
    else lib.resolved? base reference

/-- References that are followed lead where the files say. -/
theorem Follows.consistent {refs : List (String × String)} (h : Follows files refs lib lib')
    (hlib : lib.Consistent files) : lib'.Consistent files := by
  intro base reference path hpath
  rw [h.resolved] at hpath
  split at hpath
  · exact (Option.some.inj hpath).symm
  · exact hlib _ _ _ hpath

theorem Follows.nil : Follows files [] lib lib where
  nativeImports := rfl
  states := rfl
  modules := rfl
  texts := rfl
  resolved _ _ := (if_neg List.not_mem_nil).symm

/-- References are followed one after another. -/
theorem Follows.trans {refs refs' : List (String × String)} {lib'' : Library}
    (h : Follows files refs lib lib') (h' : Follows files refs' lib' lib'') :
    Follows files (refs ++ refs') lib lib'' where
  nativeImports := h'.nativeImports.trans h.nativeImports
  states := h'.states.trans h.states
  modules := h'.modules.trans h.modules
  texts := h'.texts.trans h.texts
  resolved base reference := by
    rw [h'.resolved, h.resolved]
    simp only [List.mem_append]
    split <;> simp_all

/-- A reference leads where the files say, and is remembered. -/
theorem follows_resolve (h : lib.Consistent files) (base reference : String) :
    (lib.resolve files base reference).1 = files.resolve base reference ∧
      Follows files [(base, reference)] lib (lib.resolve files base reference).2 := by
  unfold resolve
  split
  · rename_i path hpath
    refine ⟨h _ _ _ hpath, rfl, rfl, rfl, rfl, fun b r => ?_⟩
    split
    · rename_i hmem
      obtain ⟨rfl, rfl⟩ := Prod.mk.inj (List.mem_singleton.mp hmem)
      rw [hpath, h _ _ _ hpath]
    · rfl
  · rename_i hnone
    dsimp only
    refine ⟨rfl, rfl, rfl, rfl, rfl, fun b r => ?_⟩
    simp only [resolved?, lookup_concat, List.mem_singleton]
    split
    · rename_i hmem
      obtain ⟨rfl, rfl⟩ := Prod.mk.inj hmem
      rw [resolved?] at hnone
      rw [hnone]
      rfl
    · exact Option.or_none

/-- So do all references of a file. -/
theorem follows_resolveAll (h : lib.Consistent files) (base : String)
    (refs : List (Reference × Form)) :
    ∃ requests lib', resolveAll files base lib refs = (requests, lib') ∧
      requests.map Request.key = refs.map (fun ref => (files.resolve base ref.1.path, ref.2)) ∧
      Follows files (refs.map fun ref => (base, ref.1.path)) lib lib' := by
  induction refs generalizing lib with
  | nil => exact ⟨[], lib, rfl, rfl, .nil⟩
  | cons ref refs ih =>
    obtain ⟨reference, form⟩ := ref
    obtain ⟨hpath, hfollows⟩ := follows_resolve h base reference.path
    obtain ⟨requests, lib', hall, hkeys, hrest⟩ := ih (hfollows.consistent h)
    refine ⟨⟨files.resolve base reference.path, form, some (base, reference.span)⟩ :: requests, lib',
      ?_, ?_, ?_⟩
    · simp only [resolveAll, hall, hpath]
    · simp only [List.map_cons, hkeys, Request.key]
    · rw [List.map_cons, ← List.singleton_append]
      exact hfollows.trans hrest

/-! ## Taking requests into account -/

/-- The entries of requests that have not been completed. -/
def waiting (rs : List Request) : List ((String × Form) × Progress) := rs.map fun r => (r.key, .pending)

/-- What waits are the requests, each of them pending. -/
theorem lookup_waiting {rs : List Request} {k : String × Form} :
    (waiting rs).lookup k = if k ∈ rs.map Request.key then some .pending else none := by
  induction rs with
  | nil => rfl
  | cons r rs ih =>
    by_cases hk : k = r.key
    · simp [waiting, hk]
    · have hne : (k == r.key) = false := by simpa using hk
      simpa [waiting, List.lookup_cons, hne, hk] using ih

/-- Scheduling adds those requests, each once, that were not made before. -/
theorem schedule_spec (lib : Library) (rs : List Request) :
    (lib.schedule rs).2 = { lib with states := lib.states ++ waiting (lib.schedule rs).1 } ∧
      ((lib.schedule rs).1.map Request.key).Nodup ∧
      ∀ k, k ∈ (lib.schedule rs).1.map Request.key ↔
        k ∈ rs.map Request.key ∧ lib.states.lookup k = none := by
  induction rs generalizing lib with
  | nil => simp [schedule, waiting]
  | cons r rs ih =>
    unfold schedule
    split
    · rename_i hseen
      obtain ⟨hlib, hnodup, hmem⟩ := ih lib
      refine ⟨hlib, hnodup, fun k => ?_⟩
      rw [hmem, List.map_cons, List.mem_cons]
      constructor
      · exact fun h => ⟨.inr h.1, h.2⟩
      · rintro ⟨rfl | h, hk⟩
        · rw [Request.key] at hk
          simp [hk] at hseen
        · exact ⟨h, hk⟩
    · rename_i hnew
      have hr : lib.states.lookup r.key = none := Option.not_isSome_iff_eq_none.mp hnew
      obtain ⟨hlib, hnodup, hmem⟩ :=
        ih { lib with states := lib.states ++ [((r.path, r.form), .pending)] }
      -- The states after the first request differ from those before it in its own entry only.
      have hstates : ∀ k, (lib.states ++ [((r.path, r.form), Progress.pending)]).lookup k = none ↔
          lib.states.lookup k = none ∧ k ≠ r.key := by
        intro k
        rw [lookup_concat, Option.or_eq_none_iff]
        exact and_congr_right fun _ => ⟨fun h hk => by simp [hk, Request.key] at h, fun h => if_neg h⟩
      refine ⟨?_, ?_, fun k => ?_⟩
      · simp only [hlib, waiting, List.map_cons, List.append_assoc, List.singleton_append, Request.key]
      · rw [List.map_cons, List.nodup_cons]
        refine ⟨fun h => ?_, hnodup⟩
        exact ((hstates _).mp ((hmem _).mp h).2).2 rfl
      · rw [List.map_cons, List.mem_cons, List.map_cons, List.mem_cons, hmem, hstates]
        constructor
        · rintro (rfl | ⟨h, hk, -⟩)
          · exact ⟨.inl rfl, hr⟩
          · exact ⟨.inr h, hk⟩
        · rintro ⟨h, hk⟩
          by_cases hkr : k = r.key
          · exact .inl hkr
          · exact .inr ⟨h.resolve_left hkr, hk, hkr⟩

/-! ## A file arrives -/

/-- The entries when the file of `k` is ready. -/
def readied (k : String × Form) (states : List ((String × Form) × Progress)) :
    List ((String × Form) × Progress) :=
  states.map fun (k', p) => (k', if k' = k then .ready else p)

/-- The file of `k` is ready, and others are as before. -/
theorem lookup_readied {k k' : String × Form} {states : List ((String × Form) × Progress)} :
    (readied k states).lookup k' = (states.lookup k').map fun p => if k' = k then .ready else p := by
  induction states with
  | nil => rfl
  | cons entry states ih =>
    obtain ⟨key, p⟩ := entry
    by_cases hk : k' = key
    · simp [readied, hk]
    · have hne : (k' == key) = false := by simpa using hk
      simpa [readied, List.lookup_cons, hne] using ih

/-- `f` arrives at the library `lib`, which becomes `lib'` and asks for `new`. -/
structure Arrival (files : Files) (lib : Library) (f : Fetched) (new : List Request)
    (lib' : Library) : Prop where
  nativeImports : lib'.nativeImports = lib.nativeImports
  nodup : (new.map Request.key).Nodup
  mem_new : ∀ k, k ∈ new.map Request.key ↔
    k ∈ f.needs files lib.nativeImports ∧ lib.states.lookup k = none
  states : lib'.states = readied f.key (lib.states ++ waiting new)
  held : ∀ k, lib'.held? k = (lib.held? k).or (if k = f.key then some f else none)
  resolved : ∀ base reference, lib'.resolved? base reference =
    if (base, reference) ∈ (f.references lib.nativeImports).map Prod.fst then
      some (files.resolve base reference)
    else lib.resolved? base reference

/-- **What a file does when it arrives**. -/
theorem arrival_store (h : lib.Consistent files) (f : Fetched) :
    Arrival files lib f (lib.store files f).1 (lib.store files f).2 := by
  cases f with
  | text path text =>
    refine ⟨rfl, List.nodup_nil, fun k => ?_, ?_, fun k => ?_, fun _ _ => rfl⟩
    · simp [store, Fetched.needs, Fetched.references]
    · simp [store, markReady, readied, waiting, Fetched.key]
    · obtain ⟨p, _ | _⟩ := k
      · simp [store, markReady, held?, resource?, Fetched.key]
      · simp only [store, markReady, held?, text?, Fetched.key, lookup_concat, Prod.mk.injEq, and_true]
        cases lib.texts.lookup p with
        | some t => rfl
        | none => split <;> simp_all
  | module r =>
    obtain ⟨requests, lib₁, hall, hkeys, hfollows⟩ :=
      follows_resolveAll h r.path (lib.references r.script)
    obtain ⟨hlib, hnodup, hmem⟩ := schedule_spec lib₁ requests
    have hstore : lib.store files (.module r) = ((lib₁.schedule requests).1,
        { (lib₁.schedule requests).2 with
          modules := (lib₁.schedule requests).2.modules ++ [(r.path, r)] }.markReady r.path .module) := by
      simp only [store, hall]
    rw [hstore, hlib]
    have hneeds : (Fetched.module r).needs files lib.nativeImports = requests.map Request.key := by
      simp only [hkeys, Fetched.needs, Fetched.references, List.map_map]
      rfl
    have hfollowed : ((Fetched.module r).references lib.nativeImports).map Prod.fst =
        (lib.references r.script).map fun ref => (r.path, ref.1.path) := by
      simp only [Fetched.references, List.map_map]
      rfl
    refine ⟨hfollows.nativeImports, hnodup, fun k => ?_, ?_, fun k => ?_, fun b ref => ?_⟩
    · rw [hmem, hneeds, hfollows.states]
    · rw [← hfollows.states]
      rfl
    · obtain ⟨p, _ | _⟩ := k
      · simp only [markReady, held?, resource?, Fetched.key, lookup_concat, hfollows.modules,
          Prod.mk.injEq, and_true]
        cases lib.modules.lookup p with
        | some t => rfl
        | none => split <;> simp_all
      · simp [markReady, held?, text?, Fetched.key, hfollows.texts]
    · rw [hfollowed, ← hfollows.resolved]
      rfl

/-! ## Completing a request -/

theorem follows_noteRead (path : String) : Follows files [] lib (lib.noteRead files path) := by
  unfold noteRead
  split
  · exact ⟨rfl, rfl, rfl, rfl, fun _ _ => (if_neg List.not_mem_nil).symm⟩
  · exact .nil

/-- What arrives where nothing but the readings differs, arrives here. -/
theorem Arrival.of_follows {lib₀ : Library} {f : Fetched} {new : List Request}
    (h : Arrival files lib f new lib') (h₀ : Follows files [] lib₀ lib) :
    Arrival files lib₀ f new lib' where
  nativeImports := h.nativeImports.trans h₀.nativeImports
  nodup := h.nodup
  mem_new k := by rw [h.mem_new, h₀.nativeImports, h₀.states]
  states := by rw [h.states, h₀.states]
  held k := by rw [h.held, held?_congr h₀.modules h₀.texts]
  resolved base reference := by
    rw [h.resolved, h₀.nativeImports, h₀.resolved, if_neg List.not_mem_nil]

/-- **A request is completed by what arrives for it.** -/
theorem complete_of_content (h : lib.Consistent files) {r : Request} {f : Fetched}
    (hf : files.content? r.key = some f) :
    ∃ new lib', lib.complete files r = (.ok new, lib') ∧ Arrival files lib f new lib' := by
  have hread : Follows files [] lib (lib.noteRead files r.path) := follows_noteRead r.path
  refine ⟨_, _, ?_, (arrival_store (hread.consistent h) f).of_follows hread⟩
  simp only [complete, Request.fetch_eq_ok_iff.mpr hf]

/-- **A request for what cannot be fetched fails**, and changes nothing but the readings. -/
theorem complete_of_no_content (lib : Library) {r : Request} (hf : files.content? r.key = none) :
    ∃ e, lib.complete files r = (.error e, lib.noteRead files r.path) := by
  rw [Files.content?_key] at hf
  cases hfetch : r.fetch files with
  | ok f => simp [hfetch, Except.toOption] at hf
  | error e => exact ⟨e, by simp only [complete, hfetch]⟩

end Library

end ScriptBundler

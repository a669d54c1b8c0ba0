import Mathlib.Data.List.Perm.Subperm
import Mathlib.Data.List.ProdSigma
import Mathlib.Logic.Relation
import ScriptBundler.Proofs.Requests

/-!
# Proofs/Interleaving — requests that complete in any order

While an entry is loaded, requests are in flight.  A step completes one of them, whichever
(`Loading.Step`), and a run is complete when no step is left: nothing is in flight any more, or a
request has failed.  Everything that is proved of loading here is proved of every such run; loading
first come, first served is one of them (`Library.exists_completes`).
-/

namespace ScriptBundler

namespace Library

variable {files : Files} {lib lib' : Library}

/-! ## Libraries in good order -/

/-- What holds of a library however it was filled. -/
structure Sound (files : Files) (lib : Library) : Prop where
  consistent : lib.Consistent files
  nodup : (lib.states.map Prod.fst).Nodup
  ready_iff : ∀ k, lib.states.lookup k = some .ready ↔ (lib.held? k).isSome
  content : ∀ {k f}, lib.held? k = some f → files.content? k = some f
  /-- The references of what is held were followed. -/
  followed : ∀ {k f}, lib.held? k = some f → ∀ ref ∈ (f.references lib.nativeImports).map Prod.fst,
    lib.resolved? ref.1 ref.2 = some (files.resolve ref.1 ref.2)
  /-- What is held has asked for all it refers to. -/
  requested : ∀ {k f}, lib.held? k = some f → ∀ k' ∈ f.needs files lib.nativeImports,
    lib.states.lookup k' ≠ none

/-- Before anything is loaded. -/
theorem Sound.empty (files : Files) (nativeImports : Bool) : Sound files { nativeImports } where
  consistent _ _ _ h := by cases h
  nodup := List.nodup_nil
  ready_iff := fun ⟨_, form⟩ => by cases form <;> simp [held?, resource?, text?]
  content {k f} h := by obtain ⟨_, _ | _⟩ := k <;> cases h
  followed {k f} h := by obtain ⟨_, _ | _⟩ := k <;> cases h
  requested {k f} h := by obtain ⟨_, _ | _⟩ := k <;> cases h

/-- Following references keeps a library sound. -/
theorem Sound.follow {refs : List (String × String)} (h : lib.Sound files)
    (h' : Follows files refs lib lib') : lib'.Sound files where
  consistent := h'.consistent h.consistent
  nodup := h'.states ▸ h.nodup
  ready_iff k := by rw [h'.states, held?_congr h'.modules h'.texts, h.ready_iff]
  content hk := h.content (held?_congr h'.modules h'.texts _ ▸ hk)
  followed {k f} hk ref href := by
    rw [held?_congr h'.modules h'.texts] at hk
    rw [h'.nativeImports] at href
    rw [h'.resolved, h.followed hk ref href, ite_self]
  requested {k f} hk k' hk' := by
    rw [held?_congr h'.modules h'.texts] at hk
    rw [h'.nativeImports] at hk'
    rw [h'.states]
    exact h.requested hk k' hk'

theorem mem_keys_iff {k : String × Form} : k ∈ lib.states.map Prod.fst ↔ lib.states.lookup k ≠ none := by
  rw [← Option.isSome_iff_ne_none, isSome_lookup_iff]

/-- Requests that were not made before can be taken into account. -/
theorem Sound.wait {new : List Request} (h : lib.Sound files) (hnodup : (new.map Request.key).Nodup)
    (hnew : ∀ k ∈ new.map Request.key, lib.states.lookup k = none) :
    ((lib.states ++ waiting new).map Prod.fst).Nodup ∧
      ∀ k, (lib.states ++ waiting new).lookup k =
        if k ∈ new.map Request.key then some .pending else lib.states.lookup k := by
  have hkeys : (waiting new).map Prod.fst = new.map Request.key := by simp [waiting]
  refine ⟨?_, fun k => ?_⟩
  · rw [List.map_append, hkeys, List.nodup_append]
    refine ⟨h.nodup, hnodup, fun k hk k' hk' heq => ?_⟩
    exact mem_keys_iff.mp hk (heq ▸ hnew k' hk')
  · rw [List.lookup_append, lookup_waiting]
    split
    · rename_i hk
      rw [hnew k hk]
      rfl
    · exact Option.or_none

/-- Asking for files keeps a library sound. -/
theorem Sound.schedule {new : List Request} (h : lib.Sound files)
    (hnodup : (new.map Request.key).Nodup)
    (hnew : ∀ k ∈ new.map Request.key, lib.states.lookup k = none) :
    Sound files { lib with states := lib.states ++ waiting new } := by
  obtain ⟨hkeys, hlookup⟩ := h.wait hnodup hnew
  refine ⟨h.consistent.congr rfl, hkeys, fun k => ?_, h.content, h.followed, fun hk k' hk' => ?_⟩
  · refine Iff.trans ?_ (h.ready_iff k)
    rw [hlookup]
    split
    · rename_i hk
      simp [hnew k hk]
    · rfl
  · rw [hlookup]
    split
    · simp
    · exact h.requested hk k' hk'

/-- Opening a load follows the entry and asks for it, unless that was done before. -/
theorem opened_spec (h : lib.Sound files) (entry : String) :
    ∃ new lib₁, lib.opened files entry = (new, { lib₁ with states := lib₁.states ++ waiting new }) ∧
      Follows files [("", entry)] lib lib₁ ∧ (new.map Request.key).Nodup ∧
      ∀ k, k ∈ new.map Request.key ↔
        k = (files.resolve "" entry, .module) ∧ lib.states.lookup k = none := by
  obtain ⟨hpath, hfollows⟩ := follows_resolve h.consistent "" entry
  obtain ⟨hlib, hnodup, hmem⟩ := schedule_spec (lib.resolve files "" entry).2
    [{ path := (lib.resolve files "" entry).1, form := .module }]
  refine ⟨_, _, Prod.ext rfl hlib, hfollows, hnodup, fun k => (hmem k).trans ?_⟩
  rw [hfollows.states, hpath, List.map_singleton, List.mem_singleton, Request.key]

/-! ## Arrivals keep it -/

/-- What is asked for when a file has arrived. -/
theorem Arrival.lookup {f : Fetched} {new : List Request} (h : Arrival files lib f new lib')
    (hlib : lib.Sound files) (hf : lib.states.lookup f.key ≠ none) (k : String × Form) :
    lib'.states.lookup k = if k = f.key then some .ready
      else if k ∈ new.map Request.key then some .pending else lib.states.lookup k := by
  have hwait := (hlib.wait h.nodup fun k hk => ((h.mem_new k).mp hk).2).2
  rw [h.states, lookup_readied, hwait]
  by_cases hk : k = f.key
  · subst hk
    have hnew : f.key ∉ new.map Request.key := fun hmem => hf ((h.mem_new _).mp hmem).2
    rw [if_neg hnew]
    obtain ⟨p, hp⟩ := Option.ne_none_iff_exists'.mp hf
    simp [hp]
  · simp [hk]

/-- **A file that arrives keeps a library sound**. -/
theorem Sound.arrive {f : Fetched} {new : List Request} (hlib : lib.Sound files)
    (hcontent : files.content? f.key = some f) (hf : lib.states.lookup f.key = some .pending)
    (h : Arrival files lib f new lib') : lib'.Sound files := by
  have hlookup := h.lookup hlib (by simp [hf])
  have hwait := hlib.wait h.nodup fun k hk => ((h.mem_new k).mp hk).2
  have hheld : ∀ {k g}, lib'.held? k = some g → lib.held? k = some g ∨ k = f.key ∧ g = f := by
    intro k g hk
    rw [h.held] at hk
    rcases Option.or_eq_some_iff.mp hk with hk | ⟨-, hk⟩
    · exact .inl hk
    · split at hk
      · exact .inr ⟨‹_›, (Option.some.inj hk).symm⟩
      · cases hk
  refine ⟨?_, ?_, ?_, ?_, ?_, ?_⟩
  · intro base reference path hpath
    rw [h.resolved] at hpath
    split at hpath
    · exact (Option.some.inj hpath).symm
    · exact hlib.consistent _ _ _ hpath
  · have hkeys : lib'.states.map Prod.fst = (lib.states ++ waiting new).map Prod.fst := by
      rw [h.states, readied, List.map_map]
      rfl
    rw [hkeys]
    exact hwait.1
  · intro k
    rw [hlookup, h.held]
    split
    · simp
    · split
      · rename_i hk hnew
        rw [Option.or_none, ← hlib.ready_iff, ((h.mem_new k).mp hnew).2]
        simp
      · simpa using hlib.ready_iff k
  · intro k g hk
    rcases hheld hk with hk | ⟨rfl, rfl⟩
    · exact hlib.content hk
    · exact hcontent
  · intro k g hk ref href
    rw [h.resolved]
    split
    · rfl
    · rename_i hnot
      rw [h.nativeImports] at href
      rcases hheld hk with hk | ⟨rfl, rfl⟩
      · exact hlib.followed hk ref href
      · exact absurd href hnot
  · intro k g hk k' hk'
    rw [hlookup]
    split
    · simp
    · split
      · simp
      · rename_i hnot
        rw [h.nativeImports] at hk'
        rcases hheld hk with hk | ⟨rfl, rfl⟩
        · exact hlib.requested hk k' hk'
        · exact fun hnone => hnot ((h.mem_new k').mpr ⟨hk', hnone⟩)

end Library

/-- What is loaded for `k` refers to `k'`. -/
def Files.Leads (files : Files) (nativeImports : Bool) (k k' : String × Form) : Prop :=
  ∃ f, files.content? k = some f ∧ k' ∈ f.needs files nativeImports

/-- References lead from `k` to `k'`, directly or not. -/
def Files.Reaches (files : Files) (nativeImports : Bool) : String × Form → String × Form → Prop :=
  Relation.ReflTransGen (files.Leads nativeImports)

/-! ## Steps and runs -/

/-- A load under way. -/
structure Loading where
  library : Library
  /-- The requests that are in flight. -/
  inFlight : List Request
  /-- The requests that have come to an end, the last of them last. -/
  fetched : List Request := []
  /-- Why the load has ended early, if it has; what is in flight then is abandoned. -/
  failure : Option BuildError := none

namespace Loading

variable {files : Files} {lib : Library} {entry : String} {s t : Loading}

/-- The load of an entry before its first step. -/
def start (files : Files) (lib : Library) (entry : String) : Loading where
  library := (lib.opened files entry).2
  inFlight := (lib.opened files entry).1

/-- **One of the requests in flight comes to an end**, whichever. -/
inductive Step (files : Files) : Loading → Loading → Prop where
  | arrives (before after : List Request) {lib lib' : Library} {new fetched : List Request} {r : Request}
      (h : lib.complete files r = (.ok new, lib')) :
      Step files ⟨lib, before ++ r :: after, fetched, none⟩
        ⟨lib', before ++ after ++ new, fetched ++ [r], none⟩
  | fails (before after : List Request) {lib lib' : Library} {fetched : List Request} {r : Request}
      {e : BuildError}
      (h : lib.complete files r = (.error e, lib')) :
      Step files ⟨lib, before ++ r :: after, fetched, none⟩
        ⟨lib', before ++ after, fetched ++ [r], some e⟩

/-- Steps one after the other. -/
def Run (files : Files) : Loading → Loading → Prop := Relation.ReflTransGen (Step files)

/-- A run that cannot go on. -/
def Completes (files : Files) (s t : Loading) : Prop := Run files s t ∧ ∀ u, ¬ Step files t u

/-- All requests that were made, whether they have come to an end or not. -/
def made (s : Loading) : List (String × Form) := (s.fetched ++ s.inFlight).map Request.key

/-- What a step does, seen through the maps of the library. -/
theorem Step.spec (hs : s.library.Consistent files) (h : Step files s t) :
    ∃ before r after, s.inFlight = before ++ r :: after ∧ s.failure = none ∧
      t.fetched = s.fetched ++ [r] ∧
      ((∃ f new, files.content? r.key = some f ∧ Library.Arrival files s.library f new t.library ∧
          t.inFlight = before ++ after ++ new ∧ t.failure = none) ∨
        (files.content? r.key = none ∧ Library.Follows files [] s.library t.library ∧
          t.inFlight = before ++ after ∧ t.failure ≠ none)) := by
  cases h with
  | @arrives before after lib lib' new fetched r h =>
    refine ⟨before, r, after, rfl, rfl, rfl, .inl ?_⟩
    cases hf : files.content? r.key with
    | none =>
      obtain ⟨e, he⟩ := Library.complete_of_no_content lib hf
      rw [he] at h
      cases h
    | some f =>
      obtain ⟨new', lib'', he, harrival⟩ := Library.complete_of_content hs hf
      rw [he] at h
      cases h
      exact ⟨f, new, rfl, harrival, rfl, rfl⟩
  | @fails before after lib lib' fetched r e h =>
    refine ⟨before, r, after, rfl, rfl, rfl, .inr ?_⟩
    cases hf : files.content? r.key with
    | none =>
      obtain ⟨e', he⟩ := Library.complete_of_no_content lib hf
      rw [he] at h
      cases h
      exact ⟨rfl, Library.follows_noteRead r.path, rfl, by simp⟩
    | some f =>
      obtain ⟨new', lib'', he, -⟩ := Library.complete_of_content hs hf
      rw [he] at h
      cases h

/-- A run can go on as long as something is in flight and nothing has failed. -/
theorem exists_step (files : Files) {r : Request} {queue : List Request} (hflight : s.inFlight = r :: queue)
    (hfailure : s.failure = none) : ∃ t, Step files s t := by
  obtain ⟨lib, inFlight, fetched, failure⟩ := s
  cases hflight
  cases hfailure
  cases hcomplete : lib.complete files r with
  | mk result lib' =>
    cases result with
    | ok new => exact ⟨_, Step.arrives [] queue hcomplete⟩
    | error e => exact ⟨_, Step.fails [] queue hcomplete⟩

/-- Without a request in flight no step is made. -/
theorem not_step_of_inFlight (h : s.inFlight = []) : ¬ Step files s t := by
  intro hstep
  cases hstep <;> simp at h

/-- After a failure no step is made. -/
theorem not_step_of_failure (h : s.failure ≠ none) : ¬ Step files s t := by
  intro hstep
  cases hstep <;> exact h rfl

/-- A complete run that has not failed has nothing in flight. -/
theorem Completes.inFlight (h : Completes files s t) (hfailure : t.failure = none) :
    t.inFlight = [] := by
  cases hflight : t.inFlight with
  | nil => rfl
  | cons r queue =>
    obtain ⟨u, hu⟩ := exists_step files hflight hfailure
    exact absurd hu (h.2 u)

/-! ## What a load keeps -/

/-- **The invariant of a load** of `entry` into `lib`: what was asked for before is as it was, what is
asked for now was not asked for before, is reached from the entry and is asked for once. -/
structure Underway (files : Files) (lib : Library) (entry : String) (s : Loading) : Prop where
  sound : s.library.Sound files
  nativeImports : s.library.nativeImports = lib.nativeImports
  nodup : s.made.Nodup
  mem_made : ∀ k, k ∈ s.made ↔ lib.states.lookup k = none ∧ s.library.states.lookup k ≠ none
  kept : ∀ k, lib.states.lookup k ≠ none → s.library.states.lookup k = lib.states.lookup k
  entered : s.library.states.lookup (files.resolve "" entry, .module) ≠ none
  reached : ∀ k ∈ s.made, files.Reaches lib.nativeImports (files.resolve "" entry, .module) k
  pending : ∀ r ∈ s.inFlight, s.library.states.lookup r.key = some .pending
  arrived : s.failure = none → ∀ r ∈ s.fetched, s.library.states.lookup r.key = some .ready
  failed : s.failure ≠ none → ∃ r ∈ s.fetched, files.content? r.key = none
  resolved : ∀ base reference, s.library.resolved? base reference ≠ none ↔
    lib.resolved? base reference ≠ none ∨ (base, reference) = ("", entry) ∨
      ∃ k f, s.library.held? k = some f ∧
        (base, reference) ∈ (f.references lib.nativeImports).map Prod.fst

/-- A load that starts is under way. -/
theorem underway_start (h : lib.Sound files) (entry : String) :
    Underway files lib entry (start files lib entry) := by
  obtain ⟨new, lib₁, hopened, hfollows, hnodup, hmem⟩ := Library.opened_spec h entry
  have hsound := h.follow hfollows
  have hnew : ∀ k ∈ new.map Request.key, lib₁.states.lookup k = none := fun k hk =>
    hfollows.states ▸ ((hmem k).mp hk).2
  have hlookup : ∀ k, (start files lib entry).library.states.lookup k =
      if k ∈ new.map Request.key then some .pending else lib.states.lookup k := by
    intro k
    rw [start, hopened, (hsound.wait hnodup hnew).2, hfollows.states]
  have hmade : (start files lib entry).made = new.map Request.key := by
    rw [made, start, hopened]
    rfl
  refine ⟨?_, ?_, ?_, fun k => ?_, fun k hk => ?_, ?_, fun k hk => ?_, fun r hr => ?_, fun _ r hr => ?_,
    fun hfailed => absurd rfl hfailed, fun base reference => ?_⟩
  · rw [start, hopened]
    exact hsound.schedule hnodup hnew
  · rw [start, hopened]
    exact hfollows.nativeImports
  · rw [hmade]
    exact hnodup
  · rw [hmade, hlookup]
    constructor
    · intro hk
      exact ⟨((hmem k).mp hk).2, by simp [hk]⟩
    · rintro ⟨hnone, hk⟩
      by_contra hnot
      rw [if_neg hnot] at hk
      exact hk hnone
  · rw [hlookup, if_neg fun hmade => hk ((hmem k).mp hmade).2]
  · rw [hlookup]
    split
    · simp
    · rename_i hnot
      exact fun hnone => hnot ((hmem _).mpr ⟨rfl, hnone⟩)
  · rw [hmade] at hk
    rw [((hmem k).mp hk).1]
    exact .refl
  · rw [hlookup, if_pos]
    rw [start, hopened] at hr
    exact List.mem_map_of_mem hr
  · cases hr
  · have hresolved : (start files lib entry).library.resolved? base reference =
        lib₁.resolved? base reference := by
      rw [start, hopened]
      rfl
    have hheld : ∀ k, (start files lib entry).library.held? k = lib.held? k := by
      rw [start, hopened]
      exact Library.held?_congr hfollows.modules hfollows.texts
    rw [hresolved, hfollows.resolved]
    simp only [List.mem_singleton]
    constructor
    · intro hne
      split at hne
      · exact .inr (.inl ‹_›)
      · exact .inl hne
    · rintro (hne | heq | ⟨k, f, hk, href⟩)
      · split
        · simp
        · exact hne
      · rw [if_pos heq]
        simp
      · rw [hheld] at hk
        rw [h.followed hk _ href, ite_self]
        simp

/-- The requests made after a step are those made before it and the new ones. -/
theorem made_perm {before after : List Request} (new : List Request) {r : Request}
    (hflight : s.inFlight = before ++ r :: after) (hfetched : t.fetched = s.fetched ++ [r])
    (hflight' : t.inFlight = before ++ after ++ new) :
    t.made.Perm (s.made ++ new.map Request.key) := by
  rw [made, made, hflight, hfetched, hflight', ← List.map_append]
  have hperm : (s.fetched ++ (r :: (before ++ after) ++ new)).Perm
      (s.fetched ++ (before ++ r :: after ++ new)) :=
    (List.perm_middle.symm.append_right new).append_left s.fetched
  simpa using hperm.map Request.key

/-- A file that arrives leaves the load under way. -/
theorem Underway.arrive {f : Fetched} {before after new : List Request} {r : Request}
    (h : Underway files lib entry s) (hflight : s.inFlight = before ++ r :: after)
    (halive : s.failure = none) (hfetched : t.fetched = s.fetched ++ [r])
    (hcontent : files.content? r.key = some f)
    (harrival : Library.Arrival files s.library f new t.library)
    (hflight' : t.inFlight = before ++ after ++ new) (halive' : t.failure = none) :
    Underway files lib entry t := by
  have hkey : f.key = r.key := (Files.key_of_content? hcontent).1
  have hr : s.library.states.lookup r.key = some .pending := h.pending r (by simp [hflight])
  have hrmade : r.key ∈ s.made := by simp [made, hflight]
  have hnew : ∀ {k}, k ∈ new.map Request.key → s.library.states.lookup k = none := fun hk =>
    ((harrival.mem_new _).mp hk).2
  have hlookup : ∀ k, t.library.states.lookup k = if k = r.key then some .ready
      else if k ∈ new.map Request.key then some .pending else s.library.states.lookup k := by
    rw [← hkey]
    exact harrival.lookup h.sound (by simp [hkey, hr])
  have hmade := made_perm new hflight hfetched hflight'
  -- A key that has an entry keeps one.
  have hmono : ∀ {k}, s.library.states.lookup k ≠ none → t.library.states.lookup k ≠ none := by
    intro k hk
    rw [hlookup]
    split
    · simp
    · split
      · simp
      · exact hk
  refine ⟨?_, ?_, ?_, fun k => ?_, fun k hk => ?_, hmono h.entered, fun k hk => ?_, fun r' hr' => ?_,
    fun _ r' hr' => ?_, fun hfailed => absurd halive' hfailed, fun base reference => ?_⟩
  · exact h.sound.arrive (hkey ▸ hcontent) (hkey ▸ hr) harrival
  · exact harrival.nativeImports.trans h.nativeImports
  · rw [hmade.nodup_iff, List.nodup_append]
    refine ⟨h.nodup, harrival.nodup, fun k hk k' hk' heq => ?_⟩
    exact ((h.mem_made k).mp hk).2 (heq ▸ hnew hk')
  · rw [hmade.mem_iff, List.mem_append]
    constructor
    · rintro (hk | hk)
      · exact ⟨((h.mem_made k).mp hk).1, hmono ((h.mem_made k).mp hk).2⟩
      · refine ⟨?_, ?_⟩
        · by_contra hne
          exact hne (h.kept k hne ▸ hnew hk)
        · rw [hlookup]
          split <;> simp
    · rintro ⟨hnone, hne⟩
      rw [hlookup] at hne
      split at hne
      · rename_i hk
        exact .inl (hk ▸ hrmade)
      · split at hne
        · exact .inr ‹_›
        · exact .inl ((h.mem_made k).mpr ⟨hnone, hne⟩)
  · have hkept := h.kept k hk
    have hne : k ≠ r.key := fun heq => hk ((h.mem_made k).mp (heq ▸ hrmade)).1
    have hnot : k ∉ new.map Request.key := fun hmem => hk (hkept ▸ hnew hmem)
    rw [hlookup, if_neg hne, if_neg hnot, hkept]
  · rcases List.mem_append.mp (hmade.mem_iff.mp hk) with hk | hk
    · exact h.reached k hk
    · refine (h.reached r.key hrmade).tail ⟨f, hcontent, ?_⟩
      rw [← h.nativeImports]
      exact ((harrival.mem_new k).mp hk).1
  · rw [hflight'] at hr'
    rcases List.mem_append.mp hr' with hr' | hr'
    · have hne : r'.key ≠ r.key := by
        have hnodup := h.nodup
        rw [made, hflight, List.map_append, List.nodup_append] at hnodup
        have hnodup' := (List.perm_middle.map Request.key).nodup_iff.mp hnodup.2.1
        rw [List.map_cons, List.nodup_cons] at hnodup'
        exact fun heq => hnodup'.1 (heq ▸ List.mem_map_of_mem hr')
      have hpending := h.pending r' (by
        rw [hflight]
        rcases List.mem_append.mp hr' with h | h <;> simp [h])
      have hnot : r'.key ∉ new.map Request.key := fun hmem => by simp [hnew hmem] at hpending
      rw [hlookup, if_neg hne, if_neg hnot, hpending]
    · have hmem := List.mem_map_of_mem (f := Request.key) hr'
      have hne : r'.key ≠ r.key := fun heq => by simp [heq ▸ hnew hmem] at hr
      rw [hlookup, if_neg hne, if_pos hmem]
  · rw [hlookup]
    rw [hfetched] at hr'
    rcases List.mem_append.mp hr' with hr' | hr'
    · have hready := h.arrived halive r' hr'
      have hnot : r'.key ∉ new.map Request.key := fun hmem => by simp [hnew hmem] at hready
      rw [if_neg hnot, hready, ite_self]
    · rw [List.mem_singleton.mp hr', if_pos rfl]
  · have hnothing : s.library.held? f.key = none := by
      rw [← Option.not_isSome_iff_eq_none, ← h.sound.ready_iff, hkey, hr]
      simp
    rw [harrival.resolved, h.nativeImports]
    constructor
    · intro hne
      split at hne
      · exact .inr (.inr ⟨f.key, f, by simp [harrival.held, hnothing], ‹_›⟩)
      · rcases (h.resolved base reference).mp hne with hne | heq | ⟨k, g, hk, href⟩
        · exact .inl hne
        · exact .inr (.inl heq)
        · exact .inr (.inr ⟨k, g, by simp [harrival.held, hk], href⟩)
    · intro hcase
      split
      · simp
      · rename_i hnot
        refine (h.resolved base reference).mpr (hcase.imp_right fun hcase => hcase.imp_right ?_)
        rintro ⟨k, g, hk, href⟩
        rw [harrival.held] at hk
        rcases Option.or_eq_some_iff.mp hk with hk | ⟨-, hk⟩
        · exact ⟨k, g, hk, href⟩
        · split at hk
          · exact absurd (Option.some.inj hk ▸ href) hnot
          · cases hk

/-- A file that is missing leaves the load under way. -/
theorem Underway.fail {before after : List Request} {r : Request}
    (h : Underway files lib entry s) (hflight : s.inFlight = before ++ r :: after)
    (hfetched : t.fetched = s.fetched ++ [r]) (hnone : files.content? r.key = none)
    (hfollows : Library.Follows files [] s.library t.library)
    (hflight' : t.inFlight = before ++ after) (hfailed : t.failure ≠ none) :
    Underway files lib entry t := by
  have hmade : t.made.Perm s.made := by
    simpa using made_perm [] hflight hfetched (by simpa using hflight')
  refine ⟨h.sound.follow hfollows, hfollows.nativeImports.trans h.nativeImports,
    hmade.nodup_iff.mpr h.nodup, fun k => ?_, fun k hk => ?_, ?_, fun k hk => ?_, fun r' hr' => ?_,
    fun halive => absurd halive hfailed, fun _ => ⟨r, by simp [hfetched], hnone⟩,
    fun base reference => ?_⟩
  · rw [hmade.mem_iff, h.mem_made, hfollows.states]
  · rw [hfollows.states]
    exact h.kept k hk
  · rw [hfollows.states]
    exact h.entered
  · exact h.reached k (hmade.mem_iff.mp hk)
  · rw [hfollows.states]
    refine h.pending r' ?_
    rw [hflight]
    rw [hflight'] at hr'
    rcases List.mem_append.mp hr' with h | h <;> simp [h]
  · rw [hfollows.resolved, if_neg List.not_mem_nil, h.resolved]
    simp only [Library.held?_congr hfollows.modules hfollows.texts]

/-- **A step keeps the invariant.** -/
theorem Underway.step (h : Underway files lib entry s) (hstep : Step files s t) :
    Underway files lib entry t := by
  obtain ⟨before, r, after, hflight, halive, hfetched, hcase⟩ := hstep.spec h.sound.consistent
  rcases hcase with ⟨f, new, hcontent, harrival, hflight', halive'⟩ |
    ⟨hnone, hfollows, hflight', hfailed⟩
  · exact h.arrive hflight halive hfetched hcontent harrival hflight' halive'
  · exact h.fail hflight hfetched hnone hfollows hflight' hfailed

/-- **So does a run.** -/
theorem Underway.run (h : Underway files lib entry s) (hrun : Run files s t) :
    Underway files lib entry t := by
  induction hrun with
  | refl => exact h
  | tail _ hstep ih => exact ih.step hstep

/-! ## Runs end -/

/-- The files that there are, in both forms. -/
def readable (files : Files) : List (String × Form) :=
  files.texts.map Prod.fst ×ˢ [.module, .text]

theorem length_readable : (readable files).length = 2 * files.texts.length := by
  rw [readable, List.length_product, List.length_map, Nat.mul_comm]
  rfl

/-- What can be fetched is one of the files. -/
theorem mem_readable {k : String × Form} {f : Fetched} (h : files.content? k = some f) :
    k ∈ readable files := by
  obtain ⟨path, form⟩ := k
  obtain ⟨-, text, hread⟩ := Files.key_of_content? h
  have htext : files.texts.lookup path = some text := by
    unfold Files.read at hread
    split at hread
    · cases hread
    · split at hread
      · rename_i t ht
        rw [ht, Except.ok.inj hread]
      · cases hread
  obtain ⟨p, hp, hpath⟩ := List.lookup_isSome_iff.mp (htext ▸ rfl : (files.texts.lookup path).isSome)
  refine List.mem_product.mpr ⟨List.mem_map.mpr ⟨p, hp, (beq_iff_eq.mp hpath).symm⟩, ?_⟩
  cases form <;> simp

/-- Every file is fetched at most once in either form, as long as nothing has failed. -/
theorem Underway.length_fetched (h : Underway files lib entry s) (halive : s.failure = none) :
    s.fetched.length ≤ 2 * files.texts.length := by
  have hnodup : (s.fetched.map Request.key).Nodup := by
    have hmade := h.nodup
    rw [made, List.map_append, List.nodup_append] at hmade
    exact hmade.1
  have hsub : s.fetched.map Request.key ⊆ readable files := by
    intro k hk
    obtain ⟨r, hr, rfl⟩ := List.mem_map.mp hk
    obtain ⟨f, hf⟩ := Option.isSome_iff_exists.mp ((h.sound.ready_iff _).mp (h.arrived halive r hr))
    exact mem_readable (h.sound.content hf)
  have hle := (List.subperm_of_subset hnodup hsub).length_le
  rwa [List.length_map, length_readable] at hle

/-- How a load has ended. -/
def result (s : Loading) : Except BuildError Unit :=
  match s.failure with
  | none => .ok ()
  | some e => .error e

/-- Completing requests in their order is a complete run. -/
theorem Underway.completeAll {n : Nat} (h : Underway files lib entry s) (halive : s.failure = none)
    (hn : Library.requestBound files ≤ n + s.fetched.length) :
    ∃ t, Completes files s t ∧
      Library.completeAll files n s.library s.inFlight = (t.result, t.library) := by
  induction n generalizing s with
  | zero =>
    have hle := h.length_fetched halive
    rw [Library.requestBound] at hn
    omega
  | succ n ih =>
    obtain ⟨library, inFlight, fetched, failure⟩ := s
    cases halive
    cases inFlight with
    | nil => exact ⟨_, ⟨.refl, fun u => not_step_of_inFlight rfl⟩, rfl⟩
    | cons r queue =>
      cases hcomplete : library.complete files r with
      | mk result library' =>
        cases result with
        | ok new =>
          have hstep : Step files ⟨library, r :: queue, fetched, none⟩
              ⟨library', queue ++ new, fetched ++ [r], none⟩ := Step.arrives [] queue hcomplete
          obtain ⟨t, hrun, heq⟩ := ih (h.step hstep) rfl (by
            simp only [List.length_append, List.length_singleton] at hn ⊢
            omega)
          refine ⟨t, ⟨.head hstep hrun.1, hrun.2⟩, ?_⟩
          simp only [Library.completeAll, hcomplete]
          exact heq
        | error e =>
          refine ⟨_, ⟨.single (Step.fails [] queue hcomplete), fun u =>
            not_step_of_failure (by simp)⟩, ?_⟩
          simp only [Library.completeAll, hcomplete]
          rfl

end Loading

/-- **Loading first come, first served is a complete run.** -/
theorem Library.exists_completes {files : Files} {lib : Library} (h : lib.Sound files)
    (entry : String) : ∃ t, Loading.Completes files (Loading.start files lib entry) t ∧
      lib.load files entry = (t.result.map fun _ => files.resolve "" entry, t.library) := by
  obtain ⟨t, hrun, heq⟩ := (Loading.underway_start h entry).completeAll rfl
    (n := requestBound files) (Nat.le_add_right _ _)
  refine ⟨t, hrun, ?_⟩
  simp only [Loading.start] at heq
  rw [load_eq, heq, (follows_resolve h.consistent "" entry).1]

end ScriptBundler

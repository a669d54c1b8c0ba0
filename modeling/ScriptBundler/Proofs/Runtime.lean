import ScriptBundler.Proofs.Linking

/-!
# Proofs/Runtime — the names of the module table

The module table is a script like any other, and so are the modules that use its names: there a name is
written as the naming spells it (`Naming.spelling`).  The calls that imports become, and the first lines
of modules, use `Naming.runtimeName` instead, which does not ask whether a name is excluded.  The two
agree on all names of the table but those that are excluded while all others get new spellings; such a
name is then written as something that nothing else in the output is.
-/

namespace ScriptBundler

/-! ## Keys of a supply -/

namespace LiteralPool

/-- Giving out slots only asks the supply for names. -/
theorem exists_keys_assign (p : LiteralPool) (i : Nat) (es : List Entry) (s : NameSupply) :
    ∃ keys : List String, (p.assign i es s).2.2 = keys.foldl (fun s key => (s.create key).2) s := by
  induction es generalizing i s with
  | nil => exact ⟨[], rfl⟩
  | cons e es ih =>
    cases hdue : p.isDue e with
    | false =>
      rw [assign_cons_of_not_isDue hdue]
      exact ih (i + 1) s
    | true =>
      rw [assign_cons_of_isDue hdue]
      obtain ⟨keys, hkeys⟩ := ih (i + 1) (s.create (slotKey i)).2
      exact ⟨slotKey i :: keys, hkeys⟩

end LiteralPool

namespace Naming

variable {n : Naming} {x r : String}

/-- Deciding on slots asks the supply for further keys. -/
theorem exists_keys_finalize (n : Naming) :
    ∃ keys : List String, n.finalize.1.names = keys.foldl (fun s key => (s.create key).2) n.names := by
  cases hhoists : n.settings.hoists with
  | false => exact ⟨[], by rw [finalize_of_not_hoists hhoists]; rfl⟩
  | true =>
    rw [finalize_of_hoists hhoists]
    exact n.literals.exists_keys_assign 0 _ n.names

/-- If names get new spellings, all those that are entered and not kept are asked for. -/
theorem exists_keys_addIdentifier (hrenames : n.settings.renames = true) (xs : List String) :
    ∃ keys : List String,
      (xs.foldl addIdentifier n).names = keys.foldl (fun s key => (s.create key).2) n.names ∧
      ∀ x ∈ xs, n.keeps x = false → x ∈ keys := by
  induction xs generalizing n with
  | nil => exact ⟨[], rfl, by simp⟩
  | cons x xs ih =>
    have hsettings := settings_addIdentifier n x
    obtain ⟨keys, heq, hmem⟩ := ih (n := n.addIdentifier x) (by rw [hsettings]; exact hrenames)
    have hkept : ∀ y, (n.addIdentifier x).keeps y = n.keeps y := fun y => by rw [keeps, keeps, hsettings]
    cases hx : n.keeps x with
    | true =>
      have hsame : n.addIdentifier x = n := by rw [addIdentifier, if_pos hx]
      refine ⟨keys, by rw [List.foldl_cons, heq, hsame], fun y hy hkeeps => ?_⟩
      rcases List.mem_cons.mp hy with rfl | hy
      · rw [hx] at hkeeps
        cases hkeeps
      · exact hmem y hy (by rw [hkept, hkeeps])
    | false =>
      have hnames : (n.addIdentifier x).names = (n.names.create x).2 := by
        rw [addIdentifier, if_neg (by simp [hx]), if_pos hrenames]
      refine ⟨x :: keys, by rw [List.foldl_cons, heq, hnames, List.foldl_cons], fun y hy hkeeps => ?_⟩
      rcases List.mem_cons.mp hy with rfl | hy
      · exact List.mem_cons_self ..
      · exact List.mem_cons_of_mem _ (hmem y hy (by rw [hkept, hkeeps]))

/-! ## Two ways to look a name up -/

/-- How a name is written where a script has it: only minified output changes names. -/
def spelling (n : Naming) (x : String) : String :=
  if n.settings.mode = .minified then n.identifier x else x

theorem spelling_eq_identifier (n : Naming) (x : String) : n.spelling x = n.identifier x := by
  unfold spelling
  split
  · rfl
  · rename_i hmode
    exact (n.identifier_of_not_renames (by simp [Settings.renames, hmode]) x).symm

/-- What a naming has to say about the names `xs` and those of the module table: a supply that was asked
for them all. -/
structure Tabled (xs : List String) (n : Naming) : Prop where
  sound : n.names.Sound n.reserved
  table : ∀ r ∈ Reserved.runtimeNames, ∃ y, n.names.get? r = some y
  named : ∀ x ∈ xs, n.keeps x = false → ∃ y, n.names.get? x = some y

/-- The names of the runtime are reserved. -/
theorem mem_reserved_of_runtimeNames (n : Naming) (hr : r ∈ Reserved.runtimeNames) : r ∈ n.reserved := by
  rw [reserved, Reserved.forbidden, List.mem_eraseDups]
  exact List.mem_append_left _ (List.mem_append_right _ hr)

/-- What is renamed has a name in the table. -/
theorem tabled_enter {settings : Settings} (hrenames : settings.renames = true)
    (relocate : String → String) (paths : List String) (named counted : List Script) :
    ((ofSettings settings relocate).enter paths named counted).1.Tabled
      (named.flatMap Script.identifiers) := by
  have hsettings : ((ofSettings settings relocate).enter paths named counted).1.settings = settings :=
    settings_enter ..
  have hstart : (paths.foldl addModule (ofSettings settings relocate)).settings = settings :=
    foldl_keeps Naming.settings addModule (fun _ _ => rfl) paths _
  have hempty : (paths.foldl addModule (ofSettings settings relocate)).names =
      (ofSettings settings relocate).names := foldl_keeps Naming.names addModule (fun _ _ => rfl) paths _
  obtain ⟨keys, hkeys, hmem⟩ := exists_keys_addIdentifier (by rw [hstart]; exact hrenames)
    (named.flatMap Script.identifiers)
  obtain ⟨slots, hslots⟩ :=
    exists_keys_finalize ((ofSettings settings relocate).gather paths named counted)
  -- First the names of the table were asked for, then those of the scripts, then the slots.
  have hnames : ((ofSettings settings relocate).enter paths named counted).1.names =
      (Reserved.runtimeNames ++ (keys ++ slots)).foldl (fun s key => (s.create key).2)
        { alphabet := Word.normalize settings.alphabet
          forbidden := Reserved.forbidden settings.excludedIdentifiers } := by
    rw [enter_eq, hslots, gather, foldl_keeps Naming.names addLiteral fun _ _ => rfl, hkeys, hempty,
      List.foldl_append, List.foldl_append]
    rfl
  have hasked : ∀ key ∈ Reserved.runtimeNames ++ (keys ++ slots),
      ∃ y, ((ofSettings settings relocate).enter paths named counted).1.names.get? key = some y := by
    intro key hkey
    rw [hnames]
    exact NameSupply.exists_get?_foldl_create hkey _
  refine ⟨?_, fun r hr => hasked r (List.mem_append_left _ hr), fun x hx hkeeps => ?_⟩
  · rw [reserved, hsettings, hnames]
    exact (NameSupply.Sound.start settings.alphabet _).foldl_create _
  · rw [keeps, hsettings] at hkeeps
    exact hasked x (List.mem_append_right _ (List.mem_append_left _
      (hmem x hx (by rw [keeps, hstart]; exact hkeeps))))

namespace Tabled

variable {xs : List String}

/-- A name of the module table gets a new spelling from `runtimeName`, excluded or not. -/
theorem runtimeName_not_mem (h : n.Tabled xs) (hrenames : n.settings.renames = true)
    (hr : r ∈ Reserved.runtimeNames) :
    n.names.get? r = some (n.runtimeName r) ∧ n.runtimeName r ∉ n.reserved := by
  obtain ⟨y, hy⟩ := h.table r hr
  have hname : n.runtimeName r = y := by rw [runtimeName, if_pos hrenames, hy, Option.getD_some]
  rw [hname]
  exact ⟨hy, h.sound.apart y (NameSupply.Sound.mem_names hy)⟩

/-- The new spelling of a name that is excluded is that of no other name. -/
theorem identifier_ne_runtimeName (h : n.Tabled xs) (hrenames : n.settings.renames = true)
    (hr : r ∈ Reserved.runtimeNames) (hkeeps : n.keeps r = true) (hx : x ∈ xs) :
    n.identifier x ≠ n.runtimeName r := by
  obtain ⟨hget, hfree⟩ := h.runtimeName_not_mem hrenames hr
  intro heq
  cases hkept : n.keeps x with
  | true =>
    rw [Settled.identifier_of_keeps hkept] at heq
    exact hfree (heq ▸ mem_reserved_of_keeps hkept)
  | false =>
    obtain ⟨y, hy⟩ := h.named x hx hkept
    have hname : n.identifier x = y := by
      rw [identifier, if_neg (by simp [hrenames, hkept]), hy, Option.getD_some]
    obtain rfl : x = r := h.sound.get?_injective (hy.trans (by rw [← hname, heq])) hget
    rw [hkeeps] at hkept
    cases hkept

end Tabled

end Naming

/-! ## Outputs -/

namespace Bundle

/-- **Imports and the module table spell its names alike, unless one of them is excluded** while all
others get new spellings.  What imports then call is written as no name of the output is. -/
theorem runtimeName_eq_spelling_iff (settings : Settings) (relocate : String → String) (g : Graph)
    (runtime : Option Script) {r : String} (hr : r ∈ Reserved.runtimeNames) :
    ((naming settings relocate g runtime).runtimeName r =
        (naming settings relocate g runtime).spelling r ↔
      ¬ (settings.renames = true ∧ r ∈ settings.excludedIdentifiers)) ∧
    (settings.renames = true → r ∈ settings.excludedIdentifiers →
      ∀ s ∈ runtime.toList ++ g.modules.map (·.script), ∀ x ∈ s.identifiers,
        (naming settings relocate g runtime).spelling x ≠
          (naming settings relocate g runtime).runtimeName r) := by
  have hsettings := settings_naming settings relocate g runtime
  have hkeeps : r ∈ settings.excludedIdentifiers →
      (naming settings relocate g runtime).keeps r = true := by
    intro hexcluded
    simp [Naming.keeps, hsettings, hexcluded]
  refine ⟨?_, fun hrenames hexcluded s hs x hx => ?_⟩
  · rw [Naming.spelling_eq_identifier]
    constructor
    · rintro heq ⟨hrenames, hexcluded⟩
      have htabled := Naming.tabled_enter hrenames relocate (g.modules.map (·.path))
        (runtime.toList ++ g.modules.map (·.script)) (g.modules.map (·.script))
      have hfree := (htabled.runtimeName_not_mem (by rwa [← hsettings] at hrenames) hr).2
      rw [Naming.Settled.identifier_of_keeps (hkeeps hexcluded)] at heq
      exact hfree (heq.symm ▸ Naming.mem_reserved_of_runtimeNames _ hr)
    · intro hnot
      by_cases hexcluded : r ∈ settings.excludedIdentifiers
      · have hrenames : (naming settings relocate g runtime).settings.renames = false := by
          rw [hsettings]
          exact Bool.eq_false_iff.mpr fun h => hnot ⟨h, hexcluded⟩
        rw [Naming.identifier_of_not_renames _ hrenames, Naming.runtimeName, hrenames]
        rfl
      · exact Naming.runtimeName_eq_identifier hr (by rwa [hsettings])
  · have htabled := Naming.tabled_enter hrenames relocate (g.modules.map (·.path))
      (runtime.toList ++ g.modules.map (·.script)) (g.modules.map (·.script))
    rw [Naming.spelling_eq_identifier]
    exact htabled.identifier_ne_runtimeName (by rwa [← hsettings] at hrenames) hr (hkeeps hexcluded)
      (List.mem_flatMap.mpr ⟨s, hs, hx⟩)

/-- New spellings for all names but that of the function that loads modules. -/
def excluding : Settings := { mode := .minified, obfuscate := true, excludedIdentifiers := ["__REQUIRE"] }

theorem runtimeName_eq_spelling_iff_excluding : ∃ g runtime,
    Graph.resolve (Library.load importing {} "a.src").2 "a.src" = .ok g ∧
    Bundle.runtime (Bundle.registered excluding g) = .ok runtime ∧
    (naming excluding id g runtime).runtimeName "__MODULES" =
      (naming excluding id g runtime).spelling "__MODULES" ∧
    (naming excluding id g runtime).runtimeName "__REQUIRE" ≠
      (naming excluding id g runtime).spelling "__REQUIRE" ∧
    ∀ s ∈ runtime.toList ++ g.modules.map (·.script), ∀ x ∈ s.identifiers,
      (naming excluding id g runtime).spelling x ≠
        (naming excluding id g runtime).runtimeName "__REQUIRE" := by
  have hsome : (Graph.resolve (Library.load importing {} "a.src").2 "a.src").toOption.isSome = true := by
    decide +kernel
  cases hg : Graph.resolve (Library.load importing {} "a.src").2 "a.src" with
  | error e => simp [hg, Except.toOption] at hsome
  | ok g =>
    obtain ⟨runtime, hruntime, -⟩ := exists_runtime (Bundle.registered excluding g)
    have htable := runtimeName_eq_spelling_iff excluding id g runtime (r := "__MODULES") (by decide)
    have hrequire := runtimeName_eq_spelling_iff excluding id g runtime (r := "__REQUIRE") (by decide)
    refine ⟨g, runtime, rfl, hruntime, htable.1.mpr (by decide), fun heq => ?_,
      hrequire.2 (by decide) (by decide)⟩
    exact hrequire.1.mp heq ⟨by decide, by decide⟩

end Bundle

end ScriptBundler

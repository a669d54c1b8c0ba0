import ScriptBundler.Naming
import ScriptBundler.Proofs.Supply

/-!
# Proofs/Naming — the names of an output stay apart

All names of an output come from one supply: those of the module table first, then those of the
scripts, then the slots of constants.  Slots are asked for under keys that no name has
(`LiteralPool.slotKey`), so what a supply keeps (`NameSupply.Sound`) tells them apart from everything
else.

    module table ──▸ names ──▸ constants ──finalize──▸ slots
                     (Entered)                         (Settled)
-/

namespace ScriptBundler

/-- The digits of a number tell which it is. -/
theorem toString_nat_injective {i j : Nat} (h : toString i = toString j) : i = j := by
  have hdigits := congrArg (fun s => Nat.ofDigitChars 10 s.toList 0) h
  simpa [Nat.toString_eq_ofList_toDigits] using hdigits

/-! ## Slots -/

namespace LiteralPool

/-- What the slot of the constant number `i` is asked for under. -/
def slotKey (i : Nat) : String := s!"literal:{i}"

/-- Constants with different numbers have different keys. -/
theorem slotKey_injective {i j : Nat} (h : slotKey i = slotKey j) : i = j := by
  have hlist := congrArg String.toList h
  simp only [slotKey, String.toList_append] at hlist
  exact toString_nat_injective (String.toList_injective (List.append_cancel_left hlist))

/-- No name is a key of a constant. -/
theorem colon_mem_slotKey (i : Nat) : ':' ∈ (slotKey i).toList := by
  rw [slotKey, String.toList_append]
  exact List.mem_append_left _ (by decide)

/-- The slots that constants have. -/
def slots (es : List Entry) : List String := es.filterMap (·.slot)

variable {p : LiteralPool} {es : List Entry} {s : NameSupply} {reserved : List String} {i : Nat}

/-- A constant that is due gets a name. -/
theorem assign_cons_of_isDue {e : Entry} (h : p.isDue e = true) :
    p.assign i (e :: es) s =
      ({ e with slot := some (s.create (slotKey i)).1 } ::
          (p.assign (i + 1) es (s.create (slotKey i)).2).1,
        (p.assign (i + 1) es (s.create (slotKey i)).2).2.1 + 1,
        (p.assign (i + 1) es (s.create (slotKey i)).2).2.2) := by
  rw [assign, if_pos h]
  rfl

/-- A constant that is not due is left as it is. -/
theorem assign_cons_of_not_isDue {e : Entry} (h : p.isDue e = false) :
    p.assign i (e :: es) s =
      (e :: (p.assign (i + 1) es s).1, (p.assign (i + 1) es s).2.1, (p.assign (i + 1) es s).2.2) := by
  rw [assign, if_neg (by simp [h])]

/-- What giving out slots does: the slots are names of the keys from `i` on, and these are new. -/
structure Assigned (reserved : List String) (i : Nat) (s : NameSupply) (es' : List Entry)
    (s' : NameSupply) : Prop where
  sound : s'.Sound reserved
  forbidden : s'.forbidden = s.forbidden
  keeps : ∀ key name, s.get? key = some name → s'.get? key = some name
  other : ∀ key, (∀ j, key ≠ slotKey j) → s'.get? key = s.get? key
  slot : ∀ x ∈ slots es', x ∉ s.forbidden ∧ ∃ j ≥ i, s'.get? (slotKey j) = some x
  nodup : (slots es').Nodup

/-- **Slots are new names, and no two constants have one.** -/
theorem assigned_assign (hs : s.Sound reserved) (hnew : ∀ j ≥ i, s.get? (slotKey j) = none)
    (hslots : ∀ e ∈ es, e.slot = none) :
    Assigned reserved i s (p.assign i es s).1 (p.assign i es s).2.2 := by
  induction es generalizing i s with
  | nil => exact ⟨hs, rfl, fun _ _ h => h, fun _ _ => rfl, by simp [assign, slots], by simp [assign, slots]⟩
  | cons e es ih =>
    have hrest : ∀ e ∈ es, e.slot = none := fun e he => hslots e (List.mem_cons_of_mem _ he)
    cases hdue : p.isDue e with
    | false =>
      rw [assign_cons_of_not_isDue hdue]
      have h : Assigned reserved (i + 1) s _ _ := ih hs (fun j hj => hnew j (by omega)) hrest
      have heq : slots (e :: (p.assign (i + 1) es s).1) = slots (p.assign (i + 1) es s).1 := by
        simp [slots, hslots e (List.mem_cons_self ..)]
      refine ⟨h.sound, h.forbidden, h.keeps, h.other, fun x hx => ?_, heq ▸ h.nodup⟩
      obtain ⟨hx, j, hj, hname⟩ := h.slot x (heq ▸ hx)
      exact ⟨hx, j, by omega, hname⟩
    | true =>
      rw [assign_cons_of_isDue hdue]
      obtain ⟨name, counter, hcreate, -, hforbidden, -⟩ :=
        NameSupply.create_of_get?_eq_none hs.endless (hnew i (Nat.le_refl _))
      have hself := NameSupply.get?_create_self s (slotKey i)
      have hne : ∀ j ≥ i + 1, slotKey j ≠ slotKey i := fun j hj heq => by
        have := slotKey_injective heq
        omega
      have h : Assigned reserved (i + 1) _ _ _ := ih (hs.create (slotKey i))
        (fun j hj => (NameSupply.get?_create_of_ne (hne j hj)).trans (hnew j (by omega))) hrest
      have hname : (s.create (slotKey i)).1 = name := by rw [hcreate]
      have hsame : (s.create (slotKey i)).2.forbidden = s.forbidden := by rw [hcreate]
      rw [hname] at hself ⊢
      have hkept := h.keeps _ _ hself
      refine ⟨h.sound, h.forbidden.trans hsame, fun key _ hkey => h.keeps _ _
        (NameSupply.get?_create_of_eq_some hkey), fun key hkey => (h.other key hkey).trans
        (NameSupply.get?_create_of_ne (hkey i)), fun x hx => ?_, ?_⟩
      · rcases List.mem_cons.mp hx with rfl | hx
        · exact ⟨hforbidden, i, Nat.le_refl _, hkept⟩
        · obtain ⟨hx, j, hj, hget⟩ := h.slot x hx
          exact ⟨hsame ▸ hx, j, by omega, hget⟩
      · refine List.nodup_cons.mpr ⟨fun hmem => ?_, h.nodup⟩
        obtain ⟨-, j, hj, hget⟩ := h.slot name hmem
        exact hne j hj (h.sound.get?_injective hget hkept)

theorem slot_countIn (l : Literal) (h : ∀ e ∈ es, e.slot = none) :
    ∀ e ∈ countIn l es, e.slot = none := by
  induction es with
  | nil => simp [countIn]
  | cons e es ih =>
    obtain ⟨he, hes⟩ := List.forall_mem_cons.mp h
    unfold countIn
    split
    · exact List.forall_mem_cons.mpr ⟨he, hes⟩
    · exact List.forall_mem_cons.mpr ⟨he, ih hes⟩

end LiteralPool

namespace Naming

open LiteralPool (slotKey slots)

variable {n : Naming} {x : String} {xs : List String}

/-! ## Settings -/

theorem settings_addIdentifier (n : Naming) (x : String) : (n.addIdentifier x).settings = n.settings := by
  unfold addIdentifier
  split
  · rfl
  · split <;> rfl

/-- What each step keeps, all steps keep. -/
theorem foldl_keeps {α β : Type} (p : Naming → β) (f : Naming → α → Naming)
    (hf : ∀ n a, p (f n a) = p n) (as : List α) (n : Naming) : p (as.foldl f n) = p n := by
  induction as generalizing n with
  | nil => rfl
  | cons a as ih => rw [List.foldl_cons, ih, hf]

theorem settings_finalize (n : Naming) : n.finalize.1.settings = n.settings := by
  unfold finalize
  split <;> rfl

theorem settings_enter (n : Naming) (paths : List String) (named counted : List Script) :
    (n.enter paths named counted).1.settings = n.settings := by
  rw [enter, settings_finalize, foldl_keeps settings addLiteral fun _ _ => rfl,
    foldl_keeps settings addIdentifier settings_addIdentifier, foldl_keeps settings addModule fun _ _ => rfl]

/-- Names keep their spellings unless they are all given short ones. -/
theorem identifier_of_not_renames (n : Naming) (h : n.settings.renames = false) (x : String) :
    n.identifier x = x := by
  rw [identifier, h]
  rfl

theorem slot?_of_not_hoists (n : Naming) (h : n.settings.hoists = false) (l : Literal) : n.slot? l = none := by
  rw [slot?, h]
  rfl

/-! ## Names that are never made up -/

/-- Names that the supply of an output never gives. -/
def reserved (n : Naming) : List String := Reserved.forbidden n.settings.excludedIdentifiers

/-- Names that are kept are reserved. -/
theorem mem_reserved_of_keeps (h : n.keeps x = true) : x ∈ n.reserved := by
  rw [keeps, Bool.or_eq_true] at h
  rw [reserved, Reserved.forbidden, List.mem_eraseDups]
  simp only [List.mem_append, List.contains_iff_mem] at h ⊢
  rcases h with h | h
  · exact .inl (.inl (.inr h))
  · exact .inr h

/-- A word that is not reserved is a name. -/
theorem IsWord.isName (hword : IsWord x) (hfree : x ∉ n.reserved) : IsName x := by
  refine ⟨hword, Option.eq_none_iff_forall_ne_some.mpr fun k hk => hfree ?_⟩
  rw [reserved, Reserved.forbidden, List.mem_eraseDups]
  have hspelling : k.spelling = x := by
    have := List.find?_some hk
    simpa using this
  exact List.mem_append_left _ (List.mem_append_left _ (List.mem_append_left _
    (List.mem_map.mpr ⟨k, Keyword.mem_all k, hspelling⟩)))

/-- A name that was entered: it has a new spelling or, if names keep theirs, no slot can get it. -/
def Seeded (n : Naming) (x : String) : Prop :=
  if n.settings.renames = true then (n.names.get? x).isSome = true else x ∈ n.names.forbidden

/-! ## Entering names -/

/-- The state of a naming before constants are decided on: `xs` were entered. -/
structure Entered (xs : List String) (n : Naming) : Prop where
  sound : n.names.Sound n.reserved
  seeded : ∀ x ∈ xs, n.keeps x = false → n.Seeded x
  keys : ∀ key ∈ n.names.names.map Prod.fst, ':' ∉ key.toList
  unslotted : ∀ e ∈ n.literals.entries, e.slot = none

namespace Entered

/-- One more name is entered. -/
theorem addIdentifier (h : n.Entered xs) (hx : ':' ∉ x.toList) : (n.addIdentifier x).Entered (x :: xs) := by
  unfold Naming.addIdentifier
  cases hkeeps : n.keeps x with
  | true =>
    refine ⟨h.sound, fun y hy hnot => ?_, h.keys, h.unslotted⟩
    rcases List.mem_cons.mp hy with rfl | hy
    · rw [if_pos rfl, hkeeps] at hnot
      cases hnot
    · exact h.seeded y hy hnot
  | false =>
    rw [if_neg Bool.false_ne_true]
    cases hrenames : n.settings.renames with
    | true =>
      rw [if_pos rfl]
      refine ⟨h.sound.create x, fun y hy hnot => ?_, fun key hkey => ?_, h.unslotted⟩
      · rw [Seeded, if_pos hrenames]
        rcases List.mem_cons.mp hy with rfl | hy
        · rw [NameSupply.get?_create_self]
          rfl
        · have hseed := h.seeded y hy hnot
          rw [Seeded, if_pos hrenames] at hseed
          obtain ⟨name, hname⟩ := Option.isSome_iff_exists.mp hseed
          rw [NameSupply.get?_create_of_eq_some hname]
          rfl
      · rcases NameSupply.mem_keys_create hkey with rfl | hkey
        · exact hx
        · exact h.keys key hkey
    | false =>
      rw [if_neg Bool.false_ne_true]
      have hnames : (n.names.forbid x).names = n.names.names := by
        unfold NameSupply.forbid
        split <;> rfl
      refine ⟨h.sound.forbid x, fun y hy hnot => ?_, hnames ▸ h.keys, h.unslotted⟩
      have hforbid : x ∈ (n.names.forbid x).forbidden ∧
          ∀ y ∈ n.names.forbidden, y ∈ (n.names.forbid x).forbidden := by
        unfold NameSupply.forbid
        split
        · exact ⟨‹_›, fun _ h => h⟩
        · exact ⟨List.mem_cons_self .., fun _ h => List.mem_cons_of_mem _ h⟩
      rw [Seeded, if_neg (by simp [hrenames])]
      rcases List.mem_cons.mp hy with rfl | hy
      · exact hforbid.1
      · have hseed := h.seeded y hy hnot
        rw [Seeded, if_neg (by simp [hrenames])] at hseed
        exact hforbid.2 y hseed

/-- Names are entered one after another. -/
theorem foldl_addIdentifier (h : n.Entered xs) {ys : List String} (hys : ∀ y ∈ ys, ':' ∉ y.toList) :
    (ys.foldl Naming.addIdentifier n).Entered (ys ++ xs) := by
  induction ys generalizing n xs with
  | nil => exact h
  | cons y ys ih =>
    obtain ⟨hy, hys⟩ := List.forall_mem_cons.mp hys
    have hall := ih (h.addIdentifier hy) hys
    exact { hall with seeded := fun x hx => hall.seeded x (by simp at hx ⊢; tauto) }

theorem foldl_addLiteral (h : n.Entered xs) (ls : List Literal) :
    (ls.foldl Naming.addLiteral n).Entered xs := by
  induction ls generalizing n with
  | nil => exact h
  | cons l ls ih =>
    exact ih ⟨h.sound, h.seeded, h.keys, LiteralPool.slot_countIn l h.unslotted⟩

end Entered

/-! ## Deciding on constants -/

/-- The state of a naming that is ready to write: `xs` were entered. -/
structure Settled (xs : List String) (n : Naming) : Prop where
  sound : n.names.Sound n.reserved
  seeded : ∀ x ∈ xs, n.keeps x = false → n.Seeded x
  slot : ∀ x ∈ n.hoisted.map Prod.fst, x ∉ n.names.forbidden ∧
    ∃ i, n.names.get? (slotKey i) = some x
  nodup : (n.hoisted.map Prod.fst).Nodup

/-- The slots in the preamble are those of the records. -/
theorem hoisted_map_fst (h : n.settings.hoists = true) :
    n.hoisted.map Prod.fst = slots n.literals.entries := by
  rw [hoisted, if_pos h, LiteralPool.hoisted, slots, List.map_filterMap]
  refine List.filterMap_congr fun e _ => ?_
  cases e.slot <;> rfl

theorem finalize_of_hoists (h : n.settings.hoists = true) :
    n.finalize.1 =
      { n with
        literals := { n.literals with entries := (n.literals.assign 0 n.literals.entries n.names).1 }
        names := (n.literals.assign 0 n.literals.entries n.names).2.2 } := by
  rw [finalize, if_pos h]
  rfl

theorem finalize_of_not_hoists (h : n.settings.hoists = false) : n.finalize.1 = n := by
  rw [finalize, h]
  rfl

/-- Giving out slots to a naming with all names entered. -/
theorem Entered.assigned (h : n.Entered xs) :
    LiteralPool.Assigned n.reserved 0 n.names (n.literals.assign 0 n.literals.entries n.names).1
      (n.literals.assign 0 n.literals.entries n.names).2.2 := by
  have hnew : ∀ j ≥ 0, n.names.get? (slotKey j) = none := fun j _ =>
    NameSupply.get?_eq_none_iff.mpr fun hmem => h.keys _ hmem (LiteralPool.colon_mem_slotKey j)
  exact LiteralPool.assigned_assign h.sound hnew h.unslotted

/-- **When all is entered, a naming can be settled**. -/
theorem Entered.finalize (h : n.Entered xs) : n.finalize.1.Settled xs := by
  cases hhoists : n.settings.hoists with
  | false =>
    rw [finalize_of_not_hoists hhoists]
    have hnone : n.hoisted = [] := by rw [hoisted, hhoists]; rfl
    exact ⟨h.sound, h.seeded, by simp [hnone], by simp [hnone]⟩
  | true =>
    have hassign := h.assigned
    have hslots : n.finalize.1.hoisted.map Prod.fst =
        slots (n.literals.assign 0 n.literals.entries n.names).1 := by
      rw [finalize_of_hoists hhoists]
      exact hoisted_map_fst hhoists
    rw [finalize_of_hoists hhoists] at hslots ⊢
    refine ⟨hassign.sound, fun x hx hnot => ?_, fun x hx => ?_, hslots ▸ hassign.nodup⟩
    · have hseed := h.seeded x hx hnot
      unfold Seeded at hseed ⊢
      split at hseed
      · rename_i hrenames
        obtain ⟨name, hname⟩ := Option.isSome_iff_exists.mp hseed
        rw [if_pos hrenames]
        exact Option.isSome_iff_exists.mpr ⟨name, hassign.keeps _ _ hname⟩
      · rename_i hrenames
        rw [if_neg hrenames]
        exact hassign.forbidden ▸ hseed
    · obtain ⟨hforbidden, j, -, hname⟩ := hassign.slot x (hslots ▸ hx)
      exact ⟨hassign.forbidden ▸ hforbidden, j, hname⟩

/-! ## Looking names up -/

namespace Settled

variable {y : String}

/-- A name that is not kept is written as the supply has it. -/
theorem get?_eq_some (h : n.Settled xs) (hx : x ∈ xs) (hrenames : n.settings.renames = true)
    (hkeeps : n.keeps x = false) : n.names.get? x = some (n.identifier x) := by
  have hseed := h.seeded x hx hkeeps
  rw [Seeded, if_pos hrenames] at hseed
  obtain ⟨name, hname⟩ := Option.isSome_iff_exists.mp hseed
  simp [identifier, hrenames, hkeeps, hname]

theorem identifier_of_keeps (hkeeps : n.keeps x = true) : n.identifier x = x := by
  simp [identifier, hkeeps]

/-- What is made up is a name, and none that has a meaning of its own. -/
theorem isName_of_get? (h : n.Settled xs) {key : String} (hy : n.names.get? key = some y) :
    IsName y ∧ y ∉ n.reserved := by
  have hmem := NameSupply.Sound.mem_names hy
  exact ⟨IsWord.isName (h.sound.word _ hmem) (h.sound.apart _ hmem), h.sound.apart _ hmem⟩

/-- A new spelling is a name, and is not reserved. -/
theorem isName (h : n.Settled xs) (hx : x ∈ xs) (hrenames : n.settings.renames = true)
    (hkeeps : n.keeps x = false) : IsName (n.identifier x) ∧ n.identifier x ∉ n.reserved :=
  h.isName_of_get? (h.get?_eq_some hx hrenames hkeeps)

/-- A slot is a name. -/
theorem isName_slot (h : n.Settled xs) (hy : y ∈ n.hoisted.map Prod.fst) : IsName y := by
  obtain ⟨-, i, hget⟩ := h.slot y hy
  exact (h.isName_of_get? hget).1

/-- Names are written as names. -/
theorem isName_identifier (h : n.Settled xs) (hx : IsName x) : IsName (n.identifier x) := by
  unfold identifier
  split
  · exact hx
  · cases hget : n.names.get? x with
    | none => exact hx
    | some y => exact (h.isName_of_get? hget).1

/-- **Two names never get one spelling.** -/
theorem identifier_injective (h : n.Settled xs) (hx : x ∈ xs) (hy : y ∈ xs)
    (heq : n.identifier x = n.identifier y) : x = y := by
  cases hrenames : n.settings.renames with
  | false => rwa [identifier_of_not_renames n hrenames, identifier_of_not_renames n hrenames] at heq
  | true =>
    cases hkx : n.keeps x with
    | true =>
      cases hky : n.keeps y with
      | true => rwa [identifier_of_keeps hkx, identifier_of_keeps hky] at heq
      | false =>
        rw [identifier_of_keeps hkx] at heq
        exact absurd (heq ▸ mem_reserved_of_keeps hkx) (h.isName hy hrenames hky).2
    | false =>
      cases hky : n.keeps y with
      | true =>
        rw [identifier_of_keeps hky] at heq
        exact absurd (heq ▸ mem_reserved_of_keeps hky) (h.isName hx hrenames hkx).2
      | false =>
        have hgx := h.get?_eq_some hx hrenames hkx
        exact h.sound.get?_injective (heq ▸ hgx) (h.get?_eq_some hy hrenames hky)

/-- **No slot is the spelling of a name.** -/
theorem slot_ne_identifier (h : n.Settled xs) (hx : x ∈ xs) (hcolon : ':' ∉ x.toList) {slot : String}
    (hslot : slot ∈ n.hoisted.map Prod.fst) : slot ≠ n.identifier x := by
  obtain ⟨hforbidden, i, hget⟩ := h.slot slot hslot
  rintro rfl
  cases hkeeps : n.keeps x with
  | true =>
    rw [identifier_of_keeps hkeeps] at hforbidden
    exact hforbidden (h.sound.reserves (mem_reserved_of_keeps hkeeps))
  | false =>
    cases hrenames : n.settings.renames with
    | true =>
      have hkey := h.sound.get?_injective hget (h.get?_eq_some hx hrenames hkeeps)
      exact hcolon (hkey ▸ LiteralPool.colon_mem_slotKey i)
    | false =>
      have hseed := h.seeded x hx hkeeps
      rw [Seeded, if_neg (by simp [hrenames])] at hseed
      rw [identifier_of_not_renames n hrenames] at hforbidden
      exact hforbidden hseed

end Settled

/-! ## All of an output -/

theorem addModule_foldl (paths : List String) (n : Naming) :
    paths.foldl addModule n = { n with modules := (paths.foldl addModule n).modules } := by
  induction paths generalizing n with
  | nil => rfl
  | cons path paths ih => exact ih (n.addModule path)

/-- Nothing is entered at first. -/
theorem entered_ofSettings (settings : Settings) (relocate : String → String) :
    (ofSettings settings relocate).Entered [] where
  sound := NameSupply.Sound.ofAlphabet ..
  seeded := by simp
  keys key hkey := by
    rcases NameSupply.mem_keys_foldl_create hkey with hkey | hkey
    · have hnames : ∀ key ∈ Reserved.runtimeNames, ':' ∉ key.toList := by decide
      exact hnames key hkey
    · exact absurd hkey List.not_mem_nil
  unslotted := by simp [ofSettings]

/-- What goes into an output is entered, before constants are decided on. -/
def gather (n : Naming) (paths : List String) (named counted : List Script) : Naming :=
  (counted.flatMap (·.mentions.literals)).foldl addLiteral
    ((named.flatMap Script.identifiers).foldl addIdentifier (paths.foldl addModule n))

theorem enter_eq (n : Naming) (paths : List String) (named counted : List Script) :
    n.enter paths named counted = (n.gather paths named counted).finalize := rfl

/-- Whatever goes into an output is entered. -/
theorem entered_gather (settings : Settings) (relocate : String → String) (paths : List String)
    (named counted : List Script)
    (hcolon : ∀ s ∈ named, ∀ x ∈ s.identifiers, ':' ∉ x.toList) :
    ((ofSettings settings relocate).gather paths named counted).Entered
      (named.flatMap Script.identifiers) := by
  have hstart : (paths.foldl addModule (ofSettings settings relocate)).Entered [] := by
    rw [addModule_foldl]
    have h := entered_ofSettings settings relocate
    exact ⟨h.sound, h.seeded, h.keys, h.unslotted⟩
  have hnames : ∀ x ∈ named.flatMap Script.identifiers, ':' ∉ x.toList := fun x hx => by
    obtain ⟨s, hs, hx⟩ := List.mem_flatMap.mp hx
    exact hcolon s hs x hx
  have h := (hstart.foldl_addIdentifier hnames).foldl_addLiteral
    (counted.flatMap (·.mentions.literals))
  rwa [List.append_nil] at h

/-- **After everything is entered, names and slots are apart.** -/
theorem settled_enter (settings : Settings) (relocate : String → String) (paths : List String)
    (named counted : List Script)
    (hcolon : ∀ s ∈ named, ∀ x ∈ s.identifiers, ':' ∉ x.toList) :
    ((ofSettings settings relocate).enter paths named counted).1.Settled
      (named.flatMap Script.identifiers) :=
  (entered_gather settings relocate paths named counted hcolon).finalize

end Naming

end ScriptBundler

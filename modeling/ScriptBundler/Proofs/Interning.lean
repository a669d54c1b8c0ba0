import ScriptBundler.Proofs.Allocation
import ScriptBundler.Proofs.Constants

/-!
# Proofs/Interning — one record for each constant, one slot for each record

    add ──▸ counts ──finalize──▸ slots ──add──▸ counts ──finalize──▸ slots
                └───── names for other keys, at any time ─────┘

A pool is used in any order of these calls, and the supply its slots come from is asked for other names
in between (`LiteralPool.Stage.call`).  Two facts are kept by every call: the records tell what was
added (`LiteralPool.Tallied`), and the slot of a record is the name that the supply has under the
number of the record (`LiteralPool.Slotted`).  What a pool answers follows from them.
-/

namespace ScriptBundler

namespace Literal

/-- What can get a slot: numbers and texts of more than two bytes. -/
theorem isHoistable_iff {l : Literal} : l.isHoistable = true ↔
    (∀ b, l ≠ .bool b) ∧ l ≠ .null ∧ 2 < l.raw.utf8ByteSize := by
  cases l <;> simp [isHoistable]

end Literal

namespace LiteralPool

open NameSupply (Ask)

variable {p : LiteralPool} {l m : Literal} {e : Entry} {es : List Entry} {ls : List Literal}
  {s : NameSupply} {i : Nat}

/-! ## Records -/

/-- The slot of a constant. -/
def slotOf (p : LiteralPool) (l : Literal) : Option String := (p.get? l).bind (·.slot)

/-- What tells the records apart. -/
def keys (es : List Entry) : List String := es.map (·.literal.key)

/-- A constant is found in the one record with its key. -/
theorem get?_eq_some_iff (h : (keys p.entries).Nodup) :
    p.get? l = some e ↔ e ∈ p.entries ∧ e.literal.key = l.key := by
  constructor
  · intro he
    exact ⟨List.mem_of_find?_eq_some he, by simpa using List.find?_some he⟩
  · rintro ⟨he, hkey⟩
    cases hget : p.get? l with
    | none => exact absurd hkey (by simpa using List.find?_eq_none.mp hget e he)
    | some e' =>
      have hmem := List.mem_of_find?_eq_some hget
      have hkey' : e'.literal.key = l.key := by simpa using List.find?_some hget
      rw [List.inj_on_of_nodup_map h hmem he (hkey'.trans hkey.symm)]

/-- The slot of a constant is that of the record with its key. -/
theorem slotOf_eq_some_iff (h : (keys p.entries).Nodup) {x : String} :
    p.slotOf l = some x ↔ ∃ e ∈ p.entries, e.literal.key = l.key ∧ e.slot = some x := by
  simp only [slotOf, Option.bind_eq_some_iff, get?_eq_some_iff h, and_assoc]

/-- A record that counts one more if it has the key. -/
def recount (key : String) (e : Entry) : Entry :=
  if e.literal.key = key then { e with count := e.count + 1 } else e

@[simp] theorem literal_recount (key : String) (e : Entry) :
    (recount key e).literal = e.literal := by
  unfold recount
  split <;> rfl

/-- Counting adds one to the record with the key. -/
theorem count_recount (key : String) (e : Entry) :
    (recount key e).count = e.count + if key = e.literal.key then 1 else 0 := by
  unfold recount
  by_cases h : e.literal.key = key
  · rw [if_pos h, if_pos h.symm]
  · rw [if_neg h, if_neg (Ne.symm h)]
    rfl

/-- A constant that is known is counted in its record. -/
theorem countIn_of_mem (hnodup : (keys es).Nodup) (h : l.key ∈ keys es) :
    countIn l es = es.map (recount l.key) := by
  induction es with
  | nil => exact absurd h List.not_mem_nil
  | cons e es ih =>
    obtain ⟨hnot, hes⟩ := List.nodup_cons.mp hnodup
    unfold countIn
    by_cases hkey : e.literal.key = l.key
    · have hrest : ∀ e' ∈ es, recount l.key e' = e' := fun e' he' =>
        if_neg fun heq => hnot (List.mem_map.mpr ⟨e', he', heq.trans hkey.symm⟩)
      rw [if_pos hkey, List.map_cons, List.map_congr_left hrest, List.map_id', recount, if_pos hkey]
    · have hmem : l.key ∈ keys es := (List.mem_cons.mp h).resolve_left fun heq => hkey heq.symm
      rw [if_neg hkey, List.map_cons, ih hes hmem, recount, if_neg hkey]

/-- A new constant is given a record behind all others. -/
theorem countIn_of_not_mem (h : l.key ∉ keys es) : countIn l es = es ++ [{ literal := l }] := by
  induction es with
  | nil => rfl
  | cons e es ih =>
    obtain ⟨hne, hnot⟩ := not_or.mp (mt List.mem_cons.mpr h)
    unfold countIn
    rw [if_neg (Ne.symm hne), ih hnot]
    rfl

/-! ## What was added -/

/-- The records of the constants `ls`, which were added in this order: each is about the first of its
kind, and counts them all; records stand in the order of these firsts. -/
structure Tallied (ls : List Literal) (es : List Entry) : Prop where
  nodup : (keys es).Nodup
  mem : ∀ l ∈ ls, l.key ∈ keys es
  first : ∀ e ∈ es, ls.find? (·.key = e.literal.key) = some e.literal
  count : ∀ e ∈ es, e.count = ls.countP (·.key = e.literal.key)
  order : (es.map fun e => ls.findIdx (·.key = e.literal.key)).Pairwise (· < ·)

namespace Tallied

theorem nil : Tallied [] [] := ⟨List.nodup_nil, by simp, by simp, by simp, .nil⟩

theorem findIdx_lt (h : Tallied ls es) (he : e ∈ es) :
    ls.findIdx (·.key = e.literal.key) < ls.length :=
  List.findIdx_lt_length_of_exists ⟨e.literal, List.mem_of_find?_eq_some (h.first e he), by simp⟩

/-- What is added later is no first of a known kind. -/
theorem findIdx_append (h : Tallied ls es) (he : e ∈ es) :
    (ls ++ [l]).findIdx (·.key = e.literal.key) = ls.findIdx (·.key = e.literal.key) := by
  rw [List.findIdx_append, if_pos (h.findIdx_lt he)]

/-- **Adding a constant keeps the tally.** -/
theorem countIn (h : Tallied ls es) (l : Literal) : Tallied (ls ++ [l]) (countIn l es) := by
  by_cases hmem : l.key ∈ keys es
  · rw [countIn_of_mem h.nodup hmem]
    have hkeys : keys (es.map (recount l.key)) = keys es := by
      simp [keys, List.map_map, Function.comp_def]
    refine ⟨hkeys ▸ h.nodup, fun m hm => hkeys ▸ ?_, fun e he => ?_, fun e he => ?_, ?_⟩
    · rcases List.mem_append.mp hm with hm | hm
      · exact h.mem m hm
      · exact List.mem_singleton.mp hm ▸ hmem
    · obtain ⟨e, hmem', rfl⟩ := List.mem_map.mp he
      rw [literal_recount, List.find?_append, h.first e hmem']
      rfl
    · obtain ⟨e, hmem', rfl⟩ := List.mem_map.mp he
      rw [literal_recount, count_recount, List.countP_append, h.count e hmem']
      simp [List.countP_cons]
    · have hsame : (es.map (recount l.key)).map
          (fun e => (ls ++ [l]).findIdx (·.key = e.literal.key)) =
            es.map fun e => ls.findIdx (·.key = e.literal.key) := by
        rw [List.map_map]
        refine List.map_congr_left fun e he => ?_
        rw [Function.comp_apply, literal_recount, h.findIdx_append he]
      exact hsame ▸ h.order
  · rw [countIn_of_not_mem hmem]
    have hnew : ∀ m ∈ ls, ¬ m.key = l.key := fun m hm heq => hmem (heq ▸ h.mem m hm)
    have hnone : ls.find? (·.key = l.key) = none := List.find?_eq_none.mpr (by simpa using hnew)
    have hkeys : keys (es ++ [{ literal := l }]) = keys es ++ [l.key] := List.map_append
    refine ⟨?_, fun m hm => ?_, fun e he => ?_, fun e he => ?_, ?_⟩
    · rw [hkeys]
      exact h.nodup.append (List.nodup_singleton _) (by simpa using hmem)
    · rw [hkeys]
      rcases List.mem_append.mp hm with hm | hm
      · exact List.mem_append_left _ (h.mem m hm)
      · exact List.mem_append_right _ (by simp [List.mem_singleton.mp hm])
    · rcases List.mem_append.mp he with he | he
      · rw [List.find?_append, h.first e he]
        rfl
      · rw [List.mem_singleton.mp he, List.find?_append, hnone]
        simp
    · rcases List.mem_append.mp he with he | he
      · have hne : ¬ l.key = e.literal.key := fun heq => hmem (heq ▸ List.mem_map_of_mem he)
        rw [List.countP_append, h.count e he]
        simp [hne]
      · have hzero : ls.countP (·.key = l.key) = 0 := List.countP_eq_zero.mpr (by simpa using hnew)
        rw [List.mem_singleton.mp he, List.countP_append, hzero]
        simp
    · rw [List.map_append, List.pairwise_append]
      have hsame : es.map (fun e => (ls ++ [l]).findIdx (·.key = e.literal.key)) =
          es.map fun e => ls.findIdx (·.key = e.literal.key) :=
        List.map_congr_left fun e he => h.findIdx_append he
      refine ⟨hsame ▸ h.order, List.pairwise_singleton _ _, fun a ha b hb => ?_⟩
      obtain ⟨e, he, rfl⟩ := List.mem_map.mp ha
      obtain rfl := List.mem_singleton.mp hb
      have hlast : ls.length ≤ ls.findIdx (·.key = l.key) :=
        Nat.le_of_eq (List.findIdx_eq_length.mpr (by simpa using hnew)).symm
      have hlt := h.findIdx_lt he
      show (ls ++ [l]).findIdx (·.key = e.literal.key) < (ls ++ [l]).findIdx (·.key = l.key)
      rw [h.findIdx_append he, List.findIdx_append, if_neg (Nat.not_lt.mpr hlast)]
      omega

/-- Only what a record is about and its count matter to the tally. -/
theorem of_map_eq {es' : List Entry} (h : Tallied ls es)
    (heq : es'.map (fun e => (e.literal, e.count)) = es.map fun e => (e.literal, e.count)) :
    Tallied ls es' := by
  have hmem : ∀ e' ∈ es', ∃ e ∈ es, e.literal = e'.literal ∧ e.count = e'.count := by
    intro e' he'
    have hpair : (e'.literal, e'.count) ∈ es.map fun e => (e.literal, e.count) :=
      heq ▸ List.mem_map_of_mem he'
    obtain ⟨e, he, hpair⟩ := List.mem_map.mp hpair
    exact ⟨e, he, Prod.mk.inj hpair⟩
  have hmap : ∀ {β : Type} (f : Literal → β),
      es'.map (fun e => f e.literal) = es.map fun e => f e.literal := fun f => by
    simpa [List.map_map, Function.comp_def] using congrArg (List.map fun q => f q.1) heq
  have hkeys : keys es' = keys es := hmap Literal.key
  refine ⟨hkeys ▸ h.nodup, hkeys ▸ h.mem, fun e' he' => ?_, fun e' he' => ?_, ?_⟩
  · obtain ⟨e, he, hliteral, -⟩ := hmem e' he'
    exact hliteral ▸ h.first e he
  · obtain ⟨e, he, hliteral, hcount⟩ := hmem e' he'
    exact hliteral ▸ hcount ▸ h.count e he
  · rw [hmap fun l => ls.findIdx (·.key = l.key)]
    exact h.order

end Tallied

/-! ## Giving out slots -/

/-- What slots are asked for under, from the record number `i` on. -/
def dueFrom (p : LiteralPool) (i : Nat) (es : List Entry) : List String :=
  ((es.zipIdx i).filter (p.isDue ·.1)).map (slotKey ·.2)

/-- What slots are asked for under, in the order of the records. -/
def dueKeys (p : LiteralPool) : List String := p.dueFrom 0 p.entries

theorem dueFrom_cons : p.dueFrom i (e :: es) =
    if p.isDue e = true then slotKey i :: p.dueFrom (i + 1) es else p.dueFrom (i + 1) es := by
  unfold dueFrom
  rw [List.zipIdx_cons, List.filter_cons]
  split <;> rfl

/-- What is due has a key with a number from `i` on. -/
theorem exists_of_mem_dueFrom {key : String} (h : key ∈ p.dueFrom i es) :
    ∃ j ≥ i, key = slotKey j := by
  obtain ⟨q, hq, rfl⟩ := List.mem_map.mp h
  exact ⟨q.2, List.le_snd_of_mem_zipIdx (List.mem_of_mem_filter hq), rfl⟩

/-- Slots are asked for under keys that differ. -/
theorem nodup_dueFrom (p : LiteralPool) (i : Nat) (es : List Entry) : (p.dueFrom i es).Nodup := by
  induction es generalizing i with
  | nil => exact List.nodup_nil
  | cons e es ih =>
    rw [dueFrom_cons]
    split
    · refine List.nodup_cons.mpr ⟨fun hmem => ?_, ih (i + 1)⟩
      obtain ⟨j, hj, heq⟩ := exists_of_mem_dueFrom hmem
      have := slotKey_injective heq
      omega
    · exact ih (i + 1)

/-- Slots that records have in `es'` and did not have in `es`. -/
def gained (es es' : List Entry) : List String :=
  (es.zip es').filterMap fun q => if q.1.slot = none then q.2.slot else none

/-- A record after slots were given out: if one was due, it is the name under its number. -/
def settle (p : LiteralPool) (s : NameSupply) (i : Nat) (e : Entry) : Entry :=
  if p.isDue e = true then { e with slot := s.get? (slotKey i) } else e

@[simp] theorem literal_settle (p : LiteralPool) (s : NameSupply) (i : Nat) (e : Entry) :
    (p.settle s i e).literal = e.literal := by
  unfold settle
  split <;> rfl

@[simp] theorem count_settle (p : LiteralPool) (s : NameSupply) (i : Nat) (e : Entry) :
    (p.settle s i e).count = e.count := by
  unfold settle
  split <;> rfl

theorem slot_eq_none_of_isDue (h : p.isDue e = true) : e.slot = none := by
  simp only [isDue, Bool.and_eq_true] at h
  exact Option.isNone_iff_eq_none.mp h.1.1

/-- The supply is asked for the slots that are due, one after the other. -/
theorem supply_assign (p : LiteralPool) (i : Nat) (es : List Entry) (s : NameSupply) :
    (p.assign i es s).2.2 = s.run ((p.dueFrom i es).map .name) := by
  induction es generalizing i s with
  | nil => rfl
  | cons e es ih =>
    rw [dueFrom_cons]
    cases hdue : p.isDue e with
    | true =>
      rw [assign_cons_of_isDue hdue, if_pos rfl, ih]
      rfl
    | false => rw [assign_cons_of_not_isDue hdue, if_neg Bool.false_ne_true, ih]

/-- As many slots are given as are due. -/
theorem count_assign (p : LiteralPool) (i : Nat) (es : List Entry) (s : NameSupply) :
    (p.assign i es s).2.1 = (p.dueFrom i es).length := by
  induction es generalizing i s with
  | nil => rfl
  | cons e es ih =>
    rw [dueFrom_cons]
    cases hdue : p.isDue e with
    | true => rw [assign_cons_of_isDue hdue, if_pos rfl, ih, List.length_cons]
    | false => rw [assign_cons_of_not_isDue hdue, if_neg Bool.false_ne_true, ih]

/-- The slots that are gained are the names the supply answers with, in the order of the records. -/
theorem gained_assign (p : LiteralPool) (i : Nat) (es : List Entry) (s : NameSupply) :
    gained es (p.assign i es s).1 = s.given ((p.dueFrom i es).map .name) := by
  induction es generalizing i s with
  | nil => rfl
  | cons e es ih =>
    rw [dueFrom_cons]
    cases hdue : p.isDue e with
    | true =>
      rw [assign_cons_of_isDue hdue, if_pos rfl, List.map_cons, NameSupply.given, ← ih]
      simp [gained, slot_eq_none_of_isDue hdue]
    | false =>
      rw [assign_cons_of_not_isDue hdue, if_neg Bool.false_ne_true, ← ih]
      have hnone : (if e.slot = none then e.slot else none) = none := by split <;> simp [*]
      simp [gained, hnone]

/-- **Records change in their slots only**, and a slot that was due is the name under the number of its
record. -/
theorem entries_assign (p : LiteralPool) (i : Nat) (es : List Entry) (s : NameSupply) :
    (p.assign i es s).1 = es.mapIdx fun j e => p.settle (p.assign i es s).2.2 (i + j) e := by
  induction es generalizing i s with
  | nil => rfl
  | cons e es ih =>
    have hrest : ∀ s', es.mapIdx (fun j e => p.settle s' (i + (j + 1)) e) =
        es.mapIdx fun j e => p.settle s' (i + 1 + j) e := fun s' => by
      simp only [Nat.add_assoc, Nat.add_comm 1]
    rw [List.mapIdx_cons, hrest]
    cases hdue : p.isDue e with
    | true =>
      have hname : (p.assign (i + 1) es (s.create (slotKey i)).2).2.2.get? (slotKey i) =
          some (s.create (slotKey i)).1 := by
        rw [supply_assign]
        exact NameSupply.get?_run (NameSupply.get?_create_self s (slotKey i)) _
      rw [assign_cons_of_isDue hdue]
      refine congrArg₂ List.cons ?_ (ih (i + 1) _)
      show _ = p.settle (p.assign (i + 1) es (s.create (slotKey i)).2).2.2 i e
      rw [settle, if_pos hdue, hname]
    | false =>
      rw [assign_cons_of_not_isDue hdue]
      refine congrArg₂ List.cons ?_ (ih (i + 1) _)
      rw [settle, hdue, if_neg Bool.false_ne_true]

/-- Giving out slots settles each record at its place. -/
theorem entries_finalize (p : LiteralPool) (s : NameSupply) :
    (p.finalize s).1.entries = p.entries.mapIdx (p.settle (p.finalize s).2.2) := by
  show (p.assign 0 p.entries s).1 = p.entries.mapIdx (p.settle (p.assign 0 p.entries s).2.2)
  rw [entries_assign]
  simp only [Nat.zero_add]

/-- The supply is asked for the names that are due, in order. -/
theorem supply_finalize (p : LiteralPool) (s : NameSupply) :
    (p.finalize s).2.2 = s.run (p.dueKeys.map .name) := supply_assign p 0 p.entries s

theorem count_finalize (p : LiteralPool) (s : NameSupply) :
    (p.finalize s).2.1 = p.dueKeys.length := count_assign p 0 p.entries s

/-- What records gain are the names the supply gives. -/
theorem gained_finalize (p : LiteralPool) (s : NameSupply) :
    gained p.entries (p.finalize s).1.entries = s.given (p.dueKeys.map .name) :=
  gained_assign p 0 p.entries s

/-- A key is due exactly if its record is. -/
theorem mem_dueKeys {key : String} :
    key ∈ p.dueKeys ↔ ∃ i e, p.entries[i]? = some e ∧ p.isDue e = true ∧ key = slotKey i := by
  simp only [dueKeys, dueFrom, List.mem_map, List.mem_filter]
  constructor
  · rintro ⟨⟨e, i⟩, ⟨hmem, hdue⟩, rfl⟩
    exact ⟨i, e, List.mem_zipIdx_iff_getElem?.mp hmem, hdue, rfl⟩
  · rintro ⟨i, e, hget, hdue, rfl⟩
    exact ⟨(e, i), ⟨List.mem_zipIdx_iff_getElem?.mpr hget, hdue⟩, rfl⟩

end LiteralPool

/-! ## Names in the order of their words -/

namespace NameSupply

variable {s : NameSupply}

theorem le_search (s : NameSupply) (steps n : Nat) : n ≤ s.search steps n := by
  induction steps generalizing n with
  | zero => exact Nat.le_refl n
  | succ steps ih =>
    rw [search]
    split
    · exact Nat.le_refl n
    · exact Nat.le_of_succ_le (ih (n + 1))

/-- A key that is not asked for keeps what it has. -/
theorem get?_run_of_not_mem {key : String} {asked : List Ask} (h : .name key ∉ asked) :
    (s.run asked).get? key = s.get? key := by
  induction asked generalizing s with
  | nil => rfl
  | cons a asked ih =>
    obtain ⟨hne, hnot⟩ := not_or.mp (mt List.mem_cons.mpr h)
    rw [show s.run (a :: asked) = (s.ask a).run asked from rfl, ih hnot]
    cases a with
    | name other => exact get?_create_of_ne fun heq => hne (heq ▸ rfl)
    | forbid other => rw [ask, get?, names_forbid, get?]

/-- A key that is asked for has a name. -/
theorem isSome_get?_run {key : String} {asked : List Ask} (h : .name key ∈ asked) :
    ((s.run asked).get? key).isSome = true := by
  induction asked generalizing s with
  | nil => exact absurd h List.not_mem_nil
  | cons a asked ih =>
    rcases List.mem_cons.mp h with rfl | h
    · rw [show s.run (.name key :: asked) = (s.create key).2.run asked from rfl,
        get?_run (get?_create_self s key) asked]
      rfl
    · exact ih (s := s.ask a) h

/-- Every name that is asked for is given. -/
theorem length_given (s : NameSupply) (keys : List String) :
    (s.given (keys.map .name)).length = keys.length := by
  induction keys generalizing s with
  | nil => rfl
  | cons key keys ih => rw [List.map_cons, given, List.length_cons, ih, List.length_cons]

/-- New keys are given words further and further on. -/
theorem exists_given_eq {keys : List String} (hnodup : keys.Nodup)
    (hnew : ∀ key ∈ keys, s.get? key = none) :
    ∃ ns : List Nat, s.given (keys.map .name) = ns.map s.word ∧ ns.Pairwise (· < ·) ∧
      ∀ n ∈ ns, s.counter ≤ n := by
  induction keys generalizing s with
  | nil => exact ⟨[], rfl, .nil, by simp⟩
  | cons key keys ih =>
    obtain ⟨hnot, hnodup⟩ := List.nodup_cons.mp hnodup
    obtain ⟨hkey, hnew⟩ := List.forall_mem_cons.mp hnew
    obtain ⟨ns, hgiven, hlt, hle⟩ := ih (s := (s.create key).2) hnodup fun other hother =>
      (get?_create_of_ne fun heq : other = key => hnot (heq ▸ hother)).trans (hnew other hother)
    have hword : (s.create key).2.word = s.word := funext fun n => by rw [word, word, alphabet_create]
    have hcounter : (s.create key).2.counter = s.search s.searchBound s.counter + 1 := by
      simp [create, hkey]
    rw [hword] at hgiven
    rw [hcounter] at hle
    have hsearch := s.le_search s.searchBound s.counter
    refine ⟨s.search s.searchBound s.counter :: ns, ?_, List.pairwise_cons.mpr ⟨hle, hlt⟩, ?_⟩
    · rw [List.map_cons, given, hgiven, List.map_cons]
      simp [create, hkey]
    · refine List.forall_mem_cons.mpr ⟨hsearch, fun n hn => ?_⟩
      have := hle n hn
      omega

/-- **New keys are given words in their order.** -/
theorem pairwise_less_given (hne : s.alphabet ≠ []) (hletters : s.alphabet.Nodup) {keys : List String}
    (hnodup : keys.Nodup) (hnew : ∀ key ∈ keys, s.get? key = none) :
    (s.given (keys.map .name)).Pairwise fun x y => Word.Less s.alphabet x.toList y.toList := by
  obtain ⟨ns, hgiven, hlt, -⟩ := exists_given_eq hnodup hnew
  rw [hgiven, List.pairwise_map]
  refine hlt.imp fun {n m} h => ?_
  rw [word, word, String.toList_ofList, String.toList_ofList]
  exact Word.less_encode hne hletters h

end NameSupply

namespace LiteralPool

open NameSupply (Ask)

variable {p : LiteralPool} {l : Literal} {e : Entry} {es : List Entry} {ls : List Literal}
  {s : NameSupply}

/-! ## Slots by the numbers of the records -/

/-- The slot of the record number `i`. -/
def slotAt (es : List Entry) (i : Nat) : Option String := es[i]?.bind (·.slot)

/-- Counting a constant changes no slot. -/
theorem slotAt_countIn (l : Literal) (es : List Entry) (i : Nat) :
    slotAt (countIn l es) i = slotAt es i := by
  induction es generalizing i with
  | nil => cases i <;> rfl
  | cons e es ih =>
    unfold countIn
    split
    · cases i <;> rfl
    · cases i with
      | zero => rfl
      | succ i => exact ih i

theorem slotAt_finalize (p : LiteralPool) (s : NameSupply) (i : Nat) :
    slotAt (p.finalize s).1.entries i =
      p.entries[i]?.bind fun e => (p.settle (p.finalize s).2.2 i e).slot := by
  rw [slotAt, entries_finalize, List.getElem?_mapIdx]
  cases p.entries[i]? <;> rfl

/-- The slots are names of the supply, under the numbers of their records. -/
def Slotted (es : List Entry) (s : NameSupply) : Prop :=
  ∀ i x, slotAt es i = some x → s.get? (slotKey i) = some x

/-- The supply has names under the numbers of records with a slot, and under no others. -/
def Apart (es : List Entry) (s : NameSupply) : Prop := ∀ i, s.get? (slotKey i) = slotAt es i

/-- Slots stay names of the supply when more are given. -/
theorem Slotted.finalize (h : Slotted p.entries s) :
    Slotted (p.finalize s).1.entries (p.finalize s).2.2 := by
  intro i x hx
  rw [slotAt_finalize] at hx
  obtain ⟨e, he, hslot⟩ := Option.bind_eq_some_iff.mp hx
  unfold settle at hslot
  split at hslot
  · exact hslot
  · rw [supply_finalize]
    exact NameSupply.get?_run (h i x (Option.bind_eq_some_iff.mpr ⟨e, he, hslot⟩)) _

/-- Records and supply still agree when more slots are given. -/
theorem Apart.finalize (h : Apart p.entries s) :
    Apart (p.finalize s).1.entries (p.finalize s).2.2 := by
  intro i
  by_cases hdue : slotKey i ∈ p.dueKeys
  · obtain ⟨j, e, he, hdue, heq⟩ := mem_dueKeys.mp hdue
    obtain rfl := slotKey_injective heq
    rw [slotAt_finalize, he, Option.bind_some, settle, if_pos hdue]
  · -- nothing is due under this number
    rw [slotAt_finalize, supply_finalize, NameSupply.get?_run_of_not_mem (by simpa using hdue), h i,
      slotAt]
    cases he : p.entries[i]? with
    | none => rfl
    | some e =>
      have hnot : ¬ p.isDue e = true := fun hd => hdue (mem_dueKeys.mpr ⟨i, e, he, hd, rfl⟩)
      rw [Option.bind_some, Option.bind_some, settle, if_neg hnot]

/-- A slot stays with what its record is about when constants are counted. -/
theorem exists_mem_countIn (l : Literal) (he : e ∈ es) :
    ∃ e' ∈ countIn l es, e'.literal = e.literal ∧ e'.slot = e.slot := by
  induction es with
  | nil => exact absurd he List.not_mem_nil
  | cons a es ih =>
    unfold countIn
    split
    · rcases List.mem_cons.mp he with rfl | he
      · exact ⟨_, List.mem_cons_self .., rfl, rfl⟩
      · exact ⟨e, List.mem_cons_of_mem _ he, rfl, rfl⟩
    · rcases List.mem_cons.mp he with rfl | he
      · exact ⟨e, List.mem_cons_self .., rfl, rfl⟩
      · obtain ⟨e', he', heq⟩ := ih he
        exact ⟨e', List.mem_cons_of_mem _ he', heq⟩

theorem mem_entries_finalize {e' : Entry} : e' ∈ (p.finalize s).1.entries ↔
    ∃ i e, p.entries[i]? = some e ∧ p.settle (p.finalize s).2.2 i e = e' := by
  rw [entries_finalize, List.mem_iff_getElem?]
  simp only [List.getElem?_mapIdx, Option.map_eq_some_iff]

/-- A record has a slot in the end if it had one before or one was due. -/
theorem isSome_slot_settle {i : Nat} (he : p.entries[i]? = some e) :
    (p.settle (p.finalize s).2.2 i e).slot.isSome = true ↔
      e.slot.isSome = true ∨ p.isDue e = true := by
  by_cases hdue : p.isDue e = true
  · have hname : ((p.finalize s).2.2.get? (slotKey i)).isSome = true := by
      rw [supply_finalize]
      exact NameSupply.isSome_get?_run
        (List.mem_map_of_mem (mem_dueKeys.mpr ⟨i, e, he, hdue, rfl⟩))
    rw [settle, if_pos hdue]
    exact ⟨fun _ => .inr hdue, fun _ => hname⟩
  · rw [settle, if_neg hdue]
    exact ⟨.inl, fun h => h.resolve_right hdue⟩

/-- Nothing is due. -/
def Settled (p : LiteralPool) : Prop := ∀ e ∈ p.entries, p.isDue e = false

/-- **After slots were given out, none is due**. -/
theorem settled_finalize (p : LiteralPool) (s : NameSupply) : (p.finalize s).1.Settled := by
  intro e' he'
  obtain ⟨i, e, he, rfl⟩ := mem_entries_finalize.mp he'
  have hsame : (p.finalize s).1.isDue (p.settle (p.finalize s).2.2 i e) =
      p.isDue (p.settle (p.finalize s).2.2 i e) := rfl
  rw [hsame]
  by_cases hdue : p.isDue e = true
  · have hsome := (isSome_slot_settle (s := s) he).mpr (.inr hdue)
    simp only [isDue, Option.isNone_eq_false_iff.mpr hsome, Bool.false_and]
  · rw [settle, if_neg hdue]
    exact Bool.eq_false_iff.mpr hdue

theorem Settled.dueKeys_eq_nil (h : p.Settled) : p.dueKeys = [] := by
  refine List.eq_nil_iff_forall_not_mem.mpr fun key hkey => ?_
  obtain ⟨i, e, he, hdue, -⟩ := mem_dueKeys.mp hkey
  rw [h e (List.mem_of_getElem? he)] at hdue
  exact Bool.false_ne_true hdue

/-! ## A pool in use -/

/-- A pool and the supply its slots come from. -/
structure Stage where
  pool : LiteralPool
  names : NameSupply

/-- What happens to a pool and its supply. -/
inductive Call where
  | add (l : Literal)
  | finalize
  /-- Something else is asked of the supply. -/
  | ask (a : Ask)

/-- The constant that is added. -/
def Call.added? : Call → Option Literal
  | add l => some l
  | finalize | ask _ => none

/-- The constants that are added, in this order. -/
def added (calls : List Call) : List Literal := calls.filterMap Call.added?

namespace Stage

variable {t : Stage} {threshold : Nat} {letters : List Char} {forbidden : List String}

/-- What is left after a call. -/
def call (t : Stage) : Call → Stage
  | .add l => { t with pool := t.pool.add l }
  | .finalize => ⟨(t.pool.finalize t.names).1, (t.pool.finalize t.names).2.2⟩
  | .ask a => { t with names := t.names.ask a }

/-- What is left after calls one after the other. -/
def run (t : Stage) (calls : List Call) : Stage := calls.foldl call t

/-- What holds of a pool and its supply after `ls` were added, whatever else was done. -/
structure Kept (threshold : Nat) (letters : List Char) (forbidden : List String) (ls : List Literal)
    (t : Stage) : Prop where
  threshold : t.pool.threshold = threshold
  tallied : Tallied ls t.pool.entries
  slotted : Slotted t.pool.entries t.names
  sound : t.names.Sound forbidden
  letters : t.names.alphabet = letters

namespace Kept

/-- **One call keeps it.** -/
theorem call (h : t.Kept threshold letters forbidden ls) (c : Call) :
    (t.call c).Kept threshold letters forbidden (ls ++ c.added?.toList) := by
  cases c with
  | add l =>
    refine ⟨h.threshold, h.tallied.countIn l, fun i x hx => h.slotted i x ?_, h.sound, h.letters⟩
    rwa [← slotAt_countIn l]
  | finalize =>
    refine ⟨h.threshold, ?_, h.slotted.finalize, ?_, ?_⟩
    · rw [Call.added?, Option.toList_none, List.append_nil]
      refine h.tallied.of_map_eq (List.ext_getElem? fun i => ?_)
      show ((t.pool.finalize t.names).1.entries.map _)[i]? = _
      rw [entries_finalize, List.getElem?_map, List.getElem?_mapIdx, List.getElem?_map]
      cases t.pool.entries[i]? <;> simp
    · show (t.pool.finalize t.names).2.2.Sound forbidden
      rw [supply_finalize]
      exact h.sound.run _
    · show (t.pool.finalize t.names).2.2.alphabet = letters
      rw [supply_finalize, NameSupply.alphabet_run, h.letters]
  | ask a =>
    have hletters : (t.names.run [a]).alphabet = t.names.alphabet := NameSupply.alphabet_run
    rw [Call.added?, Option.toList_none, List.append_nil]
    exact ⟨h.threshold, h.tallied, fun i x hx => NameSupply.get?_run (h.slotted i x hx) [a],
      h.sound.run [a], hletters.trans h.letters⟩

/-- **So do all calls.** -/
theorem run (h : t.Kept threshold letters forbidden ls) (calls : List Call) :
    (t.run calls).Kept threshold letters forbidden (ls ++ added calls) := by
  induction calls generalizing t ls with
  | nil => rwa [added, List.filterMap_nil, List.append_nil]
  | cons c calls ih =>
    have hadded : added (c :: calls) = c.added?.toList ++ added calls := by
      cases hc : c.added? <;> simp [added, hc]
    rw [hadded, ← List.append_assoc]
    exact ih (h.call c)

end Kept

/-- While no other key is the number of a record, the supply has names under the numbers of records with
a slot only. -/
theorem apart_run (h : Apart t.pool.entries t.names) {calls : List Call}
    (hother : ∀ i, .ask (.name (slotKey i)) ∉ calls) :
    Apart (t.run calls).pool.entries (t.run calls).names := by
  induction calls generalizing t with
  | nil => exact h
  | cons c calls ih =>
    refine ih (t := t.call c) ?_ fun i hi => hother i (List.mem_cons_of_mem _ hi)
    cases c with
    | add l => exact fun i => (h i).trans (slotAt_countIn l _ i).symm
    | finalize => exact h.finalize
    | ask a =>
      intro i
      have hne : Ask.name (slotKey i) ∉ [a] := fun hmem =>
        hother i (List.mem_singleton.mp hmem ▸ List.mem_cons_self ..)
      exact (NameSupply.get?_run_of_not_mem hne).trans (h i)

/-- **A slot stays.** -/
theorem slotOf_run (h : t.Kept threshold letters forbidden ls) {x : String}
    (hx : t.pool.slotOf l = some x) (later : List Call) : (t.run later).pool.slotOf l = some x := by
  induction later generalizing t ls with
  | nil => exact hx
  | cons c later ih =>
    refine ih (t := t.call c) (h.call c) ?_
    obtain ⟨e, he, hkey, hslot⟩ := (slotOf_eq_some_iff h.tallied.nodup).mp hx
    refine (slotOf_eq_some_iff (h.call c).tallied.nodup).mpr ?_
    cases c with
    | add m =>
      obtain ⟨e', he', hliteral, hslot'⟩ := exists_mem_countIn m he
      exact ⟨e', he', hliteral ▸ hkey, hslot'.trans hslot⟩
    | finalize =>
      obtain ⟨i, hi⟩ := List.mem_iff_getElem?.mp he
      have hnot : ¬ t.pool.isDue e = true := fun hdue => by
        rw [slot_eq_none_of_isDue hdue] at hslot
        cases hslot
      exact ⟨e, mem_entries_finalize.mpr ⟨i, e, hi, if_neg hnot⟩, hkey, hslot⟩
    | ask a => exact ⟨e, he, hkey, hslot⟩

/-- **Constants with one slot are alike.** -/
theorem alike_of_slotOf (h : t.Kept threshold letters forbidden ls) {m : Literal} {x : String}
    (hl : t.pool.slotOf l = some x) (hm : t.pool.slotOf m = some x) : l.Alike m := by
  obtain ⟨e, he, hkey, hslot⟩ := (slotOf_eq_some_iff h.tallied.nodup).mp hl
  obtain ⟨e', he', hkey', hslot'⟩ := (slotOf_eq_some_iff h.tallied.nodup).mp hm
  obtain ⟨i, hi⟩ := List.mem_iff_getElem?.mp he
  obtain ⟨j, hj⟩ := List.mem_iff_getElem?.mp he'
  have hname := h.slotted i x (by rw [slotAt, hi]; exact hslot)
  have hname' := h.slotted j x (by rw [slotAt, hj]; exact hslot')
  obtain rfl := slotKey_injective (h.sound.get?_injective hname hname')
  obtain rfl := Option.some.inj (hi.symm.trans hj)
  exact Literal.alike_iff_key.mpr (hkey'.symm.trans hkey)

/-- Nothing gets due while nothing is added. -/
theorem settled_run (h : t.pool.Settled) {later : List Call} (hadded : added later = []) :
    (t.run later).pool.Settled := by
  induction later generalizing t with
  | nil => exact h
  | cons c later ih =>
    cases c with
    | add l => exact absurd hadded (List.cons_ne_nil _ _)
    | finalize => exact ih (t := t.call .finalize) (settled_finalize _ _) hadded
    | ask a => exact ih (t := t.call (.ask a)) h hadded

end Stage

/-! ## What a pool answers -/

/-- What a pool tells about the constants `ls`, which were added in this order. -/
structure Tells (ls : List Literal) (p : LiteralPool) : Prop where
  /-- Constants are in one record exactly if they are alike. -/
  shared : ∀ l m e, p.get? l = some e → (p.get? m = some e ↔ l.Alike m)
  found : ∀ l, (p.get? l).isSome = true ↔ ∃ m ∈ ls, l.Alike m
  first : ∀ l e, p.get? l = some e → ls.find? (l.Alike ·) = some e.literal
  count : ∀ l e, p.get? l = some e → e.count = ls.countP (l.Alike ·)
  order : (p.entries.map fun e => ls.findIdx (e.literal.Alike ·)).Pairwise (· < ·)

theorem decide_alike (l : Literal) :
    (fun m => decide (l.Alike m)) = fun m : Literal => decide (m.key = l.key) :=
  funext fun _ => decide_eq_decide.mpr Literal.alike_iff_key

/-- **A tally tells what was added**. -/
theorem Tallied.tells (h : Tallied ls p.entries) : Tells ls p where
  shared l m e he := by
    obtain ⟨hmem, hkey⟩ := (get?_eq_some_iff h.nodup).mp he
    rw [get?_eq_some_iff h.nodup, Literal.alike_iff_key, ← hkey, eq_comm (a := m.key)]
    exact and_iff_right hmem
  found l := by
    rw [Option.isSome_iff_exists]
    constructor
    · rintro ⟨e, he⟩
      obtain ⟨hmem, hkey⟩ := (get?_eq_some_iff h.nodup).mp he
      exact ⟨e.literal, List.mem_of_find?_eq_some (h.first e hmem), Literal.alike_iff_key.mpr hkey⟩
    · rintro ⟨m, hm, halike⟩
      obtain ⟨e, he, hkey⟩ := List.mem_map.mp (h.mem m hm)
      exact ⟨e, (get?_eq_some_iff h.nodup).mpr ⟨he, hkey.trans (Literal.alike_iff_key.mp halike)⟩⟩
  first l e he := by
    obtain ⟨hmem, hkey⟩ := (get?_eq_some_iff h.nodup).mp he
    rw [decide_alike, ← hkey]
    exact h.first e hmem
  count l e he := by
    obtain ⟨hmem, hkey⟩ := (get?_eq_some_iff h.nodup).mp he
    rw [decide_alike, ← hkey]
    exact h.count e hmem
  order := by
    simp only [decide_alike]
    exact h.order

/-- Giving out slots changes no key. -/
theorem keys_finalize (p : LiteralPool) (s : NameSupply) :
    keys (p.finalize s).1.entries = keys p.entries := by
  have h := congrArg (List.map Literal.key) (map_literal_assign (p := p) 0 p.entries s)
  rw [List.map_map, List.map_map] at h
  exact h

/-- What is known has a slot in the end if it had one or one was due. -/
theorem isSome_slotOf_finalize (hnodup : (keys p.entries).Nodup) (he : p.get? l = some e) :
    ((p.finalize s).1.slotOf l).isSome = true ↔ e.slot.isSome = true ∨ p.isDue e = true := by
  obtain ⟨hmem, hkey⟩ := (get?_eq_some_iff hnodup).mp he
  obtain ⟨i, hi⟩ := List.mem_iff_getElem?.mp hmem
  have hget : (p.finalize s).1.get? l = some (p.settle (p.finalize s).2.2 i e) := by
    refine (get?_eq_some_iff (keys_finalize p s ▸ hnodup)).mpr
      ⟨mem_entries_finalize.mpr ⟨i, e, hi, rfl⟩, ?_⟩
    rw [literal_settle, hkey]
  rw [slotOf, hget]
  exact isSome_slot_settle hi

/-- What is not known gets no slot. -/
theorem slotOf_finalize_of_eq_none (hnodup : (keys p.entries).Nodup) (h : p.get? l = none) :
    (p.finalize s).1.slotOf l = none := by
  rw [slotOf, Option.bind_eq_none_iff]
  intro e' he'
  obtain ⟨hmem, hkey⟩ := (get?_eq_some_iff (keys_finalize p s ▸ hnodup)).mp he'
  obtain ⟨i, e, hi, rfl⟩ := mem_entries_finalize.mp hmem
  rw [literal_settle] at hkey
  have hsome := (get?_eq_some_iff hnodup).mpr ⟨List.mem_of_getElem? hi, hkey⟩
  rw [h] at hsome
  cases hsome

/-- A constant of which the first is long enough, and that was added often enough. -/
def Worthy (threshold : Nat) (ls : List Literal) (l : Literal) : Prop :=
  ∃ first, ls.find? (l.Alike ·) = some first ∧ (∀ b, first ≠ .bool b) ∧ first ≠ .null ∧
    2 < first.raw.utf8ByteSize ∧ threshold ≤ ls.countP (l.Alike ·)

/-- **Who has a slot in the end**: what had one, and what is worth one. -/
theorem Tells.isSome_slotOf_iff (h : Tells ls p) (hnodup : (keys p.entries).Nodup) (l : Literal) :
    ((p.finalize s).1.slotOf l).isSome = true ↔
      (p.slotOf l).isSome = true ∨ Worthy p.threshold ls l := by
  cases he : p.get? l with
  | none =>
    have hnot : ¬ Worthy p.threshold ls l := by
      rintro ⟨first, hfirst, -⟩
      have halike : l.Alike first := by simpa using List.find?_some hfirst
      have hsome := (h.found l).mpr ⟨first, List.mem_of_find?_eq_some hfirst, halike⟩
      rw [he] at hsome
      cases hsome
    rw [slotOf_finalize_of_eq_none hnodup he, slotOf, he]
    simp [hnot]
  | some e =>
    have hworthy : Worthy p.threshold ls l ↔
        e.literal.isHoistable = true ∧ p.threshold ≤ e.count := by
      rw [Worthy, h.first l e he, ← h.count l e he, Literal.isHoistable_iff]
      simp only [Option.some.injEq, exists_eq_left', and_assoc]
    rw [isSome_slotOf_finalize hnodup he, slotOf, he, hworthy, Option.bind_some, isDue]
    cases e.slot <;> simp

/-- **Constants are interned.**  Whatever is added, however often slots are given out, and whatever else
is asked of the supply in between:

* constants share a record exactly if they are alike, and it counts how often they were added;
* giving out slots leaves a constant with one if it had one or is worth one, and never changes one;
* constants that are not alike have different slots;
* new slots are asked for one after the other, by first occurrence, so they are words in this order
  unless another key is the number of a record;
* the number of new slots is told, and it is zero if nothing was added since the last time. -/
theorem run_interns (threshold : Nat) (alphabet : String) (keys forbidden : List String)
    (calls : List Call) :
    let t := Stage.run ⟨{ threshold }, .ofAlphabet alphabet keys forbidden⟩ calls
    let t' := t.call .finalize
    let new := gained t.pool.entries t'.pool.entries
    Tells (added calls) t.pool ∧
    (∀ l, (t'.pool.slotOf l).isSome = true ↔
      (t.pool.slotOf l).isSome = true ∨ Worthy threshold (added calls) l) ∧
    (∀ l x, t.pool.slotOf l = some x → ∀ later, (t.run later).pool.slotOf l = some x) ∧
    (∀ l m x, t.pool.slotOf l = some x → t.pool.slotOf m = some x → l.Alike m) ∧
    (new = t.names.given (t.pool.dueKeys.map .name) ∧
      t'.names = t.names.run (t.pool.dueKeys.map .name)) ∧
    ((∀ i, slotKey i ∉ keys ∧ .ask (.name (slotKey i)) ∉ calls) →
      new.Pairwise fun x y => Word.Less (Word.normalize alphabet) x.toList y.toList) ∧
    (t.pool.finalize t.names).2.1 = new.length ∧
    ∀ later, added later = [] →
      ((t'.run later).pool.finalize (t'.run later).names).2.1 = 0 := by
  intro t t' new
  have hstart : Stage.Kept threshold (Word.normalize alphabet) forbidden []
      ⟨{ threshold }, .ofAlphabet alphabet keys forbidden⟩ :=
    ⟨rfl, .nil, fun i x hx => (by cases hx), .ofAlphabet alphabet keys forbidden, by
      rw [NameSupply.ofAlphabet_eq_run, NameSupply.alphabet_run]⟩
  have hkept : t.Kept threshold (Word.normalize alphabet) forbidden (added calls) := hstart.run calls
  have htells : Tells (added calls) t.pool := hkept.tallied.tells
  have hnew : new = t.names.given (t.pool.dueKeys.map .name) := gained_finalize t.pool t.names
  refine ⟨htells, fun l => ?_, fun l x hx => Stage.slotOf_run hkept hx,
    fun l m x => Stage.alike_of_slotOf hkept, ⟨hnew, supply_finalize t.pool t.names⟩, fun hother => ?_,
    ?_, fun later hadded => ?_⟩
  · rw [← hkept.threshold]
    exact htells.isSome_slotOf_iff hkept.tallied.nodup l
  · have hapart : Apart t.pool.entries t.names := by
      refine Stage.apart_run (fun i => ?_) fun i => (hother i).2
      rw [NameSupply.ofAlphabet_eq_run]
      exact NameSupply.get?_run_of_not_mem (by simpa using (hother i).1)
    rw [hnew, ← hkept.letters]
    refine NameSupply.pairwise_less_given ?_ ?_ (nodup_dueFrom t.pool 0 _) fun key hkey => ?_
    · obtain ⟨c, hc, -⟩ := hkept.sound.endless.initial
      exact List.ne_nil_of_mem hc
    · rw [hkept.letters]
      exact Word.nodup_normalize alphabet
    · obtain ⟨i, e, he, hdue, rfl⟩ := mem_dueKeys.mp hkey
      rw [hapart i, slotAt, he, Option.bind_some, slot_eq_none_of_isDue hdue]
  · rw [hnew, count_finalize, NameSupply.length_given]
  · rw [count_finalize, (Stage.settled_run (settled_finalize t.pool t.names) hadded).dueKeys_eq_nil]
    rfl

end LiteralPool

end ScriptBundler

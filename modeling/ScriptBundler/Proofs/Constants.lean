import ScriptBundler.Proofs.Naming
import ScriptBundler.Proofs.Proper
import ScriptBundler.Proofs.Template

/-!
# Proofs/Constants — constants that share a slot are the same

Constants are told apart by their keys, which are texts.  The kind of a constant can be told from its key,
and within a kind a key stands for one spelling or one value (`Literal.key_eq_iff`).  The key of a number is
its double, but all words that are no numbers have one key, so it must be shown that no numeral stands for
such a word (`Numeral.isNaN_of_isNumeral`).  Then constants with one key are the same
(`Literal.same_of_key`), and what a slot stands for is the constant it is written in place of
(`Naming.exists_hoisted`).
-/

namespace ScriptBundler

/-! ## Numerals stand for numbers -/

namespace Binary64

/-- All values but one are their own canonical form. -/
theorem canonical_of_not_isNaN {x : Binary64} (h : x.isNaN = false) : x.canonical = x := by
  rw [canonical, h]
  rfl

/-- What has the key of a number is that number. -/
theorem eq_of_canonical {x y : Binary64} (h : x.canonical = y.canonical) (hx : x.isNaN = false) :
    x = y := by
  rw [canonical_of_not_isNaN hx] at h
  cases hy : y.isNaN with
  | false => rwa [canonical_of_not_isNaN hy] at h
  | true =>
    have hnan : x.isNaN = true := by
      rw [h, canonical, hy, if_pos rfl]
      decide
    rw [hx] at hnan
    cases hnan

end Binary64

namespace Numeral

theorem toLower_of_isDigit {c : Char} (h : c.isDigit = true) : c.toLower = c := by
  have hnat : 48 ≤ c.toNat ∧ c.toNat ≤ 57 := by simpa using Char.isDigit_iff_toNat.mp h
  have hval : c.val.toNat = c.toNat := rfl
  refine dif_neg fun hle => ?_
  have hA : 'A'.val.toNat ≤ c.val.toNat := UInt32.le_iff_toNat_le.mp hle.1
  rw [show 'A'.val.toNat = 65 from rfl] at hA
  omega

/-- A number is not the name of a value. -/
theorem namedValue?_of_isNumeral {cs : List Char} (h : IsNumeral cs) : namedValue? cs = none := by
  obtain ⟨c, ds, rfl, hc⟩ := h.head
  have hlower : c.toLower = c := by
    rcases hc with hc | ⟨rfl, -⟩
    · exact toLower_of_isDigit hc
    · decide
  have hhead : ∀ w : String, String.ofList ((c :: ds).map Char.toLower) = w →
      w.toList.head? = some c := fun w hw => by
    rw [← hw]
    simp [hlower]
  have hne : ∀ d : Char, d.isDigit = false → d ≠ '.' → c ≠ d := by
    rintro d hdigit hdot rfl
    rcases hc with hc | ⟨rfl, -⟩
    · rw [hdigit] at hc
      cases hc
    · exact hdot rfl
  unfold namedValue?
  dsimp only
  rw [if_neg, if_neg]
  · intro hw
    exact hne 'n' (by decide) (by decide) (Option.some.inj (hhead _ hw)).symm
  · rintro (hw | hw) <;>
      exact hne 'i' (by decide) (by decide) (Option.some.inj (hhead _ hw)).symm

/-- A numeral is neither a name nor has it a sign. -/
theorem value?_of_isNumeral {cs : List Char} (h : IsNumeral cs) : value? cs = decimalValue? cs := by
  have hvalue : value? cs = unsignedValue? cs := by
    obtain ⟨c, ds, rfl, hc⟩ := h.head
    unfold value?
    split
    · rcases hc with hc | ⟨hc, -⟩ <;> simp_all
    · rcases hc with hc | ⟨hc, -⟩ <;> simp_all
    · rfl
  rw [hvalue, unsignedValue?, namedValue?_of_isNumeral h]
  rfl

/-- An exponent has a value. -/
theorem exists_exponentValue? {cs : List Char} (h : IsExponent cs) : ∃ e, exponentValue? cs = some e := by
  rcases h with rfl | ⟨c, sg, d, ds, hc, hsg, hds, rfl⟩
  · exact ⟨0, rfl⟩
  · have hsign := sign_run hsg (hds d (List.mem_cons_self ..)) ds
    have hall : (d :: ds).all Char.isDigit = true := List.all_eq_true.mpr hds
    rw [exponentValue?, hsign]
    exact ⟨_, if_pos ⟨hc, List.cons_ne_nil d ds, hall⟩⟩

/-- **Every numeral stands for a double.** -/
theorem exists_value? {cs : List Char} (h : IsNumeral cs) : ∃ x, value? cs = some x := by
  rw [value?_of_isNumeral h]
  obtain ⟨whole, part, power, rfl, hwhole, hpart, hpower, hne⟩ := h
  have hends : Ends [] := ⟨by simp, by simp⟩
  have hdigits := digits_run hwhole (fraction_head_not_digit hpart hpower hends)
  obtain ⟨e, he⟩ := exists_exponentValue? hpower
  rw [List.append_nil] at hdigits
  rw [List.append_assoc, decimalValue?, hdigits]
  dsimp only
  split
  · rename_i tail hpoint
    rcases hpart with rfl | ⟨d, ds, hds, rfl⟩
    · obtain rfl : power = '.' :: tail := hpoint
      rcases hpower with hpower | ⟨c, sg, d, ds, hc, -, -, heq⟩
      · cases hpower
      · obtain ⟨rfl, -⟩ := List.cons.inj heq
        exact absurd hc (by decide)
    · obtain rfl : d :: (ds ++ power) = tail := (List.cons.inj hpoint).2
      have htail : digits (d :: (ds ++ power)) = (d :: ds, power) := by
        have hrun := digits_run hds (exponent_head_not_digit hpower hends)
        rwa [List.append_nil] at hrun
      rw [htail, he, List.isEmpty_cons, Bool.and_false]
      exact ⟨_, rfl⟩
  · rename_i hpoint
    rcases hpart with rfl | ⟨d, ds, hds, rfl⟩
    · have hempty : whole.isEmpty = false := by simpa using hne
      rw [List.nil_append, he, hempty, Bool.false_and]
      exact ⟨_, rfl⟩
    · exact absurd rfl (hpoint _)

end Numeral

/-! ## Constants that are counted together -/

/-- Values have one text if they are one, or no numbers both. -/
theorem Binary64.text_eq_iff {x y : Binary64} :
    x.text = y.text ↔ x = y ∨ x.isNaN = true ∧ y.isNaN = true := by
  constructor
  · intro h
    have hbits : x.canonical = y.canonical :=
      congrArg Binary64.mk (UInt64.toNat_inj.mp (toString_nat_injective h))
    cases hx : x.isNaN with
    | false => exact .inl (eq_of_canonical hbits hx)
    | true =>
      cases hy : y.isNaN with
      | false => exact .inl (eq_of_canonical hbits.symm hy).symm
      | true => exact .inr ⟨rfl, rfl⟩
  · rintro (rfl | ⟨hx, hy⟩)
    · rfl
    · rw [text, text, canonical, canonical, if_pos hx, if_pos hy]

namespace Literal

/-- Constants that are counted together: strings with one spelling, and numbers with one sign and one
value.  All that is not a number counts as one value. -/
def Alike : Literal → Literal → Prop
  | number _ x negated, number _ y negated' =>
    negated = negated' ∧ (x = y ∨ x.isNaN = true ∧ y.isNaN = true)
  | string raw _, string raw' _ => raw = raw'
  | bool b, bool c => b = c
  | null, null => True
  | _, _ => False

/-- The letters of a key. -/
theorem toList_key (l : Literal) : l.key.toList =
    match l with
    | number _ x negated => 'n' :: (if negated then '-' else '+') :: x.text.toList
    | string raw _ => 's' :: raw.toList
    | bool b => 'b' :: (toString b).toList
    | null => ['n', 'u', 'l', 'l'] := by
  cases l with
  | number raw x negated => cases negated <;> simp [key]
  | _ => simp [key]

/-- **A key stands for the constants that are counted together**: no two kinds have a key in common.  That
of `null` starts as the key of a number does, but goes on with a letter where a number has its sign. -/
theorem key_eq_iff {l m : Literal} : l.key = m.key ↔ l.Alike m := by
  rw [← String.toList_inj, toList_key, toList_key]
  cases l with
  | number raw x negated =>
    cases m with
    | number raw' y negated' =>
      rw [Alike, ← Binary64.text_eq_iff, ← String.toList_inj]
      cases negated <;> cases negated' <;> simp
    | null => cases negated <;> simp [Alike]
    | _ => simp [Alike]
  | string raw value =>
    cases m with
    | string raw' value' => simp [Alike, String.toList_inj]
    | _ => simp [Alike]
  | bool b =>
    cases m with
    | bool c => cases b <;> cases c <;> simp [Alike] <;> decide
    | _ => simp [Alike]
  | null =>
    cases m with
    | number raw' y negated' => cases negated' <;> simp [Alike]
    | _ => simp [Alike]

theorem alike_iff_key {l m : Literal} : l.Alike m ↔ m.key = l.key := key_eq_iff.symm.trans eq_comm

instance : DecidableRel Alike := fun _ _ => decidable_of_iff _ alike_iff_key.symm

end Literal

/-! ## One constant, spelled twice -/

/-- All tokens that a text can hold. -/
def Stock.valid : Stock where
  token := Token.Kind.Valid

namespace Literal

/-- A constant does not end in a line break. -/
theorem solid_raw {l : Literal} (h : l.Proper .valid) : Template.Solid l.raw := by
  cases l with
  | number raw value negated =>
    obtain ⟨c, cs, heq, -⟩ := h.1.head
    have hne : raw.toList ≠ [] := by simp [heq]
    have hlast : raw.toList.getLast hne ≠ '\n' := fun hc => h.1.not_mem (hc ▸ List.getLast_mem hne)
    cases negated with
    | false => exact ⟨_, _, (List.dropLast_append_getLast hne).symm, hlast⟩
    | true =>
      refine ⟨'-' :: raw.toList.dropLast, _, ?_, hlast⟩
      rw [List.cons_append, List.dropLast_append_getLast hne]
      simp [Literal.raw]
  | string raw value =>
    obtain rfl : raw = quote value := h
    exact ⟨'"' :: Quoted.escape value.toList, '"', by simp [Literal.raw, quote], by decide⟩
  | bool b =>
    cases b with
    | false => exact ⟨['f', 'a', 'l', 's'], 'e', by decide, by decide⟩
    | true => exact ⟨['t', 'r', 'u'], 'e', by decide, by decide⟩
  | null => exact ⟨['n', 'u', 'l'], 'l', by decide, by decide⟩

end Literal

theorem IsWord.solid {x : String} (h : IsWord x) : Template.Solid x := by
  obtain ⟨c, cs, heq, hc, hcs⟩ := h
  have hne : x.toList ≠ [] := by simp [heq]
  refine ⟨_, _, (List.dropLast_append_getLast hne).symm, fun hlast => ?_⟩
  have hmem : '\n' ∈ c :: cs := heq ▸ hlast ▸ List.getLast_mem hne
  rcases List.mem_cons.mp hmem with rfl | hmem
  · exact absurd hc (by decide)
  · exact absurd (hcs _ hmem) (by decide)

/-! ## What slots stand for -/

namespace LiteralPool

variable {p : LiteralPool} {l : Literal} {es : List Entry} {ls : List Literal}

/-- A pool holds constants that were counted. -/
theorem literal_mem_countIn (h : ∀ e ∈ es, e.literal ∈ ls) :
    ∀ e ∈ countIn l es, e.literal ∈ l :: ls := by
  induction es with
  | nil => simp [countIn]
  | cons e es ih =>
    obtain ⟨he, hes⟩ := List.forall_mem_cons.mp h
    have hrest : ∀ e ∈ es, e.literal ∈ l :: ls := fun e he => List.mem_cons_of_mem _ (hes e he)
    unfold countIn
    split
    · exact List.forall_mem_cons.mpr ⟨List.mem_cons_of_mem _ he, hrest⟩
    · exact List.forall_mem_cons.mpr ⟨List.mem_cons_of_mem _ he, ih hes⟩

/-- Giving out slots changes no constant. -/
theorem map_literal_assign (i : Nat) (es : List Entry) (s : NameSupply) :
    (p.assign i es s).1.map (·.literal) = es.map (·.literal) := by
  induction es generalizing i s with
  | nil => rfl
  | cons e es ih =>
    cases hdue : p.isDue e with
    | true => rw [assign_cons_of_isDue hdue, List.map_cons, ih, List.map_cons]
    | false => rw [assign_cons_of_not_isDue hdue, List.map_cons, ih, List.map_cons]

end LiteralPool

namespace Naming

variable {n : Naming} {l : Literal} {slot : String} {ls : List Literal}

/-- A slot is written for a constant with the key of the one it stands for. -/
theorem exists_hoisted (h : n.slot? l = some slot) : ∃ e ∈ n.literals.entries,
    e.literal.key = l.key ∧ (slot, e.literal.raw) ∈ n.hoisted := by
  unfold slot? at h
  split at h
  · rename_i hhoists
    obtain ⟨e, he, hslot⟩ := Option.bind_eq_some_iff.mp h
    have hkey : e.literal.key = l.key := by simpa using List.find?_some he
    have hmem := List.mem_of_find?_eq_some he
    refine ⟨e, hmem, hkey, ?_⟩
    rw [hoisted, if_pos hhoists, LiteralPool.hoisted]
    exact List.mem_filterMap.mpr ⟨e, hmem, by simp [hslot]⟩
  · cases h

/-- Constants in the pool are those that were added. -/
theorem literal_mem_foldl (ms ls : List Literal) (h : ∀ e ∈ n.literals.entries, e.literal ∈ ls) :
    ∀ e ∈ (ms.foldl addLiteral n).literals.entries, e.literal ∈ ms ++ ls := by
  induction ms generalizing n ls with
  | nil => exact h
  | cons m ms ih =>
    intro e he
    have hmem := ih (n := n.addLiteral m) (m :: ls) (LiteralPool.literal_mem_countIn h) e he
    simp only [List.mem_append, List.mem_cons, List.cons_append] at hmem ⊢
    tauto

theorem literal_mem_finalize (h : ∀ e ∈ n.literals.entries, e.literal ∈ ls) :
    ∀ e ∈ n.finalize.1.literals.entries, e.literal ∈ ls := by
  cases hhoists : n.settings.hoists with
  | false => rwa [finalize_of_not_hoists hhoists]
  | true =>
    rw [finalize_of_hoists hhoists]
    intro e he
    have hmem := List.mem_map_of_mem (f := (·.literal)) he
    rw [LiteralPool.map_literal_assign] at hmem
    obtain ⟨e', he', heq⟩ := List.mem_map.mp hmem
    exact heq ▸ h e' he'

theorem literals_addIdentifier (n : Naming) (x : String) :
    (n.addIdentifier x).literals = n.literals := by
  unfold addIdentifier
  split
  · rfl
  · split <;> rfl

/-- **Constants of an output are those of its scripts**. -/
theorem literal_mem_enter (settings : Settings) (relocate : String → String) (paths : List String)
    (named counted : List Script) :
    ∀ e ∈ ((ofSettings settings relocate).enter paths named counted).1.literals.entries,
      e.literal ∈ counted.flatMap (·.mentions.literals) := by
  have hstart : ((named.flatMap Script.identifiers).foldl addIdentifier
      (paths.foldl addModule (ofSettings settings relocate))).literals.entries = [] := by
    rw [foldl_keeps literals addIdentifier literals_addIdentifier,
      foldl_keeps literals addModule fun _ _ => rfl]
    rfl
  refine literal_mem_finalize fun e he => ?_
  have hmem := literal_mem_foldl (counted.flatMap (·.mentions.literals)) []
    (fun e he => by rw [hstart] at he; cases he) e he
  rwa [List.append_nil] at hmem

end Naming

end ScriptBundler

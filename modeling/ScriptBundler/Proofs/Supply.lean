import Mathlib.Algebra.Group.Nat.Defs
import Mathlib.Data.List.Induction
import Mathlib.Data.List.Nodup
import Mathlib.Data.List.Perm.Subperm
import ScriptBundler.Name.Supply
import ScriptBundler.Proofs.Spelling

/-!
# Proofs/Supply — the search for a name ends, and the names given are apart

Every word over an alphabet has a number (`Word.exists_encode_eq`), and longer words have greater
ones (`Word.length_encode_le`).  Of the repetitions of one initial letter that are longer than the
next word, only as many are taken as there are names forbidden or given, so the search meets a free
word before its bound (`NameSupply.isFree_search`).  What a supply then keeps, whatever is asked of
it, is `NameSupply.Sound`.
-/

namespace ScriptBundler

/-- What is left once repetitions are dropped has none. -/
theorem nodup_eraseDups {α : Type} [BEq α] [LawfulBEq α] : ∀ as : List α, as.eraseDups.Nodup
  | [] => List.nodup_nil
  | a :: as => by
    rw [List.eraseDups_cons, List.nodup_cons, List.mem_eraseDups]
    exact ⟨by simp, nodup_eraseDups _⟩
termination_by as => as.length
decreasing_by exact Nat.lt_succ_of_le (List.length_filter_le _ as)

/-! ## The numbers of the words -/

namespace Word

variable {alphabet : List Char}

/-- A word is a letter, or another word and a letter. -/
theorem encode_eq (n : Nat) : encode alphabet n =
    if n / alphabet.length = 0 then [alphabet.getD (n % alphabet.length) 'a']
    else encode alphabet (n / alphabet.length - 1) ++ [alphabet.getD (n % alphabet.length) 'a'] := by
  rw [encode]
  simp

/-- The words of one letter come first. -/
theorem encode_of_lt {n : Nat} (h : n < alphabet.length) : encode alphabet n = [alphabet[n]] := by
  rw [encode_eq]
  simp [Nat.div_eq_of_lt h, Nat.mod_eq_of_lt h, h]

/-- Each word is followed, later on, by its prolongations by one letter. -/
theorem encode_mul_add (n : Nat) {i : Nat} (h : i < alphabet.length) :
    encode alphabet (alphabet.length * (n + 1) + i) = encode alphabet n ++ [alphabet[i]] := by
  have hpos : 0 < alphabet.length := by omega
  have hdiv : (alphabet.length * (n + 1) + i) / alphabet.length = n + 1 := by
    rw [Nat.mul_add_div hpos, Nat.div_eq_of_lt h, Nat.add_zero]
  have hmod : (alphabet.length * (n + 1) + i) % alphabet.length = i := by
    rw [Nat.mul_add_mod, Nat.mod_eq_of_lt h]
  rw [encode_eq]
  simp [hdiv, hmod, h]

/-- **Every word has a number**, and a bound on it grows with the word's length. -/
theorem exists_encode_eq {w : List Char} (hw : w ≠ []) (h : ∀ c ∈ w, c ∈ alphabet) :
    ∃ n, encode alphabet n = w ∧ n < (alphabet.length + 1) ^ w.length := by
  -- the last letter is the last digit, so the induction takes letters off the end
  induction w using List.reverseRecOn with
  | nil => exact absurd rfl hw
  | append_singleton w c ih =>
    obtain ⟨i, hi, rfl⟩ := List.getElem_of_mem (h c (by simp))
    rw [List.length_append, List.length_singleton]
    by_cases hnil : w = []
    · subst hnil
      exact ⟨i, encode_of_lt hi, by simp; omega⟩
    · obtain ⟨n, rfl, hn⟩ := ih hnil fun c hc => h c (by simp [hc])
      refine ⟨alphabet.length * (n + 1) + i, encode_mul_add n hi, ?_⟩
      rw [Nat.pow_succ]
      have hpow : alphabet.length + 1 ≤ (alphabet.length + 1) ^ (encode alphabet n).length :=
        Nat.le_self_pow (by simpa using hnil) _
      generalize (alphabet.length + 1) ^ (encode alphabet n).length = bound at hn hpow ⊢
      calc alphabet.length * (n + 1) + i
        _ < alphabet.length * bound + bound :=
          Nat.add_lt_add_of_le_of_lt (Nat.mul_le_mul_left _ hn) (by omega)
        _ = bound * (alphabet.length + 1) := by rw [Nat.mul_add_one, Nat.mul_comm]

/-- Words never get shorter. -/
theorem length_encode_le {n m : Nat} (h : n ≤ m) :
    (encode alphabet n).length ≤ (encode alphabet m).length := by
  induction m using Nat.strongRecOn generalizing n with
  | ind m ih =>
    have hdiv : n / alphabet.length ≤ m / alphabet.length := Nat.div_le_div_right h
    rw [encode_eq n, encode_eq m]
    by_cases hn : n / alphabet.length = 0
    · by_cases hm : m / alphabet.length = 0 <;> simp [hn, hm]
    · have hm : m / alphabet.length ≠ 0 := fun h => hn (Nat.le_zero.mp (h ▸ hdiv))
      have hlt : m / alphabet.length - 1 < m :=
        Nat.lt_of_lt_of_le (Nat.sub_one_lt hm) (Nat.div_le_self m alphabet.length)
      have hprev : n / alphabet.length - 1 ≤ m / alphabet.length - 1 := Nat.sub_le_sub_right hdiv 1
      simpa [hn, hm] using ih _ hlt hprev

/-- A word has letters of the alphabet only. -/
theorem mem_alphabet_of_mem_encode (hpos : alphabet ≠ []) {n : Nat} {c : Char}
    (h : c ∈ encode alphabet n) : c ∈ alphabet := by
  induction n using Nat.strongRecOn with
  | ind n ih =>
    have hmod : n % alphabet.length < alphabet.length :=
      Nat.mod_lt _ (List.length_pos_iff.mpr hpos)
    have hlast : alphabet.getD (n % alphabet.length) 'a' ∈ alphabet := by simp [hmod]
    rw [encode_eq] at h
    by_cases hq : n / alphabet.length = 0
    · rw [if_pos hq, List.mem_singleton] at h
      exact h ▸ hlast
    · have hlt : n / alphabet.length - 1 < n :=
        Nat.lt_of_lt_of_le (Nat.sub_one_lt hq) (Nat.div_le_self n alphabet.length)
      rw [if_neg hq, List.mem_append, List.mem_singleton] at h
      rcases h with h | h
      · exact ih _ hlt h
      · exact h ▸ hlast

/-- The letters left of an alphabet may all stand in a name. -/
theorem isWordChar_of_mem_normalize {s : String} {c : Char} (h : c ∈ normalize s) :
    isWordChar c = true := by
  have hletter : ∀ c : Char, (c.isAlphanum || c == '_') = true → isWordChar c = true := by
    intro c hc
    have halnum : c.isAlphanum = (c.isAlpha || c.isDigit) := rfl
    rw [halnum] at hc
    simp only [isWordChar, isWordStart]
    revert hc
    cases c.isAlpha <;> cases c.isDigit <;> cases c == '_' <;> simp
  simp only [normalize] at h
  split at h
  · rw [List.mem_eraseDups, List.mem_filter] at h
    exact hletter c h.2
  · exact hletter c (List.all_eq_true.mp (by decide : defaultAlphabet.toList.all fun c =>
      c.isAlphanum || c == '_') c h)

/-- One of the letters left of an alphabet can start a name. -/
theorem exists_isInitial_normalize (s : String) : ∃ c ∈ normalize s, isInitial c = true := by
  simp only [normalize]
  split
  · rename_i h
    exact List.any_eq_true.mp h
  · exact ⟨'a', by decide, by decide⟩

end Word

/-! ## The search -/

/-- A word that reads as a name, unless it is reserved. -/
def IsWord (name : String) : Prop :=
  ∃ c cs, name.toList = c :: cs ∧ isWordStart c = true ∧ ∀ x ∈ cs, isWordChar x = true

namespace NameSupply

variable {s : NameSupply}

/-- A supply never runs out: its letters may stand in names, and one can start a name. -/
structure Endless (s : NameSupply) : Prop where
  letters : ∀ c ∈ s.alphabet, isWordChar c = true
  initial : ∃ c ∈ s.alphabet, Word.isInitial c = true

/-- What can be given: a name that is neither forbidden nor given. -/
theorem isFree_iff {name : String} : s.isFree name = true ↔
    name.toList.head?.any Word.isInitial = true ∧ name ∉ s.forbidden ∧
      name ∉ s.names.map Prod.snd := by
  have hgiven : (s.names.any fun p => p.2 == name) = (s.names.map Prod.snd).contains name := by
    rw [Bool.eq_iff_iff]
    simp
  simp only [isFree, hgiven, Bool.and_eq_true, Bool.not_eq_true', List.contains_eq_mem,
    decide_eq_false_iff_not, and_assoc]

/-- The search stops at the first free word, if there is one in reach. -/
theorem isFree_search_of_isFree {m : Nat} (hm : s.isFree (s.word m) = true) :
    ∀ {steps n : Nat}, n ≤ m → m < n + steps → s.isFree (s.word (s.search steps n)) = true
  | 0, n, hn, hlt => by omega
  | steps + 1, n, hn, hlt => by
    rw [search]
    split
    · assumption
    · rename_i hnot
      have hne : n ≠ m := fun h => hnot (h ▸ hm)
      exact isFree_search_of_isFree hm (by omega) (by omega)

/-- Among more repetitions of a letter than there are words in a list, one is not in the list. -/
theorem exists_replicate_not_mem (c : Char) (k : Nat) (taken : List String) :
    ∃ j, k < j ∧ j ≤ k + taken.length + 1 ∧ String.ofList (List.replicate j c) ∉ taken := by
  by_contra hall
  push Not at hall
  let words := (List.range (taken.length + 1)).map fun i =>
    String.ofList (List.replicate (k + 1 + i) c)
  have hinj : Function.Injective fun i => String.ofList (List.replicate (k + 1 + i) c) := by
    intro i j hij
    have hlength := congrArg List.length (String.ofList_injective hij)
    simpa using hlength
  have hnodup : words.Nodup := List.Nodup.map hinj List.nodup_range
  have hsub : words ⊆ taken := by
    intro w hw
    obtain ⟨i, hi, rfl⟩ := List.mem_map.mp hw
    rw [List.mem_range] at hi
    exact hall (k + 1 + i) (by omega) (by omega)
  have hle := (hnodup.subperm hsub).length_le
  simp only [words, List.length_map, List.length_range] at hle
  omega

/-- **The search ends at a free word.** -/
theorem isFree_search (h : s.Endless) :
    s.isFree (s.word (s.search s.searchBound s.counter)) = true := by
  obtain ⟨c, hc, hinitial⟩ := h.initial
  obtain ⟨j, hlt, hle, hfree⟩ := exists_replicate_not_mem c
    (Word.encode s.alphabet s.counter).length (s.forbidden ++ s.names.map Prod.snd)
  have hletters : ∀ x ∈ List.replicate j c, x ∈ s.alphabet := fun x hx =>
    List.eq_of_mem_replicate hx ▸ hc
  have hne : List.replicate j c ≠ [] := by
    intro hnil
    have := congrArg List.length hnil
    simp at this
    omega
  obtain ⟨m, hm, hbound⟩ := Word.exists_encode_eq hne hletters
  have hword : s.word m = String.ofList (List.replicate j c) := by rw [word, hm]
  -- the word is longer than the next one, so the counter has not passed it
  have hpast : s.counter ≤ m := by
    by_contra hbefore
    have hlength : (Word.encode s.alphabet m).length ≤ (Word.encode s.alphabet s.counter).length :=
      Word.length_encode_le (by omega)
    rw [hm, List.length_replicate] at hlength
    omega
  have hreach : m < s.searchBound := by
    refine Nat.lt_of_lt_of_le hbound (Nat.pow_le_pow_right (by omega) ?_)
    simp at hle ⊢
    omega
  refine isFree_search_of_isFree (m := m) ?_ hpast (by omega)
  rw [isFree_iff, hword]
  refine ⟨?_, fun hmem => hfree (List.mem_append_left _ hmem),
    fun hmem => hfree (List.mem_append_right _ hmem)⟩
  obtain ⟨j, rfl⟩ : ∃ i, j = i + 1 := ⟨j - 1, by omega⟩
  simpa [List.replicate_succ] using hinitial

/-- A free word is written like a name. -/
theorem isWord_of_isFree (h : s.Endless) {n : Nat} (hfree : s.isFree (s.word n) = true) :
    IsWord (s.word n) := by
  have hne : s.alphabet ≠ [] := by
    obtain ⟨c, hc, -⟩ := h.initial
    exact List.ne_nil_of_mem hc
  have hletters : ∀ c ∈ (s.word n).toList, isWordChar c = true := by
    intro c hc
    rw [word, String.toList_ofList] at hc
    exact h.letters c (Word.mem_alphabet_of_mem_encode hne hc)
  have hhead := (isFree_iff.mp hfree).1
  cases hcs : (s.word n).toList with
  | nil => simp [hcs] at hhead
  | cons c cs =>
    rw [hcs] at hhead hletters
    refine ⟨c, cs, hcs, ?_, fun x hx => hletters x (List.mem_cons_of_mem _ hx)⟩
    have hnot : c.isDigit = false := by simpa [Word.isInitial] using hhead
    simpa [isWordChar, hnot] using hletters c (List.mem_cons_self ..)

/-! ## Looking names up -/

theorem get?_eq_none_iff {key : String} : s.get? key = none ↔ key ∉ s.names.map Prod.fst := by
  simp only [get?, List.lookup_eq_none_iff, List.mem_map, not_exists, not_and, bne_iff_ne, ne_eq]
  exact ⟨fun h p hp heq => h p hp heq.symm, fun h p hp heq => h p hp heq.symm⟩

theorem mem_of_get?_eq_some {key name : String} (h : s.get? key = some name) :
    (key, name) ∈ s.names := by
  obtain ⟨before, after, heq, -⟩ := List.lookup_eq_some_iff.mp h
  simp [heq]

/-- A key that has a name keeps it. -/
theorem create_of_get?_eq_some {key name : String} (h : s.get? key = some name) :
    s.create key = (name, s) := by
  simp [create, h]

/-- A new key gets a free word, and nothing else changes. -/
theorem create_of_get?_eq_none (hs : s.Endless) {key : String} (h : s.get? key = none) :
    ∃ name counter, s.create key = (name, { s with counter, names := s.names ++ [(key, name)] }) ∧
      IsWord name ∧ name ∉ s.forbidden ∧ name ∉ s.names.map Prod.snd := by
  have hfree := isFree_search hs
  refine ⟨s.word (s.search s.searchBound s.counter), s.search s.searchBound s.counter + 1, ?_,
    isWord_of_isFree hs hfree, (isFree_iff.mp hfree).2⟩
  simp [create, h]

/-- A key that is named has its name. -/
theorem get?_create_self (s : NameSupply) (key : String) :
    (s.create key).2.get? key = some (s.create key).1 := by
  cases h : s.names.lookup key <;> simp [create, get?, h, List.lookup_append]

/-- What a key has, it keeps. -/
theorem get?_create_of_eq_some {key other name : String} (h : s.get? other = some name) :
    (s.create key).2.get? other = some name := by
  rw [get?] at h
  cases hkey : s.names.lookup key <;> simp [create, get?, hkey, List.lookup_append, h]

/-- Naming a key changes no other. -/
theorem get?_create_of_ne {key other : String} (hne : other ≠ key) :
    (s.create key).2.get? other = s.get? other := by
  have hbeq : (other == key) = false := beq_false_of_ne hne
  cases hkey : s.names.lookup key <;> simp [create, get?, hkey, List.lookup_append, List.lookup_cons, hbeq]

theorem mem_keys_create {key other : String} (h : other ∈ (s.create key).2.names.map Prod.fst) :
    other = key ∨ other ∈ s.names.map Prod.fst := by
  by_cases hne : other = key
  · exact .inl hne
  · refine .inr (Classical.not_not.mp fun hnot => ?_)
    have hnone := get?_eq_none_iff.mpr hnot
    rw [← get?_create_of_ne hne] at hnone
    exact get?_eq_none_iff.mp hnone h

/-- Only keys that were asked for have names. -/
theorem mem_keys_foldl_create {keys : List String} {other : String}
    (h : other ∈ (keys.foldl (fun s key => (s.create key).2) s).names.map Prod.fst) :
    other ∈ keys ∨ other ∈ s.names.map Prod.fst := by
  induction keys generalizing s with
  | nil => exact .inr h
  | cons key keys ih =>
    rcases ih h with h | h
    · exact .inl (List.mem_cons_of_mem _ h)
    · rcases mem_keys_create h with rfl | h
      · exact .inl (List.mem_cons_self ..)
      · exact .inr h

/-! ## What a supply keeps -/

/-- What holds of a supply, whatever was asked of it: `reserved` are words it has never given. -/
structure Sound (reserved : List String) (s : NameSupply) : Prop where
  endless : s.Endless
  reserves : reserved ⊆ s.forbidden
  keys : (s.names.map Prod.fst).Nodup
  distinct : (s.names.map Prod.snd).Nodup
  apart : ∀ name ∈ s.names.map Prod.snd, name ∉ reserved
  word : ∀ name ∈ s.names.map Prod.snd, IsWord name

namespace Sound

variable {reserved : List String}

/-- At first no name is given. -/
theorem start (alphabet : String) (forbidden : List String) :
    Sound forbidden { alphabet := Word.normalize alphabet, forbidden } where
  endless := ⟨fun _ => Word.isWordChar_of_mem_normalize, Word.exists_isInitial_normalize alphabet⟩
  reserves := List.Subset.refl _
  keys := List.nodup_nil
  distinct := List.nodup_nil
  apart _ h := absurd h List.not_mem_nil
  word _ h := absurd h List.not_mem_nil

/-- Naming a key keeps a supply sound. -/
theorem create (hs : Sound reserved s) (key : String) : Sound reserved (s.create key).2 := by
  cases h : s.get? key with
  | some name => rwa [create_of_get?_eq_some h]
  | none =>
    obtain ⟨name, counter, heq, hword, hforbidden, hgiven⟩ := create_of_get?_eq_none hs.endless h
    rw [heq]
    refine ⟨⟨hs.endless.letters, hs.endless.initial⟩, hs.reserves, ?_, ?_, ?_, ?_⟩
    · rw [List.map_append]
      exact hs.keys.append (List.nodup_singleton _) (by simpa using get?_eq_none_iff.mp h)
    · rw [List.map_append]
      exact hs.distinct.append (List.nodup_singleton _) (by simpa using hgiven)
    · intro other hother
      rw [List.map_append, List.mem_append] at hother
      rcases hother with hother | hother
      · exact hs.apart other hother
      · rw [List.map_singleton, List.mem_singleton] at hother
        exact hother ▸ fun hmem => hforbidden (hs.reserves hmem)
    · intro other hother
      rw [List.map_append, List.mem_append] at hother
      rcases hother with hother | hother
      · exact hs.word other hother
      · rw [List.map_singleton, List.mem_singleton] at hother
        exact hother ▸ hword

/-- Naming keys one after another is sound. -/
theorem foldl_create (hs : Sound reserved s) (keys : List String) :
    Sound reserved (keys.foldl (fun s key => (s.create key).2) s) := by
  induction keys generalizing s with
  | nil => exact hs
  | cons key keys ih => exact ih (hs.create key)

/-- A supply with its first keys named is sound. -/
theorem ofAlphabet (alphabet : String) (keys forbidden : List String) :
    Sound forbidden (.ofAlphabet alphabet keys forbidden) :=
  (start alphabet forbidden).foldl_create keys

/-- Forbidding a name is sound. -/
theorem forbid (hs : Sound reserved s) (name : String) : Sound reserved (s.forbid name) := by
  unfold NameSupply.forbid
  split
  · exact hs
  · exact ⟨⟨hs.endless.letters, hs.endless.initial⟩,
      fun x hx => List.mem_cons_of_mem _ (hs.reserves hx), hs.keys, hs.distinct, hs.apart, hs.word⟩

/-- **Two keys never have one name.** -/
theorem get?_injective (hs : Sound reserved s) {key other name : String}
    (hkey : s.get? key = some name) (hother : s.get? other = some name) : key = other := by
  have hmem := mem_of_get?_eq_some hkey
  have hmem' := mem_of_get?_eq_some hother
  exact congrArg Prod.fst (List.inj_on_of_nodup_map hs.distinct hmem hmem' rfl)

theorem mem_names {key name : String} (h : s.get? key = some name) : name ∈ s.names.map Prod.snd :=
  List.mem_map.mpr ⟨_, mem_of_get?_eq_some h, rfl⟩

end Sound

end NameSupply

end ScriptBundler

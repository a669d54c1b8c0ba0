import Mathlib.Data.List.Shortlex
import Mathlib.Data.Set.Function
import ScriptBundler.Proofs.Supply

/-!
# Proofs/Allocation — a new key is given the least word that is left

    a  b  …  aa  ab  ac  …          words, shorter ones first
    ──────────┘  └▸ searched for a free word
    given, forbidden or no name

Counting meets every word once, and in their order (`Word.less_encode_iff`).  A supply never goes back
to a word before its counter, and it need not: whatever is asked of it, none of those is free
(`NameSupply.Spent`).  So the first free word that the search meets is the least one of all.
-/

namespace ScriptBundler

/-! ## The order of the words -/

namespace Word

variable {alphabet : List Char}

/-- Words by length, and those of one length by the places of their letters in the alphabet. -/
def Less (alphabet : List Char) : List Char → List Char → Prop :=
  List.Shortlex fun a b => alphabet.idxOf a < alphabet.idxOf b

/-- What follows does not matter to words of one length that differ. -/
theorem lex_append {r : Char → Char → Prop} {w v : List Char} (h : List.Lex r w v)
    (hlength : w.length = v.length) (s t : List Char) : List.Lex r (w ++ s) (v ++ t) := by
  induction h with
  | nil => simp at hlength
  | rel h => exact .rel h
  | cons _ ih => exact .cons (ih (by simpa using hlength))

theorem Less.concat {w v : List Char} (h : Less alphabet w v) (a b : Char) :
    Less alphabet (w ++ [a]) (v ++ [b]) := by
  rcases List.shortlex_def.mp h with hlt | ⟨heq, hlex⟩
  · exact .of_length_lt (by simpa using hlt)
  · exact .of_lex (by simpa using heq) (lex_append hlex heq [a] [b])

/-- The `n`-th word without its last letter, where `q` is the number of alphabets before `n`. -/
def stem (alphabet : List Char) : Nat → List Char
  | 0 => []
  | q + 1 => encode alphabet q

/-- A word is a stem and a last letter. -/
theorem encode_eq_stem (n : Nat) : encode alphabet n =
    stem alphabet (n / alphabet.length) ++ [alphabet.getD (n % alphabet.length) 'a'] := by
  rw [encode_eq]
  cases n / alphabet.length with
  | zero => rfl
  | succ q => rfl

theorem encode_ne_nil (n : Nat) : encode alphabet n ≠ [] := by simp [encode_eq_stem]

/-- **Words are numbered in their order.** -/
theorem less_encode (hne : alphabet ≠ []) (hnodup : alphabet.Nodup) {n m : Nat} (h : n < m) :
    Less alphabet (encode alphabet n) (encode alphabet m) := by
  induction m using Nat.strongRecOn generalizing n with
  | ind m ih =>
    have hpos : 0 < alphabet.length := List.length_pos_iff.mpr hne
    rw [encode_eq_stem n, encode_eq_stem m]
    rcases Nat.lt_or_eq_of_le (Nat.div_le_div_right (c := alphabet.length) h.le) with hlt | heq
    · -- the words differ before their last letters
      refine Less.concat ?_ _ _
      generalize hq : n / alphabet.length = q at hlt
      cases hp : m / alphabet.length with
      | zero => omega
      | succ p =>
        have hpm : p < m := by
          have := Nat.div_le_self m alphabet.length
          omega
        cases q with
        | zero => exact .of_length_lt (List.length_pos_iff.mpr (encode_ne_nil p))
        | succ q => exact ih p hpm (by omega)
    · rw [heq]
      refine List.Shortlex.append_left ((List.shortlex_singleton_iff _ _).mpr ?_) _
      have hn := Nat.mod_lt n hpos
      have hm := Nat.mod_lt m hpos
      have hmod : n % alphabet.length < m % alphabet.length := by
        have hn' := Nat.div_add_mod n alphabet.length
        have hm' := Nat.div_add_mod m alphabet.length
        rw [heq] at hn'
        omega
      simpa [hn, hm, hnodup.idxOf_getElem] using hmod

theorem Less.asymm {w v : List Char} (h : Less alphabet w v) : ¬Less alphabet v w :=
  have : Std.Asymm fun a b : Char => alphabet.idxOf a < alphabet.idxOf b := ⟨fun _ _ => Nat.lt_asymm⟩
  List.Shortlex.asymm.asymm _ _ h

/-- **Words come in the order of their numbers**. -/
theorem less_encode_iff (hne : alphabet ≠ []) (hnodup : alphabet.Nodup) {n m : Nat} :
    Less alphabet (encode alphabet n) (encode alphabet m) ↔ n < m := by
  refine ⟨fun h => ?_, less_encode hne hnodup⟩
  rcases Nat.lt_trichotomy n m with hlt | rfl | hlt
  · exact hlt
  · exact absurd h h.asymm
  · exact absurd (less_encode hne hnodup hlt) h.asymm

/-- Different numbers have different words. -/
theorem encode_injective (hne : alphabet ≠ []) (hnodup : alphabet.Nodup) :
    Function.Injective (encode alphabet) := by
  intro n m heq
  have hnot : ∀ {i j : Nat}, encode alphabet i = encode alphabet j → ¬i < j := fun hij hlt =>
    have hless := less_encode hne hnodup hlt
    (hij ▸ hless).asymm (hij ▸ hless)
  exact Nat.le_antisymm (Nat.not_lt.mp (hnot heq.symm)) (Nat.not_lt.mp (hnot heq))

/-- **Counting goes through the words**: it meets every word over the alphabet that has a letter, and
each of them once, the shorter ones first and those of one length by their letters. -/
theorem encode_enumerates (hne : alphabet ≠ []) (hnodup : alphabet.Nodup) :
    Set.BijOn (encode alphabet) Set.univ {w | w ≠ [] ∧ ∀ c ∈ w, c ∈ alphabet} ∧
    ∀ n m, n < m ↔ (encode alphabet n).length < (encode alphabet m).length ∨
      (encode alphabet n).length = (encode alphabet m).length ∧
        List.Lex (fun a b => alphabet.idxOf a < alphabet.idxOf b) (encode alphabet n)
          (encode alphabet m) := by
  refine ⟨⟨fun n _ => ?_, (encode_injective hne hnodup).injOn, fun w hw => ?_⟩, fun n m => ?_⟩
  · exact ⟨encode_ne_nil n, fun c => mem_alphabet_of_mem_encode hne⟩
  · obtain ⟨n, hn, -⟩ := exists_encode_eq hw.1 hw.2
    exact ⟨n, trivial, hn⟩
  · exact (less_encode_iff hne hnodup).symm.trans List.shortlex_def

/-- The order of the letters is that of the alphabet, where `b` may come before `a`. -/
theorem encode_enumerates_three : (['b', 'a', 'c'] ≠ [] ∧ ['b', 'a', 'c'].Nodup) ∧
    (List.range 7).map (encode ['b', 'a', 'c']) =
      [['b'], ['a'], ['c'], ['b', 'b'], ['b', 'a'], ['b', 'c'], ['a', 'b']] ∧
    Set.BijOn (encode ['b', 'a', 'c']) Set.univ {w | w ≠ [] ∧ ∀ c ∈ w, c ∈ ['b', 'a', 'c']} ∧
    ∀ n m, n < m ↔ (encode ['b', 'a', 'c'] n).length < (encode ['b', 'a', 'c'] m).length ∨
      (encode ['b', 'a', 'c'] n).length = (encode ['b', 'a', 'c'] m).length ∧
        List.Lex (fun a b => ['b', 'a', 'c'].idxOf a < ['b', 'a', 'c'].idxOf b)
          (encode ['b', 'a', 'c'] n) (encode ['b', 'a', 'c'] m) :=
  ⟨⟨by decide, by decide⟩, by decide +kernel, encode_enumerates (by decide) (by decide)⟩

/-- Each letter stands in an alphabet once. -/
theorem nodup_normalize (s : String) : (normalize s).Nodup := by
  simp only [normalize]
  split
  · exact nodup_eraseDups _
  · decide

end Word

namespace NameSupply

variable {s : NameSupply}

/-! ## The search -/

/-- The search passes over words that are not free. -/
theorem not_isFree_of_lt_search {steps n m : Nat} (hn : n ≤ m) (hm : m < s.search steps n) :
    s.isFree (s.word m) = false := by
  induction steps generalizing n with
  | zero => exact absurd hm (Nat.not_lt.mpr hn)
  | succ steps ih =>
    rw [search] at hm
    split at hm
    · exact absurd hm (Nat.not_lt.mpr hn)
    · rename_i hnot
      rcases Nat.lt_or_eq_of_le hn with hlt | rfl
      · exact ih hlt hm
      · simpa using hnot

/-- More steps than it takes to meet a free word change nothing. -/
theorem search_of_le {steps more n : Nat} (hle : steps ≤ more)
    (hfree : s.isFree (s.word (s.search steps n)) = true) : s.search more n = s.search steps n := by
  induction steps generalizing more n with
  | zero =>
    cases more with
    | zero => rfl
    | succ more => exact if_pos hfree
  | succ steps ih =>
    obtain ⟨more, rfl⟩ := Nat.exists_eq_add_of_le' (Nat.le_trans (Nat.succ_pos steps) hle)
    rw [search] at hfree ⊢
    rw [search]
    split at hfree
    · rename_i hn
      rw [if_pos hn, if_pos hn]
    · rename_i hn
      rw [if_neg hn, if_neg hn]
      exact ih (Nat.le_of_succ_le_succ hle) hfree

/-! ## What is asked of a supply -/

/-- What can be asked of a supply: to name a key, or never to give a name from now on. -/
inductive Ask where
  | name (key : String)
  | forbid (name : String)

/-- The name that is not to be given. -/
def Ask.forbidden? : Ask → Option String
  | .name _ => none
  | .forbid word => some word

/-- The supply after a request. -/
def ask (s : NameSupply) : Ask → NameSupply
  | .name key => (s.create key).2
  | .forbid name => s.forbid name

/-- The supply after requests one after the other. -/
def run (s : NameSupply) (asked : List Ask) : NameSupply := asked.foldl ask s

/-- The names that the requests are answered with. -/
def given (s : NameSupply) : List Ask → List String
  | [] => []
  | .name key :: asked => (s.create key).1 :: given (s.create key).2 asked
  | .forbid name :: asked => given (s.forbid name) asked

theorem run_append (s : NameSupply) (asked later : List Ask) :
    s.run (asked ++ later) = (s.run asked).run later := List.foldl_append

/-- A supply is what is left after its first keys were named. -/
theorem ofAlphabet_eq_run (alphabet : String) (keys forbidden : List String) :
    ofAlphabet alphabet keys forbidden =
      run { alphabet := Word.normalize alphabet, forbidden } (keys.map .name) := by
  rw [ofAlphabet, run, List.foldl_map]
  rfl

@[simp] theorem alphabet_create (key : String) : (s.create key).2.alphabet = s.alphabet := by
  rw [create]
  split <;> rfl

@[simp] theorem forbidden_create (key : String) : (s.create key).2.forbidden = s.forbidden := by
  rw [create]
  split <;> rfl

@[simp] theorem alphabet_forbid (name : String) : (s.forbid name).alphabet = s.alphabet := by
  rw [forbid]
  split <;> rfl

@[simp] theorem names_forbid (name : String) : (s.forbid name).names = s.names := by
  rw [forbid]
  split <;> rfl

/-- What is forbidden stays so. -/
@[simp] theorem mem_forbidden_forbid {name other : String} :
    other ∈ (s.forbid name).forbidden ↔ other = name ∨ other ∈ s.forbidden := by
  rw [forbid]
  split
  · rename_i h
    exact ⟨.inr, fun hor => hor.elim (fun heq => heq ▸ h) id⟩
  · exact List.mem_cons

/-- The names given so far are those of the keys, and that of the key just named. -/
theorem mem_names_create {key other : String} :
    other ∈ (s.create key).2.names.map Prod.snd ↔
      other ∈ s.names.map Prod.snd ∨ other = (s.create key).1 := by
  cases h : s.get? key with
  | some name =>
    rw [create_of_get?_eq_some h]
    exact ⟨.inl, fun hor => hor.elim id fun heq => heq ▸ Sound.mem_names h⟩
  | none => simp [create, h]

/-- **What a supply refuses is what was ever forbidden.** -/
theorem mem_forbidden_run {asked : List Ask} {name : String} :
    name ∈ (s.run asked).forbidden ↔
      name ∈ s.forbidden ∨ name ∈ asked.filterMap Ask.forbidden? := by
  induction asked generalizing s with
  | nil => simp [run]
  | cons a asked ih =>
    rw [show s.run (a :: asked) = (s.ask a).run asked from rfl, ih]
    cases a with
    | name key => simp [ask, Ask.forbidden?]
    | forbid other => simp [ask, Ask.forbidden?, or_assoc, or_left_comm]

/-- **What a supply has given is what it ever answered.** -/
theorem mem_names_run {asked : List Ask} {name : String} :
    name ∈ (s.run asked).names.map Prod.snd ↔ name ∈ s.names.map Prod.snd ∨ name ∈ s.given asked := by
  induction asked generalizing s with
  | nil => simp [run, given]
  | cons a asked ih =>
    rw [show s.run (a :: asked) = (s.ask a).run asked from rfl, ih]
    cases a with
    | name key => rw [ask, mem_names_create, given, List.mem_cons, or_assoc]
    | forbid other => rw [ask, names_forbid, given]

theorem alphabet_run {asked : List Ask} : (s.run asked).alphabet = s.alphabet := by
  induction asked generalizing s with
  | nil => rfl
  | cons a asked ih =>
    rw [show s.run (a :: asked) = (s.ask a).run asked from rfl, ih]
    cases a <;> simp [ask]

/-- What a key has, it keeps, whatever is asked. -/
theorem get?_run {key name : String} (h : s.get? key = some name) (asked : List Ask) :
    (s.run asked).get? key = some name := by
  induction asked generalizing s with
  | nil => exact h
  | cons a asked ih =>
    refine ih (s := s.ask a) ?_
    cases a with
    | name other => exact get?_create_of_eq_some h
    | forbid other => rwa [ask, get?, names_forbid]

/-! ## No word before the counter is free -/

/-- No word before the counter can be given. -/
def Spent (s : NameSupply) : Prop := ∀ m < s.counter, s.isFree (s.word m) = false

/-- A supply that refuses more than another has fewer free words. -/
theorem isFree_of_isFree {t : NameSupply} {name : String} (hforbidden : s.forbidden ⊆ t.forbidden)
    (hnames : s.names.map Prod.snd ⊆ t.names.map Prod.snd) (h : t.isFree name = true) :
    s.isFree name = true := by
  rw [isFree_iff] at h ⊢
  exact ⟨h.1, fun hmem => h.2.1 (hforbidden hmem), fun hmem => h.2.2 (hnames hmem)⟩

/-- What cannot be given cannot be given later. -/
theorem not_isFree_create {key name : String} (h : s.isFree name = false) :
    (s.create key).2.isFree name = false := by
  rw [← Bool.not_eq_true] at h ⊢
  refine mt (isFree_of_isFree ?_ fun x hx => mem_names_create.mpr (.inl hx)) h
  rw [forbidden_create]
  exact List.Subset.refl _

theorem not_isFree_forbid {name other : String} (h : s.isFree name = false) :
    (s.forbid other).isFree name = false := by
  rw [← Bool.not_eq_true] at h ⊢
  refine mt (isFree_of_isFree (fun x hx => mem_forbidden_forbid.mpr (.inr hx)) ?_) h
  rw [names_forbid]
  exact List.Subset.refl _

namespace Spent

/-- Naming a key spends the words up to the one that is given. -/
theorem create (hs : s.Spent) (key : String) : (s.create key).2.Spent := by
  cases h : s.get? key with
  | some name => rwa [create_of_get?_eq_some h]
  | none =>
    intro m hm
    have hcounter : (s.create key).2.counter = s.search s.searchBound s.counter + 1 := by
      simp [NameSupply.create, h]
    have hword : (s.create key).2.word m = s.word m := by rw [word, word, alphabet_create]
    rw [hword]
    rw [hcounter] at hm
    rcases Nat.lt_or_eq_of_le (Nat.le_of_lt_succ hm) with hlt | rfl
    · refine not_isFree_create ?_
      by_cases hold : m < s.counter
      · exact hs m hold
      · exact not_isFree_of_lt_search (Nat.not_lt.mp hold) hlt
    · -- the word that was just given
      rw [← Bool.not_eq_true, isFree_iff]
      exact fun hfree => hfree.2.2 (mem_names_create.mpr (.inr (by simp [NameSupply.create, h])))

/-- Forbidding a name frees no word. -/
theorem forbid (hs : s.Spent) (name : String) : (s.forbid name).Spent := by
  have hcounter : (s.forbid name).counter = s.counter := by
    rw [NameSupply.forbid]
    split <;> rfl
  intro m hm
  rw [word, alphabet_forbid]
  exact not_isFree_forbid (hs m (hcounter ▸ hm))

/-- Requests free no word. -/
theorem run (hs : s.Spent) (asked : List Ask) : (s.run asked).Spent := by
  induction asked generalizing s with
  | nil => exact hs
  | cons a asked ih =>
    refine ih (s := s.ask a) ?_
    cases a with
    | name key => exact hs.create key
    | forbid name => exact hs.forbid name

end Spent

/-- Names stay sound whatever is asked. -/
theorem Sound.run {reserved : List String} (hs : Sound reserved s) (asked : List Ask) :
    Sound reserved (s.run asked) := by
  induction asked generalizing s with
  | nil => exact hs
  | cons a asked ih =>
    refine ih (s := s.ask a) ?_
    cases a with
    | name key => exact hs.create key
    | forbid name => exact hs.forbid name

/-! ## The least word that is left -/

/-- A word over `letters` that can be a name and is neither forbidden nor issued. -/
structure Eligible (letters : List Char) (forbidden issued : List String) (name : String) :
    Prop where
  ne_nil : name.toList ≠ []
  letters : ∀ c ∈ name.toList, c ∈ letters
  initial : ∀ c ∈ name.toList.head?, c.isDigit = false
  allowed : name ∉ forbidden
  unissued : name ∉ issued

/-- What is eligible can be given. -/
theorem Eligible.isFree {name : String}
    (h : Eligible s.alphabet s.forbidden (s.names.map Prod.snd) name) : s.isFree name = true := by
  refine isFree_iff.mpr ⟨?_, h.allowed, h.unissued⟩
  cases hcs : name.toList with
  | nil => exact absurd hcs h.ne_nil
  | cons c cs => simp [Word.isInitial, h.initial c (by rw [hcs]; rfl)]

/-- What can be given is eligible. -/
theorem eligible_of_isFree (hs : s.Endless) {n : Nat} (h : s.isFree (s.word n) = true) :
    Eligible s.alphabet s.forbidden (s.names.map Prod.snd) (s.word n) := by
  obtain ⟨hinitial, hallowed, hunissued⟩ := isFree_iff.mp h
  have hne : s.alphabet ≠ [] := by
    obtain ⟨c, hc, -⟩ := hs.initial
    exact List.ne_nil_of_mem hc
  have hchars : (s.word n).toList = Word.encode s.alphabet n := by rw [word, String.toList_ofList]
  refine ⟨?_, fun c hc => ?_, fun c hc => ?_, hallowed, hunissued⟩
  · rw [hchars]
    exact Word.encode_ne_nil n
  · exact Word.mem_alphabet_of_mem_encode hne (hchars ▸ hc)
  · rw [Option.mem_def] at hc
    simpa [hc, Word.isInitial] using hinitial

/-- **A new key is given the least word that is left.** -/
theorem eligible_create (hs : s.Endless) (hnodup : s.alphabet.Nodup) (hspent : s.Spent) {key : String}
    (h : s.get? key = none) :
    Eligible s.alphabet s.forbidden (s.names.map Prod.snd) (s.create key).1 ∧
      ∀ w, Eligible s.alphabet s.forbidden (s.names.map Prod.snd) w →
        w = (s.create key).1 ∨ Word.Less s.alphabet (s.create key).1.toList w.toList := by
  have hname : (s.create key).1 = s.word (s.search s.searchBound s.counter) := by simp [create, h]
  rw [hname]
  refine ⟨eligible_of_isFree hs (isFree_search hs), fun w hw => ?_⟩
  obtain ⟨m, hm, -⟩ := Word.exists_encode_eq hw.ne_nil hw.letters
  have hword : s.word m = w := by rw [word, hm, String.ofList_toList]
  have hfree : s.isFree (s.word m) = true := hword ▸ hw.isFree
  have hle : s.search s.searchBound s.counter ≤ m := by
    by_contra hlt
    have hpast : s.counter ≤ m := by
      by_contra hbefore
      exact absurd hfree (by simp [hspent m (by omega)])
    exact absurd hfree (by simp [not_isFree_of_lt_search hpast (Nat.not_le.mp hlt)])
  rcases Nat.lt_or_eq_of_le hle with hlt | heq
  · have hne : s.alphabet ≠ [] := by
      obtain ⟨c, hc, -⟩ := hs.initial
      exact List.ne_nil_of_mem hc
    rw [← hword, word, word, String.toList_ofList, String.toList_ofList]
    exact .inr (Word.less_encode hne hnodup hlt)
  · exact .inl (by rw [heq, hword])

/-- **Names are given once and in order**: at any time, a key that has a name keeps it, and a new key is
given the least word over the alphabet that does not start with a digit, is not forbidden by then and
was never given before.  Names are words, and no two keys have the same. -/
theorem create_run (alphabet : String) (keys forbidden : List String) (asked : List Ask) :
    let s := (ofAlphabet alphabet keys forbidden).run asked
    let letters := Word.normalize alphabet
    let refused := forbidden ++ asked.filterMap Ask.forbidden?
    let issued := given { alphabet := letters, forbidden } (keys.map .name ++ asked)
    (∀ key name, s.get? key = some name →
      s.create key = (name, s) ∧ ∀ later, (s.run later).get? key = some name) ∧
    (∀ key, s.get? key = none →
      (∀ steps, s.searchBound ≤ steps →
        s.search steps s.counter = s.search s.searchBound s.counter) ∧
      Eligible letters refused issued (s.create key).1 ∧
      (∀ w, Eligible letters refused issued w →
        w = (s.create key).1 ∨ Word.Less letters (s.create key).1.toList w.toList) ∧
      (s.create key).2.get? key = some (s.create key).1) ∧
    (∀ key other name, s.get? key = some name → s.get? other = some name → key = other) ∧
    ∀ key name, s.get? key = some name → IsWord name := by
  intro s letters refused issued
  have hrun : s = run { alphabet := letters, forbidden } (keys.map .name ++ asked) := by
    rw [run_append, ← ofAlphabet_eq_run]
  have hsound : Sound forbidden s := (Sound.ofAlphabet alphabet keys forbidden).run asked
  have hspent : s.Spent := hrun ▸ Spent.run (fun _ hm => absurd hm (Nat.not_lt_zero _)) _
  have hletters : s.alphabet = letters := by rw [hrun, alphabet_run]
  have hrefused : ∀ name, name ∈ s.forbidden ↔ name ∈ refused := by
    intro name
    have hnone : (keys.map Ask.name).filterMap Ask.forbidden? = [] := by
      simp [List.filterMap_map, Function.comp_def, Ask.forbidden?]
    rw [hrun, mem_forbidden_run, List.filterMap_append, hnone, List.nil_append, List.mem_append]
  have hissued : ∀ name, name ∈ s.names.map Prod.snd ↔ name ∈ issued := by
    intro name
    rw [hrun, mem_names_run]
    simp [issued]
  have heligible : ∀ name, Eligible s.alphabet s.forbidden (s.names.map Prod.snd) name ↔
      Eligible letters refused issued name := fun name =>
    ⟨fun h => ⟨h.ne_nil, hletters ▸ h.letters, h.initial, mt (hrefused name).mpr h.allowed,
      mt (hissued name).mpr h.unissued⟩,
    fun h => ⟨h.ne_nil, hletters ▸ h.letters, h.initial, mt (hrefused name).mp h.allowed,
      mt (hissued name).mp h.unissued⟩⟩
  refine ⟨fun key name h => ⟨create_of_get?_eq_some h, get?_run h⟩, fun key h => ?_,
    fun key other name => hsound.get?_injective, fun key name h => hsound.word name (Sound.mem_names h)⟩
  obtain ⟨hfree, hleast⟩ := eligible_create hsound.endless
    (hletters ▸ Word.nodup_normalize alphabet) hspent h
  refine ⟨fun steps hle => search_of_le hle (isFree_search hsound.endless), (heligible _).mp hfree,
    fun w hw => ?_, get?_create_self s key⟩
  rw [← hletters]
  exact hleast w ((heligible w).mpr hw)

end NameSupply

end ScriptBundler

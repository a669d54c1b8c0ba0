import ScriptBundler.Token.Scan

/-!
# Proofs/Spelling — a token is read back from its spelling

    spelling of a token ++ rest ──Lexeme.read──▸ the token, and rest

This needs two things: the token is one that a text can hold (`Token.Kind.Valid`), and what follows
does not prolong it (`Token.Kind.Clear`).  For all tokens that an operand can end with, one condition
on what follows does (`EndsOperand`).
-/

namespace ScriptBundler

/-! ## Letters, digits and the rest -/

/-- No word starts with a digit. -/
theorem isWordStart_of_isDigit {c : Char} (h : c.isDigit = true) : isWordStart c = false := by
  have hnat : 48 ≤ c.toNat ∧ c.toNat ≤ 57 := by simpa using Char.isDigit_iff_toNat.mp h
  have hval : c.val.toNat = c.toNat := rfl
  have hupper : c.isUpper = false := decide_eq_false fun hle => by
    have hA : 'A'.val.toNat ≤ c.val.toNat := UInt32.le_iff_toNat_le.mp hle.1
    rw [show 'A'.val.toNat = 65 from rfl] at hA
    omega
  have hlower : c.isLower = false := by
    refine congrArg (· && decide (c.val ≤ 'z'.val)) (decide_eq_false fun hle => ?_)
    have ha : 'a'.val.toNat ≤ c.val.toNat := UInt32.le_iff_toNat_le.mp hle
    rw [show 'a'.val.toNat = 97 from rfl] at ha
    omega
  have halpha : c.isAlpha = (c.isUpper || c.isLower) := rfl
  have hline : c ≠ '_' := by rintro rfl; revert h; decide
  have hascii : ¬128 ≤ c.toNat := by omega
  simp [isWordStart, halpha, hupper, hlower, hline, hascii]

theorem isDigit_of_isWordStart {c : Char} (h : isWordStart c = true) : c.isDigit = false := by
  cases hd : c.isDigit with
  | false => rfl
  | true => rw [isWordStart_of_isDigit hd] at h; cases h

theorem isWordChar_of_isWordStart {c : Char} (h : isWordStart c = true) : isWordChar c = true := by
  simp [isWordChar, h]

theorem isWordChar_of_isDigit {c : Char} (h : c.isDigit = true) : isWordChar c = true := by
  simp [isWordChar, h]

/-- A run of characters of one class ends where a character of another class follows. -/
theorem takeWhile_run {p : Char → Bool} {cs rest : List Char} (hcs : ∀ c ∈ cs, p c = true)
    (hrest : ∀ c ∈ rest.head?, p c = false) : (cs ++ rest).takeWhile p = cs := by
  rw [List.takeWhile_append_of_pos hcs]
  cases rest with
  | nil => simp
  | cons c rest => simp [hrest c rfl]

/-- A run of characters ends where another one starts. -/
theorem dropWhile_run {p : Char → Bool} {cs rest : List Char} (hcs : ∀ c ∈ cs, p c = true)
    (hrest : ∀ c ∈ rest.head?, p c = false) : (cs ++ rest).dropWhile p = rest := by
  rw [List.dropWhile_append_of_pos hcs]
  cases rest with
  | nil => simp
  | cons c rest => simp [hrest c rfl]

/-! ## Numerals -/

namespace Numeral

/-- A fraction is missing, or a point and digits. -/
def IsFraction (cs : List Char) : Prop :=
  cs = [] ∨ ∃ d ds, (∀ c ∈ d :: ds, c.isDigit = true) ∧ cs = '.' :: d :: ds

/-- An exponent is missing, or its mark, an optional sign and digits. -/
def IsExponent (cs : List Char) : Prop :=
  cs = [] ∨ ∃ e sg d ds, (e = 'e' ∨ e = 'E') ∧ (sg = [] ∨ sg = ['+'] ∨ sg = ['-']) ∧
    (∀ c ∈ d :: ds, c.isDigit = true) ∧ cs = e :: (sg ++ d :: ds)

/-- How a number is written. -/
def IsNumeral (cs : List Char) : Prop :=
  ∃ whole part power, cs = whole ++ part ++ power ∧ (∀ c ∈ whole, c.isDigit = true) ∧
    IsFraction part ∧ IsExponent power ∧ whole ++ part ≠ []

/-- What can follow a numeral: it goes on neither with a letter or digit, nor with a point and a
digit. -/
def Ends (rest : List Char) : Prop :=
  (∀ c ∈ rest.head?, isWordChar c = false) ∧ ∀ cs, rest = '.' :: cs → startsDigit cs = false

theorem Ends.head_not_digit {rest : List Char} (h : Ends rest) :
    ∀ c ∈ rest.head?, c.isDigit = false := fun c hc => by
  have := h.1 c hc
  simp only [isWordChar, Bool.or_eq_false_iff] at this
  exact this.2

/-- Digits are read up to the first character that is none. -/
theorem digits_run {cs rest : List Char} (hcs : ∀ c ∈ cs, c.isDigit = true)
    (hrest : ∀ c ∈ rest.head?, c.isDigit = false) : digits (cs ++ rest) = (cs, rest) := by
  rw [digits, takeWhile_run hcs hrest, dropWhile_run hcs hrest]

/-- Digits are not taken for a sign. -/
theorem sign_run {sg : List Char} (hsg : sg = [] ∨ sg = ['+'] ∨ sg = ['-']) {d : Char}
    (hd : d.isDigit = true) (ds : List Char) : sign (sg ++ d :: ds) = (sg, d :: ds) := by
  rcases hsg with rfl | rfl | rfl
  · have hplus : d ≠ '+' := by rintro rfl; revert hd; decide
    have hminus : d ≠ '-' := by rintro rfl; revert hd; decide
    unfold sign
    split <;> simp_all
  · rfl
  · rfl

/-- An exponent is read whole. -/
theorem exponent_run {cs rest : List Char} (hcs : IsExponent cs) (hrest : Ends rest) :
    exponent (cs ++ rest) = (cs, rest) := by
  rcases hcs with rfl | ⟨e, sg, d, ds, he, hsg, hds, rfl⟩
  · cases rest with
    | nil => rfl
    | cons c rest =>
      have hc : ¬(c = 'e' ∨ c = 'E') := by
        rintro (rfl | rfl) <;> exact absurd (hrest.1 _ rfl) (by decide)
      simp [exponent, hc]
  · have hd : d.isDigit = true := hds d (List.mem_cons_self ..)
    have hsign : sign (sg ++ d :: ds ++ rest) = (sg, d :: ds ++ rest) := by
      rw [List.append_assoc]
      exact sign_run hsg hd (ds ++ rest)
    have hdig := digits_run hds hrest.head_not_digit
    have hstart : startsDigit (d :: ds ++ rest) = true := hd
    rw [List.cons_append, exponent, hsign, if_pos ⟨he, hstart⟩, hdig]

theorem exponent_head_not_digit {cs rest : List Char} (hcs : IsExponent cs) (hrest : Ends rest) :
    ∀ c ∈ (cs ++ rest).head?, c.isDigit = false := by
  rcases hcs with rfl | ⟨e, sg, d, ds, he, -, -, rfl⟩
  · exact hrest.head_not_digit
  · intro c hc
    obtain rfl : e = c := by simpa using hc
    rcases he with rfl | rfl <;> decide

/-- A fraction is read whole. -/
theorem fraction_run {cs more rest : List Char} (hcs : IsFraction cs) (hmore : IsExponent more)
    (hrest : Ends rest) : fraction (cs ++ (more ++ rest)) = (cs, more ++ rest) := by
  rcases hcs with rfl | ⟨d, ds, hds, rfl⟩
  · rw [List.nil_append]
    unfold fraction
    split
    · rename_i ds heq
      rcases hmore with rfl | ⟨e, sg, d, ds, he, -, -, rfl⟩
      · rw [List.nil_append] at heq
        simp [hrest.2 ds heq, heq]
      · rw [List.cons_append, List.cons.injEq] at heq
        obtain ⟨rfl, -⟩ := heq
        exact absurd he (by decide)
    · rfl
  · have hd : d.isDigit = true := hds d (List.mem_cons_self ..)
    have hdig := digits_run hds (exponent_head_not_digit hmore hrest)
    simp only [List.cons_append, fraction, startsDigit, hd, if_true] at hdig ⊢
    rw [hdig]

theorem fraction_head_not_digit {cs more rest : List Char} (hcs : IsFraction cs) (hmore : IsExponent more)
    (hrest : Ends rest) : ∀ c ∈ (cs ++ (more ++ rest)).head?, c.isDigit = false := by
  rcases hcs with rfl | ⟨d, ds, -, rfl⟩
  · rw [List.nil_append]
    exact exponent_head_not_digit hmore hrest
  · intro c hc
    obtain rfl : '.' = c := by simpa using hc
    decide

/-- **A numeral is read as a whole.** -/
theorem scan_run {cs rest : List Char} (hcs : IsNumeral cs) (hrest : Ends rest) :
    scan (cs ++ rest) = (cs, rest) := by
  obtain ⟨whole, part, power, rfl, hw, hp, hx, -⟩ := hcs
  have h₁ := digits_run hw (fraction_head_not_digit hp hx hrest)
  have h₂ := fraction_run hp hx hrest
  have h₃ := exponent_run hx hrest
  simp only [scan, List.append_assoc, h₁, h₂, h₃]

/-- What is read as a fraction is one. -/
theorem isFraction_fraction (cs : List Char) : IsFraction (fraction cs).1 := by
  fun_cases fraction cs with
  | case1 cs h =>
    cases cs with
    | nil => simp [startsDigit] at h
    | cons d ds =>
      have hd : d.isDigit = true := h
      refine .inr ⟨d, ds.takeWhile Char.isDigit, ?_, by simp [digits, hd]⟩
      intro c hc
      rcases List.mem_cons.mp hc with rfl | hc
      · exact hd
      · exact List.all_eq_true.mp List.all_takeWhile c hc
  | case2 => exact .inl rfl
  | case3 => exact .inl rfl

/-- What is read as an exponent is one. -/
theorem isExponent_exponent (cs : List Char) : IsExponent (exponent cs).1 := by
  fun_cases exponent cs with
  | case1 => exact .inl rfl
  | case2 c cs h =>
    obtain ⟨hc, hd⟩ := h
    have hsg : (sign cs).1 = [] ∨ (sign cs).1 = ['+'] ∨ (sign cs).1 = ['-'] := by
      fun_cases sign cs <;> simp
    cases hds : (sign cs).2 with
    | nil => rw [hds] at hd; cases hd
    | cons d ds =>
      rw [hds] at hd
      have hd' : d.isDigit = true := hd
      refine .inr ⟨c, (sign cs).1, d, ds.takeWhile Char.isDigit, hc, hsg, ?_, by simp [digits, hd']⟩
      intro x hx
      rcases List.mem_cons.mp hx with rfl | hx
      · exact hd'
      · exact List.all_eq_true.mp List.all_takeWhile x hx
  | case3 => exact .inl rfl

/-- Whatever is read as a numeral is one. -/
theorem isNumeral_scan {c : Char} {cs : List Char}
    (h : (c.isDigit || (c == '.' && startsDigit cs)) = true) :
    IsNumeral (scan (c :: cs)).1 := by
  refine ⟨_, _, _, rfl, fun x hx => List.all_eq_true.mp List.all_takeWhile x hx,
    isFraction_fraction _, isExponent_exponent _, ?_⟩
  by_cases hc : c.isDigit = true
  · simp [digits, hc]
  · have hdot : c = '.' ∧ startsDigit cs = true := by simpa [hc] using h
    obtain ⟨rfl, hcs⟩ := hdot
    simp [digits, hc, fraction, hcs]

/-- A number starts with a digit, or with a point before one. -/
theorem IsNumeral.head {cs : List Char} (h : IsNumeral cs) :
    ∃ c ds, cs = c :: ds ∧ (c.isDigit = true ∨ (c = '.' ∧ startsDigit ds = true)) := by
  obtain ⟨whole, part, power, rfl, hw, hp, -, hne⟩ := h
  cases whole with
  | cons c whole => exact ⟨c, _, rfl, .inl (hw c (List.mem_cons_self ..))⟩
  | nil =>
    rcases hp with rfl | ⟨d, ds, hds, rfl⟩
    · exact absurd rfl hne
    · exact ⟨'.', _, rfl, .inr ⟨rfl, hds d (List.mem_cons_self ..)⟩⟩

end Numeral

/-! ## String literals -/

namespace Quoted

/-- A text is read back from the literal that stands for it. -/
theorem scan_escape (v rest : List Char) (h : rest.head? ≠ some '"') :
    scan (escape v ++ '"' :: rest) = ⟨v, escape v ++ ['"'], rest, true⟩ := by
  induction v with
  | nil =>
    rw [escape, List.nil_append]
    unfold scan
    split
    · rename_i heq
      simp at heq
    · rename_i heq
      rw [List.cons.injEq] at heq
      simp [heq.2] at h
    · rename_i heq
      rw [List.cons.injEq] at heq
      simp [heq.1.symm, heq.2]
  | cons c v ih =>
    by_cases hc : c = '"'
    · simp only [escape, hc, if_true, List.cons_append]
      rw [scan, ih]
      rfl
    · simp only [escape, hc, if_false, List.cons_append]
      rw [scan, ih, if_neg hc]
      · rfl
      · rintro _ rfl -
        exact absurd rfl hc

/-- What is read up to a closing quote is the literal that stands for what was read. -/
theorem consumed_of_closed (cs : List Char) (h : (scan cs).closed = true) :
    (scan cs).consumed = escape (scan cs).value ++ ['"'] := by
  fun_induction scan cs with
  | case1 => cases h
  | case2 cs ih => simp [Reading.push, escape, ih h]
  | case3 => rfl
  | case4 c cs _ hc ih => simp [Reading.push, escape, hc, ih h]

end Quoted

/-! ## Signs -/

namespace Symbol

/-- Signs that no other sign starts with. -/
def isSolid : Symbol → Bool
  | plus | minus | star | slash | percent | caret | assign | less | greater | shiftRight | dot => false
  | _ => true

/-- A sign that no other starts with is read whatever follows. -/
theorem ofChars?_solid {s : Symbol} (h : s.isSolid = true) (rest : List Char) :
    ofChars? (s.spelling.toList ++ rest) = some s := by
  cases s <;> first | rfl | cases h

/-- What may follow a sign that other signs start with. -/
def Ends (rest : List Char) : Prop := ∀ c ∈ rest.head?, c ≠ '=' ∧ c ≠ '<' ∧ c ≠ '>' ∧ c ≠ '/'

/-- A sign is read if what follows does not go on it. -/
theorem ofChars?_ends (s : Symbol) {rest : List Char} (h : Ends rest) :
    ofChars? (s.spelling.toList ++ rest) = some s := by
  cases rest with
  | nil => cases s <;> rfl
  | cons c rest =>
    obtain ⟨h₁, h₂, h₃, -⟩ := h c rfl
    cases hs : s.isSolid with
    | true => exact ofChars?_solid hs _
    | false =>
      have e₁ : ('=' == c) = false := by simpa using h₁.symm
      have e₂ : ('<' == c) = false := by simpa using h₂.symm
      have e₃ : ('>' == c) = false := by simpa using h₃.symm
      cases s <;> first
        | exact absurd hs (by decide)
        | simp [ofChars?, all, spelling, List.find?, List.isPrefixOf, e₁, e₂, e₃]

end Symbol

/-! ## Tokens and their spellings -/

/-- How a name is written: like a word, but not like a reserved one. -/
structure IsName (name : String) : Prop where
  word : ∃ c cs, name.toList = c :: cs ∧ isWordStart c = true ∧ ∀ x ∈ cs, isWordChar x = true
  free : Keyword.ofString? name = none

instance (name : String) : Decidable (IsName name) :=
  decidable_of_iff (((match name.toList with
      | [] => false
      | c :: cs => isWordStart c && cs.all isWordChar) && (Keyword.ofString? name).isNone) = true) <| by
    rw [Bool.and_eq_true, Option.isNone_iff_eq_none]
    constructor
    · rintro ⟨hword, hfree⟩
      refine ⟨?_, hfree⟩
      split at hword
      · cases hword
      · rename_i c cs hcs
        rw [Bool.and_eq_true, List.all_eq_true] at hword
        exact ⟨c, cs, hcs, hword⟩
    · rintro ⟨⟨c, cs, hcs, hc, hword⟩, hfree⟩
      simp only [hcs, hc, Bool.true_and, List.all_eq_true]
      exact ⟨hword, hfree⟩

/-- A reserved word is read as itself. -/
theorem Keyword.ofString?_spelling (k : Keyword) : ofString? k.spelling = some k := by
  cases k <;> decide

/-- A reserved word is a word. -/
theorem word_of_keyword (k : Keyword) : ∃ c cs, k.spelling.toList = c :: cs ∧
    isWordStart c = true ∧ ∀ x ∈ cs, isWordChar x = true := by
  have hall : ∀ {cs : List Char}, cs.all isWordChar = true → ∀ x ∈ cs, isWordChar x = true :=
    List.all_eq_true.mp
  cases k <;> exact ⟨_, _, rfl, rfl, hall rfl⟩

theorem Symbol.eq_dot {s : Symbol} {cs : List Char} (h : s.spelling.toList = '.' :: cs) :
    s = dot ∧ cs = [] := by
  cases s <;> simp_all [spelling]

theorem Symbol.eq_slash {s : Symbol} {cs : List Char} (h : s.spelling.toList = '/' :: cs) :
    (s = slash ∧ cs = []) ∨ cs = ['='] := by
  cases s <;> simp_all [spelling]

/-- What a sign can start with. -/
theorem Symbol.first (s : Symbol) : ∃ c cs, s.spelling.toList = c :: cs ∧ isBlank c = false ∧
    c ≠ '\n' ∧ c ≠ '"' ∧ c.isDigit = false ∧ isWordStart c = false := by
  cases s <;> exact ⟨_, _, rfl, by decide, by decide, by decide, by decide, by decide⟩

namespace Token.Kind

/-- Tokens that a text can hold. -/
def Valid : Kind → Prop
  | number raw value => Numeral.IsNumeral raw.toList ∧ Numeral.value? raw.toList = some value
  | string raw value => raw = quote value
  | identifier name => IsName name
  | comment text => '\n' ∉ text.toList ∧ trimReturns text.toList = text.toList
  | _ => True

/-- How a token is written.  The end of a text is not written. -/
def chars : Kind → List Char
  | newline => ['\n']
  | eof => []
  | k => k.spelling.toList

/-- What follows a token does not prolong it. -/
def Clear : Kind → List Char → Prop
  | number .., rest => Numeral.Ends rest
  | string .., rest => rest.head? ≠ some '"'
  | identifier _, rest | keyword _, rest => ∀ c ∈ rest.head?, isWordChar c = false
  | symbol s, rest =>
    s.isSolid = true ∨ (Symbol.Ends rest ∧ (s = .dot → Numeral.startsDigit rest = false))
  | comment _, rest => ∀ c ∈ rest.head?, c = '\n'
  | newline, _ => True
  | eof, _ => False

end Token.Kind

namespace Lexeme

open Token (Kind)

/-- A word is read whole. -/
theorem ofWord_run {c : Char} {cs rest : List Char} (hc : isWordStart c = true)
    (hcs : ∀ x ∈ cs, isWordChar x = true) (hrest : ∀ x ∈ rest.head?, isWordChar x = false) :
    read c (cs ++ rest) =
      { kind := .token (match Keyword.ofString? (String.ofList (c :: cs)) with
          | some k => .keyword k
          | none => .identifier (String.ofList (c :: cs))) none
        text := c :: cs, rest } := by
  have hall : ∀ x ∈ c :: cs, isWordChar x = true := fun x hx => by
    rcases List.mem_cons.mp hx with rfl | hx
    · exact isWordChar_of_isWordStart hc
    · exact hcs x hx
  have hblank : isBlank c = false := by
    cases hb : isBlank c with
    | false => rfl
    | true =>
      simp only [isBlank, Bool.or_eq_true, beq_iff_eq] at hb
      rcases hb with ((rfl | rfl) | rfl) | rfl <;> exact absurd hc (by decide)
  have hline : c ≠ '\n' := by rintro rfl; exact absurd hc (by decide)
  have hquote : c ≠ '"' := by rintro rfl; exact absurd hc (by decide)
  have hdot : c ≠ '.' := by rintro rfl; exact absurd hc (by decide)
  have htake := takeWhile_run hall hrest
  have hdrop := dropWhile_run hall hrest
  rw [List.cons_append] at htake hdrop
  have hread : read c (cs ++ rest) = ofWord (c :: (cs ++ rest)) := by
    simp only [read, hblank, hline, hquote, isDigit_of_isWordStart hc, hdot, hc, beq_iff_eq,
      Bool.false_eq_true, Bool.false_or, Bool.and_eq_true, false_and, if_false, if_true]
  have hpiece := congr (congrArg (fun text rest => Lexeme.mk (.token
    (match Keyword.ofString? (String.ofList text) with
      | some k => .keyword k
      | none => .identifier (String.ofList text)) none) text rest) htake) hdrop
  exact hread.trans hpiece

/-- A sign is read whole. -/
theorem ofSign_run (s : Symbol) {c : Char} {cs rest : List Char}
    (hs : s.spelling.toList = c :: cs) (h : Symbol.ofChars? (c :: cs ++ rest) = some s) :
    ofSign c (cs ++ rest) = { kind := .token (.symbol s) none, text := c :: cs, rest } := by
  have hlen : s.spelling.length = (c :: cs).length := by rw [← hs, String.length_toList]
  rw [List.cons_append] at h
  rw [ofSign, h]
  simp only [hlen, ← List.cons_append, List.take_left', List.drop_left']

/-- **A token is read back from its spelling**, if what follows does not prolong it. -/
theorem read_chars {k : Kind} {rest : List Char} (hv : k.Valid) (hc : k.Clear rest) :
    ∃ c cs, k.chars = c :: cs ∧
      read c (cs ++ rest) = { kind := .token k none, text := c :: cs, rest } := by
  cases k with
  | number raw value =>
    obtain ⟨hnum, hval⟩ := hv
    obtain ⟨c, cs, hcs, hhead⟩ := hnum.head
    have hblank : isBlank c = false ∧ c ≠ '\n' ∧ c ≠ '"' := by
      rcases hhead with hd | ⟨rfl, -⟩
      · refine ⟨?_, ?_, ?_⟩
        · cases hb : isBlank c with
          | false => rfl
          | true =>
            simp only [isBlank, Bool.or_eq_true, beq_iff_eq] at hb
            rcases hb with ((rfl | rfl) | rfl) | rfl <;> exact absurd hd (by decide)
        · rintro rfl; exact absurd hd (by decide)
        · rintro rfl; exact absurd hd (by decide)
      · decide
    have hstart : (c.isDigit || (c == '.' && Numeral.startsDigit (cs ++ rest))) = true := by
      rcases hhead with hd | ⟨rfl, hd⟩
      · simp [hd]
      · cases cs with
        | nil => cases hd
        | cons d ds =>
          have hd' : d.isDigit = true := hd
          simp [Numeral.startsDigit, hd']
    have hscan : Numeral.scan (c :: (cs ++ rest)) = (c :: cs, rest) := by
      rw [← List.cons_append, ← hcs]
      exact Numeral.scan_run hnum hc
    refine ⟨c, cs, hcs, ?_⟩
    rw [hcs] at hval
    simp only [read, hblank.1, hblank.2.1, hblank.2.2, hstart, Bool.false_eq_true, if_false, if_true,
      ofNumeral, hscan, hval]
    rw [← hcs, String.ofList_toList]
  | string raw value =>
    obtain rfl : raw = quote value := hv
    have hchars : (quote value).toList = '"' :: (Quoted.escape value.toList ++ ['"']) := by
      rw [quote, String.toList_ofList]
    refine ⟨'"', Quoted.escape value.toList ++ ['"'], hchars, ?_⟩
    have hscan := Quoted.scan_escape value.toList rest hc
    have hread : read '"' (Quoted.escape value.toList ++ ['"'] ++ rest)
        = ofQuoted (Quoted.escape value.toList ++ ['"'] ++ rest) := rfl
    rw [hread, List.append_assoc, List.singleton_append, ofQuoted, hscan]
    simp only [if_true, List.append_nil, String.ofList_toList]
    rfl
  | identifier name =>
    obtain ⟨⟨c, cs, hcs, hstart, hword⟩, hfree⟩ := hv
    refine ⟨c, cs, hcs, ?_⟩
    rw [ofWord_run hstart hword hc, ← hcs, String.ofList_toList, hfree]
  | keyword word =>
    obtain ⟨c, cs, hcs, hstart, hword⟩ := word_of_keyword word
    refine ⟨c, cs, hcs, ?_⟩
    rw [ofWord_run hstart hword hc, ← hcs, String.ofList_toList, Keyword.ofString?_spelling]
  | symbol s =>
    obtain ⟨c, cs, hcs, hblank, hline, hquote, hdigit, hword⟩ := s.first
    refine ⟨c, cs, hcs, ?_⟩
    have hof : Symbol.ofChars? (c :: cs ++ rest) = some s := by
      rw [← hcs]
      rcases hc with hs | ⟨hends, -⟩
      · exact Symbol.ofChars?_solid hs rest
      · exact s.ofChars?_ends hends
    have hpoint : (c == '.' && Numeral.startsDigit (cs ++ rest)) = false := by
      cases hdot : c == '.' with
      | false => rfl
      | true =>
        obtain rfl : c = '.' := by simpa using hdot
        obtain ⟨rfl, rfl⟩ := Symbol.eq_dot hcs
        rcases hc with hs | ⟨-, hrest⟩
        · exact absurd hs (by decide)
        · exact hrest rfl
    have hslash : ¬(c = '/' ∧ (cs ++ rest).head? = some '/') := by
      rintro ⟨rfl, hhead⟩
      rcases Symbol.eq_slash hcs with ⟨rfl, rfl⟩ | rfl
      · rcases hc with hs | ⟨hends, -⟩
        · exact absurd hs (by decide)
        · exact (hends '/' hhead).2.2.2 rfl
      · exact absurd hhead (by simp)
    simp only [read, hblank, hline, hquote, hdigit, hword, hpoint, hslash, Bool.false_eq_true,
      Bool.false_or, if_false]
    exact ofSign_run s hcs hof
  | comment text =>
    obtain ⟨hline, htrim⟩ := hv
    refine ⟨'/', '/' :: text.toList, by simp [Kind.chars, Kind.spelling], ?_⟩
    have hall : ∀ x ∈ '/' :: '/' :: text.toList, (x != '\n') = true := fun x hx => by
      simp only [List.mem_cons] at hx
      rcases hx with rfl | rfl | hx
      · decide
      · decide
      · simpa using fun h : x = '\n' => hline (h ▸ hx)
    have hrest : ∀ x ∈ rest.head?, (x != '\n') = false := fun x hx => by simpa using hc x hx
    have htake := takeWhile_run hall hrest
    have hdrop := dropWhile_run hall hrest
    have hread : read '/' ('/' :: text.toList ++ rest)
        = ofComment ('/' :: '/' :: text.toList ++ rest) := rfl
    rw [hread, ofComment, htake, hdrop]
    simp only [List.drop_succ_cons, List.drop_zero, htrim, String.ofList_toList]
  | newline => exact ⟨'\n', [], rfl, rfl⟩
  | eof => exact hc.elim

end Lexeme

end ScriptBundler

import ScriptBundler.Proofs.Spelling

/-!
# Proofs/Scanning — the tokens of a text that is put together from spellings

`Scans cs ks rest` says that `cs`, where `rest` follows, is read as tokens of the kinds `ks`.  Two
such facts join where the first text ends and the second starts (`Scans.append`), so the tokens of a
long text follow from those of its parts.

The other way around, every token of a text without faults is valid, and the lines of tokens never go
back (`Token.Before`).
-/

namespace ScriptBundler

open Token (Kind)

/-- `cs`, where `rest` follows, is read as tokens of the kinds `ks`, without a fault. -/
def Scans (cs : List Char) (ks : List Kind) (rest : List Char) : Prop :=
  ∀ p, ∃ ts : List Token, ts.map Token.kind = ks ∧
    scanFrom p 0 (cs ++ rest) = ts.foldr Scanned.token (scanFrom (p.after cs) 0 rest)

namespace Scans

theorem nil (rest : List Char) : Scans [] [] rest := fun _ => ⟨[], rfl, rfl⟩

/-- **Two texts, one after the other, are read one after the other.** -/
theorem append {as bs rest : List Char} {ks ls : List Kind} (ha : Scans as ks (bs ++ rest))
    (hb : Scans bs ls rest) : Scans (as ++ bs) (ks ++ ls) rest := by
  intro p
  obtain ⟨ts, hts, hs⟩ := ha p
  obtain ⟨us, hus, hu⟩ := hb (p.after as)
  refine ⟨ts ++ us, by rw [List.map_append, hts, hus], ?_⟩
  rw [List.append_assoc, hs, hu, List.foldr_append, Position.after_append]

/-- A token is read as itself if what follows does not go on it. -/
theorem token {k : Kind} {rest : List Char} (hv : k.Valid) (hc : k.Clear rest) :
    Scans k.chars [k] rest := by
  intro p
  obtain ⟨c, cs, hcs, hread⟩ := Lexeme.read_chars hv hc
  refine ⟨[⟨k, ⟨p, p.after k.chars⟩⟩], rfl, ?_⟩
  rw [hcs, List.cons_append, scanFrom]
  simp only [hread]
  rfl

theorem blank {c : Char} (hc : isBlank c = true) (rest : List Char) : Scans [c] [] rest := by
  intro p
  refine ⟨[], rfl, ?_⟩
  rw [List.singleton_append, scanFrom]
  simp only [Lexeme.read, hc, if_true]
  rfl

/-- Blanks are no tokens. -/
theorem blanks {cs : List Char} (hcs : ∀ c ∈ cs, isBlank c = true) (rest : List Char) :
    Scans cs [] rest := by
  induction cs with
  | nil => exact nil rest
  | cons c cs ih =>
    exact (blank (hcs c (List.mem_cons_self ..)) _).append
      (ih fun x hx => hcs x (List.mem_cons_of_mem _ hx))

theorem newline (rest : List Char) : Scans ['\n'] [.newline] rest :=
  token (k := .newline) trivial trivial

end Scans

/-- **A text is read as what its spelling says**, up to its end. -/
theorem scan_of_scans {cs : List Char} {ks : List Kind} (h : Scans cs ks []) :
    (scan (String.ofList cs)).tokens.map Token.kind = ks ++ [.eof] ∧
      (scan (String.ofList cs)).faults = [] := by
  obtain ⟨ts, hts, hs⟩ := h .first
  rw [List.append_nil] at hs
  have hfold : ∀ us : List Token, ∀ s : Scanned,
      (us.foldr Scanned.token s).tokens = us ++ s.tokens ∧
        (us.foldr Scanned.token s).faults = s.faults := by
    intro us s
    induction us with
    | nil => exact ⟨rfl, rfl⟩
    | cons u us ih => exact ⟨congrArg (u :: ·) ih.1, ih.2⟩
  rw [scan, String.toList_ofList, hs, (hfold ts _).1, (hfold ts _).2, scanFrom]
  simp [Scanned.done, hts]

/-! ## What follows an operand -/

/-- What can follow an operand: the last token of the operand does not go on. -/
structure EndsOperand (rest : List Char) : Prop where
  number : Numeral.Ends rest
  string : rest.head? ≠ some '"'

theorem EndsOperand.nil : EndsOperand [] := ⟨⟨by simp, by simp⟩, by simp⟩

/-- An operand ends before what is no part of a word, a text or a number. -/
theorem EndsOperand.cons {c : Char} {cs : List Char} (hw : isWordChar c = false) (hq : c ≠ '"')
    (hd : c ≠ '.') : EndsOperand (c :: cs) := by
  refine ⟨⟨fun x hx => ?_, fun ds h => ?_⟩, by simpa using hq⟩
  · obtain rfl : c = x := by simpa using hx
    exact hw
  · exact absurd (List.cons.inj h).1 hd

/-- A point that a name follows. -/
theorem EndsOperand.dot {c : Char} {cs : List Char} (hc : isWordStart c = true) :
    EndsOperand ('.' :: c :: cs) := by
  refine ⟨⟨fun x hx => ?_, fun ds h => ?_⟩, by simp⟩
  · obtain rfl : '.' = x := by simpa using hx
    decide
  · obtain rfl : c :: cs = ds := (List.cons.inj h).2
    exact isDigit_of_isWordStart hc

/-- A line ends here. -/
def EndsLine (rest : List Char) : Prop := ∀ c ∈ rest.head?, c = '\n'

theorem EndsLine.nil : EndsLine [] := by simp [EndsLine]

theorem EndsLine.newline (cs : List Char) : EndsLine ('\n' :: cs) := by simp [EndsLine]

/-- An operand ends where its line does. -/
theorem EndsLine.endsOperand {rest : List Char} (h : EndsLine rest) : EndsOperand rest := by
  cases rest with
  | nil => exact .nil
  | cons c cs =>
    obtain rfl := h c rfl
    exact .cons (by decide) (by decide) (by decide)

/-- Tokens that an operand or a statement can end with. -/
def Token.Kind.isLast : Kind → Bool
  | number .. | string .. | identifier _ | keyword _ => true
  | symbol s => s.isSolid
  | _ => false

/-- The last token of an operand is read as itself where the operand ends. -/
theorem Token.Kind.clear_of_isLast {k : Kind} {rest : List Char} (hk : k.isLast = true)
    (h : EndsOperand rest) : k.Clear rest := by
  cases k with
  | number => exact h.number
  | string => exact h.string
  | identifier => exact h.number.1
  | keyword => exact h.number.1
  | symbol => exact .inl hk
  | comment => cases hk
  | newline => cases hk
  | eof => cases hk

/-! ## What an operand starts with -/

/-- Characters that an operand can start with. -/
def opensOperand (c : Char) : Bool :=
  isWordChar c || ['.', '"', '(', '[', '\x7b', '-', '@', '#'].contains c

/-- What stands before an operand without a blank between them is not prolonged by it. -/
theorem Symbol.ends_of_opensOperand {c : Char} {cs : List Char} (h : opensOperand c = true) :
    Symbol.Ends (c :: cs) := by
  intro x hx
  obtain rfl : c = x := by simpa using hx
  refine ⟨?_, ?_, ?_, ?_⟩ <;> rintro rfl <;> exact absurd h (by decide)

theorem Symbol.ends_of_isBlank {c : Char} {cs : List Char} (h : isBlank c = true) :
    Symbol.Ends (c :: cs) := by
  intro x hx
  obtain rfl : c = x := by simpa using hx
  refine ⟨?_, ?_, ?_, ?_⟩ <;> rintro rfl <;> exact absurd h (by decide)

/-! ## The tokens of a text are valid -/

/-- Returns are taken off once. -/
theorem trimReturns_trimReturns (cs : List Char) : trimReturns (trimReturns cs) = trimReturns cs := by
  rw [trimReturns, trimReturns, List.reverse_reverse]
  congr 1
  cases h : cs.reverse.dropWhile (· == '\r') with
  | nil => rfl
  | cons c rest =>
    have hc := List.head?_dropWhile_not (· == '\r') cs.reverse
    rw [h] at hc
    simp only [List.head?_cons] at hc
    rw [List.dropWhile_cons, if_neg (by simpa using hc)]

theorem trimReturns_sublist (cs : List Char) : (trimReturns cs).Sublist cs := by
  rw [trimReturns, List.reverse_sublist.symm, List.reverse_reverse]
  exact (List.dropWhile_suffix _).sublist

/-- What is read without a fault is a token that a text can hold. -/
theorem Lexeme.read_valid {c : Char} {cs : List Char} {k : Kind}
    (h : (read c cs).kind = .token k none) : k.Valid := by
  revert h
  fun_cases read c cs with
  | case1 => simp
  | case2 => rintro ⟨⟩; trivial
  | case3 =>
    intro h
    simp only [ofQuoted, Class.token.injEq] at h
    obtain ⟨rfl, hclosed⟩ := h
    have hc : (Quoted.scan cs).closed = true := by
      cases hcl : (Quoted.scan cs).closed with
      | true => rfl
      | false => simp [hcl] at hclosed
    simp [Kind.Valid, quote, hc, Quoted.consumed_of_closed cs hc]
  | case4 _ _ _ hnum =>
    intro h
    simp only [ofNumeral] at h
    cases hval : Numeral.value? (Numeral.scan (c :: cs)).1 with
    | none => simp [hval] at h
    | some value =>
      simp only [hval, Class.token.injEq, and_true] at h
      subst h
      exact ⟨by simpa using Numeral.isNumeral_scan hnum, by simpa using hval⟩
  | case5 _ _ _ _ hword =>
    intro h
    simp only [ofWord, Class.token.injEq, and_true] at h
    cases hkey : Keyword.ofString? (String.ofList ((c :: cs).takeWhile isWordChar)) with
    | some w =>
      simp only [hkey] at h
      subst h
      trivial
    | none =>
      simp only [hkey] at h
      subst h
      refine ⟨⟨c, cs.takeWhile isWordChar, ?_, hword, ?_⟩, hkey⟩
      · rw [String.toList_ofList, List.takeWhile_cons, if_pos (isWordChar_of_isWordStart hword)]
      · exact fun x hx => List.all_eq_true.mp List.all_takeWhile x hx
  | case6 =>
    intro h
    simp only [ofComment, Class.token.injEq, and_true] at h
    subst h
    refine ⟨fun hmem => ?_, by rw [String.toList_ofList, trimReturns_trimReturns]⟩
    rw [String.toList_ofList] at hmem
    have hdrop := (trimReturns_sublist _).subset hmem
    have htake := List.mem_of_mem_drop hdrop
    simpa using List.all_eq_true.mp List.all_takeWhile _ htake
  | case7 =>
    intro h
    unfold ofSign at h
    split at h
    · simp only [Class.token.injEq, and_true] at h
      subst h
      trivial
    · simp at h

/-- **All tokens of a text without a fault are such**. -/
theorem scanFrom_valid (p : Position) (found : Nat) (cs : List Char)
    (h : (scanFrom p found cs).faults = []) : ∀ t ∈ (scanFrom p found cs).tokens, t.kind.Valid := by
  fun_induction scanFrom p found cs with
  | case1 p found =>
    intro t ht
    obtain rfl : t = ⟨.eof, .point p⟩ := by simpa [Scanned.done] using ht
    trivial
  | case2 p found c cs piece next hkind ih => exact ih h
  | case3 p found c cs piece next span d hkind ih => cases h
  | case4 p found c cs piece next span kind hkind ih =>
    intro t ht
    rcases List.mem_cons.mp ht with rfl | ht
    · exact Lexeme.read_valid hkind
    · split at h <;> rename_i hlimit
      · rw [if_pos hlimit] at ht
        obtain rfl : t = ⟨.eof, .point next⟩ := by simpa [Scanned.done] using ht
        trivial
      · rw [if_neg hlimit] at ht
        exact ih h t ht
  | case5 p found c cs piece next span kind f hkind ih => cases h

/-! ## Where tokens stand -/

/-- What holds of the end of a text, and of a token and what follows it if of what follows it, holds
of the tokens of every text. -/
theorem scanFrom_induct {motive : Position → List Token → Prop}
    (done : ∀ p, motive p [⟨.eof, .point p⟩])
    (skip : ∀ p cs ts, motive (p.after cs) ts → motive p ts)
    (token : ∀ p c cs k f ts, (Lexeme.read c cs).kind = .token k f →
      (ts = [⟨.eof, .point (p.after (Lexeme.read c cs).text)⟩] ∨
        ∃ found, ts = (scanFrom (p.after (Lexeme.read c cs).text) found
          (Lexeme.read c cs).rest).tokens) →
      motive (p.after (Lexeme.read c cs).text) ts →
      motive p (⟨k, ⟨p, p.after (Lexeme.read c cs).text⟩⟩ :: ts))
    (p : Position) (found : Nat) (cs : List Char) : motive p (scanFrom p found cs).tokens := by
  fun_induction scanFrom p found cs with
  | case1 p found => exact done p
  | case2 p found c cs piece next hkind ih => exact skip p _ _ ih
  | case3 p found c cs piece next span d hkind ih => exact skip p _ _ ih
  | case4 p found c cs piece next span kind hkind ih =>
    refine token p c cs kind none _ hkind ?_ ?_ <;> split
    · exact .inl rfl
    · exact .inr ⟨_, rfl⟩
    · exact done _
    · exact ih
  | case5 p found c cs piece next span kind f hkind ih =>
    refine token p c cs kind (some f) _ hkind ?_ ?_ <;> split
    · exact .inl rfl
    · exact .inr ⟨_, rfl⟩
    · exact done _
    · exact ih

/-- The last token is the end of the text, and no other is. -/
def EndsOnce (ts : List Token) : Prop :=
  ∃ us e, ts = us ++ [e] ∧ e.kind = .eof ∧ ∀ u ∈ us, u.kind ≠ .eof

theorem EndsOnce.cons {t : Token} {ts : List Token} (ht : t.kind ≠ .eof) (h : EndsOnce ts) :
    EndsOnce (t :: ts) := by
  obtain ⟨us, e, rfl, he, hus⟩ := h
  exact ⟨t :: us, e, rfl, he, by simpa using ⟨ht, hus⟩⟩

theorem Lexeme.read_ne_eof {c : Char} {cs : List Char} {k : Kind} {f : Option Fault}
    (h : (read c cs).kind = .token k f) : k ≠ .eof := by
  rintro rfl
  revert h
  fun_cases read c cs with
  | case1 => simp
  | case2 => simp
  | case3 => simp [ofQuoted]
  | case4 =>
    simp only [ofNumeral]
    split <;> simp
  | case5 =>
    simp only [ofWord]
    split <;> simp
  | case6 => simp [ofComment]
  | case7 =>
    unfold ofSign
    split <;> simp

/-- **The tokens of a text end once**. -/
theorem endsOnce_scanFrom (p : Position) (found : Nat) (cs : List Char) :
    EndsOnce (scanFrom p found cs).tokens := by
  refine scanFrom_induct (motive := fun _ ts => EndsOnce ts) ?_ ?_ ?_ p found cs
  · exact fun p => ⟨[], _, rfl, rfl, by simp⟩
  · exact fun _ _ _ h => h
  · exact fun _ _ _ _ _ _ hread _ h => h.cons (Lexeme.read_ne_eof hread)

/-- Lines are counted upwards. -/
theorem Position.line_le_after (p : Position) (cs : List Char) : p.line ≤ (p.after cs).line := by
  induction cs generalizing p with
  | nil => exact Nat.le_refl _
  | cons c cs ih =>
    refine Nat.le_trans ?_ (ih _)
    unfold step
    split <;> simp

/-- A text without a line break stays on its line. -/
theorem Position.line_after_of_not_mem (p : Position) {cs : List Char} (h : '\n' ∉ cs) :
    (p.after cs).line = p.line := by
  induction cs generalizing p with
  | nil => rfl
  | cons c cs ih =>
    rw [List.mem_cons, not_or] at h
    rw [after_cons, ih _ h.2, step, if_neg (Ne.symm h.1)]

theorem Position.offset_le_after (p : Position) (cs : List Char) : p.offset ≤ (p.after cs).offset := by
  induction cs generalizing p with
  | nil => exact Nat.le_refl _
  | cons c cs ih =>
    refine Nat.le_trans ?_ (ih _)
    unfold step
    split <;> simp

/-- No token starts before the place that reading starts at, by any measure that does not go back. -/
theorem le_start_scanFrom {measure : Position → Nat}
    (hmeasure : ∀ p cs, measure p ≤ measure (Position.after p cs)) (p : Position) (found : Nat)
    (cs : List Char) : ∀ t ∈ (scanFrom p found cs).tokens, measure p ≤ measure t.span.start := by
  refine scanFrom_induct (motive := fun p ts => ∀ t ∈ ts, measure p ≤ measure t.span.start) ?_ ?_ ?_
    p found cs
  · simp [Span.point]
  · exact fun p cs ts h t ht => Nat.le_trans (hmeasure p cs) (h t ht)
  · refine fun p c cs k f ts _ _ h => List.forall_mem_cons.mpr ⟨Nat.le_refl _, fun t ht => ?_⟩
    exact Nat.le_trans (hmeasure p _) (h t ht)

/-- Tokens start on the line where reading does, or below. -/
theorem le_line_scanFrom (p : Position) (found : Nat) (cs : List Char) :
    ∀ t ∈ (scanFrom p found cs).tokens, p.line ≤ t.span.start.line :=
  le_start_scanFrom Position.line_le_after p found cs

/-- Token `a` stands before token `b`: no line and no byte is gone back, and only the end of a line
follows a comment on it. -/
structure Token.Before (a b : Token) : Prop where
  line : a.span.stop.line ≤ b.span.start.line
  offset : a.span.stop.offset ≤ b.span.start.offset
  comment : ∀ text, a.kind = .comment text →
    b.kind = .newline ∨ b.kind = .eof ∨ a.span.stop.line < b.span.start.line

/-- A token does not end before it starts, and a comment ends on the line it starts on. -/
structure Token.Upright (t : Token) : Prop where
  line : t.span.start.line ≤ t.span.stop.line
  offset : t.span.start.offset ≤ t.span.stop.offset
  comment : ∀ text, t.kind = .comment text → t.span.stop.line = t.span.start.line

/-- A comment ends with its line. -/
theorem Lexeme.read_comment {c : Char} {cs : List Char} {text : String} {f : Option Fault}
    (h : (read c cs).kind = .token (.comment text) f) :
    '\n' ∉ (read c cs).text ∧ EndsLine (read c cs).rest := by
  revert h
  fun_cases read c cs with
  | case1 => simp
  | case2 => simp
  | case3 => simp [ofQuoted]
  | case4 =>
    simp only [ofNumeral]
    split <;> simp
  | case5 =>
    simp only [ofWord]
    split <;> simp
  | case6 =>
    intro _
    refine ⟨fun hmem => ?_, fun x hx => ?_⟩
    · simpa using List.all_eq_true.mp List.all_takeWhile _ hmem
    · have hstop := List.head?_dropWhile_not (· != '\n') (c :: cs)
      rw [show (c :: cs).dropWhile (· != '\n') = (ofComment (c :: cs)).rest from rfl] at hstop
      rw [Option.mem_def] at hx
      rw [hx] at hstop
      simpa using hstop
  | case7 =>
    unfold ofSign
    split <;> simp

/-- Where a line ends, nothing but its end stands on it. -/
theorem EndsLine.tokens {p : Position} {found : Nat} {cs : List Char} (h : EndsLine cs) :
    ∀ t ∈ (scanFrom p found cs).tokens,
      t.kind = .newline ∨ t.kind = .eof ∨ p.line < t.span.start.line := by
  cases cs with
  | nil =>
    intro t ht
    obtain rfl : t = ⟨.eof, .point p⟩ := by simpa [scanFrom, Scanned.done] using ht
    exact .inr (.inl rfl)
  | cons c cs =>
    obtain rfl := h c rfl
    have hread : Lexeme.read '\n' cs = ⟨.token .newline none, ['\n'], cs⟩ := rfl
    intro t ht
    rw [scanFrom] at ht
    simp only [hread] at ht
    rcases List.mem_cons.mp ht with rfl | ht
    · exact .inl rfl
    · split at ht
      · obtain rfl : t = ⟨.eof, .point (p.after ['\n'])⟩ := by simpa [Scanned.done] using ht
        exact .inr (.inl rfl)
      · have hline := le_line_scanFrom _ _ _ t ht
        exact .inr (.inr hline)

/-- **Tokens stand one after the other**, and a comment is the last on its line. -/
theorem before_scanFrom (p : Position) (found : Nat) (cs : List Char) :
    (scanFrom p found cs).tokens.Pairwise Token.Before := by
  refine scanFrom_induct (motive := fun _ ts => ts.Pairwise Token.Before) ?_ ?_ ?_ p found cs
  · exact fun _ => List.pairwise_singleton ..
  · exact fun _ _ _ h => h
  · refine fun p c cs k f ts hread hts h => List.pairwise_cons.mpr ⟨fun t ht => ?_, h⟩
    rcases hts with rfl | ⟨found, rfl⟩
    · obtain rfl := List.mem_singleton.mp ht
      exact ⟨Nat.le_refl _, Nat.le_refl _, fun _ _ => .inr (.inl rfl)⟩
    · refine ⟨le_line_scanFrom _ _ _ t ht, le_start_scanFrom Position.offset_le_after _ _ _ t ht, ?_⟩
      rintro text rfl
      exact (Lexeme.read_comment hread).2.tokens t ht

/-- Every token is upright. -/
theorem upright_scanFrom (p : Position) (found : Nat) (cs : List Char) :
    ∀ t ∈ (scanFrom p found cs).tokens, t.Upright := by
  refine scanFrom_induct (motive := fun _ ts => ∀ t ∈ ts, t.Upright) ?_ ?_ ?_ p found cs
  · intro p t ht
    obtain rfl := List.mem_singleton.mp ht
    exact ⟨Nat.le_refl _, Nat.le_refl _, fun _ h => nomatch h⟩
  · exact fun _ _ _ h => h
  · refine fun p c cs k f ts hread _ h =>
      List.forall_mem_cons.mpr ⟨⟨p.line_le_after _, p.offset_le_after _, ?_⟩, h⟩
    rintro text rfl
    exact p.line_after_of_not_mem (Lexeme.read_comment hread).1

end ScriptBundler

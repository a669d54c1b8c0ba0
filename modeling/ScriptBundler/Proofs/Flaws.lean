import ScriptBundler.Proofs.Constants
import ScriptBundler.Proofs.Tiling

/-!
# Proofs/Flaws — what can be wrong with the tokens of a text

    x = $ 1.5e3 + "a␣␣b        ◂ text
        ─         ─────        ◂ a stray, and a string that the text ends inside of

A piece of a text is flawed in two ways only: no token starts with it, and then it is one character of
ASCII, or it is a string that does not close, and then nothing is left of the text (`Lexeme.flaw_read`).
A numeral is never flawed, since what is taken for one always stands for a double.  Reading goes on
behind a stray, so there may be any number of these, and in the end at most one string.
-/

namespace ScriptBundler

open Token (Kind)

/-! ## Pieces -/

/-- A string that does not close takes the rest of the text. -/
theorem Quoted.rest_of_not_closed (cs : List Char) (h : (scan cs).closed = false) : (scan cs).rest = [] := by
  fun_induction scan cs with
  | case1 => rfl
  | case2 cs ih => exact ih h
  | case3 => cases h
  | case4 c cs _ _ ih => exact ih h

/-- The token of a number says how the number is written, and what that stands for. -/
def Token.Kind.Counts (k : Kind) : Prop :=
  ∀ raw value, k = .number raw value →
    Numeral.IsNumeral raw.toList ∧ Numeral.value? raw.toList = some value

namespace Lexeme

/-- What is wrong with a piece, by what it is and what follows it. -/
def Class.Flaw (rest : List Char) : Class → Prop
  | blank => True
  | stray c => c.toNat < 128
  | token k none => k.Counts
  | token k (some f) => f = .unterminatedString ∧ rest = [] ∧ ∃ raw value, k = .string raw value

/-- A text in quotes is flawed only if it does not close. -/
theorem flaw_ofQuoted (cs : List Char) : (ofQuoted cs).kind.Flaw (ofQuoted cs).rest := by
  cases hclosed : (Quoted.scan cs).closed with
  | true => simp [ofQuoted, hclosed, Class.Flaw, Kind.Counts]
  | false => simp [ofQuoted, hclosed, Class.Flaw, Quoted.rest_of_not_closed cs hclosed]

/-- **What is taken for a numeral stands for a double.** -/
theorem flaw_ofNumeral {c : Char} {cs : List Char}
    (h : (c.isDigit || (c == '.' && Numeral.startsDigit cs)) = true) :
    (ofNumeral (c :: cs)).kind.Flaw (ofNumeral (c :: cs)).rest := by
  have hnum := Numeral.isNumeral_scan h
  obtain ⟨x, hx⟩ := Numeral.exists_value? hnum
  have hkind : (ofNumeral (c :: cs)).kind =
      .token (.number (String.ofList (Numeral.scan (c :: cs)).1) x) none := by
    simp only [ofNumeral, hx]
  rw [hkind]
  rintro _ _ ⟨⟩
  rw [String.toList_ofList]
  exact ⟨hnum, hx⟩

theorem flaw_ofWord (cs : List Char) : (ofWord cs).kind.Flaw (ofWord cs).rest := by
  simp only [ofWord]
  split <;> simp [Class.Flaw, Kind.Counts]

/-- What is no sign is a stray of one byte. -/
theorem flaw_ofSign {c : Char} (hword : isWordStart c = false) (cs : List Char) :
    (ofSign c cs).kind.Flaw (ofSign c cs).rest := by
  fun_cases ofSign c cs with
  | case1 => simp [Class.Flaw, Kind.Counts]
  | case2 =>
    simp only [isWordStart, Bool.or_eq_false_iff, decide_eq_false_iff_not] at hword
    exact Nat.lt_of_not_le hword.2

/-- **A piece is flawed in two ways only.** -/
theorem flaw_read (c : Char) (cs : List Char) : (read c cs).kind.Flaw (read c cs).rest := by
  fun_cases read c cs with
  | case1 => trivial
  | case2 => simp [Class.Flaw, Kind.Counts]
  | case3 => exact flaw_ofQuoted cs
  | case4 _ _ _ hnum => exact flaw_ofNumeral hnum
  | case5 => exact flaw_ofWord (c :: cs)
  | case6 => simp [ofComment, Class.Flaw, Kind.Counts]
  | case7 _ _ _ _ hword => exact flaw_ofSign (Bool.eq_false_iff.mpr hword) cs

end Lexeme

/-! ## Whole texts -/

namespace Source

variable {source : Source} {ts : List Token} {fs : List Located}

/-- A fault that names a character of ASCII and stands on it. -/
def IsStray (source : Source) (f : Located) : Prop :=
  ∃ c, f.fault = .unexpectedCharacter c ∧ c.toNat < 128 ∧ f.span.stop.offset = f.span.start.offset + 1 ∧
    source.slice f.span.start.offset f.span.stop.offset = some (String.singleton c)

/-- A fault at a string that is the last of the tokens and reaches to the end of the text. -/
def IsUnclosed (source : Source) (ts : List Token) (f : Located) : Prop :=
  f.fault = .unterminatedString ∧ f.span.stop.offset = source.text.utf8ByteSize ∧
    ∃ before raw value, ts = before ++ [⟨.string raw value, f.span⟩, ⟨.eof, .point f.span.stop⟩]

/-- The faults `fs` of a text with the tokens `ts`: strays, and in the end at most one string. -/
inductive Flaws (source : Source) : List Token → List Located → Prop
  | done (p : Position) : Flaws source [⟨.eof, .point p⟩] []
  | stray {ts : List Token} {f : Located} {fs : List Located} (hf : source.IsStray f)
      (h : Flaws source ts fs) : Flaws source ts (f :: fs)
  | token {t : Token} {ts : List Token} {fs : List Located} (ht : t.kind.Counts)
      (h : Flaws source ts fs) : Flaws source (t :: ts) fs
  | unclosed {raw value : String} {span : Span} (hstop : span.stop.offset = source.text.utf8ByteSize) :
      Flaws source [⟨.string raw value, span⟩, ⟨.eof, .point span.stop⟩] [⟨.unterminatedString, span⟩]

/-- **Reading finds no other faults**, whatever was found before. -/
theorem flaws_scanFrom (p : Position) (found : Nat) (cs before : List Char)
    (htext : source.text.toList = before ++ cs) (hbefore : byteSize before = p.offset) :
    source.Flaws (scanFrom p found cs).tokens (scanFrom p found cs).faults := by
  fun_induction scanFrom p found cs generalizing before with
  | case1 p found => exact .done p
  | case2 p found c cs piece next hkind ih =>
    have happend : piece.text ++ piece.rest = c :: cs := Lexeme.text_append_rest c cs
    refine ih (before ++ piece.text) ?_ (p.byteSize_append hbefore _)
    rw [htext, ← happend, List.append_assoc]
  | case3 p found c cs piece next span d hkind ih =>
    have happend : piece.text ++ piece.rest = c :: cs := Lexeme.text_append_rest c cs
    have hascii : Lexeme.Class.Flaw piece.rest (.stray d) := hkind ▸ Lexeme.flaw_read c cs
    obtain ⟨hpiece, -, hsize⟩ : Lexeme.Class.Holds piece.text (.stray d) := hkind ▸ Lexeme.holds_read c cs
    have hsource : source.text.toList = before ++ (d :: piece.rest ++ []) := by
      rw [htext, ← happend, hpiece, List.append_nil]
      rfl
    have hskip := source.skips hsize hsource hbefore
    have hnext : next.offset = p.offset + 1 := by
      rw [← hskip.1, ← hpiece]
    refine .stray ⟨d, rfl, hascii, hnext, ?_⟩ (ih (before ++ piece.text) ?_ (p.byteSize_append hbefore _))
    · show source.slice p.offset next.offset = _
      rw [hnext]
      exact hskip.2.2.1
    · rw [htext, ← happend, List.append_assoc]
  | case4 p found c cs piece next span kind hkind ih =>
    have happend : piece.text ++ piece.rest = c :: cs := Lexeme.text_append_rest c cs
    have hcounts : Lexeme.Class.Flaw piece.rest (.token kind none) := hkind ▸ Lexeme.flaw_read c cs
    split
    · exact .token hcounts (.done next)
    · refine .token hcounts (ih (before ++ piece.text) ?_ (p.byteSize_append hbefore _))
      rw [htext, ← happend, List.append_assoc]
  | case5 p found c cs piece next span kind f hkind _ =>
    have happend : piece.text ++ piece.rest = c :: cs := Lexeme.text_append_rest c cs
    obtain ⟨rfl, hrest, raw, value, rfl⟩ : Lexeme.Class.Flaw piece.rest (.token kind (some f)) :=
      hkind ▸ Lexeme.flaw_read c cs
    have hdone : (if Report.limit ≤ found + 1 then .done next else scanFrom next (found + 1) piece.rest) =
        Scanned.done next := by
      rw [hrest, scanFrom, ite_self]
    rw [hdone]
    have hstop : span.stop.offset = source.text.utf8ByteSize := by
      show next.offset = _
      rw [← p.byteSize_append hbefore, ← String.ofList_toList (s := source.text), utf8ByteSize_ofList,
        htext, ← happend, hrest, List.append_nil]
    exact .unclosed hstop

namespace Flaws

/-- Numbers among the tokens say what they stand for. -/
theorem counts (h : source.Flaws ts fs) : ∀ t ∈ ts, t.kind.Counts := by
  induction h with
  | done => simp [Kind.Counts]
  | stray _ _ ih => exact ih
  | token ht _ ih => exact List.forall_mem_cons.mpr ⟨ht, ih⟩
  | unclosed => simp [Kind.Counts]

/-- Faults are strays, and at most one text that does not close. -/
theorem exists_eq (h : source.Flaws ts fs) : ∃ strays unclosed, fs = strays ++ Option.toList unclosed ∧
    (∀ f ∈ strays, source.IsStray f) ∧ ∀ f ∈ unclosed, source.IsUnclosed ts f := by
  induction h with
  | done => exact ⟨[], none, rfl, by simp, by simp⟩
  | @stray ts f fs hf _ ih =>
    obtain ⟨strays, unclosed, rfl, hstrays, hunclosed⟩ := ih
    exact ⟨f :: strays, unclosed, rfl, List.forall_mem_cons.mpr ⟨hf, hstrays⟩, hunclosed⟩
  | @token t ts fs _ _ ih =>
    obtain ⟨strays, unclosed, rfl, hstrays, hunclosed⟩ := ih
    refine ⟨strays, unclosed, rfl, hstrays, fun f hf => ?_⟩
    obtain ⟨hfault, hstop, before, raw, value, rfl⟩ := hunclosed f hf
    exact ⟨hfault, hstop, t :: before, raw, value, rfl⟩
  | @unclosed raw value span hstop =>
    refine ⟨[], some ⟨.unterminatedString, span⟩, rfl, by simp, ?_⟩
    rintro f ⟨⟩
    exact ⟨rfl, hstop, [], raw, value, rfl⟩

end Flaws

/-- **Tokens have no other faults than strays and one string.**  Each stray is a character of ASCII, which
takes one byte, and the fault names it and stands on it.  A string that does not close is the last token
and reaches to the end of the text, and its fault is the last of all.  No number is ever invalid: each is
written as a numeral, and has a double.  Of these faults the first are reported, and all are counted. -/
theorem faults_of_scan (source : Source) :
    (∃ strays unclosed, source.scan.faults = strays ++ Option.toList unclosed ∧
      (∀ f ∈ strays, source.IsStray f) ∧ ∀ f ∈ unclosed, source.IsUnclosed source.scan.tokens f) ∧
    (∀ f ∈ source.scan.faults, ∀ raw, f.fault ≠ .invalidNumber raw) ∧
    (∀ t ∈ source.scan.tokens, ∀ raw value, t.kind = .number raw value →
      Numeral.IsNumeral raw.toList ∧ Numeral.value? raw.toList = some value) ∧
    (Report.ofFaults source source.scan.faults).errorCount = source.scan.faults.length ∧
    (Report.ofFaults source source.scan.faults).errors =
      (source.scan.faults.map fun f => .locate source f.fault f.span).take Report.limit := by
  have hflaws : source.Flaws source.scan.tokens source.scan.faults :=
    flaws_scanFrom .first 0 source.text.toList [] rfl rfl
  obtain ⟨strays, unclosed, hfaults, hstrays, hunclosed⟩ := hflaws.exists_eq
  refine ⟨⟨strays, unclosed, hfaults, hstrays, hunclosed⟩, fun f hf raw hinvalid => ?_, hflaws.counts,
    Report.errorCount_ofFaults .., Report.errors_ofFaults ..⟩
  rw [hfaults, List.mem_append, Option.mem_toList] at hf
  rcases hf with hf | hf
  · obtain ⟨c, hfault, -⟩ := hstrays f hf
    rw [hinvalid] at hfault
    cases hfault
  · have hfault := (hunclosed f hf).1
    rw [hinvalid] at hfault
    cases hfault

end Source

end ScriptBundler

import ScriptBundler.Proofs.Parsing

/-!
# Proofs/Tiling — tokens, blanks and strays make up the text

    x = "a␣␣$         ◂ text
    ─ ─ ─────         ◂ tokens: what they are shown as is what stands there

`Tiles p cs ts fs` says how a text is laid with tokens, character by character: what is between two
tokens is a blank or was reported.  Everything read from a text is laid this way, up to where reading
stopped (`tiles_scanFrom`), and in bytes this is `Source.Tiled`: tokens lie apart and in order, each is
shown as the bytes it lies on, and every byte that none lies on is a blank or has one fault of its own.
-/

namespace ScriptBundler

open Token (Kind)

/-! ## Bytes -/

/-- How many bytes a text takes. -/
def byteSize : List Char → Nat
  | [] => 0
  | c :: cs => c.utf8Size + byteSize cs

@[simp] theorem byteSize_nil : byteSize [] = 0 := rfl

@[simp] theorem byteSize_cons (c : Char) (cs : List Char) :
    byteSize (c :: cs) = c.utf8Size + byteSize cs := rfl

@[simp] theorem byteSize_append (cs ds : List Char) :
    byteSize (cs ++ ds) = byteSize cs + byteSize ds := by
  induction cs with
  | nil => exact (Nat.zero_add _).symm
  | cons c cs ih => rw [List.cons_append, byteSize_cons, byteSize_cons, ih, Nat.add_assoc]

theorem byteSize_pos {cs : List Char} (h : cs ≠ []) : 0 < byteSize cs := by
  cases cs with
  | nil => exact absurd rfl h
  | cons c cs =>
    have := c.utf8Size_pos
    rw [byteSize_cons]
    omega

theorem utf8ByteSize_ofList (cs : List Char) : (String.ofList cs).utf8ByteSize = byteSize cs := by
  induction cs with
  | nil => rfl
  | cons c cs ih =>
    have hcons : String.ofList (c :: cs) = String.singleton c ++ String.ofList cs := by
      rw [← String.toList_inj]
      simp
    rw [hcons, String.utf8ByteSize_append, String.utf8ByteSize_singleton, ih, byteSize_cons]

/-- A text takes as many bytes as it moves the place on. -/
theorem Position.offset_after (p : Position) (cs : List Char) :
    (p.after cs).offset = p.offset + byteSize cs := by
  induction cs generalizing p with
  | nil => rfl
  | cons c cs ih =>
    have hstep : (p.step c).offset = p.offset + c.utf8Size := by
      unfold step
      split <;> rfl
    rw [after_cons, ih, hstep, byteSize_cons, Nat.add_assoc]

/-- How many bytes stand before a place. -/
theorem Position.byteSize_append (p : Position) {before : List Char} (h : byteSize before = p.offset)
    (cs : List Char) : byteSize (before ++ cs) = (p.after cs).offset := by
  rw [ScriptBundler.byteSize_append, h, offset_after]

/-- The first character takes a part of the bytes, and it takes one at least. -/
theorem byteSize_cons_eq (c : Char) (cs : List Char) : ∃ n, byteSize (c :: cs) = n + 1 ∧
    c.utf8Size ≤ n + 1 ∧ n + 1 - c.utf8Size = byteSize cs := by
  have hpos := c.utf8Size_pos
  refine ⟨byteSize (c :: cs) - 1, ?_⟩
  rw [byteSize_cons]
  omega

/-- A text is dropped by its bytes. -/
theorem dropBytes_append (as bs : List Char) : dropBytes (byteSize as) (as ++ bs) = some bs := by
  induction as with
  | nil =>
    cases bs <;> rfl
  | cons a as ih =>
    obtain ⟨n, hn, hle, hrest⟩ := byteSize_cons_eq a as
    rw [hn, List.cons_append, dropBytes, if_pos hle, hrest, ih]

/-- A text is taken by its bytes. -/
theorem takeBytes_append (as bs : List Char) : takeBytes (byteSize as) (as ++ bs) = some as := by
  induction as with
  | nil =>
    cases bs <;> rfl
  | cons a as ih =>
    obtain ⟨n, hn, hle, hrest⟩ := byteSize_cons_eq a as
    rw [hn, List.cons_append, takeBytes, if_pos hle, hrest, ih]
    rfl

/-- A piece of a text is found by its bytes. -/
theorem Source.slice_eq {source : Source} {before rest : List Char} (text : List Char)
    (h : source.text.toList = before ++ (text ++ rest)) :
    source.slice (byteSize before) (byteSize before + byteSize text) = some (String.ofList text) := by
  rw [slice, if_pos (Nat.le_add_right ..), Nat.add_sub_cancel_left, h, dropBytes_append, Option.bind_some,
    takeBytes_append, Option.map_some]

/-- What is left when bytes are dropped. -/
theorem exists_of_dropBytes {n : Nat} {cs ds : List Char} (h : dropBytes n cs = some ds) :
    ∃ as, cs = as ++ ds ∧ byteSize as = n := by
  fun_induction dropBytes n cs with
  | case1 cs => exact ⟨[], Option.some.inj h, rfl⟩
  | case2 => cases h
  | case3 n c cs hle ih =>
    obtain ⟨as, rfl, has⟩ := ih h
    exact ⟨c :: as, rfl, by rw [byteSize_cons]; omega⟩
  | case4 => cases h

/-- What is taken by bytes. -/
theorem exists_of_takeBytes {n : Nat} {cs as : List Char} (h : takeBytes n cs = some as) :
    ∃ ds, cs = as ++ ds ∧ byteSize as = n := by
  fun_induction takeBytes n cs generalizing as with
  | case1 cs => exact ⟨cs, by rw [← Option.some.inj h]; rfl, by rw [← Option.some.inj h]; rfl⟩
  | case2 => cases h
  | case3 n c cs hle ih =>
    obtain ⟨bs, hbs, rfl⟩ := Option.map_eq_some_iff.mp h
    obtain ⟨ds, rfl, hsize⟩ := ih hbs
    exact ⟨ds, rfl, by rw [byteSize_cons]; omega⟩
  | case4 => cases h

namespace Source

variable {source : Source} {a b c d : Nat} {x y : String}

/-- What is found by its bytes is a piece of the text. -/
theorem exists_of_slice (h : source.slice a b = some x) : ∃ before rest,
    source.text.toList = before ++ (x.toList ++ rest) ∧ byteSize before = a ∧
      a + byteSize x.toList = b := by
  unfold slice at h
  split at h
  · rename_i hle
    obtain ⟨text, htaken, rfl⟩ := Option.map_eq_some_iff.mp h
    obtain ⟨cs, hcs, htext⟩ := Option.bind_eq_some_iff.mp htaken
    obtain ⟨before, hbefore, hsize⟩ := exists_of_dropBytes hcs
    obtain ⟨rest, rfl, hsize'⟩ := exists_of_takeBytes htext
    refine ⟨before, rest, ?_, hsize, ?_⟩
    · rw [String.toList_ofList, hbefore]
    · rw [String.toList_ofList]
      omega
  · cases h

/-- Two pieces of a text, and what is between them, are a piece of it. -/
theorem slice_join (hx : source.slice a b = some x) (hy : source.slice c d = some y) (hbc : b ≤ c) :
    ∃ z, source.slice a d = some (x ++ z ++ y) := by
  obtain ⟨before, rest, htext, rfl, rfl⟩ := exists_of_slice hx
  obtain ⟨before', rest', htext', rfl, rfl⟩ := exists_of_slice hy
  have hsame : (before ++ x.toList) ++ rest = before' ++ (y.toList ++ rest') := by
    rw [List.append_assoc, ← htext, htext']
  obtain ⟨z, hz⟩ : ∃ z, before' = (before ++ x.toList) ++ z := by
    rcases List.append_eq_append_iff.mp hsame with ⟨z, hz, -⟩ | ⟨z, hz, -⟩
    · exact ⟨z, hz⟩
    · -- The first piece would reach into the second one.
      cases z with
      | nil => exact ⟨[], by rw [hz, List.append_nil, List.append_nil]⟩
      | cons w z =>
        have hsize := congrArg byteSize hz
        have hpos := byteSize_pos (List.cons_ne_nil w z)
        simp only [byteSize_append] at hsize
        omega
  have hjoined : source.text.toList = before ++ ((x ++ String.ofList z ++ y).toList ++ rest') := by
    rw [htext', hz]
    simp
  refine ⟨String.ofList z, ?_⟩
  have hslice := slice_eq _ hjoined
  rw [String.ofList_toList] at hslice
  convert hslice using 2
  rw [hz]
  simp only [String.toList_append, String.toList_ofList, byteSize_append]
  omega

end Source

/-! ## Pieces -/

/-- `text` is what a token is shown as.  A line end is shown by its name, a comment without the carriage
returns at its end, and a string literal that does not close is shown closed. -/
def Token.Kind.Quotes (unclosed : Bool) (text : List Char) : Kind → Prop
  | newline => text = ['\n']
  | comment said => (comment said).spelling.toList = trimReturns text
  | string raw _ => raw.toList = if unclosed then text ++ ['"'] else text
  | eof => False
  | k => k.spelling.toList = text

/-- A blank is one byte. -/
theorem utf8Size_of_isBlank {c : Char} (h : isBlank c = true) : c.utf8Size = 1 := by
  simp only [isBlank, Bool.or_eq_true, beq_iff_eq] at h
  rcases h with ((rfl | rfl) | rfl) | rfl <;> decide

/-- Outside ASCII every character is one of a word. -/
theorem utf8Size_of_isWordStart {c : Char} (h : isWordStart c = false) : c.utf8Size = 1 := by
  simp only [isWordStart, Bool.or_eq_false_iff, decide_eq_false_iff_not] at h
  have hlow : c.toNat < 128 := by omega
  rw [Char.utf8Size_eq_one_iff, UInt32.le_iff_toNat_le]
  exact Nat.le_of_lt_succ hlow

/-- A word is spelled as it is read. -/
theorem Keyword.spelling_of_ofString? {s : String} {k : Keyword} (h : ofString? s = some k) :
    k.spelling = s := by
  simpa using List.find?_some h

/-- A sign is spelled as it is read, the longest one. -/
theorem Symbol.take_of_ofChars? {cs : List Char} {s : Symbol} (h : ofChars? cs = some s) :
    s.spelling.toList = cs.take s.spelling.length := by
  have hfound := List.find?_some h
  rw [← String.length_toList]
  exact List.prefix_iff_eq_take.mp (List.isPrefixOf_iff_prefix.mp hfound)

theorem trimReturns_cons {c : Char} (hc : c ≠ '\r') (cs : List Char) :
    trimReturns (c :: cs) = c :: trimReturns cs := by
  have hlast : [c].dropWhile (· == '\r') = [c] := by simp [hc]
  rw [trimReturns, List.reverse_cons, List.dropWhile_append, trimReturns]
  split
  · rename_i hnil
    rw [List.isEmpty_iff.mp hnil, hlast]
    rfl
  · rw [List.reverse_append]
    rfl

namespace Lexeme

/-- What holds of the text of a piece, by what the piece is. -/
def Class.Holds (text : List Char) : Class → Prop
  | blank => ∃ c, text = [c] ∧ isBlank c = true
  | stray c => text = [c] ∧ isBlank c = false ∧ c.utf8Size = 1
  | token k f =>
    k.Quotes (decide (f = some .unterminatedString)) text ∧ ∀ c, f ≠ some (.unexpectedCharacter c)

/-- A piece that starts with a quote. -/
theorem holds_ofQuoted (cs : List Char) : (ofQuoted cs).kind.Holds (ofQuoted cs).text := by
  cases hclosed : (Quoted.scan cs).closed <;>
    simp [ofQuoted, Class.Holds, Kind.Quotes, hclosed]

/-- A piece that is a number. -/
theorem holds_ofNumeral (cs : List Char) : (ofNumeral cs).kind.Holds (ofNumeral cs).text := by
  cases hvalue : Numeral.value? (Numeral.scan cs).1 <;>
    simp [ofNumeral, Class.Holds, Kind.Quotes, Kind.spelling, hvalue]

/-- A piece that is a word. -/
theorem holds_ofWord (cs : List Char) : (ofWord cs).kind.Holds (ofWord cs).text := by
  cases hword : Keyword.ofString? (String.ofList (cs.takeWhile isWordChar)) with
  | none => simp [ofWord, Class.Holds, Kind.Quotes, Kind.spelling, hword]
  | some k =>
    simp [ofWord, Class.Holds, Kind.Quotes, Kind.spelling, hword, Keyword.spelling_of_ofString? hword]

/-- A piece that is a comment. -/
theorem holds_ofComment (cs : List Char) :
    (ofComment ('/' :: '/' :: cs)).kind.Holds (ofComment ('/' :: '/' :: cs)).text := by
  have htext : ('/' :: '/' :: cs).takeWhile (· != '\n') = '/' :: '/' :: cs.takeWhile (· != '\n') := rfl
  have htrim : trimReturns ('/' :: '/' :: cs.takeWhile (· != '\n')) =
      '/' :: '/' :: trimReturns (cs.takeWhile (· != '\n')) := by
    rw [trimReturns_cons (by decide), trimReturns_cons (by decide)]
  simp [ofComment, htext, htrim, Class.Holds, Kind.Quotes, Kind.spelling]

/-- A piece that is a sign, or no token at all. -/
theorem holds_ofSign {c : Char} (hblank : isBlank c = false) (hword : isWordStart c = false)
    (cs : List Char) : (ofSign c cs).kind.Holds (ofSign c cs).text := by
  fun_cases ofSign c cs with
  | case1 s hs => exact ⟨Symbol.take_of_ofChars? hs, fun d => (Option.some_ne_none _).symm⟩
  | case2 => exact ⟨rfl, hblank, utf8Size_of_isWordStart hword⟩

/-- **A token is shown as the text it was read from**; all else is one character. -/
theorem holds_read (c : Char) (cs : List Char) : (read c cs).kind.Holds (read c cs).text := by
  fun_cases read c cs with
  | case1 hblank => exact ⟨c, rfl, hblank⟩
  | case2 _ hc => exact ⟨congrArg ([·]) hc, fun d => (Option.some_ne_none _).symm⟩
  | case3 => exact holds_ofQuoted cs
  | case4 => exact holds_ofNumeral (c :: cs)
  | case5 => exact holds_ofWord (c :: cs)
  | case6 _ _ _ _ _ hslashes =>
    obtain ⟨rfl, hhead⟩ := hslashes
    obtain ⟨ds, rfl⟩ := List.head?_eq_some_iff.mp hhead
    exact holds_ofComment ds
  | case7 hblank _ _ _ hword =>
    exact holds_ofSign (Bool.eq_false_iff.mpr hblank) (Bool.eq_false_iff.mpr hword) cs

end Lexeme

/-! ## A text laid with tokens -/

/-- The text `cs` from `p` on is laid with the tokens `ts` and has the faults `fs`: each character is a
blank, a stray with a fault of its own, or lies in one of the tokens. -/
inductive Tiles : Position → List Char → List Token → List Located → Prop where
  | done (p : Position) : Tiles p [] [] []
  | blank {p : Position} {c : Char} {cs : List Char} {ts : List Token} {fs : List Located}
      (hc : isBlank c = true) (h : Tiles (p.after [c]) cs ts fs) : Tiles p (c :: cs) ts fs
  | stray {p : Position} {c : Char} {cs : List Char} {ts : List Token} {fs : List Located}
      (hc : isBlank c = false) (hsize : c.utf8Size = 1) (h : Tiles (p.after [c]) cs ts fs) :
      Tiles p (c :: cs) ts (⟨.unexpectedCharacter c, ⟨p, p.after [c]⟩⟩ :: fs)
  | token {p : Position} {k : Kind} {f : Option Fault} {text cs : List Char} {ts : List Token}
      {fs : List Located} (hne : text ≠ []) (hk : k.Quotes (decide (f = some .unterminatedString)) text)
      (hf : ∀ c, f ≠ some (.unexpectedCharacter c)) (h : Tiles (p.after text) cs ts fs) :
      Tiles p (text ++ cs) (⟨k, ⟨p, p.after text⟩⟩ :: ts)
        (f.toList.map (⟨·, ⟨p, p.after text⟩⟩) ++ fs)

/-- **Reading lays the text with tokens**, up to where it stops, which is the end of the text unless
there are too many faults. -/
theorem tiles_scanFrom (p : Position) (found : Nat) (cs : List Char) :
    ∃ laid rest ts, cs = laid ++ rest ∧ Tiles p laid ts (scanFrom p found cs).faults ∧
      (scanFrom p found cs).tokens = ts ++ [⟨.eof, .point (p.after laid)⟩] ∧
      (found + (scanFrom p found cs).faults.length < Report.limit → rest = []) := by
  fun_induction scanFrom p found cs with
  | case1 p found => exact ⟨[], [], [], rfl, .done p, rfl, fun _ => rfl⟩
  | case2 p found c cs piece next hkind ih =>
    obtain ⟨laid, rest, ts, hcs, htiles, htokens, hrest⟩ := ih
    obtain ⟨d, htext, hblank⟩ : Lexeme.Class.Holds piece.text .blank := hkind ▸ Lexeme.holds_read c cs
    have hnext : next = p.after [d] := congrArg p.after htext
    have happend : piece.text ++ piece.rest = c :: cs := Lexeme.text_append_rest c cs
    rw [htext, hcs] at happend
    refine ⟨d :: laid, rest, ts, happend.symm, .blank hblank (hnext ▸ htiles), ?_, hrest⟩
    rw [htokens, hnext, Position.after_cons, Position.after_cons, Position.after_nil]
  | case3 p found c cs piece next span d hkind ih =>
    obtain ⟨laid, rest, ts, hcs, htiles, htokens, hrest⟩ := ih
    obtain ⟨htext, hblank, hsize⟩ : Lexeme.Class.Holds piece.text (.stray d) :=
      hkind ▸ Lexeme.holds_read c cs
    have hnext : next = p.after [d] := congrArg p.after htext
    have happend : piece.text ++ piece.rest = c :: cs := Lexeme.text_append_rest c cs
    rw [htext, hcs] at happend
    refine ⟨d :: laid, rest, ts, happend.symm, ?_, ?_, fun hfew => hrest ?_⟩
    · have hspan : span = ⟨p, p.after [d]⟩ := congrArg (Span.mk p) hnext
      rw [Scanned.fault, hspan]
      exact .stray hblank hsize (hnext ▸ htiles)
    · rw [Scanned.fault, htokens, hnext, Position.after_cons, Position.after_cons, Position.after_nil]
    · simp only [Scanned.fault, List.length_cons] at hfew
      omega
  | case4 p found c cs piece next span kind hkind ih =>
    obtain ⟨hquotes, hfault⟩ : Lexeme.Class.Holds piece.text (.token kind none) :=
      hkind ▸ Lexeme.holds_read c cs
    have hne : piece.text ≠ [] := Lexeme.text_ne_nil c cs
    have happend : piece.text ++ piece.rest = c :: cs := Lexeme.text_append_rest c cs
    split
    · have hlast := Tiles.token (p := p) hne hquotes hfault (.done _)
      rw [List.append_nil] at hlast
      refine ⟨piece.text, piece.rest, [⟨kind, span⟩], happend.symm, hlast, rfl, fun hfew => ?_⟩
      simp only [Scanned.token, Scanned.done, List.length_nil] at hfew
      omega
    · obtain ⟨laid, rest, ts, hcs, htiles, htokens, hrest⟩ := ih
      rw [hcs, ← List.append_assoc] at happend
      refine ⟨piece.text ++ laid, rest, ⟨kind, span⟩ :: ts, happend.symm,
        .token hne hquotes hfault htiles, ?_, hrest⟩
      rw [Scanned.token, htokens, Position.after_append, List.cons_append]
  | case5 p found c cs piece next span kind f hkind ih =>
    obtain ⟨hquotes, hfault⟩ : Lexeme.Class.Holds piece.text (.token kind (some f)) :=
      hkind ▸ Lexeme.holds_read c cs
    have hne : piece.text ≠ [] := Lexeme.text_ne_nil c cs
    have happend : piece.text ++ piece.rest = c :: cs := Lexeme.text_append_rest c cs
    split
    · have hlast := Tiles.token (p := p) hne hquotes hfault (.done _)
      rw [List.append_nil, List.append_nil] at hlast
      refine ⟨piece.text, piece.rest, [⟨kind, span⟩], happend.symm, hlast, rfl, fun hfew => ?_⟩
      simp only [Scanned.fault, Scanned.token, Scanned.done, List.length_cons, List.length_nil] at hfew
      omega
    · obtain ⟨laid, rest, ts, hcs, htiles, htokens, hrest⟩ := ih
      rw [hcs, ← List.append_assoc] at happend
      refine ⟨piece.text ++ laid, rest, ⟨kind, span⟩ :: ts, happend.symm,
        .token hne hquotes hfault htiles, ?_, fun hfew => hrest ?_⟩
      · rw [Scanned.fault, Scanned.token, htokens, Position.after_append, List.cons_append]
      · simp only [Scanned.fault, Scanned.token, List.length_cons] at hfew
        omega

/-! ## The same in bytes -/

/-- The byte at `k` lies in a stretch. -/
def Span.Covers (s : Span) (k : Nat) : Prop := s.start.offset ≤ k ∧ k < s.stop.offset

/-- Where a character stands that no token starts with, and the character. -/
def Located.stray? : Located → Option (Nat × Char)
  | ⟨.unexpectedCharacter c, span⟩ => some (span.start.offset, c)
  | _ => none

/-- All characters that no token starts with, and their places. -/
def strays (faults : List Located) : List (Nat × Char) := faults.filterMap Located.stray?

/-- A stray has a fault of its own. -/
theorem mem_strays {fs : List Located} {x : Nat × Char} (h : x ∈ strays fs) :
    ∃ f ∈ fs, f.fault = .unexpectedCharacter x.2 ∧ f.span.start.offset = x.1 := by
  obtain ⟨f, hf, hx⟩ := List.mem_filterMap.mp h
  obtain ⟨fault, span⟩ := f
  unfold Located.stray? at hx
  split at hx
  · rename_i heq
    cases heq
    cases hx
    exact ⟨_, hf, rfl, rfl⟩
  · cases hx

theorem strays_filter_eq_nil {fs : List Located} {k : Nat} (h : ∀ f ∈ fs, k < f.span.start.offset) :
    (strays fs).filter (·.1 == k) = [] := by
  refine List.filter_eq_nil_iff.mpr fun x hx => ?_
  obtain ⟨f, hf, -, hfx⟩ := mem_strays hx
  have := h f hf
  simp only [beq_iff_eq]
  omega

/-- A fault of a token is no stray. -/
theorem strays_token {f : Option Fault} (hf : ∀ c, f ≠ some (.unexpectedCharacter c)) (span : Span)
    (fs : List Located) : strays (f.toList.map (⟨·, span⟩) ++ fs) = strays fs := by
  cases f with
  | none => rfl
  | some f =>
    refine List.filterMap_cons_none ?_
    unfold Located.stray?
    split
    · rename_i heq
      cases heq
      exact absurd rfl (hf _)
    · rfl

namespace Source

/-- The bytes of a text from `start` to `stop`, as tokens and faults tell of them. -/
structure Tiled (source : Source) (tokens : List Token) (faults : List Located) (start stop : Nat) :
    Prop where
  /-- No token is empty. -/
  within : ∀ t ∈ tokens, start ≤ t.span.start.offset ∧ t.span.start.offset < t.span.stop.offset ∧
    t.span.stop.offset ≤ stop
  /-- Tokens stand one after the other. -/
  apart : tokens.Pairwise fun t u => t.span.stop.offset ≤ u.span.start.offset
  /-- A token is shown as the bytes it lies on. -/
  quoted : ∀ t ∈ tokens, ∃ text, source.slice t.span.start.offset t.span.stop.offset = some text ∧
    t.kind.Quotes (decide (⟨.unterminatedString, t.span⟩ ∈ faults)) text.toList
  /-- Every other byte is a blank without a fault, or a stray with exactly one. -/
  between : ∀ k, start ≤ k → k < stop → (∀ t ∈ tokens, ¬ t.span.Covers k) →
    ∃ c, source.slice k (k + 1) = some (String.singleton c) ∧
      (strays faults).filter (·.1 == k) = if isBlank c then [] else [(k, c)]
  /-- Faults are of this stretch. -/
  reported : ∀ f ∈ faults, start ≤ f.span.start.offset ∧ f.span.start.offset < stop
  /-- No token lies on a stray. -/
  outside : ∀ x ∈ strays faults, ∀ t ∈ tokens, ¬ t.span.Covers x.1

namespace Tiled

variable {source : Source} {tokens : List Token} {faults : List Located} {start stop : Nat} {c : Char}

/-- A character in front that no token lies on, where `own` are its faults. -/
theorem skip (h : source.Tiled tokens faults (start + 1) stop) (hstop : start < stop)
    (hslice : source.slice start (start + 1) = some (String.singleton c)) (own : List Located)
    (hown : strays own = if isBlank c then [] else [(start, c)])
    (hplace : ∀ f ∈ own, f.span.start.offset = start ∧ f.fault = .unexpectedCharacter c) :
    source.Tiled tokens (own ++ faults) start stop where
  within t ht := by
    have := h.within t ht
    omega
  apart := h.apart
  quoted t ht := by
    obtain ⟨text, htext, hquotes⟩ := h.quoted t ht
    have hsame : ⟨.unterminatedString, t.span⟩ ∈ own ++ faults ↔
        ⟨.unterminatedString, t.span⟩ ∈ faults := by
      refine ⟨fun hmem => ?_, List.mem_append_right _⟩
      rcases List.mem_append.mp hmem with hmem | hmem
      · cases (hplace _ hmem).2
      · exact hmem
    exact ⟨text, htext, by rwa [decide_eq_decide.mpr hsame]⟩
  between k hlow hhigh hno := by
    rw [strays, List.filterMap_append, List.filter_append]
    rcases Nat.eq_or_lt_of_le hlow with rfl | hlt
    · have hlater := strays_filter_eq_nil fun f hf => (h.reported f hf).1
      refine ⟨c, hslice, ?_⟩
      rw [← strays, ← strays, hlater, hown]
      split <;> simp
    · have hearlier : (strays own).filter (·.1 == k) = [] := by
        rw [hown]
        split
        · rfl
        · simp [Nat.ne_of_lt hlt]
      rw [← strays, ← strays, hearlier]
      exact h.between k hlt hhigh hno
  reported f hf := by
    rcases List.mem_append.mp hf with hf | hf
    · have := (hplace f hf).1
      omega
    · have := h.reported f hf
      omega
  outside x hx t ht := by
    have hwithin := h.within t ht
    rw [strays, List.filterMap_append, ← strays, ← strays] at hx
    rcases List.mem_append.mp hx with hx | hx
    · obtain ⟨f, hf, -, hfx⟩ := mem_strays hx
      have := (hplace f hf).1
      intro hcovers
      have := hcovers.1
      omega
    · exact h.outside x hx t ht

/-- A token in front, with its fault if it has one. -/
theorem token {t : Token} {f : Option Fault} {text : List Char}
    (h : source.Tiled tokens faults t.span.stop.offset stop) (hstop : t.span.stop.offset ≤ stop)
    (hne : t.span.start.offset < t.span.stop.offset)
    (hslice : source.slice t.span.start.offset t.span.stop.offset = some (String.ofList text))
    (hk : t.kind.Quotes (decide (f = some .unterminatedString)) text)
    (hf : ∀ c, f ≠ some (.unexpectedCharacter c)) :
    source.Tiled (t :: tokens) (f.toList.map (⟨·, t.span⟩) ++ faults) t.span.start.offset stop where
  within := by
    refine List.forall_mem_cons.mpr ⟨⟨Nat.le_refl _, hne, hstop⟩, fun u hu => ?_⟩
    have := h.within u hu
    omega
  apart := List.pairwise_cons.mpr ⟨fun u hu => (h.within u hu).1, h.apart⟩
  quoted := by
    refine List.forall_mem_cons.mpr ⟨⟨_, hslice, ?_⟩, fun u hu => ?_⟩
    · have hown : decide (⟨.unterminatedString, t.span⟩ ∈ f.toList.map (Located.mk · t.span) ++ faults) =
          decide (f = some .unterminatedString) := by
        have hnot : (⟨.unterminatedString, t.span⟩ : Located) ∉ faults := fun hmem => by
          have := (h.reported _ hmem).1
          simp only at this
          omega
        cases f <;> simp [hnot, eq_comm (a := Fault.unterminatedString)]
      rwa [hown, String.toList_ofList]
    · obtain ⟨text, htext, hquotes⟩ := h.quoted u hu
      have hsame : ⟨.unterminatedString, u.span⟩ ∈ f.toList.map (Located.mk · t.span) ++ faults ↔
          ⟨.unterminatedString, u.span⟩ ∈ faults := by
        refine ⟨fun hmem => ?_, List.mem_append_right _⟩
        rcases List.mem_append.mp hmem with hmem | hmem
        · obtain ⟨g, -, hg⟩ := List.mem_map.mp hmem
          have hspan : t.span = u.span := (Located.mk.inj hg).2
          have := h.within u hu
          rw [← hspan] at this
          omega
        · exact hmem
      exact ⟨text, htext, by rwa [decide_eq_decide.mpr hsame]⟩
  between k hlow hhigh hno := by
    obtain ⟨hthis, hothers⟩ := List.forall_mem_cons.mp hno
    have hlater : t.span.stop.offset ≤ k := Nat.le_of_not_lt fun hlt => hthis ⟨hlow, hlt⟩
    obtain ⟨c, hc, hstrays⟩ := h.between k hlater hhigh hothers
    exact ⟨c, hc, by rwa [strays_token hf]⟩
  reported g hg := by
    rcases List.mem_append.mp hg with hg | hg
    · obtain ⟨_, -, rfl⟩ := List.mem_map.mp hg
      exact ⟨Nat.le_refl _, Nat.lt_of_lt_of_le hne hstop⟩
    · have := h.reported g hg
      omega
  outside x hx := by
    rw [strays_token hf] at hx
    refine List.forall_mem_cons.mpr ⟨fun hcovers => ?_, h.outside x hx⟩
    obtain ⟨g, hg, -, hgx⟩ := mem_strays hx
    have := (h.reported g hg).1
    have := hcovers.2
    omega

end Tiled

end Source

/-- A character of one byte in front of a text. -/
theorem Source.skips (source : Source) {p : Position} {c : Char} {before cs rest : List Char}
    (hsize : c.utf8Size = 1) (hsource : source.text.toList = before ++ (c :: cs ++ rest))
    (hbefore : byteSize before = p.offset) :
    (p.after [c]).offset = p.offset + 1 ∧ p.offset < (p.after (c :: cs)).offset ∧
      source.slice p.offset (p.offset + 1) = some (String.singleton c) ∧
      source.text.toList = (before ++ [c]) ++ (cs ++ rest) := by
  have hslice := slice_eq [c] hsource
  rw [hbefore, byteSize_cons, hsize, byteSize_nil, ← String.singleton_eq_ofList] at hslice
  refine ⟨?_, ?_, hslice, by rw [hsource]; simp⟩
  · rw [Position.offset_after, byteSize_cons, hsize, byteSize_nil]
  · rw [Position.offset_after, byteSize_cons, hsize]
    omega

/-- **Tokens, blanks and strays in bytes.** -/
theorem Tiles.tiled {p : Position} {cs : List Char} {ts : List Token} {fs : List Located}
    (h : Tiles p cs ts fs) (source : Source) (before : List Char) {rest : List Char}
    (hsource : source.text.toList = before ++ (cs ++ rest)) (hbefore : byteSize before = p.offset) :
    source.Tiled ts fs p.offset (p.after cs).offset := by
  induction h generalizing before with
  | done p =>
    exact ⟨by simp, .nil, by simp, fun k hlow hhigh => absurd hhigh (Nat.not_lt.mpr hlow), by simp,
      by simp [strays]⟩
  | @blank p c cs ts fs hc _ ih =>
    obtain ⟨hone, hlast, hslice, hafter⟩ := source.skips (utf8Size_of_isBlank hc) hsource hbefore
    refine (hone ▸ ih _ hafter (p.byteSize_append hbefore [c])).skip hlast hslice [] ?_ ?_
    · simp [hc, strays]
    · simp
  | @stray p c cs ts fs hc hsize _ ih =>
    obtain ⟨hone, hlast, hslice, hafter⟩ := source.skips hsize hsource hbefore
    refine (hone ▸ ih _ hafter (p.byteSize_append hbefore [c])).skip hlast hslice
      [⟨.unexpectedCharacter c, ⟨p, p.after [c]⟩⟩] ?_ ?_
    · simp [hc, strays, Located.stray?]
    · simp
  | @token p k f text cs ts fs hne hk hf _ ih =>
    have hslice := Source.slice_eq text (by rw [hsource, List.append_assoc])
    rw [hbefore, ← Position.offset_after] at hslice
    have hrest := ih (before ++ text) (by rw [hsource]; simp) (p.byteSize_append hbefore text)
    rw [← Position.after_append] at hrest
    refine hrest.token (t := ⟨k, ⟨p, p.after text⟩⟩) ?_ ?_ hslice hk hf
    · simp [Position.offset_after]
    · have := byteSize_pos hne
      simp only [Position.offset_after]
      omega

/-! ## Whole texts -/

/-- Errors are kept up to the limit. -/
theorem Report.errors_foldl_eq (ds : List Diagnostic) (r : Report) (h : r.errors.length ≤ limit) :
    (ds.foldl addError r).errors = (r.errors ++ ds).take limit := by
  induction ds generalizing r with
  | nil => rw [List.append_nil, List.take_of_length_le h, List.foldl_nil]
  | cons d ds ih =>
    have hadd : (r.addError d).errors = if r.errors.length < limit then r.errors ++ [d] else r.errors := rfl
    by_cases hfew : r.errors.length < limit
    · rw [if_pos hfew] at hadd
      have hmore : (r.addError d).errors.length ≤ limit := by
        rw [hadd, List.length_append, List.length_singleton]
        exact hfew
      rw [List.foldl_cons, ih _ hmore, hadd, List.append_assoc, List.singleton_append]
    · rw [if_neg hfew] at hadd
      have hfull : r.errors.length = limit := by omega
      rw [List.foldl_cons, ih _ (hadd ▸ h), hadd, List.take_left' hfull, List.take_left' hfull]

/-- Of the faults that were found all are counted. -/
theorem Report.errorCount_ofFaults (source : Source) (fs : List Located) :
    (ofFaults source fs).errorCount = fs.length := by
  rw [ofFaults_eq, errorCount_foldl, List.length_map]
  exact Nat.zero_add _

/-- Of the faults that were found the first are kept. -/
theorem Report.errors_ofFaults (source : Source) (fs : List Located) :
    (ofFaults source fs).errors = (fs.map fun f => .locate source f.fault f.span).take limit := by
  rw [ofFaults_eq]
  exact errors_foldl_eq _ {} (Nat.zero_le _)

/-- **Nothing of a text is lost by reading its tokens.**  Up to the end token, which is the last and
lies on no byte, the tokens are not empty, stand one after the other, and are shown as the bytes they
lie on; every other byte is a blank, or is reported by one fault that names it and where it stands.
Every fault is counted and the first of them are kept; if they are fewer than the limit, the end token
stands at the end of the text. -/
theorem Source.scan_tiled (source : Source) : ∃ tokens stop,
    source.scan.tokens = tokens ++ [⟨.eof, .point stop⟩] ∧ (∀ t ∈ tokens, t.kind ≠ .eof) ∧
    source.Tiled tokens source.scan.faults 0 stop.offset ∧
    stop.offset ≤ source.text.utf8ByteSize ∧
    ((Report.ofFaults source source.scan.faults).errorCount < Report.limit →
      stop.offset = source.text.utf8ByteSize) ∧
    (Report.ofFaults source source.scan.faults).errorCount = source.scan.faults.length ∧
    (Report.ofFaults source source.scan.faults).errors =
      (source.scan.faults.map fun f => .locate source f.fault f.span).take Report.limit := by
  obtain ⟨laid, rest, tokens, htext, htiles, htokens, hrest⟩ := tiles_scanFrom .first 0 source.text.toList
  have htiled := htiles.tiled source [] htext rfl
  have hstop : (Position.first.after laid).offset = byteSize laid :=
    (Position.offset_after ..).trans (Nat.zero_add _)
  have hsize : source.text.utf8ByteSize = byteSize laid + byteSize rest := by
    rw [← byteSize_append, ← htext, ← utf8ByteSize_ofList, String.ofList_toList]
  have hcount := Report.errorCount_ofFaults source source.scan.faults
  refine ⟨tokens, Position.first.after laid, htokens, ?_, htiled, by omega, fun hfew => ?_, hcount,
    Report.errors_ofFaults source source.scan.faults⟩
  · intro t ht heof
    obtain ⟨text, -, hquotes⟩ := htiled.quoted t ht
    rw [heof] at hquotes
    exact hquotes
  · rw [hcount] at hfew
    have hnil : rest = [] := hrest (by
      rw [Nat.zero_add]
      exact hfew)
    rw [hsize, hstop, hnil, byteSize_nil, Nat.add_zero]

end ScriptBundler

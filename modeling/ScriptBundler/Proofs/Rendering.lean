import ScriptBundler.Layout
import ScriptBundler.Proofs.Scanning

/-!
# Proofs/Rendering — the tokens of a layout

    … out │ l │ rest …

A layout `l` is written behind what was written before, `out`, and before `rest`.  What it is read as
depends on both: a comment that continues a line needs something on that line, and a name goes on with
the letters that follow it.  `Spells l ks P Q F G` says that `l`, behind an `out` with `P` and before a
`rest` with `F`, is read as tokens of the kinds `ks`; what is written then has `Q`, and what starts with
`l` has `G`.  Two such facts join where the first `Q` and the second `G` give what the other one needs
(`Spells.append`).
-/

namespace ScriptBundler

open Token (Kind)
open Layout

/-! ## What stands around a layout -/

/-- No condition. -/
def Any : List Char → Prop := fun _ => True

/-- Something stands on the line that `out`, which is reversed, ends with. -/
def Solid (out : List Char) : Prop := ∃ c cs, out = c :: cs ∧ c ≠ '\n'

/-- An operand starts here. -/
def OpensOperand (cs : List Char) : Prop := ∃ c ds, cs = c :: ds ∧ opensOperand c = true

/-- A blank or a line break. -/
def Pause (cs : List Char) : Prop := ∃ c ds, cs = c :: ds ∧ (c = ' ' ∨ c = '\n')

/-- A line break. -/
def Break (cs : List Char) : Prop := ∃ ds, cs = '\n' :: ds

/-- One condition gives another. -/
class Covers (A B : List Char → Prop) : Prop where
  covers : ∀ cs, A cs → B cs

namespace Covers

instance refl (A : List Char → Prop) : Covers A A := ⟨fun _ h => h⟩

instance any (A : List Char → Prop) : Covers A Any := ⟨fun _ _ => trivial⟩

instance opensOperand_ends : Covers OpensOperand Symbol.Ends :=
  ⟨fun _ ⟨_, _, hcs, hc⟩ => hcs ▸ Symbol.ends_of_opensOperand hc⟩

instance pause_ends : Covers Pause Symbol.Ends where
  covers := by
    rintro _ ⟨c, cs, rfl, rfl | rfl⟩
    · exact Symbol.ends_of_isBlank (by decide)
    · intro x hx
      obtain rfl : '\n' = x := by simpa using hx
      decide

instance pause_endsOperand : Covers Pause EndsOperand where
  covers := by
    rintro _ ⟨c, cs, rfl, rfl | rfl⟩ <;> exact .cons (by decide) (by decide) (by decide)

instance break_pause : Covers Break Pause := ⟨fun _ ⟨ds, hds⟩ => ⟨'\n', ds, hds, .inr rfl⟩⟩

instance break_ends : Covers Break Symbol.Ends :=
  ⟨fun cs h => pause_ends.covers cs (break_pause.covers cs h)⟩

instance break_endsLine : Covers Break EndsLine := ⟨fun _ ⟨ds, hds⟩ => hds ▸ .newline ds⟩

instance break_endsOperand : Covers Break EndsOperand :=
  ⟨fun cs h => pause_endsOperand.covers cs (break_pause.covers cs h)⟩

instance endsLine_endsOperand : Covers EndsLine EndsOperand := ⟨fun _ h => h.endsOperand⟩

end Covers

/-! ## Layouts and tokens -/

/-- `l` is read as `ks`, behind what has `P` and before what has `F`. -/
def Spells (l : Layout) (ks : List Kind) (P Q F G : List Char → Prop) : Prop :=
  ∀ out, P out → ∃ cs, l.foldl write out = cs.reverse ++ out ∧ Q (cs.reverse ++ out) ∧
    ∀ rest, F rest → Scans cs ks rest ∧ G (cs ++ rest)

namespace Spells

variable {l l' : Layout} {ks ks' : List Kind} {P Q F G P' Q' F' G' : List Char → Prop}

theorem nil : Spells [] [] P P F F := fun _ hout =>
  ⟨[], rfl, hout, fun rest hrest => ⟨.nil rest, hrest⟩⟩

/-- **One layout after another.** -/
theorem append [hQ : Covers Q P'] [hG : Covers G' F] (h : Spells l ks P Q F G)
    (h' : Spells l' ks' P' Q' F' G') : Spells (l ++ l') (ks ++ ks') P Q' F' G := by
  intro out hout
  obtain ⟨cs, hcs, hq, hscan⟩ := h out hout
  obtain ⟨ds, hds, hq', hscan'⟩ := h' _ (hQ.covers _ hq)
  refine ⟨cs ++ ds, ?_, ?_, fun rest hrest => ?_⟩
  · rw [List.foldl_append, hcs, hds, List.reverse_append, List.append_assoc]
  · rwa [List.reverse_append, List.append_assoc]
  · obtain ⟨hd, hg'⟩ := hscan' rest hrest
    obtain ⟨hc, hg⟩ := hscan _ (hG.covers _ hg')
    exact ⟨hc.append hd, by rwa [List.append_assoc]⟩

/-- Weaker conditions on what is around. -/
theorem mono [hP : Covers P' P] [hQ : Covers Q Q'] [hF : Covers F' F] [hG : Covers G G']
    (h : Spells l ks P Q F G) : Spells l ks P' Q' F' G' := by
  intro out hout
  obtain ⟨cs, hcs, hq, hscan⟩ := h out (hP.covers _ hout)
  refine ⟨cs, hcs, hQ.covers _ hq, fun rest hrest => ?_⟩
  obtain ⟨hc, hg⟩ := hscan rest (hF.covers _ hrest)
  exact ⟨hc, hG.covers _ hg⟩

/-- The same text in other pieces. -/
theorem of_foldl (h : Spells l ks P Q F G) (hl : ∀ out, l'.foldl write out = l.foldl write out) :
    Spells l' ks P Q F G := fun out hout => by
  rw [hl]
  exact h out hout

end Spells

/-- A text is written letter by letter. -/
theorem Layout.foldl_text (s : String) (out : List Char) :
    (text s).foldl write out = s.toList.reverse ++ out := by
  unfold text
  split
  · rename_i h
    rw [String.isEmpty_iff.mp h]
    rfl
  · rfl

theorem Layout.foldl_text_append (s t : String) (out : List Char) :
    (text (s ++ t)).foldl write out = (text s ++ text t).foldl write out := by
  rw [List.foldl_append, foldl_text, foldl_text, foldl_text, String.toList_append,
    List.reverse_append, List.append_assoc]

namespace Spells

variable {ks ks' : List Kind} {P Q F G P' Q' F' G' : List Char → Prop}

/-- **One text after another**, in one piece. -/
theorem concat {s t : String} [Covers Q P'] [Covers G' F] (h : Spells (text s) ks P Q F G)
    (h' : Spells (text t) ks' P' Q' F' G') : Spells (text (s ++ t)) (ks ++ ks') P Q' F' G :=
  (h.append h').of_foldl (foldl_text_append s t)

/-- A text that is read as `ks` and does not end a line. -/
theorem of_scans {s : String} (hsolid : ∃ cs c, s.toList = cs ++ [c] ∧ c ≠ '\n')
    (hscan : ∀ rest, F rest → Scans s.toList ks rest ∧ G (s.toList ++ rest)) :
    Spells (text s) ks Any Solid F G := by
  intro out _
  obtain ⟨cs, c, hcs, hc⟩ := hsolid
  refine ⟨s.toList, foldl_text s out, ⟨c, cs.reverse ++ out, ?_, hc⟩, hscan⟩
  rw [hcs, List.reverse_append, List.append_assoc]
  rfl

end Spells

/-! ## Single tokens -/

/-- Tokens that are written in letters, digits or quotes. -/
def Token.Kind.isPlain : Kind → Bool
  | number .. | string .. | identifier _ | keyword _ => true
  | _ => false

theorem exists_concat_of_not_mem {cs : List Char} (hne : cs ≠ []) (h : '\n' ∉ cs) :
    ∃ ds c, cs = ds ++ [c] ∧ c ≠ '\n' :=
  ⟨cs.dropLast, cs.getLast hne, (List.dropLast_concat_getLast hne).symm,
    fun hc => h (hc ▸ List.getLast_mem hne)⟩

theorem Numeral.IsNumeral.not_mem {cs : List Char} (h : IsNumeral cs) : '\n' ∉ cs := by
  have hdigits : ∀ {ds : List Char}, (∀ c ∈ ds, c.isDigit = true) → '\n' ∉ ds := fun hds hmem =>
    absurd (hds _ hmem) (by decide)
  obtain ⟨whole, part, power, rfl, hw, hp, hx, -⟩ := h
  simp only [List.mem_append, not_or]
  refine ⟨⟨hdigits hw, ?_⟩, ?_⟩
  · rcases hp with rfl | ⟨d, ds, hds, rfl⟩
    · simp
    · exact List.not_mem_cons_of_ne_of_not_mem (by decide) (hdigits hds)
  · rcases hx with rfl | ⟨e, sg, d, ds, he, hsg, hds, rfl⟩
    · simp
    · refine List.not_mem_cons_of_ne_of_not_mem ?_ ?_
      · rcases he with rfl | rfl <;> decide
      · rw [List.mem_append, not_or]
        refine ⟨?_, hdigits hds⟩
        rcases hsg with rfl | rfl | rfl <;> decide

/-- How a name or a reserved word is written. -/
theorem word_not_mem {cs : List Char} (h : ∃ c ds, cs = c :: ds ∧ isWordStart c = true ∧
    ∀ x ∈ ds, isWordChar x = true) : '\n' ∉ cs := by
  obtain ⟨c, ds, rfl, hc, hds⟩ := h
  refine List.not_mem_cons_of_ne_of_not_mem ?_ fun hmem => absurd (hds _ hmem) (by decide)
  rintro rfl
  exact absurd hc (by decide)

theorem opensOperand_of_isWordChar {c : Char} (h : isWordChar c = true) : opensOperand c = true := by
  simp [opensOperand, h]

/-- Such a token starts an operand and does not end a line. -/
theorem Token.Kind.chars_of_isPlain {k : Kind} (hv : k.Valid) (hk : k.isPlain = true) :
    (∃ c ds, k.chars = c :: ds ∧ opensOperand c = true) ∧ ∃ ds c, k.chars = ds ++ [c] ∧ c ≠ '\n' := by
  have hword : ∀ {cs : List Char}, (∃ c ds, cs = c :: ds ∧ isWordStart c = true ∧
      ∀ x ∈ ds, isWordChar x = true) → (∃ c ds, cs = c :: ds ∧ opensOperand c = true) ∧
        ∃ ds c, cs = ds ++ [c] ∧ c ≠ '\n' := by
    intro cs h
    refine ⟨?_, exists_concat_of_not_mem ?_ (word_not_mem h)⟩
    · obtain ⟨c, ds, hcs, hc, -⟩ := h
      exact ⟨c, ds, hcs, opensOperand_of_isWordChar (isWordChar_of_isWordStart hc)⟩
    · obtain ⟨c, ds, hcs, -⟩ := h
      simp [hcs]
  cases k with
  | number raw value =>
    obtain ⟨c, ds, hcs, hc⟩ := hv.1.head
    refine ⟨⟨c, ds, hcs, ?_⟩, exists_concat_of_not_mem ?_ hv.1.not_mem⟩
    · rcases hc with hc | ⟨rfl, -⟩
      · exact opensOperand_of_isWordChar (isWordChar_of_isDigit hc)
      · decide
    · show raw.toList ≠ []
      simp [hcs]
  | string raw value =>
    have hraw : raw.toList = '"' :: (Quoted.escape value.toList ++ ['"']) := by
      rw [show raw = quote value from hv, quote, String.toList_ofList]
    exact ⟨⟨'"', _, hraw, by decide⟩, '"' :: Quoted.escape value.toList, '"', hraw, by decide⟩
  | identifier name => exact hword hv.word
  | keyword w => exact hword (word_of_keyword w)
  | symbol => cases hk
  | comment => cases hk
  | newline => cases hk
  | eof => cases hk

/-- An operand ends before a sign, unless it is a dot. -/
theorem EndsOperand.symbol {s : Symbol} (hs : s ≠ .dot) (rest : List Char) :
    EndsOperand (s.spelling.toList ++ rest) := by
  cases s <;> first
    | exact absurd rfl hs
    | exact .cons (by decide) (by decide) (by decide)

namespace Spells

variable {F G : List Char → Prop}

/-- **A name, a reserved word or a constant.** -/
theorem plain {k : Kind} (hv : k.Valid) (hk : k.isPlain = true) {s : String}
    (hs : s.toList = k.chars) : Spells (text s) [k] Any Solid EndsOperand OpensOperand := by
  obtain ⟨⟨c, ds, hcs, hc⟩, hsolid⟩ := k.chars_of_isPlain hv hk
  refine of_scans (hs ▸ hsolid) fun rest hrest => ?_
  rw [hs]
  refine ⟨.token hv (Kind.clear_of_isLast ?_ hrest), c, ds ++ rest, by rw [hcs]; rfl, hc⟩
  cases k <;> first | rfl | cases hk

/-- A reserved word. -/
theorem keyword (w : Keyword) :
    Spells (text w.spelling) [.keyword w] Any Solid EndsOperand OpensOperand :=
  plain (k := .keyword w) trivial rfl rfl

/-- A name. -/
theorem name {x : String} (hx : IsName x) :
    Spells (text x) [.identifier x] Any Solid EndsOperand OpensOperand :=
  plain (k := .identifier x) hx rfl rfl

/-- A text in quotes. -/
theorem quoted (value : String) :
    Spells (text (quote value)) [.string (quote value) value] Any Solid EndsOperand OpensOperand :=
  plain (k := .string (quote value) value) rfl rfl rfl

theorem symbol_solid (s : Symbol) : ∃ cs c, s.spelling.toList = cs ++ [c] ∧ c ≠ '\n' := by
  refine exists_concat_of_not_mem ?_ ?_ <;> cases s <;> decide

/-- **A sign that no other starts with.** -/
theorem sign {s : Symbol} (hs : s.isSolid = true)
    (hG : ∀ rest, G (s.spelling.toList ++ rest)) :
    Spells (text s.spelling) [.symbol s] Any Solid Any G :=
  of_scans (symbol_solid s) fun rest _ => ⟨.token (k := .symbol s) trivial (.inl hs), hG rest⟩

/-- A sign after an operand. -/
theorem closing {s : Symbol} (hs : s.isSolid = true) :
    Spells (text s.spelling) [.symbol s] Any Solid Any EndsOperand := by
  refine sign hs fun rest => .symbol ?_ rest
  rintro rfl
  cases hs

/-- A sign that starts an operand. -/
theorem opening {s : Symbol} (hs : s.isSolid = true)
    (hopens : s.spelling.toList.head?.any opensOperand = true) :
    Spells (text s.spelling) [.symbol s] Any Solid Any OpensOperand := by
  refine sign hs fun rest => ?_
  cases hcs : s.spelling.toList with
  | nil => simp [hcs] at hopens
  | cons c cs => exact ⟨c, cs ++ rest, rfl, by simpa [hcs] using hopens⟩

/-- **A sign that may be the start of another**, before what does not go on it. -/
theorem operator {s : Symbol} (hs : s ≠ .dot) :
    Spells (text s.spelling) [.symbol s] Any Solid Symbol.Ends EndsOperand :=
  of_scans (symbol_solid s) fun rest hrest =>
    ⟨.token (k := .symbol s) trivial (.inr ⟨hrest, fun h => absurd h hs⟩), .symbol hs rest⟩

/-- A minus before an operand. -/
theorem minus : Spells (text "-") [.symbol .minus] Any Solid Symbol.Ends OpensOperand :=
  of_scans (symbol_solid .minus) fun rest hrest =>
    ⟨.token (k := .symbol .minus) trivial (.inr ⟨hrest, nofun⟩), '-', rest, rfl, by decide⟩

/-- A point and the name after it. -/
theorem field {x : String} (hx : IsName x) :
    Spells (text ("." ++ x)) [.symbol .dot, .identifier x] Any Solid EndsOperand EndsOperand := by
  obtain ⟨⟨c, ds, hcs, hc⟩, ds', c', hsolid, hc'⟩ := Kind.chars_of_isPlain (k := .identifier x) hx rfl
  obtain ⟨d, es, hword, hd, -⟩ := hx.word
  have htext : ("." ++ x).toList = '.' :: x.toList := by rw [String.toList_append]; rfl
  refine of_scans ⟨'.' :: ds', c', ?_, hc'⟩ fun rest hrest => ?_
  · rw [htext, List.cons_append, ← hsolid]
    rfl
  have hdot : Scans ['.'] [.symbol .dot] (x.toList ++ rest) := by
    refine .token (k := .symbol .dot) trivial (.inr ⟨?_, fun _ => ?_⟩) <;> rw [hword]
    · exact Symbol.ends_of_opensOperand (opensOperand_of_isWordChar (isWordChar_of_isWordStart hd))
    · exact isDigit_of_isWordStart hd
  have hname : Scans x.toList [.identifier x] rest := .token (k := .identifier x) hx hrest.number.1
  rw [htext]
  refine ⟨hdot.append hname, ?_⟩
  rw [hword]
  exact .dot hd

/-- A blank is a pause. -/
theorem blank : Spells (text " ") [] Any Solid Any Pause :=
  of_scans ⟨[], ' ', rfl, by decide⟩ fun rest _ =>
    ⟨.blank (c := ' ') (by decide) rest, ' ', rest, rfl, .inl rfl⟩

/-- The end of a line. -/
theorem eol : Spells Layout.eol [.newline] Any Any Any Break :=
  fun _ _ => ⟨['\n'], rfl, trivial, fun rest _ => ⟨.newline rest, rest, rfl⟩⟩

/-- Ends of lines. -/
theorem eols (n : Nat) :
    Spells (Layout.eols (n + 1)) (List.replicate (n + 1) .newline) Any Any Any Break := by
  induction n with
  | zero => exact eol
  | succ n ih => exact eol.append ih

/-- A comment is read up to the end of its line. -/
theorem comment_scans {t : String} (ht : (Kind.comment t).Valid) {rest : List Char}
    (hrest : EndsLine rest) : Scans ('/' :: '/' :: t.toList) [.comment t] rest := by
  have hchars : (Kind.comment t).chars = '/' :: '/' :: t.toList := by
    show ("//" ++ t).toList = _
    rw [String.toList_append]
    rfl
  exact hchars ▸ .token (k := .comment t) ht hrest

/-- A comment leaves something on its line. -/
theorem comment_solid {t : String} (ht : (Kind.comment t).Valid) (out : List Char) :
    Solid (t.toList.reverse ++ '/' :: out) := by
  have hmem : '\n' ∉ '/' :: t.toList := List.not_mem_cons_of_ne_of_not_mem (by decide) ht.1
  obtain ⟨ds, c, hds, hc⟩ := exists_concat_of_not_mem (List.cons_ne_nil _ _) hmem
  have hrev : t.toList.reverse ++ ['/'] = c :: ds.reverse := by
    rw [← List.reverse_cons, hds, List.reverse_append]
    rfl
  refine ⟨c, ds.reverse ++ out, ?_, hc⟩
  rw [← List.cons_append, ← hrev, List.append_assoc]
  rfl

/-- **A comment** on a line of its own. -/
theorem comment {t : String} (ht : (Kind.comment t).Valid) :
    Spells (Layout.comment t) [.comment t] Any Solid EndsLine Any := by
  intro out _
  refine ⟨'/' :: '/' :: t.toList, by simp [Layout.comment, write], ?_, fun rest hrest =>
    ⟨comment_scans ht hrest, trivial⟩⟩
  simpa using comment_solid ht ('/' :: out)

/-- **A comment behind something.** -/
theorem trailing {t : String} (ht : (Kind.comment t).Valid) :
    Spells (Layout.trailing t) [.comment t] Solid Solid EndsLine Pause := by
  rintro out ⟨c, out, rfl, hc⟩
  refine ⟨' ' :: '/' :: '/' :: t.toList, ?_, ?_, fun rest hrest => ⟨?_, ' ', _, rfl, .inl rfl⟩⟩
  · simp [Layout.trailing, write, continueLine, hc]
  · simpa using comment_solid ht ('/' :: ' ' :: c :: out)
  · exact (Scans.blank (c := ' ') (by decide) _).append (comment_scans ht hrest)

end Spells

/-- **A comment that continues a line takes back the break of that line.** -/
theorem Layout.foldl_eol_trailing (t : String) {out : List Char} (hout : Solid out) :
    (eol ++ trailing t).foldl write out = (trailing t).foldl write out := by
  obtain ⟨c, out, rfl, hc⟩ := hout
  simp [eol, trailing, write, continueLine, hc]

end ScriptBundler

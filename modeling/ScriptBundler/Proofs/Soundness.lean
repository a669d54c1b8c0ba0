import Mathlib.Tactic.Abel
import ScriptBundler.Proofs.Descent
import ScriptBundler.Proofs.Parsing

/-!
# Proofs/Soundness — what is read is proper

A tree that is derived from the tokens of a text is proper (`Derives.proper`), and its comments say what
those among the tokens say (`Derives.remarks`).  So is a script that is read without a fault, with the
names and constants on its record (`Source.readFrom_of_parse`).

Both rest on the order of the tokens where an operator stands between its operands, and where something
follows a comment: it is further below.
-/

namespace ScriptBundler

open Token (Kind)
open Reader (isLayout isSeparator comment? isTarget)

variable {S : Stock} {clean : Prop} {ts us : List Token} {ps : List Posting} {x : Part}

/-! ## Comments among tokens -/

/-- What the comments among tokens say. -/
def spoken (ts : List Token) : Multiset String := said (ts.map Token.kind)

@[simp] theorem spoken_nil : spoken [] = 0 := rfl

@[simp] theorem spoken_append (ts us : List Token) : spoken (ts ++ us) = spoken ts + spoken us := by
  simp [spoken]

theorem spoken_cons {t : Token} (h : t.kind.remark? = none) (ts : List Token) :
    spoken (t :: ts) = spoken ts := by
  rw [spoken, List.map_cons, said_cons, said_of_none (by simpa using h), zero_add]
  rfl

/-- Comments taken from tokens say what the tokens say. -/
theorem texts_comments (ts : List Token) : texts (ts.filterMap comment?) = spoken ts := by
  induction ts with
  | nil => rfl
  | cons t ts ih =>
    obtain ⟨kind, span⟩ := t
    cases kind with
    | comment text =>
      rw [spoken, List.map_cons, said_cons, ← spoken, ← ih]
      rfl
    | _ => exact ih.trans (spoken_cons rfl ts).symm

@[simp] theorem noted_nil : noted [] = [] := rfl

@[simp] theorem noted_append (ts us : List Token) : noted (ts ++ us) = noted ts ++ noted us :=
  List.filterMap_append

theorem noted_cons {t : Token} {k : Kind} (ht : t.kind = k) (hk : k.remark? = none) (ts : List Token) :
    noted (t :: ts) = noted ts := by
  refine List.filterMap_cons_none ?_
  obtain ⟨kind, span⟩ := t
  obtain rfl : kind = k := ht
  cases kind with
  | comment text => cases hk
  | _ => rfl

theorem noted_comment {t : Token} {text : String} (ht : t.kind = .comment text) (ts : List Token) :
    noted (t :: ts) = ⟨text, t.span⟩ :: noted ts := by
  obtain ⟨kind, span⟩ := t
  obtain rfl : kind = .comment text := ht
  rfl

theorem of_comment? {t : Token} {c : Comment} (h : comment? t = some c) :
    t.kind = .comment c.text ∧ t.span = c.span := by
  revert h
  unfold comment?
  split
  · rename_i text hkind
    rintro ⟨⟩
    exact ⟨hkind, rfl⟩
  · rintro ⟨⟩

/-- A comment that is noted is one of the tokens. -/
theorem exists_comment_of_mem_noted {c : Comment} (h : c ∈ noted ts) :
    ∃ t ∈ ts, t.kind = .comment c.text ∧ t.span = c.span := by
  obtain ⟨t, ht, hc⟩ := List.mem_filterMap.mp h
  exact ⟨t, ht, of_comment? hc⟩

theorem noted_of_none (h : ∀ t ∈ ts, t.kind.remark? = none) : noted ts = [] := by
  induction ts with
  | nil => rfl
  | cons t ts ih =>
    obtain ⟨ht, hts⟩ := List.forall_mem_cons.mp h
    rw [noted_cons rfl ht, ih hts]

/-- There is no comment in a line break. -/
theorem IsBreak.noted (h : IsBreak ts) : noted ts = [] := by
  refine noted_of_none fun t ht => ?_
  have hsep := h t ht
  revert hsep
  unfold isSeparator
  split <;> simp_all [Kind.remark?]

theorem IsAtMost.noted {k : Kind} {c : Option Token} (h : IsAtMost k c) (hk : k.remark? = none) :
    noted c.toList = [] :=
  noted_of_none fun t ht => (h t (Option.mem_toList.mp ht)).symm ▸ hk

theorem BinaryOp.remark?_token (op : BinaryOp) : op.token.remark? = none := by cases op <;> rfl

theorem UnaryOp.remark?_token (op : UnaryOp) : op.token.remark? = none := by cases op <;> rfl

theorem Literal.remark?_kind (l : Literal) : l.kind.remark? = none := by
  rcases l with _ | _ | (_ | _) | _ <;> rfl

theorem remark?_of_assignOp? {k : Kind} {op : AssignOp} (h : Reader.assignOp? k = some op) :
    k.remark? = none := by
  cases k with
  | comment text => cases h
  | _ => rfl

/-- There is no comment in a directive for a value. -/
theorem ValueDirective.Follows.noted {name : String} {d : ValueDirective} (h : Follows name ts d) :
    noted ts = [] := by
  refine noted_of_none fun t ht => ?_
  cases h with
  | envar hkind | inject hkind => simp_all [Kind.remark?]
  | _ => cases ht

/-- There is no comment in a directive. -/
theorem Directive.Follows.noted {name : String} {d : Directive} (h : Follows name ts d) :
    noted ts = [] := by
  refine noted_of_none fun t ht => ?_
  cases h with
  | import_ hi hf hkind =>
    simp only [List.mem_cons, List.not_mem_nil, or_false] at ht
    rcases ht with rfl | rfl | rfl <;> simp [*, Kind.remark?]
  | include_ hkind => simp_all [Kind.remark?]
  | debugger => cases ht

/-! ## Order -/

/-- A stretch does not reach beyond the lines of the tokens `ts`, and goes from the start of one of them
to the end of another. -/
structure Within (ts : List Token) (span : Span) : Prop where
  lower : ∀ n, (∀ t ∈ ts, n ≤ t.span.start.line) → n ≤ span.start.line
  upper : ∀ n, (∀ t ∈ ts, t.span.stop.line ≤ n) → span.stop.line ≤ n
  starts : ∃ t ∈ ts, t.span.start.offset = span.start.offset
  stops : ∃ t ∈ ts, t.span.stop.offset = span.stop.offset

theorem Within.of_mem {t : Token} (h : t ∈ ts) : Within ts t.span :=
  ⟨fun _ hn => hn t h, fun _ hn => hn t h, ⟨t, h, rfl⟩, t, h, rfl⟩

theorem Within.merge (a b : Span) (ha : Within ts a) (hb : Within ts b) : Within ts (a.merge b) where
  lower n hn := Nat.le_min.mpr ⟨ha.lower n hn, hb.lower n hn⟩
  upper n hn := Nat.max_le.mpr ⟨ha.upper n hn, hb.upper n hn⟩
  starts := by
    show ∃ t ∈ ts, t.span.start.offset = min a.start.offset b.start.offset
    rcases Nat.le_total a.start.offset b.start.offset with h | h
    · rw [Nat.min_eq_left h]
      exact ha.starts
    · rw [Nat.min_eq_right h]
      exact hb.starts
  stops := by
    show ∃ t ∈ ts, t.span.stop.offset = max a.stop.offset b.stop.offset
    rcases Nat.le_total a.stop.offset b.stop.offset with h | h
    · rw [Nat.max_eq_right h]
      exact hb.stops
    · rw [Nat.max_eq_left h]
      exact ha.stops

/-- A part lies within the tokens it stands for. -/
theorem Derives.within (h : Derives clean ts ps x) : x.At (Within ts) := h.at .merge fun _ => .of_mem

/-- Tokens of the stock, one after the other, before the end of a text. -/
structure Laid (S : Stock) (ts : List Token) : Prop where
  ordered : ts.Pairwise Token.Before
  upright : ∀ t ∈ ts, t.Upright
  places : ∀ t ∈ ts, S.place t
  kinds : ∀ t ∈ ts, S.token t.kind
  goesOn : ∀ t ∈ ts, t.kind ≠ .eof

namespace Laid

/-- Some of the tokens are laid out as all are. -/
theorem sublist (h : Laid S ts) (hsub : us.Sublist ts) : Laid S us :=
  ⟨h.ordered.sublist hsub, fun t ht => h.upright t (hsub.subset ht),
    fun t ht => h.places t (hsub.subset ht), fun t ht => h.kinds t (hsub.subset ht),
    fun t ht => h.goesOn t (hsub.subset ht)⟩

theorem left (h : Laid S (ts ++ us)) : Laid S ts := h.sublist (List.sublist_append_left ..)

theorem right (h : Laid S (ts ++ us)) : Laid S us := h.sublist (List.sublist_append_right ..)

theorem tail {t : Token} (h : Laid S (t :: ts)) : Laid S ts := h.sublist (List.sublist_cons_self ..)

theorem head {t : Token} {k : Kind} (h : Laid S (t :: ts)) (ht : t.kind = k) : S.token k :=
  ht ▸ h.kinds t (List.mem_cons_self ..)

/-- What comments say is in the stock. -/
theorem comments (h : Laid S ts) : ∀ c ∈ noted ts, S.token (.comment c.text) := fun c hc => by
  obtain ⟨t, ht, htext, -⟩ := exists_comment_of_mem_noted hc
  exact htext ▸ h.kinds t ht

/-- What follows a comment is further below. -/
theorem comment_lt {c : Token} {text : String} {span : Span} (h : Laid S (c :: ts))
    (htext : c.kind = .comment text) (hspan : Within ts span) (hhead : ∀ t ∈ ts.head?, t.kind ≠ .newline) :
    c.span.stop.line < span.start.line := by
  obtain ⟨hafter, hrest⟩ := List.pairwise_cons.mp h.ordered
  refine hspan.lower _ fun t ht => ?_
  obtain ⟨u, us, rfl⟩ := List.exists_cons_of_ne_nil (List.ne_nil_of_mem ht)
  have hu : c.span.stop.line < u.span.start.line := by
    rcases (hafter u (List.mem_cons_self ..)).comment text htext with hnl | heof | hlt
    · exact absurd hnl (hhead u rfl)
    · exact absurd heof (h.goesOn u (by simp))
    · exact hlt
  rcases List.mem_cons.mp ht with rfl | ht
  · exact hu
  · have hnext := ((List.pairwise_cons.mp hrest).1 t ht).line
    have hupright := (h.upright u (by simp)).line
    omega

variable {ls gs rs : List Token} {o : Token} {a b : Span}

/-- An operator that stands between two stretches joins them. -/
theorem joined {op : BinaryOp} (h : Laid S (ls ++ (o :: (gs ++ rs)))) (ho : o.kind = op.token)
    (ha : Within ls a) (hb : Within rs b) : S.Joined op (a.merge b) := by
  obtain ⟨-, hright, hleft⟩ := List.pairwise_append.mp h.ordered
  have hafter := (List.pairwise_cons.mp hright).1
  have hmem : ∀ {t}, t ∈ ls ∨ t = o ∨ t ∈ rs → t ∈ ls ++ (o :: (gs ++ rs)) := by
    rintro t (ht | rfl | ht) <;> simp [*]
  obtain ⟨first, hfirst, hstart⟩ := ha.starts
  obtain ⟨last, hlast, hstop⟩ := hb.stops
  -- The first token starts before the stretch on the right does, and the last one ends behind the left.
  obtain ⟨t, ht, hstart'⟩ := hb.starts
  obtain ⟨u, hu, hstop'⟩ := ha.stops
  have hfirst' := (h.upright first (hmem (.inl hfirst))).offset
  have hlast' := (h.upright last (hmem (.inr (.inr hlast)))).offset
  have hlower := (hleft first hfirst t (by simp [ht])).offset
  have hupper := (hleft u hu last (by simp [hlast])).offset
  refine ⟨first, o, last, h.places _ (hmem (.inl hfirst)), h.places _ (hmem (.inr (.inl rfl))),
    h.places _ (hmem (.inr (.inr hlast))), ho, h.goesOn last (hmem (.inr (.inr hlast))), ?_,
    (hleft first hfirst o (List.mem_cons_self ..)).offset, (hafter last (by simp [hlast])).offset, ?_⟩
  · show _ = min a.start.offset b.start.offset
    omega
  · show _ = max a.stop.offset b.stop.offset
    omega

/-- What follows a comment that stands between two stretches is further below than both. -/
theorem lt_of_comment (h : Laid S (ls ++ (o :: (gs ++ rs)))) (ha : Within ls a) (hb : Within rs b)
    (hgs : noted gs ≠ []) (hrs : Opens rs) : a.stop.line < b.start.line := by
  obtain ⟨d, hd⟩ := List.exists_mem_of_ne_nil _ hgs
  obtain ⟨c, hc, htext, -⟩ := exists_comment_of_mem_noted hd
  have hstop : a.stop.line ≤ c.span.start.line :=
    ha.upper _ fun t ht => ((List.pairwise_append.mp h.ordered).2.2 t ht c (by simp [hc])).line
  have hline := (h.upright c (by simp [hc])).comment _ htext
  have hsub : (c :: rs).Sublist (gs ++ rs) := (List.singleton_sublist.mpr hc).append (.refl rs)
  have hstart := (h.right.tail.sublist hsub).comment_lt htext hb fun t ht hnewline => by
    obtain ⟨u, us, rfl, hu⟩ := hrs
    obtain rfl : u = t := by simpa using ht
    rw [hnewline] at hu
    cases hu
  omega

end Laid

/-! ## Items between brackets -/

section Items

variable {α : Type} [Item α] [Content α] {pending : List Comment} {qs : List (Piece α)}
  {r : List α × List Comment}

/-- Items between brackets are proper if each of them is. -/
theorem Listed.proper (h : Listed pending ts qs r) (hlaid : Laid S ts)
    (hpending : ∀ c ∈ pending, S.token (.comment c.text))
    (hqs : ∀ q ∈ qs, Content.proper S q.value) :
    (∀ a ∈ r.1, Content.proper S a) ∧ ∀ c ∈ r.2, S.token (.comment c.text) := by
  induction h with
  | nil => exact ⟨by simp, hpending⟩
  | last =>
    refine ⟨List.forall_mem_singleton.mpr ?_, by simp⟩
    refine Content.proper_trail (Content.proper_lead (hqs _ (by simp)) hpending) fun c hc => ?_
    rcases List.mem_append.mp hc with hc | hc
    · exact hlaid.right.left.comments c hc
    · exact hlaid.right.right.right.comments c hc
  | cons _ _ _ htake _ ih =>
    obtain ⟨hq, hqs⟩ := List.forall_mem_cons.mp hqs
    obtain ⟨ha, hrest⟩ := Content.proper_takeTrailing htake
      (Content.proper_lead hq hpending) hlaid.right.right.tail.left.comments
    obtain ⟨has, hinner⟩ := ih hlaid.right.right.tail.right hrest hqs
    exact ⟨List.forall_mem_cons.mpr ⟨Content.proper_trail ha hlaid.right.left.comments, has⟩, hinner⟩

/-- What an item does not take of the comments behind its comma leads the next one. -/
theorem texts_passed {pending item after rest inside inner items a : Multiset String}
    (before : Multiset String) (htaken : a + rest = pending + item + after)
    (hrest : rest + inside = inner + items) :
    pending + (item + (before + (after + inside))) = inner + (a + before + items) :=
  calc pending + (item + (before + (after + inside)))
    _ = pending + item + after + inside + before := by abel
    _ = rest + inside + a + before := by rw [← htaken]; abel
    _ = inner + (a + before + items) := by rw [hrest]; abel

/-- Comments go to the items, or to the brackets if there are none. -/
theorem Listed.remarks (h : Listed pending ts qs r)
    (hqs : ∀ q ∈ qs, texts (noted q.tokens) = Content.remarks q.value) :
    texts pending + texts (noted ts) = texts r.2 + (r.1.map Content.remarks).sum ∧
      (r.1 ≠ [] → r.2 = []) := by
  induction h with
  | nil => simp
  | last _ hcomma =>
    have hq := hqs _ (List.mem_singleton_self _)
    refine ⟨?_, fun _ => rfl⟩
    simp only [noted_append, hcomma.noted rfl, texts_append, hq, List.map_singleton, List.sum_singleton,
      Content.remarks_trail, Content.remarks_lead, texts_nil]
    abel
  | cons _ hcomma _ htake hrest ih =>
    obtain ⟨hq, hqs⟩ := List.forall_mem_cons.mp hqs
    obtain ⟨hsum, hinner⟩ := ih hqs
    have htaken := Content.remarks_takeTrailing htake
    rw [Content.remarks_lead, ← hq] at htaken
    refine ⟨?_, fun _ => hinner (by cases hrest <;> simp)⟩
    rw [noted_append, noted_append, noted_cons hcomma rfl, noted_append, texts_append,
      texts_append, texts_append, List.map_cons, List.sum_cons, Content.remarks_trail]
    exact texts_passed _ htaken hsum

variable {close : Symbol}

/-- What is enclosed in brackets is proper. -/
theorem Enclosed.proper (h : Enclosed close ts qs r) (hlaid : Laid S ts)
    (hqs : ∀ q ∈ qs, Content.proper S q.value) :
    (∀ a ∈ r.1, Content.proper S a) ∧ ∀ c ∈ r.2, S.token (.comment c.text) := by
  obtain ⟨-, hlisted, -⟩ := h
  exact hlisted.proper hlaid.right.left hlaid.left.comments hqs

/-- Comments between brackets go to the items, or inside if there are none. -/
theorem Enclosed.remarks (h : Enclosed close ts qs r)
    (hqs : ∀ q ∈ qs, texts (noted q.tokens) = Content.remarks q.value) :
    texts (noted ts) = (if r.1.isEmpty then texts r.2 else 0) + (r.1.map Content.remarks).sum := by
  obtain ⟨-, hlisted, hc⟩ := h
  obtain ⟨hsum, hinner⟩ := hlisted.remarks hqs
  rw [noted_append, noted_append, noted_cons hc rfl, noted_nil, List.append_nil, texts_append,
    hsum]
  split
  · rfl
  · rename_i hne
    rw [hinner (by simpa using hne), texts_nil]

end Items

theorem Expr.Proper.lead {e : Expr} {cs : List Comment} (h : e.Proper S)
    (hcs : ∀ c ∈ cs, S.token (.comment c.text)) : (Item.lead e cs).Proper S :=
  Content.proper_lead (a := e) h hcs

theorem Expr.Proper.trail {e : Expr} {cs : List Comment} (h : e.Proper S)
    (hcs : ∀ c ∈ cs, S.token (.comment c.text)) : (Item.trail e cs).Proper S :=
  Content.proper_trail (a := e) h hcs

section Parts

variable {qs : List (Piece Param)} {r : List Param × List Comment}

/-- Parameters are proper if each of them is. -/
theorem Parameters.proper (h : Parameters ts qs r) (hlaid : Laid S ts)
    (hqs : ∀ q ∈ qs, q.value.Proper S) :
    (∀ p ∈ r.1, p.Proper S) ∧ ∀ c ∈ r.2, S.token (.comment c.text) := by
  cases h with
  | none => simp
  | some _ henclosed => exact henclosed.proper hlaid.tail hqs

/-- Comments among parameters go to them, or inside if there are none. -/
theorem Parameters.remarks (h : Parameters ts qs r)
    (hqs : ∀ q ∈ qs, texts (noted q.tokens) = Content.remarks q.value) :
    texts (noted ts) = (if r.1.isEmpty then texts r.2 else 0) + (r.1.map Content.remarks).sum := by
  cases h with
  | none => simp
  | some ho henclosed => rw [noted_cons ho rfl, henclosed.remarks hqs]

variable {q : Option (Piece Expr)} {loose : List Comment} {r : Option Expr × List Comment}

/-- An end of a slice is proper. -/
theorem SliceEnd.proper (h : SliceEnd loose ts q r) (hlaid : Laid S ts)
    (hloose : ∀ c ∈ loose, S.token (.comment c.text))
    (hq : ∀ p ∈ q, p.value.Proper S) :
    Expr.Proper? S r.1 ∧ ∀ c ∈ r.2, S.token (.comment c.text) := by
  obtain ⟨-, -⟩ := h
  have hbefore : ∀ c ∈ loose ++ noted _, S.token (.comment c.text) :=
    List.forall_mem_append.mpr ⟨hloose, hlaid.left.comments⟩
  cases q with
  | none => exact ⟨trivial, List.forall_mem_append.mpr ⟨hbefore, hlaid.right.right.comments⟩⟩
  | some p =>
    exact ⟨((hq p rfl).lead hbefore).trail hlaid.right.right.comments, by simp [Reader.around]⟩

/-- Comments around an end of a slice go to it, if it is there. -/
theorem SliceEnd.remarks (h : SliceEnd loose ts q r)
    (hq : ∀ p ∈ q, texts (noted p.tokens) = Content.remarks p.value) :
    texts loose + texts (noted ts) = Expr.remarks? r.1 + texts r.2 ∧ (r.1 ≠ none → r.2 = []) := by
  obtain ⟨-, -⟩ := h
  cases q with
  | none =>
    refine ⟨?_, fun hne => absurd rfl hne⟩
    simp [Reader.around, Expr.remarks?]
  | some p =>
    refine ⟨?_, fun _ => rfl⟩
    simp only [Reader.around, Option.map_some, Expr.remarks?_some, Content.remarks_trail,
      Content.remarks_lead, ← hq p rfl]
    simp [add_assoc]

variable {pending : List Comment} {qs : List (Piece Expr)} {args : List Expr}

/-- Arguments are proper if each of them is. -/
theorem Arguments.proper (h : Arguments pending ts qs args) (hlaid : Laid S ts)
    (hpending : ∀ c ∈ pending, S.token (.comment c.text))
    (hqs : ∀ q ∈ qs, q.value.Proper S) : ∀ e ∈ args, e.Proper S := by
  induction h with
  | last => exact List.forall_mem_singleton.mpr ((hqs _ (by simp)).lead hpending)
  | cons _ _ htake _ ih =>
    obtain ⟨hq, hqs⟩ := List.forall_mem_cons.mp hqs
    obtain ⟨ha, hrest⟩ := Content.proper_takeTrailing htake (hq.lead hpending)
      hlaid.right.tail.left.comments
    exact List.forall_mem_cons.mpr ⟨ha, ih hlaid.right.tail.right hrest hqs⟩

/-- Comments among arguments go to them. -/
theorem Arguments.remarks (h : Arguments pending ts qs args)
    (hqs : ∀ q ∈ qs, texts (noted q.tokens) = Content.remarks q.value) :
    texts pending + texts (noted ts) = (args.map Content.remarks).sum ∧ args ≠ [] := by
  induction h with
  | last =>
    refine ⟨?_, by simp⟩
    rw [List.map_singleton, List.sum_singleton, Content.remarks_lead, ← hqs _ (by simp)]
  | cons hcomma _ htake _ ih =>
    obtain ⟨hq, hqs⟩ := List.forall_mem_cons.mp hqs
    have htaken := Content.remarks_takeTrailing htake
    rw [Content.remarks_lead, ← hq] at htaken
    refine ⟨?_, by simp⟩
    have hrest := (ih hqs).1
    have hsum := texts_passed 0 htaken (hrest.trans (zero_add _).symm)
    rw [noted_append, noted_cons hcomma rfl, noted_append, texts_append, texts_append,
      List.map_cons, List.sum_cons]
    simpa using hsum

end Parts

/-! ## Trees -/

/-- A part is proper. -/
def Part.Proper (S : Stock) : Part → Prop
  | .expr e => e.Proper S
  | .entry e => e.Proper S
  | .param p => p.Proper S
  | .stmt a => a.Proper S
  | .arms _ r => r.1 ≠ [] ∧ Clause.AllProper S r.1 ∧ Block.Proper? S r.2
  | .clauses r => Clause.AllProper S r.1 ∧ Block.Proper? S r.2
  | .lines ss => Stmt.AllProper S ss

theorem Literal.proper_of_kind {l : Literal} (h : S.token l.kind) : l.Proper S := by
  rcases l with _ | _ | (_ | _) | _
  · exact h
  · exact h
  all_goals trivial

/-- A directive for a value is proper. -/
theorem ValueDirective.Follows.proper {name : String} {d : ValueDirective} (h : Follows name ts d)
    (hhash : S.token (.symbol .hash)) (hts : Laid S ts) : d.Proper S := by
  cases h with
  | envar ht => exact ⟨hhash, hts.head ht⟩
  | _ => exact hhash

/-- A directive is proper. -/
theorem Directive.Follows.proper {name : String} {d : Directive} (h : Follows name ts d)
    (hhash : S.token (.symbol .hash)) (hts : Laid S ts) : d.Proper S := by
  cases h with
  | import_ hi => exact ⟨hhash, hts.head hi⟩
  | _ => exact hhash

theorem Comments.proper_inner {inner : List Comment} (h : ∀ c ∈ inner, S.token (.comment c.text)) :
    ({ inner } : Comments).Proper S := by
  simpa [Comments.Proper] using h

theorem Comments.proper_empty : ({} : Comments).Proper S := proper_inner (by simp)

/-- What can be assigned to binds tightest. -/
theorem Expr.level_of_isTarget {e : Expr} (h : isTarget e = true) : e.level = 11 := by
  revert h
  unfold isTarget Expr.level
  split <;> simp_all [Expr.Form.level]

/-- An expression as it is read leads with the comments put before it. -/
theorem Expr.leading_lead {e : Expr} (h : Derives clean ts ps (.expr e)) (cs : List Comment) :
    (Item.lead e cs).comments.leading = cs := by
  show cs ++ e.comments.leading = cs
  rw [h.comments_eq.1, List.append_nil]

/-- An `if` on one line is proper with one statement for each condition. -/
theorem proper_mkInline {start : Span} {e : Expr} {a : Stmt} {r : List Clause × Option Block}
    (he : e.Proper S) (ha : a.Proper S) (hcs : Clause.AllProper S r.1) (hlast : Block.Proper? S r.2)
    (hline : OnOneLine S.inline (⟨e, Reader.single a, start.merge a.span⟩ :: r.1) r.2) :
    (mkInline start e a r).Proper S :=
  ⟨List.cons_ne_nil _ _, ⟨⟨he, ha, by simp, trivial⟩, hcs⟩, hlast, fun _ => hline⟩

/-- The statement after an `else` goes on the clauses if it is such an `if` itself. -/
theorem proper_inlineElse (hinline : ∀ a, S.inline a) {a b : Stmt} (ha : a.isComment = false)
    (hopen : a.isOpen = false) (hb : b.Proper S) (hcomment : b.isComment = false) (e : Expr) (span : Span) :
    Clause.AllProper S (Reader.inlineElse true b).1 ∧ Block.Proper? S (Reader.inlineElse true b).2 ∧
      OnOneLine S.inline (⟨e, Reader.single a, span⟩ :: (Reader.inlineElse true b).1)
        (Reader.inlineElse true b).2 := by
  have hfirst : (Reader.single a).IsOne fun s => S.inline s ∧ s.isOpen = false :=
    ⟨a, rfl, ha, hinline a, hopen⟩
  cases hin : b.isInline with
  | false =>
    rw [Stmt.inlineElse_of_not_isInline _ hin]
    exact ⟨trivial, ⟨hb, by simp, trivial⟩, hfirst, b, rfl, hcomment, hinline b, hin⟩
  | true =>
    obtain ⟨form, bspan⟩ := b
    obtain ⟨cs, last, rfl⟩ : ∃ cs last, form = .if_ cs last true := by
      revert hin
      unfold Stmt.isInline
      split <;> simp_all
    obtain ⟨hne, hcs, hlast, hline⟩ := hb
    obtain ⟨d, ds, rfl⟩ := List.exists_cons_of_ne_nil hne
    exact ⟨hcs, hlast, hfirst, hline rfl⟩

/-- The first statement of a block starts with a token that is no line break. -/
theorem Derives.first_line {ss : List Stmt} (h : Derives clean ts ps (.lines ss)) :
    ∀ a ∈ ss.head?, ∃ as, as.Sublist ts ∧ Within as a.span ∧ ∀ t ∈ as.head?, t.kind ≠ .newline := by
  generalize hx : Part.lines ss = x at h
  induction h generalizing ss with
  | done =>
    cases hx
    simp
  | comment _ ht =>
    cases hx
    rintro a ⟨⟩
    refine ⟨[_], by simp, .of_mem (List.mem_singleton_self _), ?_⟩
    rintro _ ⟨⟩ hnewline
    rw [ht] at hnewline
    cases hnewline
  | line _ hline =>
    cases hx
    rintro a ⟨⟩
    refine ⟨_, (List.sublist_append_left ..).trans (List.sublist_append_right ..), hline.within.1, ?_⟩
    obtain ⟨t, us, rfl, ht⟩ := hline.opens rfl
    rintro _ ⟨⟩ hnewline
    rw [hnewline] at ht
    cases ht
  | lost _ _ _ ih =>
    cases hx
    intro a ha
    obtain ⟨as, hsub, hrest⟩ := ih rfl a ha
    exact ⟨as, (hsub.trans (List.sublist_append_right ..)).trans (List.sublist_append_right ..), hrest⟩
  | _ => cases hx

/-- **What is derived is proper.** -/
theorem Derives.proper (hinline : ∀ a, S.inline a) (h : Derives clean ts ps x) (hlaid : Laid S ts) :
    x.Proper S := by
  induction h with
  | literal ht => exact ⟨Literal.proper_of_kind (hlaid.head ht), Comments.proper_empty⟩
  | negated _ ht => exact ⟨hlaid.tail.head ht, Comments.proper_empty⟩
  | identifier ht => exact ⟨hlaid.head ht, Comments.proper_empty⟩
  | paren _ _ _ _ _ ih =>
    have he := Expr.Proper.lead (ih hlaid.tail.right.left) hlaid.tail.left.comments
    exact ⟨he.trail hlaid.tail.right.right.left.comments, Comments.proper_empty⟩
  | list _ _ henclosed ih =>
    obtain ⟨hes, hinner⟩ := henclosed.proper hlaid.tail fun q hq =>
      ih q hq (hlaid.tail.sublist (henclosed.sublist q hq))
    exact ⟨Expr.allProper_iff.mpr hes, Comments.proper_inner hinner⟩
  | map _ _ henclosed ih =>
    obtain ⟨hes, hinner⟩ := henclosed.proper hlaid.tail fun q hq =>
      ih q hq (hlaid.tail.sublist (henclosed.sublist q hq))
    exact ⟨Entry.allProper_iff.mpr hes, Comments.proper_inner hinner⟩
  | function _ _ hparams _ _ _ ihs ih =>
    obtain ⟨hps, hinner⟩ := hparams.proper hlaid.tail.left fun q hq =>
      ihs q hq (hlaid.tail.left.sublist (hparams.sublist q hq))
    exact ⟨⟨Param.allProper_iff.mpr hps, ih hlaid.tail.right.left⟩, Comments.proper_inner hinner⟩
  | directive hhash _ hd =>
    exact ⟨hd.proper (hlaid.head hhash) hlaid.tail.tail.left, Comments.proper_empty⟩
  | member _ hlevel _ hf ih =>
    exact ⟨⟨ih hlaid.left, hlevel, hlaid.right.tail.head hf⟩, Comments.proper_empty⟩
  | index _ hlevel _ _ hi _ ihb ihi =>
    obtain ⟨hproper, -⟩ := hi.proper hlaid.right.tail.left (by simp) fun q hq =>
      Option.some.inj hq ▸ ihi (hlaid.right.tail.left.sublist (hi.sublist _ rfl))
    exact ⟨⟨ihb hlaid.left, hlevel, hproper, rfl⟩, Comments.proper_empty⟩
  | slice _ hlevel _ _ hi _ _ hj _ ihb ihi ihj =>
    obtain ⟨hstart, hloose⟩ := hi.proper hlaid.right.tail.left (by simp) fun q hq =>
      ihi q hq (hlaid.right.tail.left.sublist (hi.sublist q hq))
    obtain ⟨hstop, hinner⟩ := hj.proper hlaid.right.tail.right.tail.left hloose fun q hq =>
      ihj q hq (hlaid.right.tail.right.tail.left.sublist (hj.sublist q hq))
    exact ⟨⟨ihb hlaid.left, hlevel, hstart, hstop⟩, Comments.proper_inner hinner⟩
  | call _ hlevel _ _ henclosed ihb ihs =>
    obtain ⟨hargs, hinner⟩ := henclosed.proper hlaid.right.tail fun q hq =>
      ihs q hq (hlaid.right.tail.sublist (henclosed.sublist q hq))
    exact ⟨⟨ihb hlaid.left, hlevel, Expr.allProper_iff.mpr hargs⟩, Comments.proper_inner hinner⟩
  | binary hl hleft ho hgs hr hright ihl ihr =>
    have hjoined := hlaid.joined ho hl.within hr.within
    have hproper := Expr.Proper.lead (ihr hlaid.right.tail.right) hlaid.right.tail.left.comments
    refine ⟨⟨⟨hlaid.right.head ho, hjoined, fun hne => ?_⟩, ihl hlaid.left, hleft, hproper, hright⟩,
      Comments.proper_empty⟩
    rw [Expr.leading_lead hr] at hne
    exact hlaid.lt_of_comment hl.within hr.within hne (hr.opens rfl)
  | unary _ _ hlevel hneg ih => exact ⟨⟨ih hlaid.tail, hlevel, hneg⟩, Comments.proper_empty⟩
  | entry _ _ _ _ _ ihk ihv =>
    refine ⟨ihk hlaid.left, ihv hlaid.right.right.tail.right, fun c hc => ?_⟩
    simp only [List.nil_append, List.append_nil] at hc
    rcases List.mem_append.mp hc with hc | hc
    · exact hlaid.right.left.comments c hc
    · exact hlaid.right.right.tail.left.comments c hc
  | param hi => exact ⟨hlaid.head hi, trivial, Comments.proper_empty⟩
  | default hi _ _ ih => exact ⟨hlaid.head hi, ih hlaid.tail.tail, Comments.proper_empty⟩
  | simple _ ih => exact ih hlaid
  | assign _ htarget _ _ ihe ihv => exact ⟨ihe hlaid.left, htarget, ihv hlaid.right.tail⟩
  | command _ htarget _ hargs _ ihe ihs =>
    have hproper := hargs.proper hlaid.right (by simp) fun q hq =>
      ihs q hq (hlaid.right.sublist (hargs.sublist q hq))
    exact ⟨⟨ihe hlaid.left, Nat.le_of_eq (Expr.level_of_isTarget htarget).symm,
      Expr.allProper_iff.mpr hproper⟩, Comments.proper_empty⟩
  | leave | break_ | continue_ => trivial
  | return_ _ _ ih => exact ih hlaid.tail
  | while_ _ _ _ _ _ ihc ihb => exact ⟨ihc hlaid.tail.left, ihb hlaid.tail.right.left⟩
  | for_ _ hi _ _ _ _ _ ihc ihb =>
    exact ⟨hlaid.tail.head hi, ihc hlaid.tail.tail.tail.left, ihb hlaid.tail.tail.tail.right.left⟩
  | if_ _ _ ih =>
    obtain ⟨hne, hcs, hlast⟩ := ih hlaid.tail
    exact ⟨hne, hcs, hlast, fun h => by cases h⟩
  | inline _ _ _ ha ihc iha =>
    exact proper_mkInline (ihc hlaid.tail.left) (iha hlaid.tail.right.tail) trivial trivial
      ⟨_, rfl, ha.not_isComment, hinline _⟩
  | inlineElse _ _ _ ha hopen _ hb ihc iha ihb =>
    obtain ⟨hcs, hlast, hline⟩ := proper_inlineElse hinline ha.not_isComment hopen
      (ihb hlaid.tail.right.tail.right.tail) hb.not_isComment _ _
    exact proper_mkInline (ihc hlaid.tail.left) (iha hlaid.tail.right.tail.left) hcs hlast hline
  | mark hhash _ hd => exact hd.proper (hlaid.head hhash) hlaid.tail.tail.left
  | arm _ _ _ _ ihc ihb ihr =>
    obtain ⟨hcs, hlast⟩ := ihr hlaid.right.tail.right
    exact ⟨List.cons_ne_nil _ _, ⟨⟨ihc hlaid.left, ihb hlaid.right.tail.left⟩, hcs⟩, hlast⟩
  | closed => exact ⟨trivial, trivial⟩
  | else_ _ _ _ _ ih => exact ⟨trivial, ih hlaid.tail.left⟩
  | elseIf _ _ _ ih => exact (ih hlaid.tail.tail).2
  | done => trivial
  | comment _ ht hrest ih =>
    refine ⟨hlaid.right.head ht, fun b hb _ => ?_, ih hlaid.right.tail⟩
    obtain ⟨as, hsub, hwithin, hhead⟩ := hrest.first_line b hb
    have hlt := (hlaid.right.sublist (hsub.cons_cons _)).comment_lt ht hwithin hhead
    have hline := (hlaid.upright _ (by simp)).comment _ ht
    exact ⟨hline ▸ hlt, hlt⟩
  | line _ ha _ iha ihs =>
    refine ⟨iha hlaid.right.left, fun b _ hcomment => ?_, ihs hlaid.right.right⟩
    rw [ha.not_isComment] at hcomment
    cases hcomment
  | lost _ _ _ ih => exact ih hlaid.right.right

/-! ## Comments -/

/-- The remarks of a part. -/
def Part.remarks : Part → Multiset String
  | .expr e => e.inside
  | .entry e => Content.remarks e
  | .param p => Content.remarks p
  | .stmt a => a.remarks
  | .arms _ r => Clause.allRemarks r.1 + Block.remarks? r.2
  | .clauses r => Clause.allRemarks r.1 + Block.remarks? r.2
  | .lines ss => Stmt.allRemarks ss

theorem Expr.inside_lead (e : Expr) (cs : List Comment) : (Item.lead e cs).inside = e.inside :=
  Content.inside_withComments (a := e) (by rfl)

/-- An expression as it is read, as an item. -/
theorem Derives.remarks_eq {e : Expr} (h : Derives clean ts ps (.expr e)) :
    Content.remarks e = e.inside := by
  obtain ⟨hleading, htrailing⟩ := h.comments_eq
  show texts e.comments.leading + e.inside + texts e.comments.trailing = e.inside
  rw [hleading, htrailing, texts_nil, zero_add, add_zero]

theorem Expr.Form.remarks_paren (inner : List Comment) (e : Expr) :
    (Expr.Form.paren e).remarks inner = Content.remarks e := by
  obtain ⟨form, span, cs⟩ := e
  rfl

theorem Expr.Form.remarks_index (inner : List Comment) (b i : Expr) :
    (Expr.Form.index b i).remarks inner = b.inside + Content.remarks i := by
  obtain ⟨form, span, cs⟩ := i
  rfl

theorem Entry.remarks_mk (key value : Expr) (span : Span) (cs : List Comment) :
    Content.remarks (⟨key, value, span, { trailing := cs }⟩ : Entry) =
      key.inside + value.inside + texts cs :=
  congrArg (· + texts cs) (zero_add _)

/-- Comments before the right operand have a place, because it is further below. -/
theorem remarks_mkBinary {op : BinaryOp} {l r : Expr} {cs : List Comment}
    (hr : Derives clean ts ps (.expr r)) (hbelow : cs ≠ [] → l.span.stop.line < r.span.start.line) :
    (Reader.mkBinary op l (Item.lead r cs)).inside = l.inside + (texts cs + r.inside) := by
  show l.inside + (if l.span.stop.line < r.span.start.line then
    texts (Item.lead r cs).comments.leading else 0) + (Item.lead r cs).inside = _
  rw [Expr.leading_lead hr, Expr.inside_lead, ← add_assoc]
  split
  · rfl
  · rename_i hnot
    have hcs : cs = [] := by
      by_contra hne
      exact hnot (hbelow hne)
    rw [hcs, texts_nil]

/-- The remarks of an `if` on one line. -/
theorem remarks_mkInline (start : Span) (e : Expr) (a : Stmt) (r : List Clause × Option Block) :
    (mkInline start e a r).remarks = e.inside + a.remarks + (Clause.allRemarks r.1 + Block.remarks? r.2) := by
  show e.inside + (a.remarks + 0) + Clause.allRemarks r.1 + Block.remarks? r.2 = _
  rw [add_zero, add_assoc]

/-- What follows an `else` keeps its remarks as clauses. -/
theorem remarks_inlineElse (b : Stmt) :
    Clause.allRemarks (Reader.inlineElse true b).1 + Block.remarks? (Reader.inlineElse true b).2 =
      b.remarks := by
  obtain ⟨form, span⟩ := b
  unfold Reader.inlineElse
  split
  · rename_i hform
    obtain rfl : form = _ := hform
    rfl
  · exact (zero_add _).trans (add_zero _)

/-- **What is derived without a fault says what its tokens say.** -/
theorem Derives.remarks (hclean : clean) (h : Derives clean ts ps x) (hlaid : Laid S ts) :
    texts (noted ts) = x.remarks := by
  induction h with
  | literal ht =>
    rw [noted_cons ht (Literal.remark?_kind _)]
    rfl
  | negated ho ht =>
    rw [noted_cons ho rfl, noted_cons ht rfl]
    rfl
  | identifier ht | param ht | leave ht | break_ ht | continue_ ht =>
    rw [noted_cons ht rfl]
    rfl
  | paren ho _ he _ hc ih =>
    rw [noted_cons ho rfl, noted_append, noted_append, noted_append, noted_cons hc rfl, noted_nil,
      List.append_nil, texts_append, texts_append, ih hlaid.tail.right.left, Part.remarks, Part.remarks,
      Expr.inside, Expr.Form.remarks_paren, Content.remarks_trail, Content.remarks_lead, he.remarks_eq,
      add_assoc]
  | list ho hqs henclosed ih =>
    rw [noted_cons ho rfl, henclosed.remarks fun q hq =>
      (ih q hq (hlaid.tail.sublist (henclosed.sublist q hq))).trans (hqs q hq).remarks_eq.symm,
      ← Expr.allRemarks_eq_sum]
    rfl
  | map ho _ henclosed ih =>
    rw [noted_cons ho rfl, henclosed.remarks fun q hq =>
      ih q hq (hlaid.tail.sublist (henclosed.sublist q hq)), ← Entry.allRemarks_eq_sum]
    rfl
  | function ho _ hparams _ he hw ihs ih =>
    rw [noted_cons ho rfl, noted_append, noted_append, noted_cons he rfl, noted_cons hw rfl, noted_nil,
      List.append_nil, texts_append, hparams.remarks fun q hq =>
      ihs q hq (hlaid.tail.left.sublist (hparams.sublist q hq)), ih hlaid.tail.right.left,
      ← Param.allRemarks_eq_sum]
    rfl
  | directive hhash hn hd hsemi | mark hhash hn hd hsemi =>
    rw [noted_cons hhash rfl, noted_cons hn rfl, noted_append, hd.noted, hsemi.noted rfl]
    rfl
  | member _ _ hdot hf ih =>
    rw [noted_append, noted_cons hdot rfl, noted_cons hf rfl, noted_nil, List.append_nil, ih hlaid.left]
    rfl
  | index _ _ ho hq hi hc ihb ihi =>
    obtain ⟨hsum, hloose⟩ := hi.remarks fun q hq' => by
      obtain rfl := Option.some.inj hq'
      exact (ihi (hlaid.right.tail.left.sublist (hi.sublist _ rfl))).trans hq.remarks_eq.symm
    rw [hloose (by simp), texts_nil, zero_add, add_zero, Expr.remarks?_some] at hsum
    rw [noted_append, noted_cons ho rfl, noted_append, noted_cons hc rfl, noted_nil, List.append_nil,
      texts_append, hsum, ihb hlaid.left, Part.remarks, Part.remarks, Expr.inside, Expr.Form.remarks_index]
  | slice _ _ ho hp hi hc hp' hj hd ihb ihi ihj =>
    obtain ⟨hstart, -⟩ := hi.remarks fun q hq =>
      (ihi q hq (hlaid.right.tail.left.sublist (hi.sublist q hq))).trans (hp q hq).remarks_eq.symm
    obtain ⟨hstop, -⟩ := hj.remarks fun q hq =>
      (ihj q hq (hlaid.right.tail.right.tail.left.sublist (hj.sublist q hq))).trans (hp' q hq).remarks_eq.symm
    rw [texts_nil, zero_add] at hstart
    rw [noted_append, noted_cons ho rfl, noted_append, noted_cons hc rfl, noted_append, noted_cons hd rfl,
      noted_nil, List.append_nil, texts_append, texts_append, hstart, ihb hlaid.left, add_assoc, hstop]
    show _ = _ + _ + _ + _
    simp only [Part.remarks, add_assoc]
  | call _ _ ho hqs henclosed ihb ihs =>
    rw [noted_append, noted_cons ho rfl, texts_append, ihb hlaid.left, henclosed.remarks fun q hq =>
      (ihs q hq (hlaid.right.tail.sublist (henclosed.sublist q hq))).trans (hqs q hq).remarks_eq.symm,
      ← Expr.allRemarks_eq_sum, ← add_assoc]
    rfl
  | binary hl _ ho _ hr _ ihl ihr =>
    have hbelow := fun hne => hlaid.lt_of_comment hl.within hr.within hne (hr.opens rfl)
    rw [noted_append, noted_cons ho (BinaryOp.remark?_token _), noted_append, texts_append, texts_append,
      ihl hlaid.left, ihr hlaid.right.tail.right, Part.remarks, Part.remarks, Part.remarks,
      remarks_mkBinary hr hbelow]
  | unary ho _ _ _ ih =>
    rw [noted_cons ho (UnaryOp.remark?_token _), ih hlaid.tail]
    rfl
  | entry _ _ hc _ _ ihk ihv =>
    rw [noted_append, noted_append, noted_cons hc rfl, noted_append, texts_append, texts_append,
      texts_append, ihk hlaid.left, ihv hlaid.right.right.tail.right, Part.remarks, Part.remarks,
      Part.remarks, Entry.remarks_mk, texts_append]
    abel
  | default hi ho _ ih =>
    rw [noted_cons hi rfl, noted_cons ho rfl, ih hlaid.tail.tail]
    exact ((add_zero _).trans (zero_add _)).symm
  | simple _ ih => exact ih hlaid
  | assign _ _ ho _ ihe ihv =>
    rw [noted_append, noted_cons rfl (remark?_of_assignOp? ho), texts_append, ihe hlaid.left,
      ihv hlaid.right.tail]
    rfl
  | command _ _ hqs hargs _ ihe ihs =>
    obtain ⟨hsum, hne⟩ := hargs.remarks fun q hq =>
      (ihs q hq (hlaid.right.sublist (hargs.sublist q hq))).trans (hqs q hq).remarks_eq.symm
    rw [texts_nil, zero_add] at hsum
    rw [noted_append, texts_append, ihe hlaid.left, hsum, ← Expr.allRemarks_eq_sum]
    show _ = _ + (if _ then _ else _) + _
    rw [if_neg (by simpa using hne), add_zero]
    rfl
  | return_ hw _ ih =>
    rw [noted_cons hw rfl, ih hlaid.tail]
    rfl
  | while_ hw _ _ he hz ihc ihb =>
    rw [noted_cons hw rfl, noted_append, noted_append, noted_cons he rfl, noted_cons hz rfl, noted_nil,
      List.append_nil, texts_append, ihc hlaid.tail.left, ihb hlaid.tail.right.left]
    rfl
  | for_ hw hi hn _ _ he hz ihc ihb =>
    rw [noted_cons hw rfl, noted_cons hi rfl, noted_cons hn rfl, noted_append, noted_append,
      noted_cons he rfl, noted_cons hz rfl, noted_nil, List.append_nil, texts_append,
      ihc hlaid.tail.tail.tail.left, ihb hlaid.tail.tail.tail.right.left]
    rfl
  | if_ hw _ ih =>
    rw [noted_cons hw rfl, ih hlaid.tail]
    rfl
  | inline hw _ hn _ ihc iha =>
    rw [noted_cons hw rfl, noted_append, noted_cons hn rfl, texts_append, ihc hlaid.tail.left,
      iha hlaid.tail.right.tail]
    exact ((remarks_mkInline ..).trans (add_zero _)).symm
  | inlineElse hw _ hn _ _ ho _ ihc iha ihb =>
    rw [noted_cons hw rfl, noted_append, noted_cons hn rfl, noted_append, noted_cons ho rfl, texts_append,
      texts_append, ihc hlaid.tail.left, iha hlaid.tail.right.tail.left,
      ihb hlaid.tail.right.tail.right.tail, ← add_assoc]
    exact ((remarks_mkInline ..).trans (congrArg _ (remarks_inlineElse _))).symm
  | arm _ hn _ _ ihc ihb ihr =>
    rw [noted_append, noted_cons hn rfl, noted_append, texts_append, texts_append, ihc hlaid.left,
      ihb hlaid.right.tail.left, ihr hlaid.right.tail.right, ← add_assoc]
    exact (add_assoc _ _ _).symm
  | closed he hw =>
    rw [noted_cons he rfl, noted_cons hw rfl]
    rfl
  | else_ ho _ he hw ih =>
    rw [noted_cons ho rfl, noted_append, noted_cons he rfl, noted_cons hw rfl, noted_nil, List.append_nil,
      ih hlaid.tail.left]
    exact (zero_add _).symm
  | elseIf ho hw _ ih =>
    rw [noted_cons ho rfl, noted_cons hw rfl, ih hlaid.tail.tail]
    rfl
  | done hgs =>
    rw [hgs.noted]
    rfl
  | comment hgs ht _ ih =>
    rw [noted_append, hgs.noted, List.nil_append, noted_comment ht, ← List.singleton_append, texts_append,
      ih hlaid.right.tail]
    rfl
  | line hgs _ _ iha ihs =>
    rw [noted_append, hgs.noted, List.nil_append, noted_append, texts_append, iha hlaid.right.left,
      ihs hlaid.right.right]
    rfl
  | lost hno => exact absurd hclean hno

/-! ## Records -/

/-- The constants and names on record are made of tokens of the stock. -/
structure Mentions.Proper (S : Stock) (m : Mentions) : Prop where
  literals : ∀ l ∈ m.literals, l.Proper S
  names : ∀ scope ∈ m.scopes, ∀ x ∈ scope.identifiers, S.token (.identifier x)

/-- What is put on record is that of a token. -/
def Posting.Proper (S : Stock) : Posting → Prop
  | .literal l => l.Proper S
  | .mention (.name x) => S.token (.identifier x)
  | _ => True

theorem Ledger.mem_addName {names : List String} {x y : String} (h : y ∈ addName names x) :
    y ∈ names ∨ y = x := by
  unfold addName at h
  split at h
  · exact .inl h
  · simpa using h

/-- Constants and names on record are those of tokens. -/
structure Ledger.Proper (S : Stock) (l : Ledger) : Prop where
  literals : ∀ v ∈ l.literals, v.Proper S
  names : ∀ names ∈ l.scopes, ∀ x ∈ names, S.token (.identifier x)

namespace Ledger.Proper

variable {l : Ledger}

/-- A proper posting keeps the record proper. -/
theorem post (h : l.Proper S) {p : Posting} (hp : p.Proper S) : (l.post p).Proper S := by
  cases p with
  | literal v =>
    refine ⟨fun w hw => ?_, h.names⟩
    rcases List.mem_append.mp hw with hw | hw
    · exact h.literals w hw
    · exact List.mem_singleton.mp hw ▸ hp
  | enter =>
    refine ⟨h.literals, fun names hnames => ?_⟩
    rcases List.mem_append.mp hnames with hnames | hnames
    · exact h.names names hnames
    · rw [List.mem_singleton.mp hnames]
      simp
  | mention m =>
    cases m with
    | name x =>
      cases hin : l.inside with
      | nil => simpa only [Ledger.post, hin] using h
      | cons i is =>
        simp only [Ledger.post, hin]
        refine ⟨h.literals, fun names hnames y hy => ?_⟩
        obtain ⟨j, hj⟩ := List.mem_iff_getElem?.mp hnames
        rw [List.getElem?_modify, Option.map_eq_map, Option.map_eq_some_iff] at hj
        obtain ⟨old, hold, rfl⟩ := hj
        have hnames := h.names old (List.mem_of_getElem? hold)
        split at hy
        · rcases mem_addName hy with hy | rfl
          · exact hnames y hy
          · exact hp
        · exact hnames y hy
    | _ => exact ⟨h.literals, h.names⟩
  | _ => exact ⟨h.literals, h.names⟩

/-- **Proper postings make a proper record**. -/
theorem enter (h : l.Proper S) {ps : List Posting} (hps : ∀ p ∈ ps, p.Proper S) :
    (l.enter ps).Proper S := by
  induction ps generalizing l with
  | nil => exact h
  | cons p ps ih =>
    obtain ⟨hp, hps⟩ := List.forall_mem_cons.mp hps
    exact ih (h.post hp) hps

end Ledger.Proper

/-- A call puts nothing on record that has to be proper. -/
theorem callPostings_proper (c : Expr) (args : List Expr) : ∀ p ∈ callPostings c args, p.Proper S := by
  intro p hp
  obtain ⟨path, -, rfl⟩ := List.mem_map.mp hp
  trivial

theorem ValueDirective.postings_proper (d : ValueDirective) : ∀ p ∈ d.postings, p.Proper S := by
  cases d <;> simp [postings, mentions, Posting.Proper]

/-- What a proper directive puts on record is proper. -/
theorem Directive.postings_proper {d : Directive} (h : d.Proper S) : ∀ p ∈ d.postings, p.Proper S := by
  cases d with
  | import_ name path => simpa [postings, mentions, Posting.Proper] using h.2
  | _ => simp [postings, mentions, Posting.Proper]

/-- **What is put on record without a fault is made of tokens.** -/
theorem Derives.postings_proper (hclean : clean) (h : Derives clean ts ps x) (hlaid : Laid S ts) :
    ∀ p ∈ ps, p.Proper S := by
  have hpieces : ∀ {α : Type} {qs : List (Piece α)}, (∀ q ∈ qs, ∀ p ∈ q.postings, p.Proper S) →
      ∀ p ∈ qs.flatMap Piece.postings, p.Proper S := fun hqs p hp => by
    obtain ⟨q, hq, hp⟩ := List.mem_flatMap.mp hp
    exact hqs q hq p hp
  have happend : ∀ {ps qs : List Posting}, (∀ p ∈ ps, p.Proper S) → (∀ p ∈ qs, p.Proper S) →
      ∀ p ∈ ps ++ qs, p.Proper S := fun hps hqs => List.forall_mem_append.mpr ⟨hps, hqs⟩
  have hcons : ∀ {p : Posting} {ps : List Posting}, p.Proper S → (∀ p ∈ ps, p.Proper S) →
      ∀ q ∈ p :: ps, q.Proper S := fun hp hps => List.forall_mem_cons.mpr ⟨hp, hps⟩
  have hnil : ∀ p ∈ ([] : List Posting), p.Proper S := by simp
  induction h with
  | literal ht => exact hcons (Literal.proper_of_kind (hlaid.head ht)) hnil
  | negated _ ht => exact hcons (hlaid.tail.head ht) hnil
  | identifier ht | param ht => exact hcons (hlaid.head ht) hnil
  | paren _ _ _ _ _ ih => exact ih hlaid.tail.right.left
  | list _ _ henclosed ih | map _ _ henclosed ih =>
    exact hpieces fun q hq => ih q hq (hlaid.tail.sublist (henclosed.sublist q hq))
  | function _ _ hparams _ _ _ ihs ih =>
    have hps := hpieces fun q hq => ihs q hq (hlaid.tail.left.sublist (hparams.sublist q hq))
    exact hcons trivial (happend (happend hps (ih hlaid.tail.right.left)) (hcons trivial hnil))
  | directive => exact ValueDirective.postings_proper _
  | mark hhash _ hd =>
    exact Directive.postings_proper (hd.proper (hlaid.head hhash) hlaid.tail.tail.left)
  | member _ _ _ _ ih => exact ih hlaid.left
  | index _ _ _ _ hi _ ihb ihi =>
    exact happend (ihb hlaid.left) (ihi (hlaid.right.tail.left.sublist (hi.sublist _ rfl)))
  | slice _ _ _ _ hi _ _ hj _ ihb ihi ihj =>
    refine happend (ihb hlaid.left) (happend (hpieces fun q hq => ?_) (hpieces fun q hq => ?_))
    · have hq := Option.mem_toList.mp hq
      exact ihi q hq (hlaid.right.tail.left.sublist (hi.sublist q hq))
    · have hq := Option.mem_toList.mp hq
      exact ihj q hq (hlaid.right.tail.right.tail.left.sublist (hj.sublist q hq))
  | call _ _ _ _ henclosed ihb ihs =>
    have hqs := hpieces fun q hq => ihs q hq (hlaid.right.tail.sublist (henclosed.sublist q hq))
    exact happend (ihb hlaid.left) (happend hqs (callPostings_proper _ _))
  | command _ _ _ hargs _ ihe ihs =>
    have hqs := hpieces fun q hq => ihs q hq (hlaid.right.sublist (hargs.sublist q hq))
    exact happend (ihe hlaid.left) (happend hqs (callPostings_proper _ _))
  | binary _ _ _ _ _ _ ihl ihr => exact happend (ihl hlaid.left) (ihr hlaid.right.tail.right)
  | entry _ _ _ _ _ ihk ihv => exact happend (ihk hlaid.left) (ihv hlaid.right.right.tail.right)
  | assign _ _ _ _ ihe ihv => exact happend (ihe hlaid.left) (ihv hlaid.right.tail)
  | unary _ _ _ _ ih | return_ _ _ ih | if_ _ _ ih => exact ih hlaid.tail
  | default hi _ _ ih => exact hcons (hlaid.head hi) (ih hlaid.tail.tail)
  | simple _ ih => exact ih hlaid
  | leave | break_ | continue_ | closed | done => exact hnil
  | while_ _ _ _ _ _ ihc ihb => exact happend (ihc hlaid.tail.left) (ihb hlaid.tail.right.left)
  | for_ _ hi _ _ _ _ _ ihc ihb =>
    exact hcons (hlaid.tail.head hi)
      (happend (ihc hlaid.tail.tail.tail.left) (ihb hlaid.tail.tail.tail.right.left))
  | inline _ _ _ _ ihc iha => exact happend (ihc hlaid.tail.left) (iha hlaid.tail.right.tail)
  | inlineElse _ _ _ _ _ _ _ ihc iha ihb =>
    exact happend (ihc hlaid.tail.left)
      (happend (iha hlaid.tail.right.tail.left) (ihb hlaid.tail.right.tail.right.tail))
  | arm _ _ _ _ ihc ihb ihr =>
    exact happend (ihc hlaid.left) (happend (ihb hlaid.right.tail.left) (ihr hlaid.right.tail.right))
  | else_ _ _ _ _ ih => exact ih hlaid.tail.left
  | elseIf _ _ _ ih => exact ih hlaid.tail.tail
  | comment _ _ _ ih => exact ih hlaid.right.tail
  | line _ _ _ iha ihs => exact happend (iha hlaid.right.left) (ihs hlaid.right.right)
  | lost hno => exact absurd hclean hno

/-! ## Scripts -/

/-- `script` was read from `ts`. -/
structure Script.ReadFrom (S : Stock) (ts : List Token) (script : Script) : Prop where
  proper : Stmt.AllProper S script.body
  remarks : spoken ts = Stmt.allRemarks script.body
  record : script.mentions.Proper S

namespace Source

open Reader

variable {source : Source} {script : Script}

/-- **A script that was read from a text is derived from its tokens.** -/
theorem derives_of_parse (h : source.parse = .ok script) : ∃ ts e qs, source.scan.tokens = ts ++ [e] ∧
    e.kind = .eof ∧ (∀ t ∈ ts, t.kind ≠ .eof) ∧ Derives True ts qs (.lines script.body) ∧
    script.mentions.ledger [] = Ledger.enter {} (.enter :: (qs ++ [.leave])) := by
  obtain ⟨-, hread, hscript⟩ := parse_eq_ok_iff.mp h
  have hends : EndsOnce source.scan.tokens := endsOnce_scanFrom ..
  rw [Script.ofTokens] at hread hscript
  generalize source.scan.tokens = tokens at hread hscript hends ⊢
  have htokens := State.tokens_ofTokens hends
  have hbound := State.length_ofTokens hends
  have hempty : (State.ofTokens tokens).faults = [] ∧ (State.ofTokens tokens).ledger = {} := by
    cases tokens <;> exact ⟨rfl, rfl⟩
  have hfaults : (Reader.script (bound tokens.length) (.ofTokens tokens)).2.faults = [] := by
    split at hread <;> rename_i hrun <;> rw [hrun] <;> exact hread
  obtain ⟨-, ⟨ts, ps, hpass, hr⟩, hfault⟩ := Settles.script (c := .ofClean True) (Nat.le_refl _) hbound
    (.ofClean True (htokens.symm ▸ hends)) fun _ => hfaults.trans hempty.1.symm
  rcases hrun : Reader.script (bound tokens.length) (.ofTokens tokens) with ⟨_ | r, t⟩
  · rw [hrun] at hfault hfaults
    have hlt := hfault rfl
    rw [hfaults] at hlt
    cases hlt
  · rw [hrun] at hscript hpass hr hfaults
    obtain rfl : r = script := hscript
    obtain ⟨⟨qs, rfl, hlines⟩, hmentions, hend⟩ := hr r rfl
    have heof : t.current.kind = .eof := by
      refine hend.resolve_right fun hfull => ?_
      rw [State.isFull, hfaults] at hfull
      cases hfull
    have hall : tokens = ts ++ [t.current] := by
      rw [← htokens, hpass.tokens, State.tokens, State.ahead_eq_nil hpass.sane.ends heof]
    have hopen : t.openScopes = [] := by
      rw [openScopes_of_script hrun]
      cases tokens <;> rfl
    refine ⟨ts, t.current, qs, hall, heof, ?_, hlines, ?_⟩
    · rw [hall] at hends
      exact (endsOnce_of_append hends (List.cons_ne_nil _ _)).2
    · rw [← hempty.2, ← hpass.ledger, hmentions, State.ledger, hopen]

/-- The tokens of a text before its end. -/
theorem laid_of_parse (h : source.parse = .ok script)
    (htoken : ∀ t ∈ source.scan.tokens, t.kind.Valid → S.token t.kind)
    (hplace : ∀ t ∈ source.scan.tokens, S.place t) {e : Token} (htokens : source.scan.tokens = ts ++ [e])
    (hgoesOn : ∀ t ∈ ts, t.kind ≠ .eof) : Laid S ts := by
  have hscan := (parse_eq_ok_iff.mp h).1
  have hmem : ∀ t ∈ ts, t ∈ source.scan.tokens := fun t ht => htokens ▸ List.mem_append_left _ ht
  exact
    { ordered := (List.pairwise_append.mp (htokens ▸ before_scanFrom ..)).1
      upright := fun t ht => upright_scanFrom _ _ _ t (hmem t ht)
      places := fun t ht => hplace t (hmem t ht)
      kinds := fun t ht => htoken t (hmem t ht) (scanFrom_valid _ _ _ hscan t (hmem t ht))
      goesOn := hgoesOn }

/-- **A script that was read from a text is proper**, and its comments are those of the text. -/
theorem readFrom_of_parse (h : source.parse = .ok script)
    (htoken : ∀ t ∈ source.scan.tokens, t.kind.Valid → S.token t.kind)
    (hplace : ∀ t ∈ source.scan.tokens, S.place t) (hinline : ∀ a, S.inline a) :
    script.ReadFrom S source.scan.tokens := by
  obtain ⟨ts, e, qs, htokens, heof, hgoesOn, hlines, hledger⟩ := derives_of_parse h
  have hlaid := laid_of_parse h htoken hplace htokens hgoesOn
  have hrecord : (script.mentions.ledger []).Proper S := by
    rw [hledger]
    refine .enter ⟨by simp, by simp⟩ ?_
    simpa [Posting.Proper, or_imp, forall_and] using hlines.postings_proper trivial hlaid
  refine ⟨hlines.proper hinline hlaid, ?_, hrecord.literals, fun scope hscope => ?_⟩
  · rw [htokens, spoken_append, spoken_cons (by rw [heof]; rfl), spoken_nil, add_zero, ← texts_comments]
    exact hlines.remarks trivial hlaid
  · exact hrecord.names _ (List.mem_map_of_mem (f := Scope.identifiers) hscope)

end Source

end ScriptBundler

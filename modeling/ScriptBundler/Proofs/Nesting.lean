import ScriptBundler.Proofs.Elements
import ScriptBundler.Proofs.Positions

/-!
# Proofs/Nesting — stretches nest as the tree does

    while a < b              ◂ from `while` to the second `while`
      f(c, d)                  └▸ the block, from `b` to `end`
    end while                    └▸ the call, with `c` before `d` in it

The reader puts the stretch of each element together by hand, from the tokens at its ends or the
stretches of its parts.  Whichever way it takes, the stretch goes from the start of the first token the
element stands for to the end of the last one (`Source.Spans`).  An element that stands for some of the
tokens of another therefore lies in it, and elements that stand for tokens one behind the other lie one
behind the other.
-/

namespace ScriptBundler

open Reader (single)

namespace Span

/-- No part of `t` is outside of `s`. -/
def Encloses (s t : Span) : Prop := s.start.offset ≤ t.start.offset ∧ t.stop.offset ≤ s.stop.offset

/-- `t` does not start before `s` is over. -/
def Precedes (s t : Span) : Prop := s.stop.offset ≤ t.start.offset

theorem Encloses.refl (s : Span) : s.Encloses s := ⟨Nat.le_refl _, Nat.le_refl _⟩

theorem Encloses.trans {s t u : Span} (h : s.Encloses t) (h' : t.Encloses u) : s.Encloses u :=
  ⟨Nat.le_trans h.1 h'.1, Nat.le_trans h'.2 h.2⟩

end Span

/-! ## Nested elements -/

/-- What stands between the brackets of a form. -/
def Expr.Form.items : Expr.Form → List Element
  | .list es | .call _ es => es.map .expr
  | .map es => es.map .entry
  | .function ps _ => ps.map .param
  | _ => []

/-- The parts of an element that are listed in it. -/
def Element.items : Element → List Element
  | expr e => e.form.items
  | block b => b.stmts.map .stmt
  | _ => []

/-- An element that has an exact place which is not empty, with its parts in it and what is listed in
order. -/
structure Element.Nested (source : Source) (x : Element) : Prop where
  placed : source.HasSpan x.span
  full : x.span.start.offset < x.span.stop.offset
  parts : ∀ y ∈ x.parts, x.span.Encloses y.span
  items : x.items.Pairwise fun y z => y.span.Precedes z.span

/-- Whether an element is nested depends on its stretch, parts and items only. -/
theorem Element.Nested.congr {source : Source} {x y : Element} (h : x.Nested source)
    (hspan : x.span = y.span) (hparts : x.parts = y.parts) (hitems : x.items = y.items) : y.Nested source :=
  ⟨hspan ▸ h.placed, hspan ▸ h.full, hparts ▸ hspan ▸ h.parts, hitems ▸ h.items⟩

/-- Comments beside an element do not matter. -/
theorem Element.blind_nested (source : Source) : Blind (Nested source) where
  expr _ _ := ⟨fun h => h.congr rfl rfl rfl, fun h => h.congr rfl rfl rfl⟩
  entry _ _ := ⟨fun h => h.congr rfl rfl rfl, fun h => h.congr rfl rfl rfl⟩
  param _ _ := ⟨fun h => h.congr rfl rfl rfl, fun h => h.congr rfl rfl rfl⟩

namespace Source

variable {source : Source} {ts us vs : List Token} {a b s : Span} {x y z : Element}

/-! ## Stretches of tokens -/

/-- Tokens one behind the other, none of which is empty. -/
structure Row (source : Source) (ts : List Token) : Prop where
  apart : ts.Pairwise fun t u => t.span.Precedes u.span
  placed : ∀ t ∈ ts, source.HasSpan t.span
  full : ∀ t ∈ ts, t.span.start.offset < t.span.stop.offset

/-- The stretch goes from the start of the first of the tokens to the end of the last. -/
structure Spans (source : Source) (ts : List Token) (s : Span) : Prop where
  placed : source.HasSpan s
  starts : ∃ t ∈ ts, t.span.start.offset = s.start.offset
  stops : ∃ t ∈ ts, t.span.stop.offset = s.stop.offset
  encloses : ∀ t ∈ ts, s.Encloses t.span

namespace Row

theorem sublist (h : source.Row ts) (hsub : us.Sublist ts) : source.Row us :=
  ⟨h.apart.sublist hsub, fun t ht => h.placed t (hsub.subset ht), fun t ht => h.full t (hsub.subset ht)⟩

theorem left (h : source.Row (ts ++ us)) : source.Row ts := h.sublist (List.sublist_append_left ..)

theorem right (h : source.Row (ts ++ us)) : source.Row us := h.sublist (List.sublist_append_right ..)

theorem tail {t : Token} (h : source.Row (t :: ts)) : source.Row ts := h.sublist (List.sublist_cons_self ..)

/-- A token stands at its own stretch. -/
theorem single {t : Token} (h : source.Row ts) (ht : t ∈ ts) : source.Spans [t] t.span :=
  ⟨h.placed t ht, ⟨t, by simp, rfl⟩, ⟨t, by simp, rfl⟩, List.forall_mem_singleton.mpr (.refl _)⟩

end Row

namespace Spans

/-- A stretch starts no later than any of its tokens, and those behind it. -/
theorem start_le (h : source.Spans ts s) (hrow : source.Row (ts ++ us)) :
    ∀ t ∈ ts ++ us, s.start.offset ≤ t.span.start.offset := by
  obtain ⟨first, hfirst, hstart⟩ := h.starts
  refine List.forall_mem_append.mpr ⟨fun t ht => (h.encloses t ht).1, fun t ht => ?_⟩
  have hfull := hrow.full first (List.mem_append_left _ hfirst)
  have hbehind : first.span.stop.offset ≤ t.span.start.offset :=
    (List.pairwise_append.mp hrow.apart).2.2 first hfirst t ht
  omega

/-- A stretch stops no earlier than any of its tokens, and those before it. -/
theorem le_stop (h : source.Spans us s) (hrow : source.Row (ts ++ us)) :
    ∀ t ∈ ts ++ us, t.span.stop.offset ≤ s.stop.offset := by
  obtain ⟨last, hlast, hstop⟩ := h.stops
  refine List.forall_mem_append.mpr ⟨fun t ht => ?_, fun t ht => (h.encloses t ht).2⟩
  have hfull := hrow.full last (List.mem_append_right _ hlast)
  have hbefore : t.span.stop.offset ≤ last.span.start.offset :=
    (List.pairwise_append.mp hrow.apart).2.2 t ht last hlast
  omega

/-- **Merging the stretches of the first and the last tokens gives that of all.** -/
theorem merge (hrow : source.Row vs) (hfirst : ts <+: vs) (hlast : us <:+ vs) (ha : source.Spans ts a)
    (hb : source.Spans us b) : source.Spans vs (a.merge b) := by
  have hstart : ∀ t ∈ vs, a.start.offset ≤ t.span.start.offset := by
    obtain ⟨rest, rfl⟩ := hfirst
    exact ha.start_le hrow
  have hstop : ∀ t ∈ vs, t.span.stop.offset ≤ b.stop.offset := by
    obtain ⟨before, rfl⟩ := hlast
    exact hb.le_stop hrow
  obtain ⟨first, hmem, hfrom⟩ := ha.starts
  obtain ⟨last, hmem', hto⟩ := hb.stops
  obtain ⟨t, ht, hlater⟩ := hb.starts
  obtain ⟨u, hu, hearlier⟩ := ha.stops
  have hle := hstart t (hlast.subset ht)
  have hle' := hstop u (hfirst.subset hu)
  have hmin : (a.merge b).start.offset = a.start.offset := by
    show min a.start.offset b.start.offset = _
    omega
  have hmax : (a.merge b).stop.offset = b.stop.offset := by
    show max a.stop.offset b.stop.offset = _
    omega
  refine ⟨hasSpan_merge a b ha.placed hb.placed, ⟨first, hfirst.subset hmem, by omega⟩,
    ⟨last, hlast.subset hmem', by omega⟩, fun w hw => ⟨?_, ?_⟩⟩
  · exact hmin ▸ hstart w hw
  · exact hmax ▸ hstop w hw

/-- From the first tokens to the last ones. -/
theorem join (ha : source.Spans ts a) (hrow : source.Row (ts ++ us)) (hlast : vs <:+ us)
    (hb : source.Spans vs b) : source.Spans (ts ++ us) (a.merge b) :=
  ha.merge hrow (List.prefix_append ..) (List.suffix_append_of_suffix hlast) hb

/-- A stretch of tokens is not empty. -/
theorem full (h : source.Spans ts s) (hrow : source.Row ts) : s.start.offset < s.stop.offset := by
  obtain ⟨t, ht, hstart⟩ := h.starts
  have hfull := hrow.full t ht
  have hstop := (h.encloses t ht).2
  omega

/-- What encloses the tokens encloses their stretch. -/
theorem enclosed (h : source.Spans ts a) (hs : ∀ t ∈ ts, s.Encloses t.span) : s.Encloses a := by
  obtain ⟨t, ht, hstart⟩ := h.starts
  obtain ⟨u, hu, hstop⟩ := h.stops
  exact ⟨hstart ▸ (hs t ht).1, hstop ▸ (hs u hu).2⟩

/-- Stretches are apart if their tokens are. -/
theorem precedes (h : source.Spans ts a) (h' : source.Spans us b)
    (hapart : ∀ t ∈ ts, ∀ u ∈ us, t.span.Precedes u.span) : a.Precedes b := by
  obtain ⟨t, ht, hstop⟩ := h.stops
  obtain ⟨u, hu, hstart⟩ := h'.starts
  rw [Span.Precedes, ← hstop, ← hstart]
  exact hapart t ht u hu

end Spans

/-- From one token to the last. -/
theorem Row.fromTo {o c : Token} (hrow : source.Row (o :: ts)) (hlast : [c] <:+ ts) :
    source.Spans (o :: ts) (o.span.merge c.span) :=
  (hrow.single (by simp)).join hrow hlast (hrow.tail.single (hlast.subset (by simp)))

theorem exists_lastSpan (hne : ts ≠ []) : ∃ us t, ts = us ++ [t] ∧ lastSpan ts = t.span := by
  refine ⟨ts.dropLast, ts.getLast hne, (List.dropLast_append_getLast hne).symm, ?_⟩
  rw [lastSpan, List.getLast?_eq_some_getLast hne]
  rfl

/-- The last of the tokens, where there may be more before them. -/
theorem Row.last (hrow : source.Row ts) (hne : us ≠ []) (hlast : us <:+ ts) :
    ∃ vs, vs <:+ ts ∧ source.Spans vs (lastSpan us) := by
  obtain ⟨vs, t, rfl, hspan⟩ := exists_lastSpan hne
  exact ⟨[t], (List.suffix_append ..).trans hlast, hspan ▸ hrow.single (hlast.subset (by simp))⟩

theorem Row.fromLast {o : Token} (hrow : source.Row (o :: ts)) (hne : us ≠ []) (hlast : us <:+ o :: ts) :
    source.Spans (o :: ts) (o.span.merge (lastSpan us)) := by
  obtain ⟨vs, hvs, hspan⟩ := hrow.last hne hlast
  exact (hrow.single (by simp)).merge hrow ⟨_, rfl⟩ hvs hspan

/-! ## Elements of tokens -/

/-- The element stands for the tokens, and everything in it is nested. -/
def Placed (source : Source) (x : Element) (ts : List Token) : Prop :=
  source.Spans ts x.span ∧ x.Every (Element.Nested source)

theorem placed_expr (e : Expr) (cs : Comments) :
    source.Placed (.expr (Item.withComments e cs)) = source.Placed (.expr e) :=
  funext fun ts => congrArg (source.Spans ts e.span ∧ ·) ((Element.blind_nested source).every_expr e cs)

theorem placed_entry (e : Entry) (cs : Comments) :
    source.Placed (.entry (Item.withComments e cs)) = source.Placed (.entry e) :=
  funext fun ts => congrArg (source.Spans ts e.span ∧ ·) ((Element.blind_nested source).every_entry e cs)

theorem placed_param (p : Param) (cs : Comments) :
    source.Placed (.param (Item.withComments p cs)) = source.Placed (.param p) :=
  funext fun ts => congrArg (source.Spans ts p.span ∧ ·) ((Element.blind_nested source).every_param p cs)

theorem Placed.lead {e : Expr} (h : source.Placed (.expr e) ts) (cs : List Comment) :
    source.Placed (.expr (Item.lead e cs)) ts := by
  rwa [Item.lead, placed_expr]

theorem Placed.trail {e : Expr} (h : source.Placed (.expr e) ts) (cs : List Comment) :
    source.Placed (.expr (Item.trail e cs)) ts := by
  rwa [Item.trail, placed_expr]

/-- An element in which everything is nested lies in the stretch. -/
def Holds (source : Source) (s : Span) (x : Element) : Prop :=
  s.Encloses x.span ∧ x.Every (Element.Nested source)

namespace Placed

/-- **An element is placed** if its parts are held by its stretch, and its items are in order. -/
theorem intro (hrow : source.Row ts) (hspan : source.Spans ts x.span)
    (hparts : (∀ t ∈ ts, x.span.Encloses t.span) → ∀ y ∈ x.parts, source.Holds x.span y)
    (hitems : x.items.Pairwise fun y z => y.span.Precedes z.span) : source.Placed x ts := by
  have hparts := hparts hspan.encloses
  exact ⟨hspan, .intro ⟨hspan.placed, hspan.full hrow, fun y hy => (hparts y hy).1, hitems⟩
    fun y hy => (hparts y hy).2⟩

/-- An element without parts. -/
theorem leaf (hrow : source.Row ts) (hspan : source.Spans ts x.span) (hparts : x.parts = [])
    (hitems : x.items = []) : source.Placed x ts :=
  intro hrow hspan (by simp [hparts]) (hitems ▸ .nil)

/-- An element is held by what encloses its tokens. -/
theorem holds (h : source.Placed x ts) (hs : ∀ t ∈ ts, s.Encloses t.span) : source.Holds s x :=
  ⟨h.1.enclosed hs, h.2⟩

/-- An element of two parts that goes from the one to the other. -/
theorem pair (hrow : source.Row (ts ++ us)) (hy : source.Placed y ts) (hlast : vs <:+ us)
    (hz : source.Placed z vs) (hspan : x.span = y.span.merge z.span) (hparts : x.parts = [y, z])
    (hitems : x.items = []) : source.Placed x (ts ++ us) := by
  refine intro hrow (hspan ▸ hy.1.join hrow hlast hz.1) (fun hs => ?_) (hitems ▸ .nil)
  rw [hparts]
  refine List.forall_mem_cons.mpr ⟨?_, List.forall_mem_singleton.mpr ?_⟩
  · exact hy.holds fun t ht => hs t (List.mem_append_left _ ht)
  · exact hz.holds fun t ht => hs t (List.mem_append_right _ (hlast.subset ht))

/-- An element that goes from a token to its only part. -/
theorem behind {o : Token} (hrow : source.Row (o :: ts)) (hy : source.Placed y ts)
    (hspan : x.span = o.span.merge y.span) (hparts : x.parts = [y]) (hitems : x.items = []) :
    source.Placed x (o :: ts) := by
  refine intro hrow (hspan ▸ (hrow.single (by simp)).join hrow List.suffix_rfl hy.1) (fun hs => ?_)
    (hitems ▸ .nil)
  rw [hparts]
  exact List.forall_mem_singleton.mpr (hy.holds fun t ht => hs t (List.mem_cons_of_mem _ ht))

end Placed

theorem Row.ident {i : Token} (hrow : source.Row ts) (hi : i ∈ ts) (name : String) :
    source.Placed (.ident ⟨name, i.span⟩) [i] :=
  .leaf (hrow.sublist (List.singleton_sublist.mpr hi)) (hrow.single hi) rfl rfl

section Pieces

variable {α : Type} {g : α → Element} {as : List α} {qs : List (Piece α)}

/-- Items between brackets are held by what encloses their tokens. -/
theorem holds_of_pieces (hs : ∀ t ∈ ts, s.Encloses t.span)
    (heq : as.map (fun a => source.Placed (g a)) = qs.map fun q => source.Placed (g q.value))
    (hsub : ∀ q ∈ qs, q.tokens.Sublist ts) (hqs : ∀ q ∈ qs, source.Placed (g q.value) q.tokens) :
    ∀ y ∈ as.map g, source.Holds s y := by
  refine List.forall_mem_map.mpr fun a ha => ?_
  have hmem : source.Placed (g a) ∈ qs.map fun q => source.Placed (g q.value) :=
    heq ▸ List.mem_map_of_mem ha
  obtain ⟨q, hq, hplaced⟩ := List.mem_map.mp hmem
  have ha : source.Placed (g a) q.tokens := hplaced ▸ hqs q hq
  exact ha.holds fun t ht => hs t ((hsub q hq).subset ht)

/-- Pieces that stand one behind the other are put together to items that do. -/
theorem Row.pieces (hrow : source.Row ts)
    (heq : as.map (fun a => source.Placed (g a)) = qs.map fun q => source.Placed (g q.value))
    (hsub : (qs.flatMap Piece.tokens).Sublist ts) (hqs : ∀ q ∈ qs, source.Placed (g q.value) q.tokens) :
    (∀ s : Span, (∀ t ∈ ts, s.Encloses t.span) → ∀ y ∈ as.map g, source.Holds s y) ∧
      (as.map g).Pairwise fun y z => y.span.Precedes z.span := by
  refine ⟨fun s hs => holds_of_pieces hs heq (Piece.sublist hsub) hqs, ?_⟩
  have hpieces := (List.pairwise_flatMap.mp (hrow.apart.sublist hsub)).2
  have hpairs : (as.map fun a => source.Placed (g a)).Pairwise fun p q => ∀ y z : Element,
      source.Placed y = p → source.Placed z = q → y.span.Precedes z.span := by
    rw [heq, List.pairwise_map]
    refine hpieces.imp_of_mem fun {p q} hp hq hapart y z hy hz => ?_
    have hy : source.Placed y p.tokens := hy ▸ hqs p hp
    have hz : source.Placed z q.tokens := hz ▸ hqs q hq
    exact hy.1.precedes hz.1 hapart
  exact List.pairwise_map.mpr ((List.pairwise_map.mp hpairs).imp fun h => h _ _ rfl rfl)

/-- An element of items between brackets. -/
theorem Placed.enclosed [Item α] {o : Token} {close : Symbol} {held : List Comment}
    (hrow : source.Row (o :: ts)) (h : Enclosed close ts qs (as, held))
    (hg : ∀ a cs, source.Placed (g (Item.withComments a cs)) = source.Placed (g a))
    (hqs : ∀ q ∈ qs, source.Row q.tokens → source.Placed (g q.value) q.tokens)
    (hspan : x.span = o.span.merge (lastSpan ts)) (hparts : x.parts = as.map g)
    (hitems : x.items = as.map g) : source.Placed x (o :: ts) := by
  obtain ⟨hholds, hapart⟩ := hrow.tail.pieces (h.map_eq hg) h.flatMap_sublist fun q hq =>
    hqs q hq (hrow.tail.sublist (h.sublist q hq))
  refine intro hrow (hspan ▸ hrow.fromLast h.ne_nil (List.suffix_cons ..)) (fun hs => ?_) (hitems ▸ hapart)
  exact hparts ▸ hholds _ fun t ht => hs t (List.mem_cons_of_mem _ ht)

end Pieces

/-- An end of a slice is held by what encloses its tokens. -/
theorem holds_of_sliceEnd {q : Option (Piece Expr)} {pending : List Comment}
    {r : Option Expr × List Comment} (h : SliceEnd pending ts q r) (hs : ∀ t ∈ ts, s.Encloses t.span)
    (hq : ∀ p ∈ q, source.Placed (.expr p.value) p.tokens) :
    ∀ y ∈ r.1.toList.map .expr, source.Holds s y :=
  holds_of_pieces hs (h.map_eq placed_expr) (fun p hp => h.sublist p (Option.mem_toList.mp hp))
    fun p hp => hq p (Option.mem_toList.mp hp)

/-- The last argument stands at the end. -/
theorem spans_of_arguments {pending : List Comment} {qs : List (Piece Expr)} {args : List Expr}
    (h : Arguments pending ts qs args) (hqs : ∀ q ∈ qs, source.Placed (.expr q.value) q.tokens)
    (start : Span) : ∃ us, us <:+ ts ∧ source.Spans us ((args.getLast?.map Expr.span).getD start) := by
  induction h with
  | last => exact ⟨_, List.suffix_rfl, (hqs _ (by simp)).1⟩
  | cons _ _ _ hrest ih =>
    obtain ⟨us, hus, hspan⟩ := ih fun q hq => hqs q (by simp [hq])
    rw [List.getLast?_cons_of_ne_nil (by cases hrest <;> simp)]
    exact ⟨us, by simp [List.suffix_cons_iff, List.suffix_append_of_suffix, hus], hspan⟩

/-- A call, from what is called to the last of its arguments. -/
theorem Placed.call {e : Expr} {args : List Expr} {qs : List (Piece Expr)} {cs : Comments}
    (hrow : source.Row (ts ++ us)) (he : source.Placed (.expr e) ts) (hlast : vs <:+ us)
    (hspan : source.Spans vs s)
    (heq : args.map (fun a => source.Placed (.expr a)) = qs.map fun q => source.Placed (.expr q.value))
    (hsub : (qs.flatMap Piece.tokens).Sublist us) (hqs : ∀ q ∈ qs, source.Placed (.expr q.value) q.tokens) :
    source.Placed (.expr ⟨.call e args, e.span.merge s, cs⟩) (ts ++ us) := by
  obtain ⟨hparts, hitems⟩ := hrow.right.pieces heq hsub hqs
  refine intro hrow (he.1.join hrow hlast hspan) (fun hs => List.forall_mem_cons.mpr ⟨?_, ?_⟩) hitems
  · exact he.holds fun t ht => hs t (List.mem_append_left _ ht)
  · exact hparts _ fun t ht => hs t (List.mem_append_right _ ht)

/-! ## Blocks and clauses -/

/-- The stretch of the last block or clause of an `if`. -/
def closing (start : Span) (cs : List Clause) (last : Option Block) : Span :=
  match last with
  | some b => b.span
  | none => (cs.getLast?.map Clause.span).getD start

/-- What follows a clause ends where its last block or clause does. -/
def Closes (source : Source) (ts : List Token) (r : List Clause × Option Block) : Prop :=
  ∀ start c, ∃ us, us <:+ ts ∧ source.Spans us (closing start (c :: r.1) r.2)

/-- What follows a clause lies in the stretch. -/
def HoldsAll (source : Source) (s : Span) (r : List Clause × Option Block) : Prop :=
  (∀ c ∈ r.1, source.Holds s (.clause c)) ∧ ∀ b ∈ r.2, source.Holds s (.block b)

/-- An `if`, with all that follows its first word. -/
theorem Placed.if_ {cs : List Clause} {last : Option Block} {inline : Bool} (hrow : source.Row ts)
    (hspan : source.Spans ts s) (h : (∀ t ∈ ts, s.Encloses t.span) → source.HoldsAll s (cs, last)) :
    source.Placed (.stmt ⟨.if_ cs last inline, s⟩) ts := by
  refine intro hrow hspan (fun hs => List.forall_mem_append.mpr ⟨?_, ?_⟩) .nil
  · exact List.forall_mem_map.mpr (h hs).1
  · exact List.forall_mem_map.mpr fun b hb => (h hs).2 b (Option.mem_toList.mp hb)

theorem Placed.alone {d : Stmt} (hrow : source.Row ts) (h : source.Placed (.stmt d) ts) :
    source.Placed (.block (single d)) ts :=
  intro hrow h.1 (fun _ => List.forall_mem_singleton.mpr ⟨.refl _, h.2⟩) (List.pairwise_singleton ..)

theorem closing_cons_cons (start start' : Span) (c d : Clause) (cs : List Clause) (last : Option Block) :
    closing start (c :: d :: cs) last = closing start' (d :: cs) last := by
  cases last with
  | some b => rfl
  | none => rw [closing, closing, List.getLast?_cons_cons, List.getLast?_cons]; rfl

theorem Closes.of_not_isInline {d : Stmt} (hd : d.isInline = false) (h : source.Spans ts d.span) :
    source.Closes ts (Reader.inlineElse true d) := by
  rw [Stmt.inlineElse_of_not_isInline _ hd]
  exact fun _ _ => ⟨ts, List.suffix_rfl, h⟩

/-- What an `else` on one line adds lies where the statement behind it does. -/
theorem Placed.inlineElse {d : Stmt} (hrow : source.Row ts) (h : source.Placed (.stmt d) ts)
    (hs : ∀ t ∈ ts, s.Encloses t.span) : source.HoldsAll s (Reader.inlineElse true d) := by
  have hd := h.holds hs
  unfold Reader.inlineElse
  split
  · rename_i cs last _ hform
    have hparts : ∀ y ∈ d.form.parts, source.Holds s y := fun y hy =>
      ⟨hd.1.trans ((h.2 _ (.refl _)).parts y hy), h.2.part hy⟩
    rw [hform, Stmt.Form.parts, List.forall_mem_append, List.forall_mem_map, List.forall_mem_map] at hparts
    exact ⟨hparts.1, fun b hb => hparts.2 b (Option.mem_toList.mpr hb)⟩
  · refine ⟨by simp, ?_⟩
    rintro _ ⟨⟩
    exact (h.alone hrow).holds hs

/-- A clause, from its word to the end of its block. -/
theorem Placed.clause {w : Token} {c : Expr} {d : Block} (hrow : source.Row (w :: (ts ++ us)))
    (hc : source.Placed (.expr c) ts) (hlast : vs <:+ us) (hd : source.Placed (.block d) vs) :
    source.Placed (.clause ⟨c, d, w.span.merge d.span⟩) (w :: (ts ++ us)) := by
  have hvs : vs <:+ w :: (ts ++ us) := by simp [List.suffix_cons_iff, List.suffix_append_of_suffix, hlast]
  refine intro hrow ((hrow.single (by simp)).merge hrow ⟨_, rfl⟩ hvs hd.1) (fun hs => ?_) .nil
  refine List.forall_mem_cons.mpr ⟨?_, List.forall_mem_singleton.mpr ?_⟩
  · exact hc.holds fun t ht => hs t (by simp [ht])
  · exact hd.holds fun t ht => hs t (hvs.subset ht)

end Source

/-! ## Trees -/

/-- A part of a tree stands for the tokens, and everything in it is nested. -/
def Part.Placed (source : Source) (ts : List Token) : Part → Prop
  | .expr e => source.Placed (.expr e) ts
  | .entry e => source.Placed (.entry e) ts
  | .param p => source.Placed (.param p) ts
  | .stmt a => source.Placed (.stmt a) ts ∧ source.Closes ts (Reader.inlineElse true a)
  -- The first clause starts with a word that is not among the tokens.
  | .arms start r => ∀ w s, w.span = start → source.Row (w :: ts) → (∀ t ∈ w :: ts, s.Encloses t.span) →
      source.HoldsAll s r
  | .clauses r => ∀ s, (∀ t ∈ ts, s.Encloses t.span) → source.HoldsAll s r
  | .lines ss => (∀ a ∈ ss, ∃ us, us ⊆ ts ∧ source.Placed (.stmt a) us) ∧
      ss.Pairwise fun a b => a.span.Precedes b.span

theorem Part.placed_stmt {source : Source} {ts : List Token} {d : Stmt} (h : source.Placed (.stmt d) ts)
    (hd : d.isInline = false) : (Part.stmt d).Placed source ts := ⟨h, .of_not_isInline hd h.1⟩

theorem Part.placed_simple {source : Source} {ts : List Token} {e : Expr} (hrow : source.Row ts)
    (h : source.Placed (.expr e) ts) : (Part.stmt ⟨.expr e, e.span⟩).Placed source ts :=
  placed_stmt (.intro hrow h.1 (fun hs => List.forall_mem_singleton.mpr (h.holds hs)) .nil) rfl

/-- A line more before the lines of a block. -/
theorem Part.placed_cons {source : Source} {ts us vs : List Token} {d : Stmt} {ss : List Stmt}
    (hrow : source.Row vs) (hsub : (ts ++ us).Sublist vs) (hd : source.Placed (.stmt d) ts)
    (hss : (Part.lines ss).Placed source us) : (Part.lines (d :: ss)).Placed source vs := by
  have hrow := hrow.sublist hsub
  refine ⟨List.forall_mem_cons.mpr ⟨⟨ts, fun t ht => hsub.subset (by simp [ht]), hd⟩, fun e he => ?_⟩, ?_⟩
  · obtain ⟨ws, hws, he⟩ := hss.1 e he
    exact ⟨ws, fun t ht => hsub.subset (by simp [hws ht]), he⟩
  · refine List.pairwise_cons.mpr ⟨fun e he => ?_, hss.2⟩
    obtain ⟨ws, hws, he⟩ := hss.1 e he
    exact hd.1.precedes he.1 fun t ht u hu =>
      (List.pairwise_append.mp hrow.apart).2.2 t ht u (hws hu)

namespace Source

variable {source : Source} {ts us vs : List Token} {s : Span}

/-- A block between two words. -/
theorem Placed.block {l e : Token} {ss : List Stmt} (hrow : source.Row (l :: (us ++ [e])))
    (h : (Part.lines ss).Placed source us) :
    source.Placed (.block ⟨ss, l.span.merge e.span⟩) (l :: (us ++ [e])) := by
  refine intro hrow (hrow.fromTo (List.suffix_append ..)) (fun hs => ?_) (List.pairwise_map.mpr h.2)
  refine List.forall_mem_map.mpr fun d hd => ?_
  obtain ⟨ts, hts, hplaced⟩ := h.1 d hd
  exact hplaced.holds fun t ht => hs t (by simp [hts ht])

/-- A block, from the token before it to the one behind. -/
theorem Holds.block {l e : Token} {ss : List Stmt} (hrow : source.Row (l :: (us ++ (e :: vs))))
    (h : (Part.lines ss).Placed source us) (hs : ∀ t ∈ l :: (us ++ (e :: vs)), s.Encloses t.span) :
    source.Holds s (.block ⟨ss, l.span.merge e.span⟩) := by
  have hsub : (l :: (us ++ [e])).Sublist (l :: (us ++ (e :: vs))) := by simp
  exact (Placed.block (hrow.sublist hsub) h).holds fun t ht => hs t (hsub.subset ht)

/-- A block starts with the last token before it. -/
theorem Holds.body {e z : Token} {ss : List Stmt} (hne : ts ≠ [])
    (hrow : source.Row (ts ++ (us ++ [e, z]))) (h : (Part.lines ss).Placed source us)
    (hs : ∀ t ∈ ts ++ (us ++ [e, z]), s.Encloses t.span) :
    source.Holds s (.block ⟨ss, (lastSpan ts).merge e.span⟩) := by
  obtain ⟨vs, l, rfl, hspan⟩ := exists_lastSpan hne
  rw [hspan]
  rw [List.append_assoc] at hrow
  exact block hrow.right h fun t ht => hs t (by simp_all)

/-- A clause of an `if` with blocks. -/
theorem Holds.arm {w n o : Token} {c : Expr} {ss : List Stmt}
    (hrow : source.Row (w :: (ts ++ (n :: (us ++ (o :: vs)))))) (hc : source.Placed (.expr c) ts)
    (h : (Part.lines ss).Placed source us)
    (hs : ∀ t ∈ w :: (ts ++ (n :: (us ++ (o :: vs)))), s.Encloses t.span) :
    source.Holds s
      (.clause ⟨c, ⟨ss, n.span.merge o.span⟩, w.span.merge (n.span.merge o.span)⟩) := by
  have hsub : (w :: (ts ++ (n :: (us ++ [o])))).Sublist (w :: (ts ++ (n :: (us ++ (o :: vs))))) := by simp
  have hrow := hrow.sublist hsub
  exact (Placed.clause hrow hc List.suffix_rfl (.block hrow.tail.right h)).holds fun t ht =>
    hs t (hsub.subset ht)

/-- An `if` on one line goes from its word to where its last block or clause does. -/
theorem Placed.mkInline {w : Token} {c : Expr} {d : Stmt} {r : List Clause × Option Block}
    (hrow : source.Row (w :: vs)) (hsub : us ⊆ w :: vs)
    (hclause : source.Placed (.clause ⟨c, single d, w.span.merge (single d).span⟩) us)
    (hcloses : ∃ ts, ts <:+ w :: vs ∧
      source.Spans ts (closing w.span (⟨c, single d, w.span.merge (single d).span⟩ :: r.1) r.2))
    (hr : ∀ s, (∀ t ∈ w :: vs, s.Encloses t.span) → source.HoldsAll s r) :
    (Part.stmt (mkInline w.span c d r)).Placed source (w :: vs) := by
  obtain ⟨ts, hts, hclosing⟩ := hcloses
  refine ⟨.if_ hrow ((hrow.single (by simp)).merge hrow ⟨_, rfl⟩ hts hclosing) fun hs => ?_, ?_⟩
  · have hrest := hr _ hs
    refine ⟨List.forall_mem_cons.mpr ⟨?_, hrest.1⟩, hrest.2⟩
    exact hclause.holds fun t ht => hs t (hsub ht)
  · exact fun start e => ⟨ts, hts, closing_cons_cons start w.span e .. ▸ hclosing⟩

theorem Placed.inlineClause {w n : Token} {c : Expr} {d : Stmt} (hrow : source.Row (w :: (ts ++ (n :: us))))
    (hc : source.Placed (.expr c) ts) (hd : source.Placed (.stmt d) us) :
    source.Placed (.clause ⟨c, Reader.single d, w.span.merge (Reader.single d).span⟩)
      (w :: (ts ++ (n :: us))) :=
  clause hrow hc (List.suffix_cons ..) (hd.alone hrow.tail.right.tail)

/-- An `if` on one line with an `else`. -/
theorem Placed.mkInlineElse {w n o : Token} {c : Expr} {d e : Stmt}
    (hrow : source.Row (w :: (ts ++ (n :: (us ++ (o :: vs)))))) (hc : source.Placed (.expr c) ts)
    (hd : source.Placed (.stmt d) us) (he : (Part.stmt e).Placed source vs) :
    (Part.stmt (ScriptBundler.mkInline w.span c d (Reader.inlineElse true e))).Placed source
      (w :: (ts ++ (n :: (us ++ (o :: vs))))) := by
  have hsub : (w :: (ts ++ (n :: us))).Sublist (w :: (ts ++ (n :: (us ++ (o :: vs))))) := by simp
  refine mkInline hrow hsub.subset (inlineClause (hrow.sublist hsub) hc hd) ?_ fun s hs => ?_
  · obtain ⟨ws, hws, hclosing⟩ := he.2 _ _
    exact ⟨ws, by simp [List.suffix_cons_iff, List.suffix_append_of_suffix, hws], hclosing⟩
  · exact he.1.inlineElse hrow.tail.right.tail.right.tail fun t ht => hs t (by simp [ht])

end Source

open Source (placed_expr placed_entry placed_param holds_of_sliceEnd spans_of_arguments)

/-- **What is derived is nested.** -/
theorem Derives.placed {source : Source} {clean : Prop} {ts : List Token} {ps : List Posting} {x : Part}
    (h : Derives clean ts ps x) (hrow : source.Row ts) : x.Placed source ts := by
  induction h with
  | literal | identifier => exact .leaf hrow (hrow.single (by simp)) rfl rfl
  | negated => exact .leaf hrow (hrow.fromTo List.suffix_rfl) rfl rfl
  | paren _ _ _ _ _ ih =>
    refine .intro hrow (hrow.fromTo (by simp [List.suffix_append_of_suffix])) (fun hs => ?_) .nil
    refine List.forall_mem_singleton.mpr ((((ih hrow.tail.right.left).lead _).trail _).holds ?_)
    exact fun t ht => hs t (by simp [ht])
  | list _ _ henclosed ih => exact .enclosed hrow henclosed placed_expr ih rfl rfl rfl
  | map _ _ henclosed ih => exact .enclosed hrow henclosed placed_entry ih rfl rfl rfl
  | function _ _ hparams _ _ _ ihs ih =>
    obtain ⟨hparts, hitems⟩ := hrow.tail.left.pieces (hparams.map_eq placed_param) hparams.flatMap_sublist
      fun q hq => ihs q hq (hrow.tail.left.sublist (hparams.sublist q hq))
    refine .intro hrow (hrow.fromTo (by simp [List.suffix_append_of_suffix])) (fun hs => ?_) hitems
    refine List.forall_mem_append.mpr ⟨hparts _ fun t ht => hs t (by simp [ht]), ?_⟩
    exact List.forall_mem_singleton.mpr (.body (List.cons_ne_nil _ _) hrow (ih hrow.tail.right.left) hs)
  | directive => exact .leaf hrow (hrow.fromLast (List.cons_ne_nil _ _) List.suffix_rfl) rfl rfl
  | member _ _ _ _ ih =>
    exact .pair hrow (ih hrow.left) (List.suffix_cons ..) (hrow.ident (by simp) _) rfl rfl rfl
  | index _ _ _ _ hi _ ihb ihi =>
    have hb := ihb hrow.left
    have hq := ihi (hrow.right.tail.left.sublist (hi.sublist _ rfl))
    refine .intro hrow (hb.1.join hrow ?_ (hrow.single (by simp))) (fun hs => ?_) .nil
    · simp [List.suffix_cons_iff]
    · refine List.forall_mem_cons.mpr ⟨hb.holds fun t ht => hs t (by simp [ht]), ?_⟩
      refine holds_of_sliceEnd hi (fun t ht => hs t (by simp [ht])) ?_
      rintro _ ⟨⟩
      exact hq
  | slice _ _ _ _ hi _ _ hj _ ihb ihi ihj =>
    have hb := ihb hrow.left
    refine .intro hrow (hb.1.join hrow ?_ (hrow.single (by simp))) (fun hs => ?_) .nil
    · simp [List.suffix_cons_iff, List.suffix_append_of_suffix]
    · refine List.forall_mem_cons.mpr ⟨hb.holds fun t ht => hs t (by simp [ht]), ?_⟩
      rw [List.map_append]
      refine List.forall_mem_append.mpr ⟨?_, ?_⟩
      · exact holds_of_sliceEnd hi (fun t ht => hs t (by simp [ht])) fun q hq =>
          ihi q hq (hrow.right.tail.left.sublist (hi.sublist q hq))
      · exact holds_of_sliceEnd hj (fun t ht => hs t (by simp [ht])) fun q hq =>
          ihj q hq (hrow.right.tail.right.tail.left.sublist (hj.sublist q hq))
  | call _ _ _ _ henclosed ih ihs =>
    obtain ⟨vs, hvs, hlast⟩ := hrow.right.last henclosed.ne_nil (List.suffix_cons ..)
    exact .call hrow (ih hrow.left) hvs hlast (henclosed.map_eq placed_expr)
      (henclosed.flatMap_sublist.cons _) fun q hq =>
        ihs q hq (hrow.right.tail.sublist (henclosed.sublist q hq))
  | binary _ _ _ _ _ _ ihl ihr =>
    refine .pair hrow (ihl hrow.left) ?_ ((ihr hrow.right.tail.right).lead _) rfl rfl rfl
    simp [List.suffix_cons_iff]
  | unary _ _ _ _ ih => exact .behind hrow (ih hrow.tail) rfl rfl rfl
  | entry _ _ _ _ _ ihk ihv =>
    refine .pair hrow (ihk hrow.left) ?_ (ihv hrow.right.right.tail.right) rfl rfl rfl
    simp [List.suffix_cons_iff, List.suffix_append_of_suffix]
  | param =>
    refine .intro hrow (hrow.single (by simp)) (fun hs => ?_) .nil
    exact List.forall_mem_singleton.mpr ((hrow.ident (by simp) _).holds hs)
  | default _ _ _ ih =>
    exact .pair hrow (hrow.ident (by simp) _) (List.suffix_cons ..) (ih hrow.tail.tail) rfl rfl rfl
  | simple _ ih => exact Part.placed_simple hrow (ih hrow)
  | assign _ _ _ _ ihe ihv =>
    refine Part.placed_stmt ?_ rfl
    exact .pair hrow (ihe hrow.left) (List.suffix_cons ..) (ihv hrow.right.tail) rfl rfl rfl
  | command _ _ _ hargs hspan ihe ihs =>
    subst hspan
    have hqs := fun q hq => ihs q hq (hrow.right.sublist (hargs.sublist q hq))
    obtain ⟨vs, hvs, hlast⟩ := spans_of_arguments hargs hqs _
    exact Part.placed_simple hrow
      (.call hrow (ihe hrow.left) hvs hlast (hargs.map_eq placed_expr) hargs.flatMap_sublist hqs)
  | leave | break_ | continue_ => exact Part.placed_stmt (.leaf hrow (hrow.single (by simp)) rfl rfl) rfl
  | return_ _ _ ih => exact Part.placed_stmt (.behind hrow (ih hrow.tail) rfl rfl rfl) rfl
  | while_ _ _ _ _ _ ihc ih =>
    refine Part.placed_stmt (.intro hrow (hrow.fromTo ?_) (fun hs => ?_) .nil) rfl
    · simp [List.suffix_append_of_suffix]
    · refine List.forall_mem_cons.mpr ⟨(ihc hrow.tail.left).holds fun t ht => hs t (by simp [ht]), ?_⟩
      exact List.forall_mem_singleton.mpr (.body (List.cons_ne_nil _ _) hrow (ih hrow.tail.right.left) hs)
  | for_ _ _ _ _ _ _ _ ihc ih =>
    refine Part.placed_stmt (.intro hrow (hrow.fromTo ?_) (fun hs => ?_) .nil) rfl
    · simp [List.suffix_cons_iff, List.suffix_append_of_suffix]
    · refine List.forall_mem_cons.mpr ⟨(hrow.ident (by simp) _).holds fun t ht => hs t (by simp_all), ?_⟩
      have hc := ihc hrow.tail.tail.tail.left
      refine List.forall_mem_cons.mpr ⟨hc.holds fun t ht => hs t (by simp [ht]), ?_⟩
      exact List.forall_mem_singleton.mpr
        (.body (List.cons_ne_nil _ _) hrow (ih hrow.tail.tail.tail.right.left) hs)
  | if_ _ harms ih =>
    have hspan := hrow.fromLast (harms.opens rfl).ne_nil (List.suffix_cons ..)
    exact Part.placed_stmt (.if_ hrow hspan fun hs => ih hrow.tail _ _ rfl hrow hs) rfl
  | inline _ _ _ _ ihc iha =>
    -- The clause is the last one, so it reaches as far as the statement does.
    have hclause := Source.Placed.inlineClause hrow (ihc hrow.tail.left) (iha hrow.tail.right.tail).1
    exact Source.Placed.mkInline hrow (List.Subset.refl _) hclause ⟨_, List.suffix_rfl, hclause.1⟩
      fun _ _ => ⟨by simp, by simp⟩
  | inlineElse _ _ _ _ _ _ _ ihc iha ihb =>
    exact Source.Placed.mkInlineElse hrow (ihc hrow.tail.left) (iha hrow.tail.right.tail.left).1
      (ihb hrow.tail.right.tail.right.tail)
  | mark _ _ hfollows =>
    have hspan := hrow.fromLast (List.cons_ne_nil _ _) List.suffix_rfl
    refine Part.placed_stmt ?_ rfl
    cases hfollows with
    | import_ =>
      refine .intro hrow hspan (fun hs => List.forall_mem_singleton.mpr ?_) .nil
      exact (hrow.ident (by simp) _).holds fun t ht => hs t (by simp_all)
    | _ => exact .leaf hrow hspan rfl rfl
  | arm _ _ _ _ ihc ihs ihr =>
    -- The word before the condition is `if`, or the `else` that the clause before it ends with.
    rintro w s rfl hrow' hs
    have hrest := ihr hrow.right.tail.right s fun t ht => hs t (by simp_all)
    refine ⟨List.forall_mem_cons.mpr ⟨?_, hrest.1⟩, hrest.2⟩
    exact .arm hrow' (ihc hrow.left) (ihs hrow.right.tail.left) hs
  | closed => exact fun _ _ => ⟨by simp, by simp⟩
  | else_ _ _ _ _ ih =>
    refine fun s hs => ⟨by simp, ?_⟩
    rintro _ ⟨⟩
    exact .block hrow (ih hrow.tail.left) hs
  | elseIf _ _ _ ih =>
    refine fun s hs => ih hrow.tail.tail _ s rfl (hrow.sublist (by simp)) fun t ht => hs t ?_
    exact ((List.sublist_cons_self ..).cons_cons _).subset ht
  | done => exact ⟨by simp, .nil⟩
  | comment _ _ _ ih =>
    refine Part.placed_cons hrow (List.sublist_append_right _ ([_] ++ _)) ?_ (ih hrow.right.tail)
    exact .leaf (hrow.sublist (List.singleton_sublist.mpr (by simp))) (hrow.single (by simp)) rfl rfl
  | line _ _ _ ih ihs =>
    exact Part.placed_cons hrow (List.sublist_append_right ..) (ih hrow.right.left).1 (ihs hrow.right.right)
  | lost _ _ _ ih =>
    have hlines := ih hrow.right.right
    refine ⟨fun d hd => ?_, hlines.2⟩
    obtain ⟨vs, hvs, hd⟩ := hlines.1 d hd
    exact ⟨vs, fun t ht => by simp [hvs ht], hd⟩

namespace Source

variable {source : Source} {script : Script}

/-- The tokens of a text before its end. -/
theorem row_of_scan {ts : List Token} {e : Token} (h : source.scan.tokens = ts ++ [e]) : source.Row ts := by
  obtain ⟨laid, rest, tokens, htext, htiles, htokens, -⟩ := tiles_scanFrom .first 0 source.text.toList
  obtain ⟨rfl, -⟩ := List.append_inj' (h.symm.trans htokens) rfl
  have htiled := htiles.tiled source [] htext rfl
  exact
    { apart := htiled.apart
      placed := fun t ht => source.hasSpan_scan.1 t (h ▸ List.mem_append_left _ ht)
      full := fun t ht => (htiled.within t ht).2.1 }

/-- **A script that was read from a text is nested.**  Everything in it has an exact place that is not
empty and lies in that of what it is a part of; statements, items, arguments, entries and parameters
follow each other. -/
theorem nested_of_parse (h : source.parse = .ok script) : (∀ x, script.Has x → x.Nested source) ∧
    script.body.Pairwise fun a b => a.span.Precedes b.span := by
  obtain ⟨ts, e, qs, htokens, -, -, hlines, -⟩ := derives_of_parse h
  obtain ⟨hstmts, hapart⟩ := hlines.placed (row_of_scan htokens)
  refine ⟨?_, hapart⟩
  rintro x ⟨a, ha, hinside⟩
  obtain ⟨us, -, hplaced⟩ := hstmts a ha
  exact hplaced.2 x hinside

/-- Elements of every sort, some on one line and some on more. -/
def spread : Source where
  name := "main"
  text := "f = function(a, b = -1)\n  return [a, \x7b\"k\": b[1:], 2: @a\x7d] // c\nend function\n" ++
    "while f(1, 2).g < 3\n  x = #line;\nend while\nif x then y else if not z then f 1, 2 else break"

theorem nested_of_parse_spread : ∃ script, spread.parse = .ok script ∧ script.body.length = 3 ∧
    (∀ x, script.Has x → x.Nested spread) ∧ script.body.Pairwise fun a b => a.span.Precedes b.span := by
  have hlength : spread.parse.toOption.map (·.body.length) = some 3 := by decide +kernel
  cases hparse : spread.parse with
  | error report => simp [hparse, Except.toOption] at hlength
  | ok script =>
    rw [hparse] at hlength
    exact ⟨script, rfl, Option.some.inj hlength, nested_of_parse hparse⟩

end Source

end ScriptBundler

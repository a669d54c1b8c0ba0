import Mathlib.Tactic.Abel
import ScriptBundler.Proofs.Rows

/-!
# Proofs/Writing — expressions and statements from their parts

All ways of writing put nodes together from their parts alike; they differ in blanks, line breaks and
comments.  For each kind of node a lemma says what tokens make it up, whatever its parts are written
like: `Operand` is said of expressions, `Written` of statements, `Inner` of what is between brackets.

Where comments are `heard`, the lemmas also count them.
-/

namespace ScriptBundler

open Token (Kind)
open Layout Reader

/-! ## Steps of writing -/

/-- `w` yields something with `P`, or it fails, where that is allowed. -/
def Write.Gives {α : Type} (fails : Prop) (w : Write α) (P : α → Prop) : Prop :=
  (∃ a, w = pure a ∧ P a) ∨ (fails ∧ ∃ err, w = throw err)

namespace Write.Gives

variable {α β : Type} {fails : Prop} {w : Write α} {P Q : α → Prop}

protected theorem pure {a : α} (h : P a) : Gives fails (pure a) P := .inl ⟨a, rfl, h⟩

protected theorem throw (h : fails) (err : WriteError) : Gives fails (throw err : Write α) P :=
  .inr ⟨h, err, rfl⟩

/-- One step after another. -/
theorem bind {k : α → Write β} {R : β → Prop} (h : w.Gives fails P)
    (hk : ∀ a, P a → (k a).Gives fails R) : (w >>= k).Gives fails R := by
  rcases h with ⟨a, rfl, ha⟩ | ⟨hfails, err, rfl⟩
  · rw [pure_bind]
    exact hk a ha
  · exact .inr ⟨hfails, err, rfl⟩

theorem mono (h : w.Gives fails P) (hPQ : ∀ a, P a → Q a) : w.Gives fails Q := by
  rcases h with ⟨a, hw, ha⟩ | h
  · exact .inl ⟨a, hw, hPQ a ha⟩
  · exact .inr h

theorem map {f : α → β} {R : β → Prop} (h : w.Gives fails P) (hf : ∀ a, P a → R (f a)) :
    (f <$> w).Gives fails R := by
  rw [map_eq_pure_bind]
  exact h.bind fun a ha => .pure (hf a ha)

end Write.Gives

/-- `l` is `a`, as `A` says.  If comments are `heard`, those in it say `m`. -/
def Entity {α : Type} (A : α → List Kind → Prop) (heard : Prop) (m : Multiset String) (a : α)
    (l : Layout) : Prop :=
  ∃ ks, Spells l ks Any Solid EndsOperand OpensOperand ∧ A a ks ∧ (heard → said ks = m)

/-- The same pieces, put together otherwise. -/
theorem Entity.of_eq {α : Type} {A : α → List Kind → Prop} {heard : Prop} {m : Multiset String}
    {a : α} {l l' : Layout} (h : Entity A heard m a l) (hl : l' = l) : Entity A heard m a l' := hl ▸ h

/-- The same text in other pieces. -/
theorem Entity.of_foldl {α : Type} {A : α → List Kind → Prop} {heard : Prop} {m : Multiset String}
    {a : α} {l l' : Layout} (h : Entity A heard m a l)
    (hl : ∀ out, l'.foldl write out = l.foldl write out) : Entity A heard m a l' := by
  obtain ⟨ks, hks, ha, hm⟩ := h
  exact ⟨ks, hks.of_foldl hl, ha, hm⟩

/-- The same comments, counted otherwise. -/
theorem Entity.recount {α : Type} {A : α → List Kind → Prop} {heard : Prop} {m m' : Multiset String}
    {a : α} {l : Layout} (h : Entity A heard m a l) (hm : heard → m' = m) : Entity A heard m' a l := by
  obtain ⟨ks, hl, ha, hsaid⟩ := h
  exact ⟨ks, hl, ha, fun hh => (hsaid hh).trans (hm hh).symm⟩

theorem Written.recount {heard : Prop} {m m' : Multiset String} {s : Stmt} {l : Layout}
    (h : Written heard m s l) (hm : m' = m) : Written heard m' s l := hm ▸ h

theorem Written.of_eq {heard : Prop} {m : Multiset String} {s : Stmt} {l l' : Layout}
    (h : Written heard m s l) (hl : l' = l) : Written heard m s l' := hl ▸ h

/-- `l` is the expression `e`, which binds as tight as level `k`. -/
abbrev Operand (heard : Prop) (m : Multiset String) (k : Nat) (e : Expr) (l : Layout) : Prop :=
  Entity (Phrase k) heard m e l

/-! ## Items with comments beside them -/

/-- Comments that can be read again. -/
def Audible (cs : List Comment) : Prop := ∀ c ∈ cs, (Kind.comment c.text).Valid

section Items

variable {α : Type} [Item α]

/-- The comments beside an item can be read again. -/
def Clear (a : α) : Prop := Audible (Item.comments a).leading ∧ Audible (Item.comments a).trailing

/-- `l` is the item `a`, without the comments beside it. -/
def Renders [Content α] (A : α → List Kind → Prop) (heard : Prop) (image : α → α) (a : α)
    (l : Layout) : Prop :=
  Clear a ∧ Entity A heard (Content.inside a) (image a) l

end Items

/-- `l` is an end of a slice, if it is there. -/
def RendersEnd (heard : Prop) (st : Style) (e : Option Expr) (l : Layout) : Prop :=
  match e with
  | none => l = []
  | some e => Renders (Phrase 0) heard (Expr.image st) e l

variable {heard : Prop} {m m' m'' : Multiset String} {k : Nat} {e b : Expr} {l l' l'' : Layout}

/-- Tokens that are no comments say nothing. -/
theorem said_cons_of_none {t : Kind} (ht : t.remark? = none) (ks : List Kind) :
    said (t :: ks) = said ks := by
  rw [said_cons, said_of_none (by simpa using ht), zero_add]

@[simp] theorem said_cons_keyword (w : Keyword) (ks : List Kind) :
    said (.keyword w :: ks) = said ks := said_cons_of_none rfl ks

@[simp] theorem said_cons_symbol (s : Symbol) (ks : List Kind) :
    said (.symbol s :: ks) = said ks := said_cons_of_none rfl ks

@[simp] theorem said_cons_identifier (x : String) (ks : List Kind) :
    said (.identifier x :: ks) = said ks := said_cons_of_none rfl ks

/-! ## Leaves -/

namespace Operand

/-- A tight operand is a loose one. -/
theorem loosen {j : Nat} (h : Operand heard m j e l) (hj : j ≤ 11) (hk : k ≤ j) :
    Operand heard m k e l := by
  obtain ⟨ks, hl, he, hm⟩ := h
  exact ⟨ks, hl, he.loosen hj hk, hm⟩

theorem number {raw : String} {value : Binary64} (hv : (Kind.number raw value).Valid) :
    Operand heard 0 11 (Expr.Form.literal (.number raw value false)).node (text raw) :=
  ⟨_, Spells.plain hv rfl rfl, .number raw value, fun _ => rfl⟩

/-- A constant that is written as itself. -/
theorem literal {S : Stock} (hS : ∀ k, S.token k → k.Valid) {l : Literal} (hl : l.Proper S) :
    Operand heard 0 (Expr.Form.literal l).level (Expr.Form.literal l).node (text l.raw) := by
  cases l with
  | number raw value negated =>
    cases negated with
    | false => exact number (hS _ hl)
    | true =>
      have hunsigned := (Phrase.number raw value).loosen (k := 9) (by decide) (by decide)
      exact ⟨_, Spells.minus.concat (Spells.plain (hS _ hl) rfl rfl), hunsigned.minus, fun _ => rfl⟩
  | string raw value => exact ⟨_, Spells.plain (hS _ hl) rfl rfl, .string raw value, fun _ => rfl⟩
  | bool value =>
    refine ⟨_, ?_, .bool value, fun _ => by cases value <;> rfl⟩
    cases value with
    | true => exact Spells.keyword .true
    | false => exact Spells.keyword .false
  | null => exact ⟨_, Spells.keyword .null, .null, fun _ => rfl⟩

/-- A name stands for itself. -/
theorem identifier {x : String} (hx : IsName x) :
    Operand heard 0 11 (Expr.Form.identifier x).node (text x) :=
  ⟨_, Spells.name hx, .identifier x, fun _ => rfl⟩

/-- A member of an operand. -/
theorem member {x : String} (hb : Operand heard m 11 b l) (hx : IsName x) :
    Operand heard m 11 (Expr.Form.member b ⟨x, default⟩).node (l ++ text ("." ++ x)) := by
  obtain ⟨ks, hl, hb, hm⟩ := hb
  exact ⟨_, hl.append (Spells.field hx), hb.member x, fun h => by simp [hm h]⟩

/-- An operator before an operand; a minus becomes the sign of a number. -/
theorem unary {op : UnaryOp} (h : Operand heard m op.level e l) :
    Operand heard m op.level (if op = .neg then e.negate else .unary op e).node
      (text op.lead ++ l) := by
  obtain ⟨ks, hl, he, hm⟩ := h
  cases op with
  | neg => exact ⟨_, Spells.minus.append hl, he.minus, fun h => by simp [hm h]⟩
  | not =>
    exact ⟨_, ((Spells.keyword .not).concat .blank).append hl, Phrase.unary (by simp) he,
      fun h => by simp [hm h]⟩
  | new =>
    exact ⟨_, ((Spells.keyword .new).concat .blank).append hl, Phrase.unary (by simp) he,
      fun h => by simp [hm h]⟩
  | address =>
    exact ⟨_, (Spells.opening rfl (by decide)).append hl, Phrase.unary (by simp) he,
      fun h => by simp [hm h]⟩

end Operand

/-! ## Between brackets -/

/-- `l` is what is between brackets: the items `as`, each as `A` says, with gaps around them. -/
def Inner {α : Type} (A : α → List Kind → Prop) (heard : Prop) (m : Multiset String) (as : List α)
    (l : Layout) : Prop :=
  ∃ gap ks, Gap gap ∧ Separated A as ks ∧ Spells l (gap ++ ks) Solid Any EndsOperand Any ∧
    (heard → said (gap ++ ks) = m)

/-- `l` is what is between brackets, or between one and a colon: an expression or none. -/
def Bound (heard : Prop) (m : Multiset String) (e : Option Expr) (l : Layout) : Prop :=
  ∃ ks, BoundPhrase e ks ∧ Spells l ks Solid Any EndsOperand Any ∧ (heard → said ks = m)

/-- An expression with nothing around it. -/
theorem Operand.bound (h : Operand heard m 0 e l) : Bound heard m (some e) l := by
  obtain ⟨ks, hl, he, hm⟩ := h
  exact ⟨ks, ⟨[], ks, [], by simp, Gap.nil, he, Gap.nil⟩, hl.mono, hm⟩

theorem Bound.none : Bound heard 0 none [] :=
  ⟨[], Gap.nil, (Spells.nil (P := Solid) (F := EndsOperand)).mono, fun _ => rfl⟩

theorem Inner.nil {α : Type} {A : α → List Kind → Prop} : Inner A heard 0 [] [] :=
  ⟨[], [], Gap.nil, .nil, (Spells.nil (P := Solid) (F := EndsOperand)).mono, fun _ => rfl⟩

namespace Operand

/-- A list, from what is between its brackets. -/
theorem list {es : List Expr} (h : Inner (Phrase 0) heard m es l) :
    Operand heard m 11 (Expr.Form.list es).node (text "[" ++ l ++ text "]") := by
  obtain ⟨gap, ks, hgap, hks, hl, hm⟩ := h
  have hspells := ((Spells.opening (s := .openBracket) rfl (by decide)).append hl).append
    (Spells.closing (s := .closeBracket) rfl)
  refine ⟨_, hspells.mono, ?_, fun h => by simpa using hm h⟩
  simpa using Phrase.list hks hgap

/-- A map, from what is between its braces. -/
theorem map {es : List Entry} (h : Inner EntryPhrase heard m es l) :
    Operand heard m 11 (Expr.Form.map es).node (text "\x7b" ++ l ++ text "\x7d") := by
  obtain ⟨gap, ks, hgap, hks, hl, hm⟩ := h
  have hspells := ((Spells.opening (s := .openBrace) rfl (by decide)).append hl).append
    (Spells.closing (s := .closeBrace) rfl)
  refine ⟨_, hspells.mono, ?_, fun h => by simpa using hm h⟩
  simpa using Phrase.map hks hgap

/-- Parentheses around an expression. -/
theorem paren (h : Bound heard m (some e) l) :
    Operand heard m 11 (Expr.Form.paren e).node (text "(" ++ l ++ text ")") := by
  obtain ⟨ks, ⟨gap, es, gap', rfl, hgap, he, hgap'⟩, hl, hm⟩ := h
  have hspells := ((Spells.opening (s := .openParen) rfl (by decide)).append hl).append
    (Spells.closing (s := .closeParen) rfl)
  refine ⟨_, hspells.mono, ?_, fun h => by simpa using hm h⟩
  simpa using Phrase.paren he hgap hgap'

/-- A call, from the operand and its arguments. -/
theorem call {es : List Expr} (hb : Operand heard m 11 b l) (h : Inner (Phrase 0) heard m' es l') :
    Operand heard (m + m') 11 (Expr.Form.call b es).node (l ++ (text "(" ++ l' ++ text ")")) := by
  obtain ⟨bs, hl, hb, hm⟩ := hb
  obtain ⟨gap, ks, hgap, hks, hl', hm'⟩ := h
  have hspells := hl.append (((Spells.closing (s := .openParen) rfl).append hl').append
    (Spells.closing (s := .closeParen) rfl))
  refine ⟨_, hspells.mono, ?_, fun h => ?_⟩
  · simpa using hb.call hks hgap
  · have := hm' h
    simp_all

/-- An item of an operand. -/
theorem index {i : Expr} (hb : Operand heard m 11 b l) (h : Bound heard m' (some i) l') :
    Operand heard (m + m') 11 (Expr.Form.index b i).node (l ++ (text "[" ++ l' ++ text "]")) := by
  obtain ⟨bs, hl, hb, hm⟩ := hb
  obtain ⟨ks, hks, hl', hm'⟩ := h
  have hspells := hl.append (((Spells.closing (s := .openBracket) rfl).append hl').append
    (Spells.closing (s := .closeBracket) rfl))
  refine ⟨_, hspells.mono, ?_, fun h => by simp [hm h, hm' h]⟩
  simpa using hb.index hks

/-- A slice of an operand. -/
theorem slice {i j : Option Expr} (hb : Operand heard m 11 b l) (hi : Bound heard m' i l')
    (hj : Bound heard m'' j l'') :
    Operand heard (m + (m' + m'')) 11 (Expr.Form.slice b i j).node
      (l ++ (text "[" ++ l' ++ text ":" ++ l'' ++ text "]")) := by
  obtain ⟨bs, hl, hb, hm⟩ := hb
  obtain ⟨is, his, hl', hm'⟩ := hi
  obtain ⟨js, hjs, hl'', hm''⟩ := hj
  have hspells := hl.append (((((Spells.closing (s := .openBracket) rfl).append hl').append
    (Spells.closing (s := .colon) rfl)).append hl'').append (Spells.closing (s := .closeBracket) rfl))
  refine ⟨_, hspells.mono, ?_, fun h => by simp [hm h, hm' h, hm'' h]⟩
  simpa using hb.slice his hjs

end Operand

/-! ## Items on one line -/

namespace Inner

variable {α : Type} {A : α → List Kind → Prop} {sep : String}

/-- The images of items with a comma and maybe a blank between them. -/
theorem intercalate_ne_nil {β : Type} {image : β → α} {count : β → Multiset String}
    (hsep : Spells (text sep) [.symbol .comma] Any Solid Any EndsOperand) {bs : List β}
    {ls : List Layout} (h : List.Forall₂ (fun b => Entity A heard (count b) (image b)) bs ls)
    (hbs : bs ≠ []) :
    ∃ ks, Separated A (bs.map image) ks ∧
      Spells (intercalate sep ls) ks Any Solid EndsOperand OpensOperand ∧
      (heard → said ks = (bs.map count).sum) := by
  induction h with
  | nil => exact absurd rfl hbs
  | @cons b l bs ls hb hmore ih =>
    obtain ⟨ks, hl, hb, hm⟩ := hb
    cases hmore with
    | nil =>
      refine ⟨ks ++ [], .last hb Gap.nil, ?_, fun h => by simpa using hm h⟩
      simpa [intercalate] using hl
    | @cons b' l' bs ls hb' hmore =>
      obtain ⟨ks', hks', hl', hm'⟩ := ih (by simp)
      have hsum (h : heard) : said (ks ++ ([] ++ Kind.symbol .comma :: ([] ++ ks'))) =
          ((b :: b' :: bs).map count).sum := by
        rw [List.map_cons, List.sum_cons, ← hm h, ← hm' h]
        simp
      refine ⟨_, .cons hb Gap.nil Gap.nil (by simp) hks', ?_, hsum⟩
      have hsplit : intercalate sep (l :: l' :: ls) = l ++ (text sep ++ intercalate sep (l' :: ls)) := by
        simp [intercalate, List.intersperse]
      rw [hsplit]
      exact hl.append (hsep.append hl')

/-- **The images of items on one line.** -/
theorem intercalate_images {β : Type} {image : β → α} {count : β → Multiset String}
    (hsep : Spells (text sep) [.symbol .comma] Any Solid Any EndsOperand) {bs : List β}
    {ls : List Layout} (h : List.Forall₂ (fun b => Entity A heard (count b) (image b)) bs ls) :
    Inner A heard (bs.map count).sum (bs.map image) (Layout.intercalate sep ls) := by
  by_cases hbs : bs = []
  · subst hbs
    cases h
    exact .nil
  · obtain ⟨ks, hks, hl, hm⟩ := intercalate_ne_nil hsep h hbs
    exact ⟨[], ks, Gap.nil, hks, hl.mono, hm⟩

/-- Items on one line, without comments. -/
theorem intercalate (hsep : Spells (text sep) [.symbol .comma] Any Solid Any EndsOperand)
    {as : List α} {ls : List Layout} (h : List.Forall₂ (Entity A heard 0) as ls) :
    Inner A heard 0 as (Layout.intercalate sep ls) := by
  have hitems : Inner A heard (as.map (0 : α → Multiset String)).sum (as.map id)
      (Layout.intercalate sep ls) := intercalate_images hsep h
  rwa [sum_map_zero, List.map_id] at hitems

end Inner

/-! ## Functions -/

/-- `l` are the parameters of a function, with their parentheses, or nothing. -/
def Params (heard : Prop) (m : Multiset String) (ps : List Param) (l : Layout) : Prop :=
  ∃ ks, ParamsPhrase ps ks ∧ Spells l ks Solid Solid EndsOperand EndsOperand ∧ (heard → said ks = m)

theorem Params.none : Params heard 0 [] [] :=
  ⟨[], .inl ⟨rfl, rfl⟩, .nil, fun _ => rfl⟩

/-- Parameters between parentheses. -/
theorem Params.some {ps : List Param} (h : Inner ParamPhrase heard m ps l) :
    Params heard m ps (text "(" ++ l ++ text ")") := by
  obtain ⟨gap, ks, hgap, hks, hl, hm⟩ := h
  have hspells := ((Spells.closing (s := .openParen) rfl).append hl).append
    (Spells.closing (s := .closeParen) rfl)
  exact ⟨_, .inr ⟨gap, ks, by simp, hgap, hks⟩, hspells.mono, fun h => by simpa using hm h⟩

theorem Params.of_foldl {ps : List Param} (h : Params heard m ps l)
    (hl : ∀ out, l'.foldl write out = l.foldl write out) : Params heard m ps l' := by
  obtain ⟨ks, hks, hspells, hm⟩ := h
  exact ⟨ks, hks, hspells.of_foldl hl, hm⟩

/-- `l` are the statements `ss` of a block, below the line that opens it. -/
def Body (heard : Prop) (m : Multiset String) (ss : List Stmt) (l : Layout) : Prop :=
  ∃ ks G, Covers G EndsOperand ∧ Below G ss l ks ∧ (heard → said ks = m)

/-- The words that close a block. -/
theorem Spells.ending (w : Keyword) : Spells (text ("end" ++ " " ++ w.spelling))
    [.keyword .end_, .keyword w] Any Solid EndsOperand OpensOperand :=
  ((Spells.keyword .end_).concat .blank).concat (Spells.keyword w)

/-- **A function**, from its parameters and its body. -/
theorem Operand.function {ps : List Param} {ss : List Stmt} {i : Layout}
    (hi : Spells i [] Any Any Any Any) (hps : Params heard m ps l) (hss : Body heard m' ss l') :
    Operand heard (m + m') 11 (Expr.Form.function ps ⟨ss, default⟩).node
      (text "function" ++ l ++ eol ++ l' ++ i ++ text "end function") := by
  obtain ⟨ks, hks, hl, hm⟩ := hps
  obtain ⟨bs, G, hG, hbs, hm'⟩ := hss
  have hspells := (Spells.keyword .function).append
    (hl.append (hbs.spells.append (hi.append (Spells.ending .function))))
  refine ⟨_, ?_, Phrase.function hks hbs.block, fun h => by simp [hm h, hm' h]⟩
  simp only [List.append_assoc, List.nil_append] at hspells ⊢
  exact hspells

/-! ## Operators -/

/-- An operator after a blank. -/
theorem Spells.binaryOp (op : BinaryOp) :
    Spells (text (" " ++ op.spelling)) [op.token] Any Solid Pause Pause := by
  unfold BinaryOp.spelling
  cases hop : op.token with
  | symbol s =>
    have hs : s ≠ .dot := by
      rintro rfl
      cases op <;> cases hop
    exact (Spells.blank.concat (Spells.operator hs)).mono
  | keyword w => exact (Spells.blank.concat (Spells.keyword w)).mono
  | _ => cases op <;> cases hop

/-- `l` is an operator, with what stands between it and its right operand. -/
def Joiner (heard : Prop) (m : Multiset String) (op : BinaryOp) (l : Layout) : Prop :=
  ∃ gap, Gap gap ∧ Spells l (op.token :: gap) Any Any OpensOperand EndsOperand ∧
    (heard → said gap = m)

/-- **Two operands and what joins them**. -/
theorem Operand.binary {op : BinaryOp} {r : Expr} (hl : Operand heard m op.leftLevel e l)
    (hj : Joiner heard m' op l') (hr : Operand heard m'' op.rightLevel r l'') :
    Operand heard (m + m' + m'') op.level (Expr.Form.binary op e r).node (l ++ l' ++ l'') := by
  obtain ⟨ls, hl, he, hm⟩ := hl
  obtain ⟨gap, hgap, hj, hm'⟩ := hj
  obtain ⟨rs, hr, he', hm''⟩ := hr
  have htoken : op.token.remark? = none := by cases op <;> rfl
  refine ⟨_, (hl.append hj).append hr, ?_, fun h => ?_⟩
  · by_cases hop : op = .pow
    · subst hop
      rw [List.append_assoc, List.cons_append]
      exact he.pow hgap he'
    · rw [BinaryOp.leftLevel, if_neg hop] at he
      rw [BinaryOp.rightLevel, if_neg hop] at he'
      simpa using Phrase.binary hop he hgap he'
  · rw [said_append, said_append, said_cons_of_none htoken, hm h, hm' h, hm'' h]

/-! ## Entries and parameters -/

/-- The name of a parameter and the sign before its value. -/
theorem Spells.default {x : String} (hx : IsName x) : Spells (text (x ++ " = "))
    [.identifier x, .symbol .assign] Any Solid OpensOperand OpensOperand :=
  ((Spells.name hx).concat ((Spells.blank.concat (Spells.operator (s := .assign) (by decide))).concat
    .blank)).mono

/-- An entry of a map, with a colon between its two operands. -/
theorem Entity.entry {o : Layout} {v : Expr} (ho : Spells o [.symbol .colon] Any Solid Any EndsOperand)
    (hk : Operand heard m 0 e l) (hv : Operand heard m' 0 v l') :
    Entity EntryPhrase heard (m + m') ⟨e, v, default, {}⟩ (l ++ o ++ l') := by
  obtain ⟨ks, hl, he, hm⟩ := hk
  obtain ⟨vs, hl', hv, hm'⟩ := hv
  refine ⟨_, (hl.append ho).append hl', ⟨ks, [], [], vs, by simp, he, Gap.nil, Gap.nil, hv, rfl⟩,
    fun h => by simp [hm h, hm' h]⟩

theorem Entity.param {x : String} (hx : IsName x) :
    Entity ParamPhrase heard 0 ⟨⟨x, default⟩, none, default, {}⟩ (text x) :=
  ⟨_, Spells.name hx, ⟨rfl, rfl, rfl, rfl⟩, fun _ => rfl⟩

/-- `o` is the name of the parameter and the sign after it. -/
theorem Entity.paramWith {x : String} {o : Layout}
    (ho : Spells o [.identifier x, .symbol .assign] Any Solid OpensOperand OpensOperand)
    (hv : Operand heard m 0 e l) :
    Entity ParamPhrase heard m ⟨⟨x, default⟩, some e, default, {}⟩ (o ++ l) := by
  obtain ⟨vs, hl, hv, hm⟩ := hv
  exact ⟨_, ho.append hl, ⟨rfl, rfl, rfl, vs, by simp, hv⟩, fun h => by simp [hm h]⟩

/-! ## Directives that stand for a value -/

/-- A directive as it is put into the text. -/
theorem Operand.directive {d : ValueDirective} (hd : ∀ x, d = .envar x → IsName x) :
    Operand heard 0 11 (Expr.Form.directive d).node (text (Scene.directiveText d)) := by
  have hhash := Spells.opening (s := .hash) rfl (by decide)
  have hend := Spells.closing (s := .semicolon) rfl
  have hword : ∀ w : String, IsName w → Spells (text ("#" ++ w)) [.symbol .hash, .identifier w] Any
      Solid EndsOperand OpensOperand := fun w hw => hhash.concat (Spells.name hw)
  cases d with
  | envar x =>
    have hspells := (((hword "envar" (by decide)).concat .blank).concat
      (Spells.name (hd x rfl))).concat hend
    exact ⟨_, hspells.mono, .directive _, fun _ => rfl⟩
  | inject path =>
    have hspells := (((hword "inject" (by decide)).concat .blank).concat (Spells.quoted path)).concat hend
    exact ⟨_, hspells.mono, .directive _, fun _ => rfl⟩
  | line => exact ⟨_, ((hword "line" (by decide)).concat hend).mono, .directive _, fun _ => rfl⟩
  | filename => exact ⟨_, ((hword "filename" (by decide)).concat hend).mono, .directive _, fun _ => rfl⟩

/-! ## Statements -/

theorem AssignOp.symbol_ne_dot (op : AssignOp) : op.symbol ≠ .dot := by cases op <;> decide

theorem Spells.assignOp (op : AssignOp) : Spells (text (" " ++ op.symbol.spelling ++ " "))
    [.symbol op.symbol] Any Solid OpensOperand EndsOperand :=
  ((Spells.blank.concat (Spells.operator op.symbol_ne_dot)).concat .blank).mono

/-- The words before the collection that is gone through. -/
theorem Spells.forHead {x : String} (hx : IsName x) : Spells (text ("for " ++ x ++ " in "))
    [.keyword .for_, .identifier x, .keyword .in_] Any Solid Any Any :=
  ((((Spells.keyword .for_).concat .blank).concat (Spells.name hx)).concat
    ((Spells.blank.concat (Spells.keyword .in_)).concat .blank)).mono

namespace Written

variable {s t : Stmt} {ss : List Stmt} {i o : Layout}

/-- An assignment. -/
theorem assign (op : AssignOp) (ho : Spells o [.symbol op.symbol] Any Solid OpensOperand EndsOperand)
    {v : Expr} (he : Operand heard m 0 e l) (htarget : isTarget e = true)
    (hv : Operand heard m' 0 v l') :
    Written heard (m + m') (Stmt.Form.assign op e v).node (l ++ o ++ l') := by
  obtain ⟨ks, hl, he, hm⟩ := he
  obtain ⟨vs, hl', hv, hm'⟩ := hv
  refine ⟨_, ((hl.append ho).append hl').mono, ?_, fun h => by simp [hm h, hm' h]⟩
  simpa using Sentence.assign op he htarget hv

/-- An expression on its own line. -/
theorem expr (he : Operand heard m 0 e l) : Written heard m (Stmt.Form.expr e).node l := by
  obtain ⟨ks, hl, he, hm⟩ := he
  exact ⟨ks, hl.mono, .expr he, hm⟩

theorem break_ : Written heard 0 Stmt.Form.break_.node (text "break") :=
  ⟨_, (Spells.keyword .break_).mono, .break_, fun _ => rfl⟩

theorem continue_ : Written heard 0 Stmt.Form.continue_.node (text "continue") :=
  ⟨_, (Spells.keyword .continue_).mono, .continue_, fun _ => rfl⟩

theorem return_none : Written heard 0 (Stmt.Form.return_ none).node (text "return") :=
  ⟨_, (Spells.keyword .return_).mono, .return_none, fun _ => rfl⟩

/-- A return with a value. -/
theorem return_some (he : Operand heard m 0 e l) :
    Written heard m (Stmt.Form.return_ (some e)).node (text "return " ++ l) := by
  obtain ⟨ks, hl, he, hm⟩ := he
  exact ⟨_, (((Spells.keyword .return_).concat .blank).append hl).mono, .return_some he,
    fun h => by simp [hm h]⟩

/-- A loop, from its condition and its body. -/
theorem while_ (hi : Spells i [] Any Any Any Any) (he : Operand heard m 0 e l)
    (hss : Body heard m' ss l') :
    Written heard (m + m') (Stmt.Form.while_ e ⟨ss, default⟩).node
      (text "while " ++ l ++ eol ++ l' ++ i ++ text "end while") := by
  obtain ⟨ks, hl, he, hm⟩ := he
  obtain ⟨bs, G, hG, hbs, hm'⟩ := hss
  have hspells := ((Spells.keyword .while_).concat .blank).append
    (hl.append (hbs.spells.append (hi.append (Spells.ending .while_))))
  refine ⟨_, ?_, .while_ he hbs.block, fun h => by simp [hm h, hm' h]⟩
  simp only [List.append_assoc, List.nil_append, List.append_nil] at hspells ⊢
  exact hspells.mono

/-- `o` are the words up to the collection that is gone through. -/
theorem for_ {x : String} (hi : Spells i [] Any Any Any Any)
    (ho : Spells o [.keyword .for_, .identifier x, .keyword .in_] Any Solid Any Any)
    (he : Operand heard m 0 e l) (hss : Body heard m' ss l') :
    Written heard (m + m') (Stmt.Form.for_ ⟨x, default⟩ e ⟨ss, default⟩).node
      (o ++ l ++ eol ++ l' ++ i ++ text "end for") := by
  obtain ⟨ks, hl, he, hm⟩ := he
  obtain ⟨bs, G, hG, hbs, hm'⟩ := hss
  have hspells := ho.append (hl.append (hbs.spells.append (hi.append (Spells.ending .for_))))
  refine ⟨_, ?_, .for_ x he hbs.block, fun h => by simp [hm h, hm' h]⟩
  simp only [List.append_assoc, List.nil_append] at hspells ⊢
  exact hspells

theorem debugger : Written heard 0 (Stmt.Form.directive .debugger).node (text "#debugger;") :=
  have hspells := ((Spells.opening (s := .hash) rfl (by decide)).concat
    (Spells.name (x := "debugger") (by decide))).concat (Spells.closing (s := .semicolon) rfl)
  ⟨_, hspells.mono, .debugger, fun _ => rfl⟩

theorem include_ (path : String) :
    Written heard 0 (Stmt.Form.directive (.include_ path)).node (text (Scene.includeText path)) :=
  have hspells := ((((Spells.opening (s := .hash) rfl (by decide)).concat
    (Spells.name (x := "include") (by decide))).concat .blank).concat (Spells.quoted path)).concat
      (Spells.closing (s := .semicolon) rfl)
  ⟨_, hspells.mono, .include_ path, fun _ => rfl⟩

/-- An import as it is put into the text. -/
theorem import_ {x : String} (hx : IsName x) (path : String) :
    Written heard 0 (Stmt.Form.directive (.import_ ⟨x, default⟩ path)).node
      (text s!"#import {x} from {quote path};") :=
  have hword := ((Spells.opening (s := .hash) rfl (by decide)).concat
    (Spells.name (x := "import") (by decide))).concat .blank
  have hfrom := (Spells.blank.concat (Spells.name (x := "from") (by decide))).concat .blank
  have hspells := (((hword.concat (Spells.name hx)).concat hfrom).concat (Spells.quoted path)).concat
    (Spells.closing (s := .semicolon) rfl)
  ⟨_, hspells.mono, .import_ x path, fun _ => rfl⟩

end Written

/-! ## What a style leaves of a form -/

/-- What can be assigned to still can in every style. -/
theorem isTarget_image (st : Style) {e : Expr} (h : isTarget e = true) :
    isTarget (e.image st) = true := by
  obtain ⟨form, span, cs⟩ := e
  cases form <;> first | rfl | cases h

/-- A style that makes no numbers out of other forms. -/
theorem isUnsigned_image {st : Style} (hliteral : st.literal = .literal)
    (hdirective : ∀ d line, (st.directive d line).isUnsigned = false)
    (hbinary : ∀ op l r, (st.binary op l r).isUnsigned = false)
    (hunary : ∀ op e, (st.unary op e).isUnsigned = false)
    (hparen : ∀ e e', (st.paren e e').isUnsigned = false) {e : Expr}
    (h : e.form.isUnsigned = false) : (e.image st).form.isUnsigned = false := by
  obtain ⟨form, span, cs⟩ := e
  cases form with
  | literal l =>
    show (st.literal l).isUnsigned = false
    rw [hliteral]
    exact h
  | directive d => exact hdirective d _
  | binary op l r => exact hbinary op _ _
  | unary op e => exact hunary op _
  | paren e => exact hparen e _
  | _ => rfl

theorem Style.isInline_debugger {st : Style} (h : st.KeepsLines ∨ st.JoinsLines) :
    st.debugger.node.isInline = false := by
  rcases h with h | h <;> rw [h.debugger] <;> rfl

section Inline

variable {st : Style} (hinline : st.inline = id) (hdebugger : st.debugger.node.isInline = false)
include hinline hdebugger

/-- No style makes an `if` on one line or undoes one. -/
theorem isInline_image (s : Stmt) : (s.image st).isInline = s.isInline := by
  obtain ⟨form, span⟩ := s
  cases form with
  | expr e =>
    obtain ⟨form, _, _⟩ := e
    cases form with
    | call callee args => cases args <;> rfl
    | _ => rfl
  | if_ clauses last inline =>
    show Stmt.isInline (Stmt.Form.if_ _ _ (st.inline inline)).node = _
    rw [hinline]
    cases inline <;> rfl
  | directive d =>
    cases d with
    | debugger => exact hdebugger
    | _ => rfl
  | _ => rfl

/-- No style gives an `if` its `else`. -/
theorem isOpen_image (s : Stmt) : (s.image st).isOpen = s.isOpen := by
  obtain ⟨form, span⟩ := s
  cases form with
  | expr e =>
    obtain ⟨form, _, _⟩ := e
    cases form with
    | call callee args => cases args <;> rfl
    | _ => rfl
  | if_ clauses last inline =>
    show Stmt.isOpen (Stmt.Form.if_ _ (Block.image? st last) (st.inline inline)).node = _
    rw [hinline]
    cases last <;> cases inline <;> rfl
  | directive d =>
    cases d with
    | debugger => exact Stmt.isOpen_of_not_isInline hdebugger
    | _ => rfl
  | _ => rfl

end Inline

/-! ## Conditions on one line -/

/-- `l` are the clauses of an `if` on one line, from the first condition on. -/
def Inline (heard : Prop) (m : Multiset String) (cs : List Clause) (last : Option Block) (l : Layout) :
    Prop :=
  ∃ ks, Spells l ks Any Solid EndsOperand Any ∧
    Sentence (Stmt.Form.if_ cs last true).node (.keyword .if_ :: ks) ∧ (heard → said ks = m)

namespace Inline

variable {s t : Stmt} {cs : List Clause} {last : Option Block}

theorem recount (h : Inline heard m cs last l) (hm : m' = m) : Inline heard m' cs last l := hm ▸ h

/-- A word between two parts of a line. -/
theorem between (w : Keyword) :
    Spells (text (" " ++ w.spelling ++ " ")) [.keyword w] Any Solid Any Pause :=
  (Spells.blank.concat (Spells.keyword w)).concat .blank

theorem between_two (w v : Keyword) :
    Spells (text (" " ++ w.spelling ++ (" " ++ v.spelling ++ " "))) [.keyword w, .keyword v] Any
      Solid Any Pause :=
  (Spells.blank.concat (Spells.keyword w)).concat (between v)

/-- One condition and its statement. -/
theorem alone (he : Operand heard m 0 e l) (hs : Written heard m' s l') :
    Inline heard (m + m') [⟨e, ⟨[s], default⟩, default⟩] none (l ++ text " then " ++ l') := by
  obtain ⟨es, hl, he, hm⟩ := he
  obtain ⟨ks, hl', hs, hm'⟩ := hs
  refine ⟨_, ((hl.append (between .then_)).append hl').mono, ?_, fun h => by simp [hm h, hm' h]⟩
  simpa using Sentence.if_alone he hs

/-- A condition with two statements. -/
theorem else_ (he : Operand heard m 0 e l) (hs : Written heard m' s l') (hopen : s.isOpen = false)
    (ht : Written heard m'' t l'') (hinline : t.isInline = false) :
    Inline heard (m + m' + m'') [⟨e, ⟨[s], default⟩, default⟩] (some ⟨[t], default⟩)
      (l ++ text " then " ++ l' ++ (text " else " ++ l'')) := by
  obtain ⟨es, hl, he, hm⟩ := he
  obtain ⟨ks, hl', hs, hm'⟩ := hs
  obtain ⟨ls, hl'', ht, hm''⟩ := ht
  refine ⟨_, (((hl.append (between .then_)).append hl').append
    ((between .else_).append hl'')).mono, ?_, fun h => by simp [hm h, hm' h, hm'' h, add_assoc]⟩
  simpa using Sentence.if_else he hs hopen ht hinline

/-- A condition with a statement before further ones. -/
theorem chain (he : Operand heard m 0 e l) (hs : Written heard m' s l') (hopen : s.isOpen = false)
    (h : Inline heard m'' cs last l'') :
    Inline heard (m + m' + m'') (⟨e, ⟨[s], default⟩, default⟩ :: cs) last
      (l ++ text " then " ++ l' ++ (text " else if " ++ l'')) := by
  obtain ⟨es, hl, he, hm⟩ := he
  obtain ⟨ks, hl', hs, hm'⟩ := hs
  obtain ⟨ls, hl'', ht, hm''⟩ := h
  refine ⟨_, (((hl.append (between .then_)).append hl').append
    ((between_two .else_ .if_).append hl'')).mono, ?_,
      fun h => by simp [hm h, hm' h, hm'' h, add_assoc]⟩
  simpa using Sentence.if_chain he hs hopen ht rfl

/-- **An `if` on one line.** -/
theorem written (h : Inline heard m cs last l) :
    Written heard m (Stmt.Form.if_ cs last true).node (text "if " ++ l) := by
  obtain ⟨ks, hl, hs, hm⟩ := h
  exact ⟨_, (((Spells.keyword .if_).concat .blank).append hl).mono, hs, fun h => by simp [hm h]⟩

end Inline

/-! ## Conditions with blocks -/

/-- `l` are the clauses of an `if` with blocks, from the first block on, up to its end. -/
def Branching (heard : Prop) (m : Multiset String) (e : Expr) (cs : List Clause)
    (last : Option Block) (l : Layout) : Prop :=
  ∃ ks G, Covers G EndsOperand ∧ Spells l ks Solid Any Any G ∧ Branches e cs last ks ∧
    (heard → said ks = m)

namespace Branching

variable {ss ts : List Stmt} {cs : List Clause} {final : Option Block} {i : Layout}

theorem recount (h : Branching heard m e cs final l) (hm : m' = m) : Branching heard m' e cs final l :=
  hm ▸ h

/-- A body with no branch after it. -/
theorem last (h : Body heard m ss l) :
    Branching heard m e [⟨e, ⟨ss, default⟩, default⟩] none (eol ++ l) := by
  obtain ⟨ks, G, hG, hks, hm⟩ := h
  exact ⟨ks, G, hG, hks.spells, .last hks.block, hm⟩

/-- A body and an `else`. -/
theorem else_ (hi : Spells i [] Any Any Any Any) (h : Body heard m ss l) (h' : Body heard m' ts l') :
    Branching heard (m + m') e [⟨e, ⟨ss, default⟩, default⟩] (some ⟨ts, default⟩)
      (eol ++ l ++ (i ++ text "else" ++ eol ++ l')) := by
  obtain ⟨ks, G, hG, hks, hm⟩ := h
  obtain ⟨ls, G', hG', hls, hm'⟩ := h'
  have hspells := hks.spells.append (hi.append ((Spells.keyword .else_).append hls.spells))
  refine ⟨_, G, hG, ?_, .else_ hks.block hls.block, fun h => by simp [hm h, hm' h]⟩
  simp only [List.append_assoc, List.nil_append] at hspells ⊢
  exact hspells

/-- A body before another condition. -/
theorem elseIf {d : Expr} (hi : Spells i [] Any Any Any Any) (h : Body heard m ss l)
    (hd : Operand heard m' 0 d l') (h' : Branching heard m'' d cs final l'') :
    Branching heard (m + (m' + m'')) e (⟨e, ⟨ss, default⟩, default⟩ :: cs) final
      (eol ++ l ++ (i ++ text "else if " ++ l' ++ text " then" ++ l'')) := by
  obtain ⟨ks, G, hG, hks, hm⟩ := h
  obtain ⟨ds, hl', hd, hm'⟩ := hd
  obtain ⟨ls, G', hG', hl'', hls, hm''⟩ := h'
  have hwords := (((Spells.keyword .else_).concat .blank).concat (Spells.keyword .if_)).concat .blank
  have hthen := Spells.blank.concat (Spells.keyword .then_)
  have hspells := hks.spells.append (hi.append (hwords.append (hl'.append (hthen.append hl''))))
  refine ⟨_, G, hG, ?_, .elseIf hks.block hd hls, fun h => by simp [hm h, hm' h, hm'' h]⟩
  simp only [List.append_assoc, List.nil_append, List.append_nil, List.cons_append] at hspells ⊢
  exact hspells

/-- **An `if` with blocks.** -/
theorem written (hi : Spells i [] Any Any Any Any) (he : Operand heard m 0 e l)
    (h : Branching heard m' e cs final l') :
    Written heard (m + m') (Stmt.Form.if_ cs final false).node
      (text "if " ++ l ++ text " then" ++ l' ++ i ++ text "end if") := by
  obtain ⟨es, hl, he, hm⟩ := he
  obtain ⟨ks, G, hG, hl', hks, hm'⟩ := h
  have hthen := Spells.blank.concat (Spells.keyword .then_)
  have hspells := ((Spells.keyword .if_).concat .blank).append
    (hl.append (hthen.append (hl'.append (hi.append (Spells.ending .if_)))))
  refine ⟨_, ?_, .if_block he hks, fun h => by simp [hm h, hm' h]⟩
  simp only [List.append_assoc, List.nil_append, List.append_nil, List.cons_append] at hspells ⊢
  exact hspells.mono

end Branching

end ScriptBundler

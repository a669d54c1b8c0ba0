import ScriptBundler.Proofs.Ledger

/-!
# Proofs/Elements — everything in a tree that has a place

    while a                  ◂ a loop
      f(b, c)                  └▸ its parts: a condition and a block
    end while                                        └▸ a statement └▸ a call └▸ …

An element is made of parts, and these of parts in turn.  What holds of an element and of every element
in it is put together by one rule (`Element.Every.intro`).  Comments beside an element make no difference
to what it is made of.
-/

namespace ScriptBundler

/-- Something in a tree that has a place in the text. -/
inductive Element where
  | expr (e : Expr)
  | entry (e : Entry)
  | param (p : Param)
  | ident (i : Ident)
  | block (b : Block)
  | clause (c : Clause)
  | stmt (s : Stmt)

/-- What a form is directly made of, in the order of the text. -/
def Expr.Form.parts : Expr.Form → List Element
  | .literal _ | .identifier _ | .directive _ => []
  | .list es => es.map .expr
  | .map es => es.map .entry
  | .member b field => [.expr b, .ident field]
  | .index b i => [.expr b, .expr i]
  | .slice b i j => .expr b :: (i.toList ++ j.toList).map .expr
  | .call c es => .expr c :: es.map .expr
  | .binary _ l r => [.expr l, .expr r]
  | .unary _ e | .paren e => [.expr e]
  | .function ps b => ps.map .param ++ [.block b]

/-- What a statement is directly made of, in the order of the text. -/
def Stmt.Form.parts : Stmt.Form → List Element
  | .assign _ target value => [.expr target, .expr value]
  | .expr e => [.expr e]
  | .return_ value => value.toList.map .expr
  | .if_ cs last _ => cs.map .clause ++ last.toList.map .block
  | .while_ condition body => [.expr condition, .block body]
  | .for_ item iterable body => [.ident item, .expr iterable, .block body]
  | .directive (.import_ name _) => [.ident name]
  | .break_ | .continue_ | .comment _ | .directive _ => []

namespace Element

/-- The stretch of text of an element. -/
def span : Element → Span
  | expr e => e.span
  | entry e => e.span
  | param p => p.span
  | ident i => i.span
  | block b => b.span
  | clause c => c.span
  | stmt s => s.span

/-- What an element is made of, without what these are made of. -/
def parts : Element → List Element
  | expr e => e.form.parts
  | entry e => [.expr e.key, .expr e.value]
  | param p => .ident p.name :: p.default.toList.map .expr
  | ident _ => []
  | block b => b.stmts.map .stmt
  | clause c => [.expr c.condition, .block c.body]
  | stmt s => s.form.parts

/-- `Inside x y`: the element `x` is `y` or stands somewhere in it. -/
inductive Inside : Element → Element → Prop
  | refl (x : Element) : Inside x x
  | part {x y z : Element} (hy : y ∈ z.parts) (h : Inside x y) : Inside x z

/-- `P` holds of an element and of every element in it. -/
def Every (P : Element → Prop) (x : Element) : Prop := ∀ y, Inside y x → P y

namespace Every

variable {P : Element → Prop} {x y : Element}

/-- It holds of every element in `x` if it does of `x` and all in its parts. -/
theorem intro (hP : P x) (hparts : ∀ y ∈ x.parts, Every P y) : Every P x := by
  intro y h
  cases h with
  | refl => exact hP
  | part hz h => exact hparts _ hz y h

/-- It holds in every part. -/
theorem part (h : Every P x) (hy : y ∈ x.parts) : Every P y := fun _ hz => h _ (.part hy hz)

theorem congr (hparts : x.parts = y.parts) (hP : P x ↔ P y) : Every P x ↔ Every P y := by
  constructor <;> intro h
  · exact intro (hP.mp (h x (.refl x))) fun z hz => h.part (hparts ▸ hz)
  · exact intro (hP.mpr (h y (.refl y))) fun z hz => h.part (hparts.symm ▸ hz)

/-- A block, from its statements. -/
theorem block {b : Block} (hP : P (.block b)) (h : ∀ a ∈ b.stmts, Every P (.stmt a)) : Every P (.block b) :=
  intro hP (List.forall_mem_map.mpr h)

/-- A clause, from its condition and its block. -/
theorem clause {c : Clause} (hP : P (.clause c)) (hcondition : Every P (.expr c.condition))
    (hbody : Every P (.block c.body)) : Every P (.clause c) :=
  intro hP (List.forall_mem_cons.mpr ⟨hcondition, List.forall_mem_singleton.mpr hbody⟩)

/-- An `if`, from its branches. -/
theorem if_ {cs : List Clause} {last : Option Block} {inline : Bool} {span : Span}
    (hP : P (.stmt ⟨.if_ cs last inline, span⟩)) (hcs : ∀ c ∈ cs, Every P (.clause c))
    (hlast : ∀ b ∈ last, Every P (.block b)) : Every P (.stmt ⟨.if_ cs last inline, span⟩) := by
  refine intro hP (List.forall_mem_append.mpr ⟨List.forall_mem_map.mpr hcs, List.forall_mem_map.mpr ?_⟩)
  exact fun b hb => hlast b (Option.mem_toList.mp hb)

end Every

/-- Comments beside an element make no difference to `P`. -/
structure Blind (P : Element → Prop) : Prop where
  expr : ∀ e cs, P (.expr (Item.withComments e cs)) ↔ P (.expr e)
  entry : ∀ e cs, P (.entry (Item.withComments e cs)) ↔ P (.entry e)
  param : ∀ p cs, P (.param (Item.withComments p cs)) ↔ P (.param p)

namespace Blind

variable {P : Element → Prop}

/-- Comments beside an expression do not matter. -/
theorem every_expr (hP : Blind P) (e : Expr) (cs : Comments) :
    Every P (.expr (Item.withComments e cs)) = Every P (.expr e) :=
  propext (Every.congr rfl (hP.expr e cs))

theorem every_entry (hP : Blind P) (e : Entry) (cs : Comments) :
    Every P (.entry (Item.withComments e cs)) = Every P (.entry e) :=
  propext (Every.congr rfl (hP.entry e cs))

theorem every_param (hP : Blind P) (p : Param) (cs : Comments) :
    Every P (.param (Item.withComments p cs)) = Every P (.param p) :=
  propext (Every.congr rfl (hP.param p cs))

end Blind

end Element

/-- The element stands somewhere in the script. -/
def Script.Has (s : Script) (x : Element) : Prop := ∃ a ∈ s.body, x.Inside (.stmt a)

/-- `P` holds of every element of a part of a tree. -/
def Part.Every (P : Element → Prop) : Part → Prop
  | .expr e => (Element.expr e).Every P
  | .entry e => (Element.entry e).Every P
  | .param p => (Element.param p).Every P
  | .stmt a => (Element.stmt a).Every P
  | .arms _ r | .clauses r =>
    (∀ c ∈ r.1, (Element.clause c).Every P) ∧ ∀ b ∈ r.2, (Element.block b).Every P
  | .lines ss => ∀ a ∈ ss, (Element.stmt a).Every P

/-- What an `else` on one line adds is made of what follows it. -/
theorem Element.Every.inlineElse {P : Element → Prop} {b : Stmt} (h : Every P (.stmt b))
    (hsingle : P (.block (Reader.single b))) : (Part.clauses (Reader.inlineElse true b)).Every P := by
  unfold Reader.inlineElse
  split
  · rename_i clauses last _ hform
    have hparts : ∀ y ∈ b.form.parts, Every P y := fun y hy => h.part hy
    rw [hform, Stmt.Form.parts, List.forall_mem_append, List.forall_mem_map, List.forall_mem_map] at hparts
    exact ⟨hparts.1, fun d hd => hparts.2 d (Option.mem_toList.mpr hd)⟩
  · refine ⟨by simp, ?_⟩
    rintro _ ⟨⟩
    exact .block hsingle (List.forall_mem_singleton.mpr h)

/-- What holds of the pieces holds of the items they are put together to. -/
theorem forall_of_pieces {α : Type} {g : α → Prop} {as : List α} {qs : List (Piece α)}
    (h : as.map g = qs.map (g ·.value)) (hqs : ∀ q ∈ qs, g q.value) : ∀ a ∈ as, g a := by
  intro a ha
  have hmem : g a ∈ qs.map (g ·.value) := h ▸ List.mem_map_of_mem ha
  obtain ⟨q, hq, heq⟩ := List.mem_map.mp hmem
  exact heq ▸ hqs q hq

/-- An end of a slice, if there is one. -/
theorem SliceEnd.every {P : Element → Prop} (hP : Element.Blind P) {pending : List Comment}
    {ts : List Token} {q : Option (Piece Expr)} {r : Option Expr × List Comment}
    (h : SliceEnd pending ts q r) (hq : ∀ p ∈ q, (Element.expr p.value).Every P) :
    ∀ e ∈ r.1.toList, (Element.expr e).Every P :=
  forall_of_pieces (h.map_eq hP.every_expr) fun p hp => hq p (Option.mem_toList.mp hp)

end ScriptBundler

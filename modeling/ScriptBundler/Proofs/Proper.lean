import Mathlib.Algebra.Order.Group.Multiset
import ScriptBundler.Proofs.Level
import ScriptBundler.Reader.Grammar

/-!
# Proofs/Proper — trees as they are read from a text

Not every tree is read from some text.  A tree is *proper* if it could be: operands bind as tight as
the operator next to them requires, an `if` on one line has one statement for each condition, nothing
follows a comment on its line, and names, constants and comments are those of tokens.  Which tokens
these are is left open (`Stock`).

`remarks` collects what the comments of a tree say, with regard to which comments have a place in the
text of a tree: those that lead or trail an item between brackets, those between brackets that are empty
otherwise, and those after an operator whose right operand stands further below.
-/

namespace ScriptBundler

open Token (Kind)
open Reader (isTarget)

/-- What trees are made of. -/
structure Stock where
  /-- The tokens that nodes are read from. -/
  token : Kind → Prop
  /-- The statements that stand on one line with an `if`. -/
  inline : Stmt → Prop := fun _ => True
  /-- The tokens with their places. -/
  place : Token → Prop := fun _ => True

/-- In the stretch from the first token of an operand to the last one of another, the operator stands
between the two. -/
def Stock.Joined (S : Stock) (op : BinaryOp) (span : Span) : Prop :=
  ∃ first o last, S.place first ∧ S.place o ∧ S.place last ∧ o.kind = op.token ∧ last.kind ≠ .eof ∧
    first.span.start.offset = span.start.offset ∧ first.span.stop.offset ≤ o.span.start.offset ∧
    o.span.stop.offset ≤ last.span.start.offset ∧ last.span.stop.offset = span.stop.offset

namespace Stmt

/-- A comment on a line of its own. -/
def isComment (s : Stmt) : Bool :=
  match s.form with
  | .comment _ => true
  | _ => false

/-- An `if` on one line. -/
def isInline (s : Stmt) : Bool :=
  match s.form with
  | .if_ _ _ true => true
  | _ => false

/-- An `if` on one line that has no `else` yet. -/
def isOpen (s : Stmt) : Bool :=
  match s.form with
  | .if_ _ none true => true
  | _ => false

/-- Only an `if` on one line waits for its `else`. -/
theorem isOpen_of_not_isInline {s : Stmt} (h : s.isInline = false) : s.isOpen = false := by
  revert h
  unfold isInline isOpen
  split <;> simp_all

/-- After an `else`, what is no `if` on one line is the last branch. -/
theorem inlineElse_of_not_isInline {s : Stmt} (chained : Bool) (h : s.isInline = false) :
    Reader.inlineElse chained s = ([], some (Reader.single s)) := by
  revert h
  unfold isInline Reader.inlineElse
  split <;> simp_all

/-- Nothing follows a comment on its line. -/
def Clears (s t : Stmt) : Prop :=
  s.isComment = true → s.span.start.line < t.span.start.line ∧ s.span.stop.line < t.span.start.line

end Stmt

/-- One statement that is no comment and for which `Q` holds. -/
def Block.IsOne (Q : Stmt → Prop) (b : Block) : Prop :=
  ∃ s, b.stmts = [s] ∧ s.isComment = false ∧ Q s

/-- The clauses of an `if` on one line.  A statement before an `else` does not take it for its own,
and the last one would be further clauses if it were such an `if`. -/
def OnOneLine (Q : Stmt → Prop) : List Clause → Option Block → Prop
  | [], _ => False
  | [c], none => c.body.IsOne Q
  | [c], some b =>
    c.body.IsOne (fun s => Q s ∧ s.isOpen = false) ∧ b.IsOne fun s => Q s ∧ s.isInline = false
  | c :: d :: cs, last =>
    c.body.IsOne (fun s => Q s ∧ s.isOpen = false) ∧ OnOneLine Q (d :: cs) last

/-! ## Proper trees -/

/-- A constant is that of a token. -/
def Literal.Proper (S : Stock) : Literal → Prop
  | number raw value _ => S.token (.number raw value)
  | string raw value => S.token (.string raw value)
  | _ => True

/-- The comments beside a node are those of tokens. -/
def Comments.Proper (S : Stock) (cs : Comments) : Prop :=
  ∀ c ∈ cs.leading ++ (cs.trailing ++ cs.inner), S.token (.comment c.text)

/-- A directive for a value is read from tokens. -/
def ValueDirective.Proper (S : Stock) : ValueDirective → Prop
  | envar name => S.token (.symbol .hash) ∧ S.token (.identifier name)
  | _ => S.token (.symbol .hash)

/-- A directive is read from tokens. -/
def Directive.Proper (S : Stock) : Directive → Prop
  | import_ name _ => S.token (.symbol .hash) ∧ S.token (.identifier name.name)
  | _ => S.token (.symbol .hash)

mutual

/-- A form that stands at `span`, with the comments `inner` between its brackets. -/
def Expr.Form.Proper (S : Stock) (span : Span) (inner : List Comment) : Expr.Form → Prop
  | .literal l => l.Proper S
  | .list es => Expr.AllProper S es
  | .map es => Entry.AllProper S es
  | .identifier x => S.token (.identifier x)
  | .member b f => b.Proper S ∧ 11 ≤ b.level ∧ S.token (.identifier f.name)
  | .index b i => b.Proper S ∧ 11 ≤ b.level ∧ i.Proper S ∧ inner = []
  | .slice b i j => b.Proper S ∧ 11 ≤ b.level ∧ Expr.Proper? S i ∧ Expr.Proper? S j
  | .call c es => c.Proper S ∧ 11 ≤ c.level ∧ Expr.AllProper S es
  | .binary op l r =>
    (S.token op.token ∧ S.Joined op span ∧
      (r.comments.leading ≠ [] → l.span.stop.line < r.span.start.line)) ∧
    l.Proper S ∧ op.leftLevel ≤ l.level ∧ r.Proper S ∧ op.rightLevel ≤ r.level
  | .unary op e => e.Proper S ∧ op.level ≤ e.level ∧ (op = .neg → e.form.isUnsigned = false)
  | .function ps b => Param.AllProper S ps ∧ b.Proper S
  | .paren e => e.Proper S
  | .directive d => d.Proper S

/-- An expression is proper, and so are the comments beside it. -/
def Expr.Proper (S : Stock) : Expr → Prop
  | ⟨form, span, cs⟩ => form.Proper S span cs.inner ∧ cs.Proper S

/-- Expressions are proper one by one. -/
def Expr.AllProper (S : Stock) : List Expr → Prop
  | [] => True
  | e :: es => e.Proper S ∧ Expr.AllProper S es

/-- An expression is proper if it is there. -/
def Expr.Proper? (S : Stock) : Option Expr → Prop
  | none => True
  | some e => e.Proper S

/-- Entries of a map are proper one by one. -/
def Entry.AllProper (S : Stock) : List Entry → Prop
  | [] => True
  | ⟨key, value, _, cs⟩ :: es =>
    (key.Proper S ∧ value.Proper S ∧ cs.Proper S) ∧ Entry.AllProper S es

/-- Parameters are proper one by one. -/
def Param.AllProper (S : Stock) : List Param → Prop
  | [] => True
  | ⟨name, value, _, cs⟩ :: ps =>
    (S.token (.identifier name.name) ∧ Expr.Proper? S value ∧ cs.Proper S) ∧ Param.AllProper S ps

/-- The statements of a block are proper. -/
def Block.Proper (S : Stock) : Block → Prop
  | ⟨ss, _⟩ => Stmt.AllProper S ss

/-- A block is proper if it is there. -/
def Block.Proper? (S : Stock) : Option Block → Prop
  | none => True
  | some b => b.Proper S

/-- Branches are proper one by one. -/
def Clause.AllProper (S : Stock) : List Clause → Prop
  | [] => True
  | ⟨condition, body, _⟩ :: cs => (condition.Proper S ∧ body.Proper S) ∧ Clause.AllProper S cs

/-- Statements are proper, and each clears the one behind it. -/
def Stmt.AllProper (S : Stock) : List Stmt → Prop
  | [] => True
  | s :: ss => s.Proper S ∧ (∀ t ∈ ss.head?, s.Clears t) ∧ Stmt.AllProper S ss

/-- A statement is proper. -/
def Stmt.Proper (S : Stock) : Stmt → Prop
  | ⟨form, _⟩ => form.Proper S

/-- The form of a statement is proper. -/
def Stmt.Form.Proper (S : Stock) : Stmt.Form → Prop
  | .assign _ target value => target.Proper S ∧ isTarget target = true ∧ value.Proper S
  | .expr e => e.Proper S
  | .return_ value => Expr.Proper? S value
  | .break_ | .continue_ => True
  | .if_ cs last inline =>
    cs ≠ [] ∧ Clause.AllProper S cs ∧ Block.Proper? S last ∧
      (inline = true → OnOneLine S.inline cs last)
  | .while_ condition body => condition.Proper S ∧ body.Proper S
  | .for_ item iterable body =>
    S.token (.identifier item.name) ∧ iterable.Proper S ∧ body.Proper S
  | .comment text => S.token (.comment text)
  | .directive d => d.Proper S

end

/-- An entry of a map is proper. -/
def Entry.Proper (S : Stock) : Entry → Prop
  | ⟨key, value, _, cs⟩ => key.Proper S ∧ value.Proper S ∧ cs.Proper S

/-- A parameter is proper. -/
def Param.Proper (S : Stock) : Param → Prop
  | ⟨name, value, _, cs⟩ =>
    S.token (.identifier name.name) ∧ Expr.Proper? S value ∧ cs.Proper S

/-- A branch is proper. -/
def Clause.Proper (S : Stock) : Clause → Prop
  | ⟨condition, body, _⟩ => condition.Proper S ∧ body.Proper S

/-! ## What comments say -/

/-- The texts of comments. -/
def texts (cs : List Comment) : Multiset String := (cs.map Comment.text : List String)

/-- What a token says that is a comment. -/
def Token.Kind.remark? : Kind → Option String
  | .comment text => some text
  | _ => none

/-- What the comments among tokens say. -/
def said (ks : List Kind) : Multiset String := (ks.filterMap Kind.remark? : List String)

@[simp] theorem said_nil : said [] = 0 := rfl

@[simp] theorem said_append (ks ls : List Kind) : said (ks ++ ls) = said ks + said ls := by
  simp [said]

theorem said_cons (k : Kind) (ks : List Kind) : said (k :: ks) = said [k] + said ks :=
  said_append [k] ks

/-- Tokens without a comment among them say nothing. -/
theorem said_of_none {ks : List Kind} (h : ∀ k ∈ ks, k.remark? = none) : said ks = 0 := by
  rw [said, List.filterMap_eq_nil_iff.mpr h]
  rfl

@[simp] theorem texts_nil : texts [] = 0 := rfl

@[simp] theorem texts_append (cs ds : List Comment) : texts (cs ++ ds) = texts cs + texts ds := by
  simp [texts]

/-- The comments beside an item that says `m`. -/
def Comments.around (cs : Comments) (m : Multiset String) : Multiset String :=
  texts cs.leading + m + texts cs.trailing

mutual

/-- What the comments in a form say; `inner` are those between its brackets. -/
def Expr.Form.remarks (inner : List Comment) : Expr.Form → Multiset String
  | .literal _ | .identifier _ | .directive _ => 0
  | .list es => (if es.isEmpty then texts inner else 0) + Expr.allRemarks es
  | .map es => (if es.isEmpty then texts inner else 0) + Entry.allRemarks es
  | .member b _ => b.inside
  | .index b ⟨i, _, cs⟩ => b.inside + cs.around (i.remarks cs.inner)
  | .slice b i j => b.inside + Expr.remarks? i + Expr.remarks? j + texts inner
  | .call c es => c.inside + (if es.isEmpty then texts inner else 0) + Expr.allRemarks es
  | .binary _ l r =>
    l.inside + (if l.span.stop.line < r.span.start.line then texts r.comments.leading else 0) +
      r.inside
  | .unary _ e => e.inside
  | .function ps b => (if ps.isEmpty then texts inner else 0) + Param.allRemarks ps + b.remarks
  | .paren ⟨e, _, cs⟩ => cs.around (e.remarks cs.inner)

/-- What the comments in an expression say, without those beside it. -/
def Expr.inside : Expr → Multiset String
  | ⟨form, _, cs⟩ => form.remarks cs.inner

/-- The remarks of expressions, with those around them. -/
def Expr.allRemarks : List Expr → Multiset String
  | [] => 0
  | ⟨form, _, cs⟩ :: es => cs.around (form.remarks cs.inner) + Expr.allRemarks es

/-- The remarks of an expression that may be left out. -/
def Expr.remarks? : Option Expr → Multiset String
  | none => 0
  | some ⟨form, _, cs⟩ => cs.around (form.remarks cs.inner)

/-- The remarks of the entries of a map. -/
def Entry.allRemarks : List Entry → Multiset String
  | [] => 0
  | ⟨key, value, _, cs⟩ :: es => cs.around (key.inside + value.inside) + Entry.allRemarks es

/-- The remarks of parameters. -/
def Param.allRemarks : List Param → Multiset String
  | [] => 0
  | ⟨_, none, _, cs⟩ :: ps => cs.around 0 + Param.allRemarks ps
  | ⟨_, some value, _, cs⟩ :: ps => cs.around value.inside + Param.allRemarks ps

/-- The remarks of a block. -/
def Block.remarks : Block → Multiset String
  | ⟨ss, _⟩ => Stmt.allRemarks ss

/-- The remarks of a block that may be left out. -/
def Block.remarks? : Option Block → Multiset String
  | none => 0
  | some b => b.remarks

/-- The remarks of branches. -/
def Clause.allRemarks : List Clause → Multiset String
  | [] => 0
  | ⟨condition, body, _⟩ :: cs => condition.inside + body.remarks + Clause.allRemarks cs

/-- The remarks of statements. -/
def Stmt.allRemarks : List Stmt → Multiset String
  | [] => 0
  | s :: ss => s.remarks + Stmt.allRemarks ss

/-- The remarks of a statement. -/
def Stmt.remarks : Stmt → Multiset String
  | ⟨form, _⟩ => form.remarks

/-- The remarks of the form of a statement. -/
def Stmt.Form.remarks : Stmt.Form → Multiset String
  | .assign _ target value => target.inside + value.inside
  | .expr e => e.inside
  | .return_ none | .break_ | .continue_ | .directive _ => 0
  | .return_ (some e) => e.inside
  | .if_ cs last _ => Clause.allRemarks cs + Block.remarks? last
  | .while_ condition body => condition.inside + body.remarks
  | .for_ _ iterable body => iterable.inside + body.remarks
  | .comment text => {text}

end

/-! ## Items between brackets -/

/-- Items with what is proper about them and what the comments in them say. -/
class Content (α : Type) [Item α] where
  proper : Stock → α → Prop
  inside : α → Multiset String
  comments_withComments : ∀ (a : α) (cs : Comments), Item.comments (Item.withComments a cs) = cs
  proper_comments : ∀ {S : Stock} {a : α}, proper S a → (Item.comments a).Proper S
  proper_withComments : ∀ {S : Stock} {a : α} {cs : Comments}, proper S a →
    cs.inner = (Item.comments a).inner → cs.Proper S → proper S (Item.withComments a cs)
  inside_withComments : ∀ {a : α} {cs : Comments}, cs.inner = (Item.comments a).inner →
    inside (Item.withComments a cs) = inside a

instance : Content Expr where
  proper := Expr.Proper
  inside := Expr.inside
  comments_withComments _ _ := rfl
  proper_comments {_ e} h := by
    obtain ⟨form, span, cs⟩ := e
    exact h.2
  proper_withComments {_ e _} h hinner hcs := by
    obtain ⟨form, span, _⟩ := e
    exact ⟨hinner ▸ h.1, hcs⟩
  inside_withComments {e cs} h := by
    obtain ⟨form, span, _⟩ := e
    exact congrArg form.remarks h

instance : Content Entry where
  proper := Entry.Proper
  inside e := e.key.inside + e.value.inside
  comments_withComments _ _ := rfl
  proper_comments {_ e} h := by
    obtain ⟨key, value, span, cs⟩ := e
    exact h.2.2
  proper_withComments {_ e _} h _ hcs := by
    obtain ⟨key, value, span, _⟩ := e
    exact ⟨h.1, h.2.1, hcs⟩
  inside_withComments _ := rfl

/-- What the comments in the value of a parameter say. -/
def Param.inside (p : Param) : Multiset String := p.default.elim 0 Expr.inside

instance : Content Param where
  proper := Param.Proper
  inside := Param.inside
  comments_withComments _ _ := rfl
  proper_comments {_ p} h := by
    obtain ⟨name, value, span, cs⟩ := p
    exact h.2.2
  proper_withComments {_ p _} h _ hcs := by
    obtain ⟨name, value, span, _⟩ := p
    exact ⟨h.1, h.2.1, hcs⟩
  inside_withComments _ := rfl

namespace Content

variable {α : Type} [Item α] [Content α] {S : Stock} {a : α} {cs : List Comment}

/-- What the comments in and beside an item say. -/
def remarks (a : α) : Multiset String := (Item.comments a).around (inside a)

/-- Comments before an item keep it proper. -/
theorem proper_lead (h : proper S a) (hcs : ∀ c ∈ cs, S.token (.comment c.text)) :
    proper S (Item.lead a cs) := by
  refine proper_withComments h rfl fun c hc => ?_
  rw [List.append_assoc, List.mem_append] at hc
  exact hc.elim (hcs c) (proper_comments h c)

/-- Comments behind an item keep it proper. -/
theorem proper_trail (h : proper S a) (hcs : ∀ c ∈ cs, S.token (.comment c.text)) :
    proper S (Item.trail a cs) := by
  refine proper_withComments h rfl fun c hc => ?_
  simp only [List.mem_append, or_assoc] at hc
  have hold := proper_comments h c
  simp only [List.mem_append] at hold
  rcases hc with hc | hc | hc | hc
  · exact hold (.inl hc)
  · exact hold (.inr (.inl hc))
  · exact hcs c hc
  · exact hold (.inr (.inr hc))

/-- What an item says with other comments beside it. -/
theorem remarks_withComments {ds : Comments} (h : ds.inner = (Item.comments a).inner) :
    remarks (Item.withComments a ds) = ds.around (inside a) := by
  rw [remarks, comments_withComments, inside_withComments h]

@[simp] theorem remarks_lead : remarks (Item.lead a cs) = texts cs + remarks a := by
  rw [Item.lead, remarks_withComments]
  · simp only [Comments.around, texts_append, remarks, add_assoc]
  · rfl

@[simp] theorem remarks_trail : remarks (Item.trail a cs) = remarks a + texts cs := by
  rw [Item.trail, remarks_withComments]
  · simp only [Comments.around, texts_append, remarks, add_assoc]
  · rfl

/-- Taking comments from behind an item keeps it proper. -/
theorem proper_takeTrailing {b : α} {ds : List Comment} (hb : Item.takeTrailing a cs = (b, ds))
    (h : proper S a) (hcs : ∀ c ∈ cs, S.token (.comment c.text)) :
    proper S b ∧ ∀ c ∈ ds, S.token (.comment c.text) := by
  revert hb
  fun_cases Item.takeTrailing a cs with
  | case1 =>
    rintro ⟨⟩
    exact ⟨h, hcs⟩
  | case2 c cs _ =>
    rintro ⟨⟩
    obtain ⟨hc, hcs⟩ := List.forall_mem_cons.mp hcs
    exact ⟨proper_trail h (by simpa using hc), hcs⟩
  | case3 =>
    rintro ⟨⟩
    exact ⟨h, hcs⟩

/-- Taking comments from behind an item loses none. -/
theorem remarks_takeTrailing {b : α} {ds : List Comment} (hb : Item.takeTrailing a cs = (b, ds)) :
    remarks b + texts ds = remarks a + texts cs := by
  revert hb
  fun_cases Item.takeTrailing a cs with
  | case1 =>
    rintro ⟨⟩
    rfl
  | case2 c cs _ =>
    rintro ⟨⟩
    rw [remarks_trail, add_assoc, ← texts_append]
    rfl
  | case3 =>
    rintro ⟨⟩
    rfl

end Content

namespace Expr

/-- Expressions are proper if each of them is. -/
theorem allProper_iff {S : Stock} {es : List Expr} : AllProper S es ↔ ∀ e ∈ es, e.Proper S := by
  induction es with
  | nil => simp [AllProper]
  | cons e es ih => rw [AllProper, ih, List.forall_mem_cons]

/-- Expressions say what each of them does. -/
theorem allRemarks_eq_sum (es : List Expr) : allRemarks es = (es.map Content.remarks).sum := by
  induction es with
  | nil => rfl
  | cons e es ih =>
    obtain ⟨form, span, cs⟩ := e
    rw [allRemarks, ih, List.map_cons, List.sum_cons]
    rfl

theorem remarks?_some (e : Expr) : remarks? (some e) = Content.remarks e := by
  obtain ⟨form, span, cs⟩ := e
  rfl

end Expr

/-- Entries of a map are proper if each of them is. -/
theorem Entry.allProper_iff {S : Stock} {es : List Entry} :
    AllProper S es ↔ ∀ e ∈ es, e.Proper S := by
  induction es with
  | nil => simp [AllProper]
  | cons e es ih =>
    obtain ⟨key, value, span, cs⟩ := e
    rw [AllProper, ih, List.forall_mem_cons, Entry.Proper]

theorem Entry.allRemarks_eq_sum (es : List Entry) :
    allRemarks es = (es.map Content.remarks).sum := by
  induction es with
  | nil => rfl
  | cons e es ih =>
    obtain ⟨key, value, span, cs⟩ := e
    rw [allRemarks, ih, List.map_cons, List.sum_cons]
    rfl

/-- Parameters are proper if each of them is. -/
theorem Param.allProper_iff {S : Stock} {ps : List Param} :
    AllProper S ps ↔ ∀ p ∈ ps, p.Proper S := by
  induction ps with
  | nil => simp [AllProper]
  | cons p ps ih =>
    obtain ⟨name, value, span, cs⟩ := p
    rw [AllProper, ih, List.forall_mem_cons, Param.Proper]

theorem Param.allRemarks_eq_sum (ps : List Param) :
    allRemarks ps = (ps.map Content.remarks).sum := by
  induction ps with
  | nil => rfl
  | cons p ps ih =>
    obtain ⟨name, value, span, cs⟩ := p
    cases value <;> rw [allRemarks, ih, List.map_cons, List.sum_cons] <;> rfl

end ScriptBundler

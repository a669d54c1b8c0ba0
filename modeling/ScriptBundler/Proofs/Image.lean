import ScriptBundler.Tree

/-!
# Proofs/Image — a tree up to the choices of a writer

A text that was written from a tree is read as another tree: stretches of text have moved, comments
may be gone, and a writer may have put a call in place of an operator.  `Style` lists all such choices,
and the image of a tree under a style is the tree with the choices made and without stretches and
comments beside nodes.  Under the plain style no choice is made, so `bare` forgets stretches and such
comments and nothing else.
-/

namespace ScriptBundler

/-- A node at no place and without comments. -/
def Expr.Form.node (form : Expr.Form) : Expr := ⟨form, default, {}⟩

/-- A statement at no place. -/
def Stmt.Form.node (form : Stmt.Form) : Stmt := ⟨form, default⟩

/-- What a writer chooses.  Trees that a choice is given are images already, unless it says
otherwise. -/
structure Style where
  name : String → String := id
  literal : Literal → Expr.Form := .literal
  /-- A constant among the arguments of a call or the default values of parameters. -/
  argument : Literal → Expr.Form := .literal
  /-- A directive and the line it stands on. -/
  directive : ValueDirective → Nat → Expr.Form := fun d _ => .directive d
  binary : BinaryOp → Expr → Expr → Expr.Form := .binary
  unary : UnaryOp → Expr → Expr.Form := .unary
  /-- Parentheses: what was between them, and its image. -/
  paren : Expr → Expr → Expr.Form := fun _ => .paren
  /-- A call without arguments that is a statement. -/
  callAlone : Expr → Expr := fun callee => (Expr.Form.call callee []).node
  inline : Bool → Bool := id
  debugger : Stmt.Form := .directive .debugger
  /-- A statement before others: the statement, its image, the others and their images. -/
  cons : Stmt → Stmt → List Stmt → List Stmt → List Stmt := fun _ s _ ss => s :: ss

namespace Style

/-- Nothing is changed. -/
def plain : Style := {}

/-- The style of arguments. -/
def guard (st : Style) : Style := { st with literal := st.argument }

end Style

mutual

/-- The image of a form that stands on the given line. -/
def Expr.Form.image (st : Style) (line : Nat) : Expr.Form → Expr.Form
  | .literal l => st.literal l
  | .list es => .list (Expr.images st es)
  | .map es => .map (Entry.images st es)
  | .identifier x => .identifier (st.name x)
  | .member b f => .member (b.image st) ⟨f.name, default⟩
  | .index b i => .index (b.image st) (i.image st)
  | .slice b i j => .slice (b.image st) (Expr.image? st i) (Expr.image? st j)
  | .call c es => .call (c.image st) (Expr.images st.guard es)
  | .binary op l r => st.binary op (l.image st) (r.image st)
  | .unary op e => st.unary op (e.image st)
  | .function ps b => .function (Param.images st ps) (b.image st)
  | .paren e => st.paren e (e.image st)
  | .directive d => st.directive d line

/-- An expression as the style has it. -/
def Expr.image (st : Style) : Expr → Expr
  | ⟨form, span, _⟩ => (form.image st span.start.line).node

/-- Expressions one by one. -/
def Expr.images (st : Style) : List Expr → List Expr
  | [] => []
  | e :: es => e.image st :: Expr.images st es

/-- An expression that may be left out. -/
def Expr.image? (st : Style) : Option Expr → Option Expr
  | none => none
  | some e => some (e.image st)

/-- Entries of a map one by one. -/
def Entry.images (st : Style) : List Entry → List Entry
  | [] => []
  | ⟨key, value, _, _⟩ :: es =>
    ⟨key.image st, value.image st, default, {}⟩ :: Entry.images st es

/-- Parameters one by one; their default values are in the style of arguments. -/
def Param.images (st : Style) : List Param → List Param
  | [] => []
  | ⟨name, value, _, _⟩ :: ps =>
    ⟨⟨st.name name.name, default⟩, Expr.image? st.guard value, default, {}⟩ :: Param.images st ps

/-- A block as the style has it. -/
def Block.image (st : Style) : Block → Block
  | ⟨ss, _⟩ => ⟨Stmt.images st ss, default⟩

/-- A block that may be left out. -/
def Block.image? (st : Style) : Option Block → Option Block
  | none => none
  | some b => some (b.image st)

/-- Branches one by one. -/
def Clause.images (st : Style) : List Clause → List Clause
  | [] => []
  | ⟨condition, body, _⟩ :: cs =>
    ⟨condition.image st, body.image st, default⟩ :: Clause.images st cs

/-- Statements, each put before the images of those that follow. -/
def Stmt.images (st : Style) : List Stmt → List Stmt
  | [] => []
  | s :: ss => st.cons s (s.image st) ss (Stmt.images st ss)

/-- A statement as the style has it. -/
def Stmt.image (st : Style) : Stmt → Stmt
  | ⟨form, _⟩ => (form.image st).node

/-- The image of the form of a statement. -/
def Stmt.Form.image (st : Style) : Stmt.Form → Stmt.Form
  | .assign op target value => .assign op (target.image st) (value.image st)
  | .expr ⟨.call callee [], _, _⟩ => .expr (st.callAlone (callee.image st))
  | .expr e => .expr (e.image st)
  | .return_ value => .return_ (Expr.image? st value)
  | .break_ => .break_
  | .continue_ => .continue_
  | .if_ clauses last inline =>
    .if_ (Clause.images st clauses) (Block.image? st last) (st.inline inline)
  | .while_ condition body => .while_ (condition.image st) (body.image st)
  | .for_ item iterable body =>
    .for_ ⟨st.name item.name, default⟩ (iterable.image st) (body.image st)
  | .comment text => .comment text
  | .directive (.import_ name path) => .directive (.import_ ⟨st.name name.name, default⟩ path)
  | .directive (.include_ path) => .directive (.include_ path)
  | .directive .debugger => st.debugger

end

/-- Expressions are images one by one. -/
theorem Expr.images_eq_map (st : Style) : ∀ es, Expr.images st es = es.map (Expr.image st)
  | [] => rfl
  | e :: es => congrArg (e.image st :: ·) (Expr.images_eq_map st es)

/-- The image of an entry of a map. -/
def Entry.image (st : Style) (e : Entry) : Entry := ⟨e.key.image st, e.value.image st, default, {}⟩

/-- The image of a parameter. -/
def Param.image (st : Style) (p : Param) : Param :=
  ⟨⟨st.name p.name.name, Inhabited.default⟩, Expr.image? st.guard p.default, Inhabited.default, {}⟩

/-- Entries of a map are images one by one. -/
theorem Entry.images_eq_map (st : Style) : ∀ es, Entry.images st es = es.map (Entry.image st)
  | [] => rfl
  | ⟨key, value, _, _⟩ :: es =>
    congrArg (Entry.mk (key.image st) (value.image st) default {} :: ·) (Entry.images_eq_map st es)

/-- Parameters are images one by one. -/
theorem Param.images_eq_map (st : Style) : ∀ ps, Param.images st ps = ps.map (Param.image st)
  | [] => rfl
  | ⟨name, value, _, _⟩ :: ps => by
    rw [List.map_cons, ← Param.images_eq_map st ps]
    rfl

/-! ## Bare trees -/

/-- An expression without stretches and comments beside nodes. -/
def Expr.bare (e : Expr) : Expr := e.image .plain

/-- An entry without its place and the comments beside it. -/
def Entry.bare (e : Entry) : Entry := ⟨e.key.bare, e.value.bare, default, {}⟩

/-- A parameter without its place and the comments beside it. -/
def Param.bare : Param → Param
  | ⟨name, value, _, _⟩ =>
    ⟨⟨name.name, Inhabited.default⟩, value.map Expr.bare, Inhabited.default, {}⟩

/-- A statement without stretches and comments beside nodes. -/
def Stmt.bare (s : Stmt) : Stmt := s.image .plain

/-- A block without places and comments beside nodes. -/
def Block.bare (b : Block) : Block := ⟨b.stmts.map Stmt.bare, default⟩

/-- A branch without places and comments beside nodes. -/
def Clause.bare (c : Clause) : Clause := ⟨c.condition.bare, c.body.bare, default⟩

theorem Entry.images_plain : ∀ es, Entry.images .plain es = es.map Entry.bare
  | [] => rfl
  | ⟨key, value, _, _⟩ :: es =>
    congrArg (Entry.mk key.bare value.bare default {} :: ·) (Entry.images_plain es)

theorem Param.images_plain : ∀ ps, Param.images .plain ps = ps.map Param.bare
  | [] => rfl
  | ⟨name, value, _, _⟩ :: ps => by
    rw [List.map_cons, ← Param.images_plain ps, Param.bare]
    cases value <;> rfl

/-- Under the plain style statements are bare. -/
theorem Stmt.images_plain : ∀ ss, Stmt.images .plain ss = ss.map Stmt.bare
  | [] => rfl
  | s :: ss => congrArg (s.bare :: ·) (Stmt.images_plain ss)

/-- Under the plain style a block is bare. -/
theorem Block.image_plain : ∀ b : Block, b.image .plain = b.bare
  | ⟨ss, _⟩ => congrArg (Block.mk · default) (Stmt.images_plain ss)

/-- Under the plain style branches are bare. -/
theorem Clause.images_plain : ∀ cs, Clause.images .plain cs = cs.map Clause.bare
  | [] => rfl
  | ⟨condition, body, _⟩ :: cs => by
    rw [List.map_cons, ← Clause.images_plain cs, Clause.bare, ← Block.image_plain]
    rfl

theorem Block.image?_plain : ∀ b, Block.image? .plain b = b.map Block.bare
  | none => rfl
  | some b => congrArg some b.image_plain

theorem Expr.bare_list (es : List Expr) (span : Span) (cs : Comments) :
    Expr.bare ⟨.list es, span, cs⟩ = (Expr.Form.list (es.map Expr.bare)).node :=
  congrArg (fun es => (Expr.Form.list es).node) (Expr.images_eq_map .plain es)

theorem Expr.bare_map (es : List Entry) (span : Span) (cs : Comments) :
    Expr.bare ⟨.map es, span, cs⟩ = (Expr.Form.map (es.map Entry.bare)).node :=
  congrArg (fun es => (Expr.Form.map es).node) (Entry.images_plain es)

theorem Expr.bare_slice (b : Expr) (i j : Option Expr) (span : Span) (cs : Comments) :
    Expr.bare ⟨.slice b i j, span, cs⟩ =
      (Expr.Form.slice b.bare (i.map Expr.bare) (j.map Expr.bare)).node := by
  cases i <;> cases j <;> rfl

/-- A call is bare if what it is made of is. -/
theorem Expr.bare_call (c : Expr) (es : List Expr) (span : Span) (cs : Comments) :
    Expr.bare ⟨.call c es, span, cs⟩ = (Expr.Form.call c.bare (es.map Expr.bare)).node :=
  congrArg (fun es => (Expr.Form.call c.bare es).node) (Expr.images_eq_map .plain es)

/-- A function is bare if what it is made of is. -/
theorem Expr.bare_function (ps : List Param) (b : Block) (span : Span) (cs : Comments) :
    Expr.bare ⟨.function ps b, span, cs⟩ =
      (Expr.Form.function (ps.map Param.bare) b.bare).node := by
  rw [← Param.images_plain, ← Block.image_plain]
  rfl

theorem Stmt.bare_expr (e : Expr) (span : Span) :
    Stmt.bare ⟨.expr e, span⟩ = (Stmt.Form.expr e.bare).node := by
  obtain ⟨form, _, _⟩ := e
  cases form with
  | call callee args => cases args <;> rfl
  | _ => rfl

/-- An `if` is bare if its branches are. -/
theorem Stmt.bare_if (clauses : List Clause) (last : Option Block) (inline : Bool) (span : Span) :
    Stmt.bare ⟨.if_ clauses last inline, span⟩ =
      (Stmt.Form.if_ (clauses.map Clause.bare) (last.map Block.bare) inline).node := by
  rw [← Clause.images_plain, ← Block.image?_plain]
  rfl

theorem Stmt.bare_while (condition : Expr) (body : Block) (span : Span) :
    Stmt.bare ⟨.while_ condition body, span⟩ =
      (Stmt.Form.while_ condition.bare body.bare).node := by
  rw [← Block.image_plain]
  rfl

theorem Stmt.bare_for (item : Ident) (iterable : Expr) (body : Block) (span : Span) :
    Stmt.bare ⟨.for_ item iterable body, span⟩ =
      (Stmt.Form.for_ ⟨item.name, default⟩ iterable.bare body.bare).node := by
  rw [← Block.image_plain]
  rfl

/-- Items that can be made bare; the comments beside them do not matter then. -/
class Bare (α : Type) [Item α] where
  bare : α → α
  bare_withComments : ∀ a cs, bare (Item.withComments a cs) = bare a

instance : Bare Expr := ⟨Expr.bare, fun ⟨_, _, _⟩ _ => rfl⟩
instance : Bare Entry := ⟨Entry.bare, fun ⟨_, _, _, _⟩ _ => rfl⟩
instance : Bare Param := ⟨Param.bare, fun ⟨_, _, _, _⟩ _ => rfl⟩

namespace Bare

variable {α : Type} [Item α] [Bare α]

@[simp] theorem bare_lead (a : α) (cs : List Comment) : bare (Item.lead a cs) = bare a :=
  bare_withComments _ _

@[simp] theorem bare_trail (a : α) (cs : List Comment) : bare (Item.trail a cs) = bare a :=
  bare_withComments _ _

/-- Taking comments from behind an item leaves it bare. -/
@[simp] theorem bare_takeTrailing (a : α) (cs : List Comment) :
    bare (Item.takeTrailing a cs).1 = bare a := by
  fun_cases Item.takeTrailing a cs
  · rfl
  · exact bare_trail a _
  · rfl

end Bare

/-- Comments before an expression do not matter. -/
@[simp] theorem Expr.bare_lead (e : Expr) (cs : List Comment) : (Item.lead e cs).bare = e.bare :=
  Bare.bare_lead e cs

/-- Comments behind an expression do not matter. -/
@[simp] theorem Expr.bare_trail (e : Expr) (cs : List Comment) : (Item.trail e cs).bare = e.bare :=
  Bare.bare_trail e cs

end ScriptBundler

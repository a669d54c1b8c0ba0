import ScriptBundler.Tree

/-!
# Proofs/Induction — trees node by node

Expressions hold blocks and blocks hold expressions.  What is shown of every node, from what holds of
the nodes in it, holds of all trees (`Inductive.allExpr`, `Inductive.allStmt`).
-/

namespace ScriptBundler

/-- What is called without arguments. -/
def Expr.loneCallee? : Expr → Option Expr
  | ⟨.call c [], _, _⟩ => some c
  | _ => none

/-- What holds of the parts of a node holds of the node. -/
structure Inductive (E : Expr → Prop) (T : Stmt → Prop) : Prop where
  literal : ∀ l span cs, E ⟨.literal l, span, cs⟩
  list : ∀ es span cs, (∀ e ∈ es, E e) → E ⟨.list es, span, cs⟩
  map : ∀ (es : List Entry) span cs, (∀ a ∈ es, E a.key ∧ E a.value) → E ⟨.map es, span, cs⟩
  identifier : ∀ name span cs, E ⟨.identifier name, span, cs⟩
  member : ∀ b field span cs, E b → E ⟨.member b field, span, cs⟩
  index : ∀ b i span cs, E b → E i → E ⟨.index b i, span, cs⟩
  slice : ∀ b (i j : Option Expr) span cs, E b → (∀ e ∈ i, E e) → (∀ e ∈ j, E e) →
    E ⟨.slice b i j, span, cs⟩
  call : ∀ c es span cs, E c → (∀ e ∈ es, E e) → E ⟨.call c es, span, cs⟩
  binary : ∀ op l r span cs, E l → E r → E ⟨.binary op l r, span, cs⟩
  unary : ∀ op e span cs, E e → E ⟨.unary op e, span, cs⟩
  function : ∀ (ps : List Param) (b : Block) span cs, (∀ p ∈ ps, ∀ e ∈ p.default, E e) →
    (∀ s ∈ b.stmts, T s) → E ⟨.function ps b, span, cs⟩
  paren : ∀ e span cs, E e → E ⟨.paren e, span, cs⟩
  directive : ∀ d span cs, E ⟨.directive d, span, cs⟩
  assign : ∀ op target value span, E target → E value → T ⟨.assign op target value, span⟩
  /-- A call without arguments may be written as what it calls. -/
  expr : ∀ e span, E e → (∀ c ∈ e.loneCallee?, E c) → T ⟨.expr e, span⟩
  return_ : ∀ (value : Option Expr) span, (∀ e ∈ value, E e) → T ⟨.return_ value, span⟩
  break_ : ∀ span, T ⟨.break_, span⟩
  continue_ : ∀ span, T ⟨.continue_, span⟩
  if_ : ∀ (cs : List Clause) (last : Option Block) inline span,
    (∀ c ∈ cs, E c.condition ∧ ∀ s ∈ c.body.stmts, T s) → (∀ b ∈ last, ∀ s ∈ b.stmts, T s) →
    T ⟨.if_ cs last inline, span⟩
  while_ : ∀ c (b : Block) span, E c → (∀ s ∈ b.stmts, T s) → T ⟨.while_ c b, span⟩
  for_ : ∀ item e (b : Block) span, E e → (∀ s ∈ b.stmts, T s) → T ⟨.for_ item e b, span⟩
  comment : ∀ text span, T ⟨.comment text, span⟩
  mark : ∀ d span, T ⟨.directive d, span⟩

namespace Inductive

variable {E : Expr → Prop} {T : Stmt → Prop}

mutual

/-- **What is inductive holds of every expression**. -/
theorem allExpr (h : Inductive E T) : ∀ e, E e
  | ⟨.literal l, _, _⟩ => h.literal l _ _
  | ⟨.list es, _, _⟩ => h.list es _ _ (h.exprs es)
  | ⟨.map es, _, _⟩ => h.map es _ _ (h.entries es)
  | ⟨.identifier x, _, _⟩ => h.identifier x _ _
  | ⟨.member b x, _, _⟩ => h.member b x _ _ (h.allExpr b)
  | ⟨.index b i, _, _⟩ => h.index b i _ _ (h.allExpr b) (h.allExpr i)
  | ⟨.slice b i j, _, _⟩ => h.slice b i j _ _ (h.allExpr b) (h.expr? i) (h.expr? j)
  | ⟨.call c es, _, _⟩ => h.call c es _ _ (h.allExpr c) (h.exprs es)
  | ⟨.binary op l r, _, _⟩ => h.binary op l r _ _ (h.allExpr l) (h.allExpr r)
  | ⟨.unary op e, _, _⟩ => h.unary op e _ _ (h.allExpr e)
  | ⟨.function ps ⟨ss, bspan⟩, _, _⟩ => h.function ps ⟨ss, bspan⟩ _ _ (h.params ps) (h.stmts ss)
  | ⟨.paren e, _, _⟩ => h.paren e _ _ (h.allExpr e)
  | ⟨.directive d, _, _⟩ => h.directive d _ _

theorem loneCallee (h : Inductive E T) : ∀ e : Expr, ∀ c ∈ e.loneCallee?, E c
  | ⟨.call c args, _, _⟩ => by
    cases args with
    | nil => simpa [Expr.loneCallee?] using h.allExpr c
    | cons => simp [Expr.loneCallee?]
  | ⟨.literal _, _, _⟩ | ⟨.list _, _, _⟩ | ⟨.map _, _, _⟩ | ⟨.identifier _, _, _⟩ | ⟨.member _ _, _, _⟩
  | ⟨.index _ _, _, _⟩ | ⟨.slice _ _ _, _, _⟩ | ⟨.binary _ _ _, _, _⟩ | ⟨.unary _ _, _, _⟩
  | ⟨.function _ _, _, _⟩ | ⟨.paren _, _, _⟩ | ⟨.directive _, _, _⟩ => nofun

/-- It holds of expressions one by one. -/
theorem exprs (h : Inductive E T) : ∀ es : List Expr, ∀ e ∈ es, E e
  | [] => by simp
  | e :: es => List.forall_mem_cons.mpr ⟨h.allExpr e, h.exprs es⟩

theorem expr? (h : Inductive E T) : ∀ e : Option Expr, ∀ a ∈ e, E a
  | none => by simp
  | some e => by simpa using h.allExpr e

/-- It holds of what entries of a map are made of. -/
theorem entries (h : Inductive E T) : ∀ es : List Entry, ∀ a ∈ es, E a.key ∧ E a.value
  | [] => by simp
  | ⟨key, value, _, _⟩ :: es =>
    List.forall_mem_cons.mpr ⟨⟨h.allExpr key, h.allExpr value⟩, h.entries es⟩

/-- It holds of the default values of parameters. -/
theorem params (h : Inductive E T) : ∀ ps : List Param, ∀ p ∈ ps, ∀ e ∈ p.default, E e
  | [] => by simp
  | ⟨_, value, _, _⟩ :: ps => List.forall_mem_cons.mpr ⟨h.expr? value, h.params ps⟩

/-- It holds of statements one by one. -/
theorem stmts (h : Inductive E T) : ∀ ss : List Stmt, ∀ s ∈ ss, T s
  | [] => by simp
  | s :: ss => List.forall_mem_cons.mpr ⟨h.allStmt s, h.stmts ss⟩

/-- It holds of what branches are made of. -/
theorem clauses (h : Inductive E T) :
    ∀ cs : List Clause, ∀ c ∈ cs, E c.condition ∧ ∀ s ∈ c.body.stmts, T s
  | [] => by simp
  | ⟨condition, ⟨ss, _⟩, _⟩ :: cs =>
    List.forall_mem_cons.mpr ⟨⟨h.allExpr condition, h.stmts ss⟩, h.clauses cs⟩

theorem block? (h : Inductive E T) : ∀ b : Option Block, ∀ c ∈ b, ∀ s ∈ c.stmts, T s
  | none => by simp
  | some ⟨ss, _⟩ => by simpa using h.stmts ss

/-- **What is inductive holds of every statement**. -/
theorem allStmt (h : Inductive E T) : ∀ s, T s
  | ⟨.assign op target value, _⟩ => h.assign op target value _ (h.allExpr target) (h.allExpr value)
  | ⟨.expr e, _⟩ => h.expr e _ (h.allExpr e) (h.loneCallee e)
  | ⟨.return_ value, _⟩ => h.return_ value _ (h.expr? value)
  | ⟨.break_, _⟩ => h.break_ _
  | ⟨.continue_, _⟩ => h.continue_ _
  | ⟨.if_ cs last inline, _⟩ => h.if_ cs last inline _ (h.clauses cs) (h.block? last)
  | ⟨.while_ c ⟨ss, bspan⟩, _⟩ => h.while_ c ⟨ss, bspan⟩ _ (h.allExpr c) (h.stmts ss)
  | ⟨.for_ item e ⟨ss, bspan⟩, _⟩ => h.for_ item e ⟨ss, bspan⟩ _ (h.allExpr e) (h.stmts ss)
  | ⟨.comment text, _⟩ => h.comment text _
  | ⟨.directive d, _⟩ => h.mark d _

end

end Inductive

end ScriptBundler

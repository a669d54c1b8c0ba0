import ScriptBundler.Tree

/-!
# Proofs/Nodes — all nodes of a tree

The nodes of a tree in the order of the text, each before those in it.  What a tree mentions is what
its nodes mention, one by one: names, and files by the directives that name them.
-/

namespace ScriptBundler

/-- A node of a tree. -/
inductive Node where
  | expr (e : Expr)
  | param (p : Param)
  | stmt (s : Stmt)

mutual

/-- The nodes in a form. -/
def Expr.Form.nodes : Expr.Form → List Node
  | .literal _ | .identifier _ | .directive _ => []
  | .list es => Expr.allNodes es
  | .map es => Entry.allNodes es
  | .member b _ => b.nodes
  | .index b i => b.nodes ++ i.nodes
  | .slice b i j => b.nodes ++ Expr.nodes? i ++ Expr.nodes? j
  | .call c es => c.nodes ++ Expr.allNodes es
  | .binary _ l r => l.nodes ++ r.nodes
  | .unary _ e | .paren e => e.nodes
  | .function ps b => Param.allNodes ps ++ b.nodes

/-- An expression and the nodes in it. -/
def Expr.nodes : Expr → List Node
  | ⟨form, span, cs⟩ => .expr ⟨form, span, cs⟩ :: form.nodes

/-- The nodes of some expressions. -/
def Expr.allNodes : List Expr → List Node
  | [] => []
  | e :: es => e.nodes ++ Expr.allNodes es

/-- The nodes of an expression that may be left out. -/
def Expr.nodes? : Option Expr → List Node
  | none => []
  | some e => e.nodes

/-- The nodes of the entries of a map. -/
def Entry.allNodes : List Entry → List Node
  | [] => []
  | ⟨key, value, _, _⟩ :: es => key.nodes ++ value.nodes ++ Entry.allNodes es

/-- Parameters, each before the nodes of its default value. -/
def Param.allNodes : List Param → List Node
  | [] => []
  | ⟨name, value, span, cs⟩ :: ps =>
    .param ⟨name, value, span, cs⟩ :: Expr.nodes? value ++ Param.allNodes ps

/-- The nodes of a block. -/
def Block.nodes : Block → List Node
  | ⟨ss, _⟩ => Stmt.allNodes ss

/-- The nodes of a block that may be left out. -/
def Block.nodes? : Option Block → List Node
  | none => []
  | some b => b.nodes

/-- The nodes of some branches. -/
def Clause.allNodes : List Clause → List Node
  | [] => []
  | ⟨condition, body, _⟩ :: cs => condition.nodes ++ body.nodes ++ Clause.allNodes cs

/-- The nodes of some statements. -/
def Stmt.allNodes : List Stmt → List Node
  | [] => []
  | s :: ss => s.nodes ++ Stmt.allNodes ss

/-- A statement and the nodes in it. -/
def Stmt.nodes : Stmt → List Node
  | ⟨form, span⟩ => .stmt ⟨form, span⟩ :: form.nodes

/-- The nodes in the form of a statement. -/
def Stmt.Form.nodes : Stmt.Form → List Node
  | .assign _ target value => target.nodes ++ value.nodes
  | .expr e => e.nodes
  | .return_ value => Expr.nodes? value
  | .break_ | .continue_ | .comment _ | .directive _ => []
  | .if_ cs last _ => Clause.allNodes cs ++ Block.nodes? last
  | .while_ condition body => condition.nodes ++ body.nodes
  | .for_ _ iterable body => iterable.nodes ++ body.nodes

end

/-- All nodes of a script. -/
def Script.nodes (s : Script) : List Node := Stmt.allNodes s.body

/-! ## What nodes mention -/

/-- Something that a node mentions. -/
inductive Mention where
  | name (name : String)
  | import_ (path : String)
  | include_ (path : String)
  | inject (path : String)
deriving DecidableEq

/-- What a directive for a value mentions. -/
def ValueDirective.mentions : ValueDirective → List Mention
  | inject path => [.inject path]
  | _ => []

/-- What a directive mentions: an import its name first. -/
def Directive.mentions : Directive → List Mention
  | import_ name path => [.name name.name, .import_ path]
  | include_ path => [.include_ path]
  | debugger => []

/-- What a node mentions, apart from the nodes in it. -/
def Node.mentions : Node → List Mention
  | .expr ⟨.identifier x, _, _⟩ => [.name x]
  | .expr ⟨.directive d, _, _⟩ => d.mentions
  | .param p => [.name p.name.name]
  | .stmt ⟨.for_ item _ _, _⟩ => [.name item.name]
  | .stmt ⟨.directive d, _⟩ => d.mentions
  | _ => []

/-- What the nodes of a list mention. -/
def mentionsOf (ns : List Node) : List Mention := ns.flatMap Node.mentions

@[simp] theorem mentionsOf_nil : mentionsOf [] = [] := rfl

@[simp] theorem mentionsOf_append (ns ms : List Node) :
    mentionsOf (ns ++ ms) = mentionsOf ns ++ mentionsOf ms := List.flatMap_append

@[simp] theorem mentionsOf_cons (n : Node) (ns : List Node) :
    mentionsOf (n :: ns) = n.mentions ++ mentionsOf ns := rfl

/-- What an expression mentions. -/
def Expr.mentions (e : Expr) : List Mention := mentionsOf e.nodes

/-- What an entry of a map mentions. -/
def Entry.mentions (e : Entry) : List Mention := e.key.mentions ++ e.value.mentions

/-- What a parameter mentions: its name first. -/
def Param.mentions (p : Param) : List Mention :=
  .name p.name.name :: p.default.toList.flatMap Expr.mentions

/-- What a statement mentions. -/
def Stmt.mentions (s : Stmt) : List Mention := mentionsOf s.nodes

/-- What a block mentions. -/
def Block.mentions (b : Block) : List Mention := b.stmts.flatMap Stmt.mentions

/-- What a branch mentions. -/
def Clause.mentions (c : Clause) : List Mention := c.condition.mentions ++ c.body.mentions

@[simp] theorem mentionsOf_nodes? (e : Option Expr) :
    mentionsOf (Expr.nodes? e) = e.toList.flatMap Expr.mentions := by
  cases e with
  | none => rfl
  | some e => simp [Expr.nodes?, Expr.mentions]

/-- Expressions mention what each of them does. -/
@[simp] theorem mentionsOf_allNodes (es : List Expr) :
    mentionsOf (Expr.allNodes es) = es.flatMap Expr.mentions := by
  induction es with
  | nil => rfl
  | cons e es ih => simp [Expr.allNodes, Expr.mentions, ih]

/-- Entries of a map mention what each of them does. -/
@[simp] theorem mentionsOf_entries (es : List Entry) :
    mentionsOf (Entry.allNodes es) = es.flatMap Entry.mentions := by
  induction es with
  | nil => rfl
  | cons e es ih =>
    obtain ⟨key, value, span, cs⟩ := e
    simp [Entry.allNodes, Entry.mentions, Expr.mentions, ih]

/-- Parameters mention what each of them does. -/
@[simp] theorem mentionsOf_params (ps : List Param) :
    mentionsOf (Param.allNodes ps) = ps.flatMap Param.mentions := by
  induction ps with
  | nil => rfl
  | cons p ps ih =>
    obtain ⟨name, value, span, cs⟩ := p
    simp [Param.allNodes, Param.mentions, Node.mentions, ih]

/-- Statements mention what each of them does. -/
@[simp] theorem mentionsOf_stmts (ss : List Stmt) :
    mentionsOf (Stmt.allNodes ss) = ss.flatMap Stmt.mentions := by
  induction ss with
  | nil => rfl
  | cons s ss ih => simp [Stmt.allNodes, Stmt.mentions, ih]

/-- A block mentions what its statements do. -/
@[simp] theorem mentionsOf_block (b : Block) : mentionsOf b.nodes = b.mentions := by
  obtain ⟨ss, span⟩ := b
  simp [Block.nodes, Block.mentions]

@[simp] theorem mentionsOf_block? (b : Option Block) :
    mentionsOf (Block.nodes? b) = b.toList.flatMap Block.mentions := by
  cases b with
  | none => rfl
  | some b => simp [Block.nodes?]

/-- Branches mention what each of them does. -/
@[simp] theorem mentionsOf_clauses (cs : List Clause) :
    mentionsOf (Clause.allNodes cs) = cs.flatMap Clause.mentions := by
  induction cs with
  | nil => rfl
  | cons c cs ih =>
    obtain ⟨condition, body, span⟩ := c
    simp [Clause.allNodes, Clause.mentions, Expr.mentions, ih]

/-! Where a node stands and which comments are beside it makes no difference to what it mentions. -/

section Forms

variable (span : Span) (cs : Comments)

@[simp] theorem Expr.mentions_literal (l : Literal) : Expr.mentions ⟨.literal l, span, cs⟩ = [] := rfl

@[simp] theorem Expr.mentions_list (es : List Expr) :
    Expr.mentions ⟨.list es, span, cs⟩ = es.flatMap Expr.mentions := mentionsOf_allNodes es

@[simp] theorem Expr.mentions_map (es : List Entry) :
    Expr.mentions ⟨.map es, span, cs⟩ = es.flatMap Entry.mentions := mentionsOf_entries es

/-- A name mentions itself. -/
@[simp] theorem Expr.mentions_identifier (x : String) :
    Expr.mentions ⟨.identifier x, span, cs⟩ = [.name x] := rfl

/-- The field of a member is not mentioned. -/
@[simp] theorem Expr.mentions_member (b : Expr) (field : Ident) :
    Expr.mentions ⟨.member b field, span, cs⟩ = b.mentions := rfl

@[simp] theorem Expr.mentions_index (b i : Expr) :
    Expr.mentions ⟨.index b i, span, cs⟩ = b.mentions ++ i.mentions := mentionsOf_append ..

@[simp] theorem Expr.mentions_slice (b : Expr) (i j : Option Expr) :
    Expr.mentions ⟨.slice b i j, span, cs⟩ =
      b.mentions ++ i.toList.flatMap Expr.mentions ++ j.toList.flatMap Expr.mentions := by
  simp [Expr.mentions, Expr.nodes, Expr.Form.nodes, Node.mentions]

/-- A call mentions what is called before its arguments. -/
@[simp] theorem Expr.mentions_call (c : Expr) (es : List Expr) :
    Expr.mentions ⟨.call c es, span, cs⟩ = c.mentions ++ es.flatMap Expr.mentions := by
  simp [Expr.mentions, Expr.nodes, Expr.Form.nodes, Node.mentions]

@[simp] theorem Expr.mentions_binary (op : BinaryOp) (l r : Expr) :
    Expr.mentions ⟨.binary op l r, span, cs⟩ = l.mentions ++ r.mentions := mentionsOf_append ..

@[simp] theorem Expr.mentions_unary (op : UnaryOp) (e : Expr) :
    Expr.mentions ⟨.unary op e, span, cs⟩ = e.mentions := rfl

/-- A function mentions its parameters before its body. -/
@[simp] theorem Expr.mentions_function (ps : List Param) (b : Block) :
    Expr.mentions ⟨.function ps b, span, cs⟩ = ps.flatMap Param.mentions ++ b.mentions := by
  simp [Expr.mentions, Expr.nodes, Expr.Form.nodes, Node.mentions]

@[simp] theorem Expr.mentions_paren (e : Expr) :
    Expr.mentions ⟨.paren e, span, cs⟩ = e.mentions := rfl

/-- A directive mentions the file it reads. -/
@[simp] theorem Expr.mentions_directive (d : ValueDirective) :
    Expr.mentions ⟨.directive d, span, cs⟩ = d.mentions := List.append_nil _

@[simp] theorem Stmt.mentions_assign (op : AssignOp) (target value : Expr) :
    Stmt.mentions ⟨.assign op target value, span⟩ = target.mentions ++ value.mentions :=
  mentionsOf_append ..

@[simp] theorem Stmt.mentions_expr (e : Expr) : Stmt.mentions ⟨.expr e, span⟩ = e.mentions := rfl

@[simp] theorem Stmt.mentions_return (value : Option Expr) :
    Stmt.mentions ⟨.return_ value, span⟩ = value.toList.flatMap Expr.mentions :=
  mentionsOf_nodes? value

/-- An `if` mentions its branches in order. -/
@[simp] theorem Stmt.mentions_if (clauses : List Clause) (last : Option Block) (inline : Bool) :
    Stmt.mentions ⟨.if_ clauses last inline, span⟩ =
      clauses.flatMap Clause.mentions ++ last.toList.flatMap Block.mentions := by
  simp [Stmt.mentions, Stmt.nodes, Stmt.Form.nodes, Node.mentions]

@[simp] theorem Stmt.mentions_while (condition : Expr) (body : Block) :
    Stmt.mentions ⟨.while_ condition body, span⟩ = condition.mentions ++ body.mentions := by
  simp [Stmt.mentions, Stmt.nodes, Stmt.Form.nodes, Node.mentions, Expr.mentions]

/-- A loop mentions its variable first. -/
@[simp] theorem Stmt.mentions_for (item : Ident) (iterable : Expr) (body : Block) :
    Stmt.mentions ⟨.for_ item iterable body, span⟩ =
      .name item.name :: (iterable.mentions ++ body.mentions) := by
  simp [Stmt.mentions, Stmt.nodes, Stmt.Form.nodes, Node.mentions, Expr.mentions]

@[simp] theorem Stmt.mentions_break : Stmt.mentions ⟨.break_, span⟩ = [] := rfl

@[simp] theorem Stmt.mentions_continue : Stmt.mentions ⟨.continue_, span⟩ = [] := rfl

@[simp] theorem Stmt.mentions_comment (text : String) : Stmt.mentions ⟨.comment text, span⟩ = [] := rfl

/-- A directive mentions what it binds and its file. -/
@[simp] theorem Stmt.mentions_directive (d : Directive) :
    Stmt.mentions ⟨.directive d, span⟩ = d.mentions := List.append_nil _

end Forms

/-- Every name that occurs in a script: in an expression, as the variable of a loop, as a parameter
or bound by an import. -/
def Script.names (s : Script) : List String :=
  (mentionsOf s.nodes).filterMap fun
    | .name x => some x
    | _ => none

/-- The names of a script are those that its nodes mention. -/
theorem Script.mem_names {s : Script} {x : String} : x ∈ s.names ↔ .name x ∈ mentionsOf s.nodes := by
  rw [names, List.mem_filterMap]
  constructor
  · rintro ⟨m, hm, h⟩
    cases m with
    | name y => exact Option.some.inj h ▸ hm
    | import_ | include_ | inject => cases h
  · exact fun h => ⟨.name x, h, rfl⟩

end ScriptBundler

import ScriptBundler.Proofs.Induction
import ScriptBundler.Proofs.Nodes

/-!
# Proofs/Postings — what a tree puts on record, in the order of the text

Reading a text records names, constants, the files that directives name and calls that load a script
while the program runs.  The *postings* of a tree are these in the order in which they are recorded: a
call after its arguments, and a function between the two ends of its scope.  A `Ledger` is a record as
it stands after some postings (`Ledger.enter`), with names kept by scope.

Postings of one sort are found node by node (`Selects.filterMap_postings`), where only the ends of scopes
belong to no node.
-/

namespace ScriptBundler

/-- Something that goes on record. -/
inductive Posting where
  | mention (m : Mention)
  | literal (value : Literal)
  /-- A call that loads another script while the program runs. -/
  | native (path : String)
  /-- The start of a function. -/
  | enter
  /-- The end of a function. -/
  | leave

/-- The script that a call loads while the program runs, where it is named by a literal. -/
def nativeTarget? (callee : Expr) (args : List Expr) : Option String :=
  match callee.form, args with
  | .identifier name, [⟨.literal (.string _ value), _, _⟩] => if name = nativeImport then some value else none
  | _, _ => none

/-- A call loads a script if it is of the native name, with one text. -/
theorem nativeTarget?_eq_some {callee : Expr} {args : List Expr} {v : String} :
    nativeTarget? callee args = some v ↔ callee.form = .identifier nativeImport ∧
      ∃ raw span cs, args = [⟨.literal (.string raw v), span, cs⟩] := by
  constructor
  · intro h
    unfold nativeTarget? at h
    split at h
    · rename_i name raw value span cs hname
      split at h
      · rename_i heq
        exact ⟨heq ▸ hname, raw, span, cs, by rw [Option.some.inj h]⟩
      · cases h
    · cases h
  · rintro ⟨hname, raw, span, cs, rfl⟩
    simp [nativeTarget?, hname]

/-! ## Postings of a tree -/

/-- What a directive that is a statement puts on record. -/
def Directive.postings (d : Directive) : List Posting := d.mentions.map .mention

/-- What a directive for a value puts on record. -/
def ValueDirective.postings (d : ValueDirective) : List Posting := d.mentions.map .mention

mutual

/-- What a form puts on record. -/
def Expr.Form.postings : Expr.Form → List Posting
  | .literal l => [.literal l]
  | .list es => Expr.allPostings es
  | .map es => Entry.allPostings es
  | .identifier x => [.mention (.name x)]
  | .member b _ => b.postings
  | .index b i => b.postings ++ i.postings
  | .slice b i j => b.postings ++ Expr.postings? i ++ Expr.postings? j
  | .call c es => c.postings ++ Expr.allPostings es ++ (nativeTarget? c es).toList.map .native
  | .binary _ l r => l.postings ++ r.postings
  | .unary _ e | .paren e => e.postings
  | .function ps b => .enter :: (Param.allPostings ps ++ b.postings ++ [.leave])
  | .directive d => d.postings

/-- What an expression puts on record. -/
def Expr.postings : Expr → List Posting
  | ⟨form, _, _⟩ => form.postings

/-- What some expressions put on record. -/
def Expr.allPostings : List Expr → List Posting
  | [] => []
  | e :: es => e.postings ++ Expr.allPostings es

/-- What an expression puts on record that may be left out. -/
def Expr.postings? : Option Expr → List Posting
  | none => []
  | some e => e.postings

/-- What the entries of a map put on record. -/
def Entry.allPostings : List Entry → List Posting
  | [] => []
  | ⟨key, value, _, _⟩ :: es => key.postings ++ value.postings ++ Entry.allPostings es

/-- What parameters put on record, each its name first. -/
def Param.allPostings : List Param → List Posting
  | [] => []
  | ⟨name, value, _, _⟩ :: ps =>
    .mention (.name name.name) :: Expr.postings? value ++ Param.allPostings ps

/-- What a block puts on record. -/
def Block.postings : Block → List Posting
  | ⟨ss, _⟩ => Stmt.allPostings ss

/-- What a block puts on record that may be left out. -/
def Block.postings? : Option Block → List Posting
  | none => []
  | some b => b.postings

/-- What branches put on record. -/
def Clause.allPostings : List Clause → List Posting
  | [] => []
  | ⟨condition, body, _⟩ :: cs => condition.postings ++ body.postings ++ Clause.allPostings cs

/-- What statements put on record. -/
def Stmt.allPostings : List Stmt → List Posting
  | [] => []
  | s :: ss => s.postings ++ Stmt.allPostings ss

/-- What a statement puts on record. -/
def Stmt.postings : Stmt → List Posting
  | ⟨form, _⟩ => form.postings

/-- What the form of a statement puts on record. -/
def Stmt.Form.postings : Stmt.Form → List Posting
  | .assign _ target value => target.postings ++ value.postings
  | .expr e => e.postings
  | .return_ value => Expr.postings? value
  | .break_ | .continue_ | .comment _ => []
  | .if_ cs last _ => Clause.allPostings cs ++ Block.postings? last
  | .while_ condition body => condition.postings ++ body.postings
  | .for_ item iterable body => .mention (.name item.name) :: (iterable.postings ++ body.postings)
  | .directive d => d.postings

end

/-- What an entry of a map puts on record. -/
def Entry.postings (e : Entry) : List Posting := e.key.postings ++ e.value.postings

/-- What a parameter puts on record: its name first. -/
def Param.postings (p : Param) : List Posting :=
  .mention (.name p.name.name) :: p.default.toList.flatMap Expr.postings

/-- What a branch puts on record. -/
def Clause.postings (c : Clause) : List Posting := c.condition.postings ++ c.body.postings

@[simp] theorem Expr.postings?_eq (e : Option Expr) :
    Expr.postings? e = e.toList.flatMap Expr.postings := by
  cases e with
  | none => rfl
  | some e => simp [Expr.postings?]

/-- Expressions put on record what each of them does. -/
@[simp] theorem Expr.allPostings_eq (es : List Expr) : Expr.allPostings es = es.flatMap Expr.postings := by
  induction es with
  | nil => rfl
  | cons e es ih => rw [Expr.allPostings, ih, List.flatMap_cons]

/-- Entries of a map put on record what each of them does. -/
@[simp] theorem Entry.allPostings_eq (es : List Entry) :
    Entry.allPostings es = es.flatMap Entry.postings := by
  induction es with
  | nil => rfl
  | cons e es ih =>
    obtain ⟨key, value, span, cs⟩ := e
    rw [Entry.allPostings, ih, List.flatMap_cons, Entry.postings]

@[simp] theorem Param.allPostings_eq (ps : List Param) :
    Param.allPostings ps = ps.flatMap Param.postings := by
  induction ps with
  | nil => rfl
  | cons p ps ih =>
    obtain ⟨name, value, span, cs⟩ := p
    rw [Param.allPostings, ih, List.flatMap_cons, Param.postings, Expr.postings?_eq]

/-- Statements put on record what each of them does. -/
@[simp] theorem Stmt.allPostings_eq (ss : List Stmt) : Stmt.allPostings ss = ss.flatMap Stmt.postings := by
  induction ss with
  | nil => rfl
  | cons s ss ih => rw [Stmt.allPostings, ih, List.flatMap_cons]

theorem Block.postings_eq (b : Block) : b.postings = b.stmts.flatMap Stmt.postings := by
  obtain ⟨ss, span⟩ := b
  exact Stmt.allPostings_eq ss

@[simp] theorem Block.postings?_eq (b : Option Block) :
    Block.postings? b = b.toList.flatMap Block.postings := by
  cases b with
  | none => rfl
  | some b => simp [Block.postings?]

@[simp] theorem Clause.allPostings_eq (cs : List Clause) :
    Clause.allPostings cs = cs.flatMap Clause.postings := by
  induction cs with
  | nil => rfl
  | cons c cs ih =>
    obtain ⟨condition, body, span⟩ := c
    rw [Clause.allPostings, ih, List.flatMap_cons, Clause.postings]

/-- What a script puts on record: its statements, inside of its outermost scope. -/
def Script.postings (s : Script) : List Posting := .enter :: s.body.flatMap Stmt.postings ++ [.leave]

/-! ## Records -/

/-- A record: the files that are named, the constants, and the names of each scope. -/
structure Ledger where
  imports : List String := []
  includes : List String := []
  injects : List String := []
  natives : List String := []
  literals : List Literal := []
  scopes : List (List String) := []
  /-- The scopes that are open, as places in `scopes`, innermost first. -/
  inside : List Nat := []

namespace Ledger

/-- Each name once, by first use. -/
def addName (names : List String) (x : String) : List String := if x ∈ names then names else names ++ [x]

/-- The record after one more posting. -/
def post (l : Ledger) : Posting → Ledger
  | .mention (.name x) =>
    match l.inside with
    | [] => l
    | i :: _ => { l with scopes := l.scopes.modify i (addName · x) }
  | .mention (.import_ path) => { l with imports := l.imports ++ [path] }
  | .mention (.include_ path) => { l with includes := l.includes ++ [path] }
  | .mention (.inject path) => { l with injects := l.injects ++ [path] }
  | .native path => { l with natives := l.natives ++ [path] }
  | .literal value => { l with literals := l.literals ++ [value] }
  | .enter => { l with scopes := l.scopes ++ [[]], inside := l.scopes.length :: l.inside }
  | .leave => { l with inside := l.inside.tail }

/-- The record after some more postings. -/
def enter (l : Ledger) (ps : List Posting) : Ledger := ps.foldl post l

@[simp] theorem enter_nil (l : Ledger) : l.enter [] = l := rfl

/-- Postings are entered one after another. -/
theorem enter_append (l : Ledger) (ps qs : List Posting) : l.enter (ps ++ qs) = (l.enter ps).enter qs :=
  List.foldl_append

theorem enter_singleton (l : Ledger) (p : Posting) : l.enter [p] = l.post p := rfl

/-- Postings of one sort go to one list. -/
theorem enter_field {β : Type} (field : Ledger → List β) (sel : Posting → Option β)
    (h : ∀ l p, field (l.post p) = field l ++ (sel p).toList) (l : Ledger) (ps : List Posting) :
    field (l.enter ps) = field l ++ ps.filterMap sel := by
  induction ps generalizing l with
  | nil => simp [enter]
  | cons p ps ih =>
    rw [show l.enter (p :: ps) = (l.post p).enter ps from rfl, ih, h, List.append_assoc]
    cases hsel : sel p <;> simp [hsel]

end Ledger

namespace Posting

/-- The mention in a posting, if it is one. -/
def mention? : Posting → Option Mention
  | mention m => some m
  | _ => none

/-- The script a posting loads, if it does. -/
def native? : Posting → Option String
  | native path => some path
  | _ => none

end Posting

namespace Mention

/-- The file that is imported. -/
def import? : Mention → Option String
  | import_ path => some path
  | _ => none

/-- The file that is included. -/
def include? : Mention → Option String
  | include_ path => some path
  | _ => none

/-- The file that is injected. -/
def inject? : Mention → Option String
  | inject path => some path
  | _ => none

end Mention

namespace Ledger

/-- The scripts on record are those that were posted. -/
theorem natives_enter (l : Ledger) (ps : List Posting) :
    (l.enter ps).natives = l.natives ++ ps.filterMap Posting.native? := by
  refine enter_field natives Posting.native? (fun l p => ?_) l ps
  cases p with
  | mention m => cases m <;> simp only [post] <;> (try split) <;> simp [Posting.native?]
  | _ => simp [post, Posting.native?]

/-- Files that directives name. -/
theorem mentions_enter (l : Ledger) (ps : List Posting) :
    (l.enter ps).imports = l.imports ++ (ps.filterMap Posting.mention?).filterMap Mention.import? ∧
    (l.enter ps).includes = l.includes ++ (ps.filterMap Posting.mention?).filterMap Mention.include? ∧
    (l.enter ps).injects = l.injects ++ (ps.filterMap Posting.mention?).filterMap Mention.inject? := by
  simp only [List.filterMap_filterMap]
  refine ⟨enter_field imports _ (fun l p => ?_) l ps, enter_field includes _ (fun l p => ?_) l ps,
    enter_field injects _ (fun l p => ?_) l ps⟩
  all_goals
    cases p with
    | mention m =>
      cases m <;> simp only [post] <;> (try split) <;>
        simp [Posting.mention?, Mention.import?, Mention.include?, Mention.inject?]
    | _ => simp [post, Posting.mention?]

end Ledger

/-! ## Postings node by node -/

/-- What a node puts on record, apart from the nodes in it. -/
def Node.postings : Node → List Posting
  | .expr ⟨.literal l, _, _⟩ => [.literal l]
  | .expr ⟨.call c es, _, _⟩ => (nativeTarget? c es).toList.map .native
  | n => n.mentions.map .mention

/-- A choice among postings that can be made node by node: neither end of a scope is chosen, and a call
not together with what is in it. -/
structure Selects {β : Type} (sel : Posting → Option β) : Prop where
  enter : sel .enter = none
  leave : sel .leave = none
  native : (∀ path, sel (.native path) = none) ∨
    (∀ x, sel (.mention (.name x)) = none) ∧ ∀ l, sel (.literal l) = none

namespace Selects

variable {β : Type} {sel : Posting → Option β}

theorem mention : Selects Posting.mention? := ⟨rfl, rfl, .inl fun _ => rfl⟩

theorem natives : Selects Posting.native? := ⟨rfl, rfl, .inr ⟨fun _ => rfl, fun _ => rfl⟩⟩

/-- Chosen postings of a node, and of some nodes. -/
def own (sel : Posting → Option β) (n : Node) : List β := n.postings.filterMap sel

/-- The chosen postings of an expression are those of its nodes. -/
def ofExpr (sel : Posting → Option β) (e : Expr) : Prop :=
  e.postings.filterMap sel = e.nodes.flatMap (own sel)

/-- The chosen postings of a statement are those of its nodes. -/
def ofStmt (sel : Posting → Option β) (s : Stmt) : Prop :=
  s.postings.filterMap sel = s.nodes.flatMap (own sel)

section Lists

/-- Expressions one after another. -/
theorem exprs {es : List Expr} (h : ∀ e ∈ es, ofExpr sel e) :
    (es.flatMap Expr.postings).filterMap sel = (Expr.allNodes es).flatMap (own sel) := by
  induction es with
  | nil => rfl
  | cons e es ih =>
    obtain ⟨he, hes⟩ := List.forall_mem_cons.mp h
    rw [List.flatMap_cons, List.filterMap_append, he, ih hes, Expr.allNodes, List.flatMap_append]

/-- An expression that may be left out. -/
theorem expr? {e : Option Expr} (h : ∀ a ∈ e, ofExpr sel a) :
    (e.toList.flatMap Expr.postings).filterMap sel = (Expr.nodes? e).flatMap (own sel) := by
  cases e with
  | none => rfl
  | some e => simpa [Expr.nodes?, ofExpr] using h e rfl

/-- Entries of a map one after another. -/
theorem entries {es : List Entry} (h : ∀ a ∈ es, ofExpr sel a.key ∧ ofExpr sel a.value) :
    (es.flatMap Entry.postings).filterMap sel = (Entry.allNodes es).flatMap (own sel) := by
  induction es with
  | nil => rfl
  | cons e es ih =>
    obtain ⟨⟨hkey, hvalue⟩, hes⟩ := List.forall_mem_cons.mp h
    obtain ⟨key, value, span, cs⟩ := e
    rw [List.flatMap_cons, Entry.postings, List.filterMap_append, List.filterMap_append, hkey, hvalue,
      ih hes, Entry.allNodes, List.flatMap_append, List.flatMap_append]

/-- Parameters one after another. -/
theorem params {ps : List Param} (h : ∀ p ∈ ps, ∀ e ∈ p.default, ofExpr sel e) :
    (ps.flatMap Param.postings).filterMap sel = (Param.allNodes ps).flatMap (own sel) := by
  induction ps with
  | nil => rfl
  | cons p ps ih =>
    obtain ⟨hp, hps⟩ := List.forall_mem_cons.mp h
    obtain ⟨name, value, span, cs⟩ := p
    have hname : own sel (.param ⟨name, value, span, cs⟩) =
        [Posting.mention (.name name.name)].filterMap sel := rfl
    rw [List.flatMap_cons, Param.postings, List.filterMap_append, ← List.singleton_append,
      List.filterMap_append, expr? hp, ih hps, Param.allNodes, List.flatMap_append, List.flatMap_cons, hname]

/-- Statements one after another. -/
theorem stmts {ss : List Stmt} (h : ∀ s ∈ ss, ofStmt sel s) :
    (ss.flatMap Stmt.postings).filterMap sel = (Stmt.allNodes ss).flatMap (own sel) := by
  induction ss with
  | nil => rfl
  | cons s ss ih =>
    obtain ⟨hs, hss⟩ := List.forall_mem_cons.mp h
    rw [List.flatMap_cons, List.filterMap_append, hs, ih hss, Stmt.allNodes, List.flatMap_append]

theorem block {b : Block} (h : ∀ s ∈ b.stmts, ofStmt sel s) :
    b.postings.filterMap sel = b.nodes.flatMap (own sel) := by
  rw [Block.postings_eq]
  obtain ⟨ss, span⟩ := b
  exact stmts h

theorem block? {b : Option Block} (h : ∀ a ∈ b, ∀ s ∈ a.stmts, ofStmt sel s) :
    (b.toList.flatMap Block.postings).filterMap sel = (Block.nodes? b).flatMap (own sel) := by
  cases b with
  | none => rfl
  | some b => simpa [Block.nodes?] using block (h b rfl)

/-- Branches one after another. -/
theorem clauses {cs : List Clause}
    (h : ∀ c ∈ cs, ofExpr sel c.condition ∧ ∀ s ∈ c.body.stmts, ofStmt sel s) :
    (cs.flatMap Clause.postings).filterMap sel = (Clause.allNodes cs).flatMap (own sel) := by
  induction cs with
  | nil => rfl
  | cons c cs ih =>
    obtain ⟨⟨hcondition, hbody⟩, hcs⟩ := List.forall_mem_cons.mp h
    obtain ⟨condition, body, span⟩ := c
    rw [List.flatMap_cons, Clause.postings, List.filterMap_append, List.filterMap_append, hcondition,
      block hbody, ih hcs, Clause.allNodes, List.flatMap_append, List.flatMap_append]

end Lists

/-- A call is recorded after what is in it, which makes no difference to what is chosen. -/
theorem call (hsel : Selects sel) {c : Expr} {es : List Expr} {span : Span} {cs : Comments}
    (hc : ofExpr sel c) (hes : ∀ e ∈ es, ofExpr sel e) : ofExpr sel ⟨.call c es, span, cs⟩ := by
  have hinner := exprs hes
  have hc' : c.postings.filterMap sel = c.nodes.flatMap (own sel) := hc
  have hparts : Expr.postings ⟨.call c es, span, cs⟩ =
      c.postings ++ es.flatMap Expr.postings ++ (nativeTarget? c es).toList.map .native := by
    simp [Expr.postings, Expr.Form.postings]
  have hnodes : (Expr.nodes ⟨.call c es, span, cs⟩).flatMap (own sel) =
      ((nativeTarget? c es).toList.map Posting.native).filterMap sel ++
        ((c.postings.filterMap sel) ++ (es.flatMap Expr.postings).filterMap sel) := by
    rw [hc', hinner, ← List.flatMap_append]
    rfl
  rw [ofExpr, hparts, hnodes, List.filterMap_append, List.filterMap_append]
  cases htarget : nativeTarget? c es with
  | none => simp
  | some v =>
    rcases hsel.native with hnative | ⟨hname, hliteral⟩
    · simp [hnative]
    · obtain ⟨hform, raw, aspan, acs, rfl⟩ := nativeTarget?_eq_some.mp htarget
      obtain ⟨form, cspan, ccs⟩ := c
      obtain rfl : form = .identifier nativeImport := hform
      simp [Expr.postings, Expr.Form.postings, hname, hliteral]

/-- **Chosen postings are those of the nodes**: one case for each constructor. -/
theorem inductive_ (hsel : Selects sel) : Inductive (ofExpr sel) (ofStmt sel) where
  literal _ _ _ := by simp [ofExpr, Expr.postings, Expr.Form.postings, Expr.nodes, Expr.Form.nodes, own,
    Node.postings]
  list es span cs h := by
    simpa [ofExpr, Expr.postings, Expr.Form.postings, Expr.nodes, Expr.Form.nodes, own, Node.postings,
      Node.mentions] using exprs h
  map es span cs h := by
    simpa [ofExpr, Expr.postings, Expr.Form.postings, Expr.nodes, Expr.Form.nodes, own, Node.postings,
      Node.mentions] using entries h
  identifier _ _ _ := by
    simp [ofExpr, Expr.postings, Expr.Form.postings, Expr.nodes, Expr.Form.nodes, own, Node.postings,
      Node.mentions]
  member b field span cs h := h
  index b i span cs hb hi := by
    rw [ofExpr, show Expr.postings ⟨.index b i, span, cs⟩ = b.postings ++ i.postings from rfl,
      List.filterMap_append, hb, hi, ← List.flatMap_append]
    rfl
  slice b i j span cs hb hi hj := by
    rw [ofExpr, show Expr.postings ⟨.slice b i j, span, cs⟩ =
      b.postings ++ Expr.postings? i ++ Expr.postings? j from rfl, Expr.postings?_eq, Expr.postings?_eq,
      List.filterMap_append, List.filterMap_append, hb, expr? hi, expr? hj, ← List.flatMap_append,
      ← List.flatMap_append]
    rfl
  call c es span cs hc hes := hsel.call hc hes
  binary op l r span cs hl hr := by
    rw [ofExpr, show Expr.postings ⟨.binary op l r, span, cs⟩ = l.postings ++ r.postings from rfl,
      List.filterMap_append, hl, hr, ← List.flatMap_append]
    rfl
  unary op e span cs h := h
  function ps b span cs hps hb := by
    have hparts : (Expr.postings ⟨.function ps b, span, cs⟩).filterMap sel =
        (ps.flatMap Param.postings).filterMap sel ++ b.postings.filterMap sel := by
      simp [Expr.postings, Expr.Form.postings, hsel.enter, hsel.leave]
    rw [ofExpr, hparts, params hps, block hb, ← List.flatMap_append]
    rfl
  paren e span cs h := h
  directive d span cs := by
    simp [ofExpr, Expr.postings, Expr.Form.postings, ValueDirective.postings, Expr.nodes, Expr.Form.nodes,
      own, Node.postings, Node.mentions]
  assign op target value span ht hv := by
    rw [ofStmt, show Stmt.postings ⟨.assign op target value, span⟩ = target.postings ++ value.postings
      from rfl, List.filterMap_append, ht, hv, ← List.flatMap_append]
    rfl
  expr e span h _ := h
  return_ value span h := by
    rw [ofStmt, show Stmt.postings ⟨.return_ value, span⟩ = Expr.postings? value from rfl,
      Expr.postings?_eq, expr? h]
    rfl
  break_ _ := rfl
  continue_ _ := rfl
  if_ cs last inline span hcs hlast := by
    rw [ofStmt, show Stmt.postings ⟨.if_ cs last inline, span⟩ =
      Clause.allPostings cs ++ Block.postings? last from rfl, Clause.allPostings_eq, Block.postings?_eq,
      List.filterMap_append, clauses hcs, block? hlast, ← List.flatMap_append]
    rfl
  while_ c b span hc hb := by
    rw [ofStmt, show Stmt.postings ⟨.while_ c b, span⟩ = c.postings ++ b.postings from rfl,
      List.filterMap_append, hc, block hb, ← List.flatMap_append]
    rfl
  for_ item e b span he hb := by
    rw [ofStmt, show Stmt.postings ⟨.for_ item e b, span⟩ =
      [.mention (.name item.name)] ++ (e.postings ++ b.postings) from rfl,
      List.filterMap_append, List.filterMap_append, he, block hb, ← List.flatMap_append]
    rfl
  comment _ _ := rfl
  mark d span := by
    simp [ofStmt, Stmt.postings, Stmt.Form.postings, Directive.postings, Stmt.nodes, Stmt.Form.nodes, own,
      Node.postings, Node.mentions]

/-- **Postings of one sort, node by node.** -/
theorem filterMap_postings (hsel : Selects sel) (s : Script) :
    s.postings.filterMap sel = s.nodes.flatMap fun n => n.postings.filterMap sel := by
  have hbody : (s.body.flatMap Stmt.postings).filterMap sel = s.nodes.flatMap (own sel) :=
    stmts fun t _ => hsel.inductive_.allStmt t
  rw [Script.postings, List.filterMap_append, List.filterMap_cons_none hsel.enter, hbody,
    List.filterMap_cons_none hsel.leave, List.filterMap_nil, List.append_nil]
  rfl

end Selects

/-- What nodes mention, among their postings. -/
theorem Script.filterMap_mention (s : Script) :
    s.postings.filterMap Posting.mention? = mentionsOf s.nodes := by
  rw [Selects.mention.filterMap_postings, mentionsOf]
  have hself : ∀ ms : List Mention, (ms.map Posting.mention).filterMap Posting.mention? = ms := fun ms => by
    rw [List.filterMap_map]
    exact List.filterMap_some
  refine congrArg (List.flatMap · _) (funext fun n => ?_)
  unfold Node.postings
  split
  · rfl
  · rw [List.filterMap_map]
    cases nativeTarget? _ _ <;> rfl
  · exact hself _

/-- The script that a node loads while the program runs. -/
def Node.native? : Node → Option String
  | .expr ⟨.call c es, _, _⟩ => nativeTarget? c es
  | _ => none

/-- Calls that load scripts, among the postings. -/
theorem Script.filterMap_native (s : Script) :
    s.postings.filterMap Posting.native? = s.nodes.filterMap Node.native? := by
  have hown : ∀ n : Node, n.postings.filterMap Posting.native? = n.native?.toList := by
    intro n
    unfold Node.postings
    split
    · rfl
    · rename_i c es span cs
      rw [List.filterMap_map, show Node.native? (.expr ⟨.call c es, span, cs⟩) = nativeTarget? c es from rfl]
      cases nativeTarget? c es <;> rfl
    · rename_i hcall
      have hnative : n.native? = none := by
        unfold Node.native?
        split
        · exact absurd rfl (hcall _ _ _ _)
        · rfl
      rw [List.filterMap_map, hnative]
      exact List.filterMap_eq_nil_iff.mpr fun _ _ => rfl
  rw [Selects.natives.filterMap_postings]
  induction s.nodes with
  | nil => rfl
  | cons n ns ih =>
    rw [List.flatMap_cons, hown, ih]
    cases hn : n.native? <;> simp [hn]

end ScriptBundler

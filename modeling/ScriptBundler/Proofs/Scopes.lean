import Mathlib.Data.List.Induction
import ScriptBundler.Proofs.Ledger

/-!
# Proofs/Scopes — the record of a script, list by list

    a = function(b)          ◂ top level: a
      f = function(c) d(b)   ◂ first function: b, f; second function: c, d, b

The record of a script is found by going through its tree in the order of the text.  Constants, files
and calls that load scripts are those of the nodes, one after the other.  A name is kept with the
function that is innermost around it: `ownNames` are the names of a node outside of the functions in it,
and entering the postings of a node adds these to the scope that is open and puts one new scope for each
function behind all others (`Ledger.Adds`).
-/

namespace ScriptBundler

/-! ## Names by function -/

/-- The names that a directive binds. -/
def Directive.names : Directive → List String
  | import_ name _ => [name.name]
  | _ => []

mutual

/-- The names in a form that are in no function inside of it. -/
def Expr.Form.ownNames : Expr.Form → List String
  | .literal _ | .directive _ | .function .. => []
  | .list es => Expr.allOwnNames es
  | .map es => Entry.allOwnNames es
  | .identifier x => [x]
  | .member b _ => b.ownNames
  | .index b i => b.ownNames ++ i.ownNames
  | .slice b i j => b.ownNames ++ Expr.ownNames? i ++ Expr.ownNames? j
  | .call c es => c.ownNames ++ Expr.allOwnNames es
  | .binary _ l r => l.ownNames ++ r.ownNames
  | .unary _ e | .paren e => e.ownNames

/-- The names in an expression that are in no function inside of it. -/
def Expr.ownNames : Expr → List String
  | ⟨form, _, _⟩ => form.ownNames

/-- The own names of some expressions. -/
def Expr.allOwnNames : List Expr → List String
  | [] => []
  | e :: es => e.ownNames ++ Expr.allOwnNames es

/-- The own names of an expression that may be left out. -/
def Expr.ownNames? : Option Expr → List String
  | none => []
  | some e => e.ownNames

/-- The own names of the entries of a map. -/
def Entry.allOwnNames : List Entry → List String
  | [] => []
  | ⟨key, value, _, _⟩ :: es => key.ownNames ++ value.ownNames ++ Entry.allOwnNames es

/-- The own names of a block. -/
def Block.ownNames : Block → List String
  | ⟨ss, _⟩ => Stmt.allOwnNames ss

/-- The own names of a block that may be left out. -/
def Block.ownNames? : Option Block → List String
  | none => []
  | some b => b.ownNames

/-- The own names of branches. -/
def Clause.allOwnNames : List Clause → List String
  | [] => []
  | ⟨condition, body, _⟩ :: cs => condition.ownNames ++ body.ownNames ++ Clause.allOwnNames cs

/-- The own names of some statements. -/
def Stmt.allOwnNames : List Stmt → List String
  | [] => []
  | s :: ss => s.ownNames ++ Stmt.allOwnNames ss

/-- The names in a statement that are in no function inside of it. -/
def Stmt.ownNames : Stmt → List String
  | ⟨form, _⟩ => form.ownNames

/-- The own names of the form of a statement. -/
def Stmt.Form.ownNames : Stmt.Form → List String
  | .assign _ target value => target.ownNames ++ value.ownNames
  | .expr e => e.ownNames
  | .return_ value => Expr.ownNames? value
  | .break_ | .continue_ | .comment _ => []
  | .if_ cs last _ => Clause.allOwnNames cs ++ Block.ownNames? last
  | .while_ condition body => condition.ownNames ++ body.ownNames
  | .for_ item iterable body => item.name :: (iterable.ownNames ++ body.ownNames)
  | .directive d => d.names

end

/-- A parameter and the names in its value. -/
def Param.ownNames (p : Param) : List String := p.name.name :: Expr.ownNames? p.default

/-- The names that are in a function and in no function inside of it: those of its parameters, then
those of its body. -/
def functionNames (f : List Param × Block) : List String := f.1.flatMap Param.ownNames ++ f.2.ownNames

/-- The parameters and the body of a node that is a function. -/
def Node.function? : Node → Option (List Param × Block)
  | .expr ⟨.function ps b, _, _⟩ => some (ps, b)
  | _ => none

/-- The functions of a script, in the order of their first words. -/
def Script.functions (s : Script) : List (List Param × Block) := s.nodes.filterMap Node.function?

/-- The constant that a node is. -/
def Node.literal? : Node → Option Literal
  | .expr ⟨.literal l, _, _⟩ => some l
  | _ => none

/-! ## Scopes that postings add -/

namespace Ledger

/-- Each of `xs` once, by first use, after `names`. -/
def addNames (names xs : List String) : List String := xs.foldl addName names

/-- Names are added one after another. -/
theorem addNames_append (names xs ys : List String) :
    addNames names (xs ++ ys) = addNames (addNames names xs) ys := List.foldl_append

/-- Names that are added one by one are there once each, by first use. -/
theorem addNames_nil_eq (xs : List String) : addNames [] xs = xs.eraseDups := by
  induction xs using List.reverseRecOn with
  | nil => rfl
  | append_singleton xs x ih =>
    rw [addNames_append, ih, List.eraseDups_append, show addNames xs.eraseDups [x] = addName _ x from rfl,
      addName]
    by_cases hx : x ∈ xs
    · simp [List.mem_eraseDups, hx, List.removeAll]
    · simp [List.mem_eraseDups, hx, List.removeAll, List.eraseDups_cons]

theorem modify_append_of_lt {α : Type} {l r : List α} {i : Nat} (h : i < l.length) (f : α → α) :
    (l ++ r).modify i f = l.modify i f ++ r := by
  induction l generalizing i with
  | nil => cases h
  | cons a l ih =>
    cases i with
    | zero => rfl
    | succ i =>
      rw [List.cons_append, List.modify_succ_cons, List.modify_succ_cons, List.cons_append,
        ih (Nat.lt_of_succ_lt_succ h)]

theorem modify_append_length {α : Type} (l : List α) (a : α) (f : α → α) :
    (l ++ [a]).modify l.length f = l ++ [f a] := by
  induction l with
  | nil => rfl
  | cons b l ih => rw [List.cons_append, List.length_cons, List.modify_succ_cons, ih, List.cons_append]

/-- Postings that add the names `own` to the scope that is open, and `inner` as scopes of their own. -/
structure Adds (ps : List Posting) (own : List String) (inner : List (List String)) : Prop where
  entered : ∀ (l : Ledger) (i : Nat) (is : List Nat), l.inside = i :: is → i < l.scopes.length →
    (l.enter ps).inside = l.inside ∧
      (l.enter ps).scopes = l.scopes.modify i (addNames · own) ++ inner
  /-- No name is left out. -/
  names : ∀ x, .mention (.name x) ∈ ps → x ∈ own ∨ ∃ xs ∈ inner, x ∈ xs

namespace Adds

variable {ps qs : List Posting} {own own' : List String} {inner inner' : List (List String)}

theorem nil : Adds [] [] [] where
  entered l i _ _ _ := ⟨rfl, by
    rw [enter_nil, List.append_nil]
    exact (List.modify_id i l.scopes).symm⟩
  names _ h := absurd h List.not_mem_nil

/-- **Postings one after the other.** -/
theorem append (hp : Adds ps own inner) (hq : Adds qs own' inner') :
    Adds (ps ++ qs) (own ++ own') (inner ++ inner') := by
  refine ⟨fun l i is hinside hi => ?_, fun x hx => ?_⟩
  rotate_left
  · have := hp.names x
    have := hq.names x
    grind
  obtain ⟨hinside', hscopes⟩ := hp.entered l i is hinside hi
  have hi' : i < (l.scopes.modify i (addNames · own)).length := by rwa [List.length_modify]
  obtain ⟨hinside'', hscopes'⟩ := hq.entered (l.enter ps) i is (hinside'.trans hinside) (by
    rw [hscopes, List.length_append]
    omega)
  refine ⟨by rw [enter_append, hinside'', hinside'], ?_⟩
  have hnames : ((addNames · own') ∘ (addNames · own)) = (addNames · (own ++ own')) :=
    funext fun names => (addNames_append names own own').symm
  rw [enter_append, hscopes', hscopes, modify_append_of_lt hi', List.modify_modify_eq, hnames,
    List.append_assoc]

theorem name (x : String) : Adds [.mention (.name x)] [x] [] := by
  refine ⟨fun l i is hinside _ => ?_, fun y hy => .inl (by simpa using hy)⟩
  have hpost : l.post (.mention (.name x)) = { l with scopes := l.scopes.modify i (addName · x) } := by
    simp only [post, hinside]
  rw [enter_singleton, hpost, List.append_nil]
  exact ⟨rfl, rfl⟩

/-- A posting that is neither a name nor an end of a scope. -/
theorem other {p : Posting}
    (h : ∀ l : Ledger, (l.post p).inside = l.inside ∧ (l.post p).scopes = l.scopes) : Adds [p] [] [] := by
  refine ⟨fun l i is hinside hi => ?_, fun x hx => ?_⟩
  · obtain ⟨-, hscopes⟩ := nil.entered l i is hinside hi
    exact ⟨(h l).1, (h l).2.trans hscopes⟩
  · obtain rfl := List.mem_singleton.mp hx
    have hscopes := (h { scopes := [[]], inside := [0] }).2
    simp [post, addName] at hscopes

/-- **A function**: its names are a scope behind all others. -/
theorem function (h : Adds ps own inner) : Adds (.enter :: (ps ++ [.leave])) [] (own.eraseDups :: inner) := by
  refine ⟨fun l i is hinside _ => ?_, fun x hx => ?_⟩
  rotate_left
  · have hx : .mention (.name x) ∈ ps := by simpa using hx
    have := h.names x hx
    simpa using this
  obtain ⟨hinside', hscopes⟩ := h.entered (l.post .enter) l.scopes.length l.inside rfl (by simp [post])
  have hout : l.enter (.enter :: (ps ++ [.leave])) = ((l.post .enter).enter ps).post .leave :=
    enter_append (l.post .enter) ps [.leave]
  rw [hout]
  constructor
  · show ((l.post .enter).enter ps).inside.tail = l.inside
    rw [hinside']
    rfl
  · show ((l.post .enter).enter ps).scopes = _
    rw [hscopes, show (l.post .enter).scopes = l.scopes ++ [[]] from rfl, modify_append_length,
      addNames_nil_eq, show l.scopes.modify i (addNames · []) = l.scopes from List.modify_id i l.scopes,
      List.append_assoc]
    rfl

end Adds

end Ledger

/-! ## Scopes of a tree -/

/-- The scopes of the functions among nodes. -/
def scopesOf (ns : List Node) : List (List String) :=
  (ns.filterMap Node.function?).map fun f => (functionNames f).eraseDups

theorem scopesOf_append (ns ms : List Node) : scopesOf (ns ++ ms) = scopesOf ns ++ scopesOf ms := by
  simp [scopesOf]

/-- A node that is no function opens no scope. -/
theorem scopesOf_cons {n : Node} (h : n.function? = none) (ns : List Node) :
    scopesOf (n :: ns) = scopesOf ns := by
  rw [scopesOf, List.filterMap_cons_none h, scopesOf]

namespace Scoped

open Ledger

/-- What an expression puts on record adds its own names and the scopes of its functions. -/
def ofExpr (e : Expr) : Prop := Adds e.postings e.ownNames (scopesOf e.nodes)

/-- What a statement puts on record adds its own names and the scopes of its functions. -/
def ofStmt (s : Stmt) : Prop := Adds s.postings s.ownNames (scopesOf s.nodes)

section Lists

/-- Expressions one after another. -/
theorem exprs {es : List Expr} (h : ∀ e ∈ es, ofExpr e) :
    Adds (Expr.allPostings es) (Expr.allOwnNames es) (scopesOf (Expr.allNodes es)) := by
  induction es with
  | nil => exact .nil
  | cons e es ih =>
    obtain ⟨he, hes⟩ := List.forall_mem_cons.mp h
    rw [Expr.allPostings, Expr.allOwnNames, Expr.allNodes, scopesOf_append]
    exact .append he (ih hes)

theorem expr? {e : Option Expr} (h : ∀ a ∈ e, ofExpr a) :
    Adds (Expr.postings? e) (Expr.ownNames? e) (scopesOf (Expr.nodes? e)) := by
  cases e with
  | none => exact .nil
  | some e => exact h e rfl

/-- Entries of a map one after another. -/
theorem entries {es : List Entry} (h : ∀ a ∈ es, ofExpr a.key ∧ ofExpr a.value) :
    Adds (Entry.allPostings es) (Entry.allOwnNames es) (scopesOf (Entry.allNodes es)) := by
  induction es with
  | nil => exact .nil
  | cons e es ih =>
    obtain ⟨⟨hkey, hvalue⟩, hes⟩ := List.forall_mem_cons.mp h
    obtain ⟨key, value, span, cs⟩ := e
    rw [Entry.allPostings, Entry.allOwnNames, Entry.allNodes, scopesOf_append, scopesOf_append]
    exact .append (.append hkey hvalue) (ih hes)

/-- Parameters one after another. -/
theorem params {ps : List Param} (h : ∀ p ∈ ps, ∀ e ∈ p.default, ofExpr e) :
    Adds (Param.allPostings ps) (ps.flatMap Param.ownNames) (scopesOf (Param.allNodes ps)) := by
  induction ps with
  | nil => exact .nil
  | cons p ps ih =>
    obtain ⟨hp, hps⟩ := List.forall_mem_cons.mp h
    obtain ⟨name, value, span, cs⟩ := p
    have hnodes : scopesOf (Param.allNodes (⟨name, value, span, cs⟩ :: ps)) =
        scopesOf (Expr.nodes? value) ++ scopesOf (Param.allNodes ps) :=
      (scopesOf_cons rfl _).trans (scopesOf_append ..)
    rw [hnodes]
    exact .append (.append (.name name.name) (expr? hp)) (ih hps)

/-- Statements one after another. -/
theorem stmts {ss : List Stmt} (h : ∀ s ∈ ss, ofStmt s) :
    Adds (Stmt.allPostings ss) (Stmt.allOwnNames ss) (scopesOf (Stmt.allNodes ss)) := by
  induction ss with
  | nil => exact .nil
  | cons s ss ih =>
    obtain ⟨hs, hss⟩ := List.forall_mem_cons.mp h
    rw [Stmt.allPostings, Stmt.allOwnNames, Stmt.allNodes, scopesOf_append]
    exact .append hs (ih hss)

theorem block {b : Block} (h : ∀ s ∈ b.stmts, ofStmt s) :
    Adds b.postings b.ownNames (scopesOf b.nodes) := by
  obtain ⟨ss, span⟩ := b
  exact stmts h

theorem block? {b : Option Block} (h : ∀ a ∈ b, ∀ s ∈ a.stmts, ofStmt s) :
    Adds (Block.postings? b) (Block.ownNames? b) (scopesOf (Block.nodes? b)) := by
  cases b with
  | none => exact .nil
  | some b => exact block (h b rfl)

/-- Branches one after another. -/
theorem clauses {cs : List Clause} (h : ∀ c ∈ cs, ofExpr c.condition ∧ ∀ s ∈ c.body.stmts, ofStmt s) :
    Adds (Clause.allPostings cs) (Clause.allOwnNames cs) (scopesOf (Clause.allNodes cs)) := by
  induction cs with
  | nil => exact .nil
  | cons c cs ih =>
    obtain ⟨⟨hcondition, hbody⟩, hcs⟩ := List.forall_mem_cons.mp h
    obtain ⟨condition, body, span⟩ := c
    rw [Clause.allPostings, Clause.allOwnNames, Clause.allNodes, scopesOf_append, scopesOf_append]
    exact .append (.append hcondition (block hbody)) (ih hcs)

end Lists

/-- A call is recorded after its arguments, which adds no name. -/
theorem native (callee : Expr) (args : List Expr) :
    Adds ((nativeTarget? callee args).toList.map .native) [] [] := by
  cases nativeTarget? callee args with
  | none => exact .nil
  | some v => exact .other fun _ => ⟨rfl, rfl⟩

theorem valueDirective (d : ValueDirective) : Adds d.postings [] [] := by
  cases d with
  | inject path => exact .other fun _ => ⟨rfl, rfl⟩
  | _ => exact .nil

/-- A directive adds the name that it binds. -/
theorem directive (d : Directive) : Adds d.postings d.names [] := by
  cases d with
  | import_ name path => exact .append (.name name.name) (.other fun _ => ⟨rfl, rfl⟩)
  | include_ path => exact .other fun _ => ⟨rfl, rfl⟩
  | debugger => exact .nil

/-- A node that is no function has the scopes of the nodes in it. -/
theorem of_cons {n : Node} {ns : List Node} {ps : List Posting} {own : List String}
    (hn : n.function? = none) (h : Adds ps own (scopesOf ns)) : Adds ps own (scopesOf (n :: ns)) :=
  (scopesOf_cons hn ns).symm ▸ h

/-- Two nodes side by side in one that is no function. -/
theorem pair {n : Node} {ns ms : List Node} {ps qs : List Posting} {own own' : List String}
    (hn : n.function? = none) (h : Adds ps own (scopesOf ns)) (h' : Adds qs own' (scopesOf ms)) :
    Adds (ps ++ qs) (own ++ own') (scopesOf (n :: (ns ++ ms))) :=
  of_cons hn (scopesOf_append ns ms ▸ h.append h')

/-- **Names are kept by function**, node by node. -/
theorem inductive_ : Inductive ofExpr ofStmt where
  literal _ _ _ := .other fun _ => ⟨rfl, rfl⟩
  list _ _ _ h := of_cons rfl (exprs h)
  map _ _ _ h := of_cons rfl (entries h)
  identifier x _ _ := .name x
  member _ _ _ _ h := of_cons rfl h
  index _ _ _ _ hb hi := pair rfl hb hi
  slice _ _ _ _ _ hb hi hj := of_cons rfl (by
    rw [Expr.Form.nodes, scopesOf_append, scopesOf_append]
    exact (Adds.append hb (expr? hi)).append (expr? hj))
  call c es span cs hc hes := by
    have hparts := (Adds.append hc (exprs hes)).append (native c es)
    rw [List.append_nil, List.append_nil, ← scopesOf_append] at hparts
    exact of_cons (n := .expr ⟨.call c es, span, cs⟩) rfl hparts
  binary _ _ _ _ _ hl hr := pair rfl hl hr
  unary _ _ _ _ h := of_cons rfl h
  function ps b span cs hps hb := by
    have hinside := (Adds.append (params hps) (block hb)).function
    rw [← scopesOf_append] at hinside
    exact hinside
  paren _ _ _ h := of_cons rfl h
  directive d _ _ := of_cons rfl (valueDirective d)
  assign _ _ _ _ ht hv := pair rfl ht hv
  expr _ _ h _ := of_cons rfl h
  return_ _ _ h := of_cons rfl (expr? h)
  break_ _ := .nil
  continue_ _ := .nil
  if_ _ _ _ _ hcs hlast := pair rfl (clauses hcs) (block? hlast)
  while_ _ _ _ hc hb := pair rfl hc (block hb)
  for_ item _ _ _ he hb := .append (.name item.name) (pair rfl he (block hb))
  comment _ _ := .nil
  mark d _ := of_cons rfl (directive d)

end Scoped

/-- **The body of a script** adds its own names and a scope for each function. -/
theorem Script.adds_body (s : Script) : Ledger.Adds (s.body.flatMap Stmt.postings)
    (Stmt.allOwnNames s.body) (scopesOf s.nodes) := by
  rw [← Stmt.allPostings_eq]
  exact Scoped.stmts fun t _ => Scoped.inductive_.allStmt t

/-- **The names of a script by function**: those of the top level, then those of each function. -/
theorem Script.scopes_enter (s : Script) : (Ledger.enter {} s.postings).scopes =
    (Stmt.allOwnNames s.body :: s.functions.map functionNames).map List.eraseDups := by
  obtain ⟨-, hscopes⟩ := s.adds_body.entered (Ledger.post {} .enter) 0 [] rfl Nat.one_pos
  have hout : Ledger.enter {} s.postings =
      ((Ledger.post {} .enter).enter (s.body.flatMap Stmt.postings)).post .leave :=
    Ledger.enter_append (Ledger.post {} .enter) _ [.leave]
  rw [hout]
  refine hscopes.trans ?_
  show Ledger.addNames [] _ :: scopesOf s.nodes = _
  rw [Ledger.addNames_nil_eq, List.map_cons, List.map_map]
  rfl

/-- Every name in a script is recorded in one of its scopes. -/
theorem Source.exists_scope_of_parse {source : Source} {script : Script} (h : source.parse = .ok script)
    {x : String} (hx : .name x ∈ mentionsOf script.nodes) :
    ∃ scope ∈ script.mentions.scopes, x ∈ scope.identifiers := by
  rw [← script.filterMap_mention] at hx
  obtain ⟨p, hp, hpx⟩ := List.mem_filterMap.mp hx
  obtain rfl : p = .mention (.name x) := by cases p <;> cases hpx; rfl
  have hnames := script.adds_body.names x (by simpa [Script.postings] using hp)
  have hscopes : ∃ xs ∈ script.mentions.scopes.map Scope.identifiers, x ∈ xs := by
    show ∃ xs ∈ (script.mentions.ledger []).scopes, x ∈ xs
    rw [ledger_of_parse h, script.scopes_enter]
    rcases hnames with hown | ⟨xs, hxs, hx⟩
    · exact ⟨_, List.mem_cons_self .., List.mem_eraseDups.mpr hown⟩
    · exact ⟨xs, List.mem_cons_of_mem _ (by rwa [List.map_map]), hx⟩
  simpa using hscopes

/-! ## Constants -/

/-- The constant in a posting, if it is one. -/
def Posting.literal? : Posting → Option Literal
  | literal l => some l
  | _ => none

/-- The constants on record are those that were posted. -/
theorem Ledger.literals_enter (l : Ledger) (ps : List Posting) :
    (l.enter ps).literals = l.literals ++ ps.filterMap Posting.literal? := by
  refine enter_field literals Posting.literal? (fun l p => ?_) l ps
  cases p with
  | mention m => cases m <;> simp only [post] <;> (try split) <;> simp [Posting.literal?]
  | _ => simp [post, Posting.literal?]

/-- Constants, among the postings. -/
theorem Script.filterMap_literal (s : Script) :
    s.postings.filterMap Posting.literal? = s.nodes.filterMap Node.literal? := by
  have hsel : Selects Posting.literal? := ⟨rfl, rfl, .inl fun _ => rfl⟩
  have hown : ∀ n : Node, n.postings.filterMap Posting.literal? = n.literal?.toList := by
    intro n
    unfold Node.postings
    split
    · rfl
    · cases nativeTarget? _ _ <;> rfl
    · rename_i hliteral _
      have hnone : n.literal? = none := by
        unfold Node.literal?
        split
        · exact absurd rfl (hliteral _ _ _)
        · rfl
      rw [List.filterMap_map, hnone]
      exact List.filterMap_eq_nil_iff.mpr fun _ _ => rfl
  rw [hsel.filterMap_postings]
  induction s.nodes with
  | nil => rfl
  | cons n ns ih =>
    rw [List.flatMap_cons, hown, ih]
    cases hn : n.literal? <;> simp [hn]

/-! ## Whole records -/

/-- **The record of a script is its tree, gone through in the order of the text.**  Constants, files
named by directives and calls that load scripts are those of the nodes.  The names are kept by function,
each once and by first use: first those outside of all functions, then those of each function that are
in no function inside of it. -/
theorem Source.mentions_of_parse {source : Source} {script : Script} (h : source.parse = .ok script) :
    script.mentions.literals = script.nodes.filterMap Node.literal? ∧
    script.mentions.imports.map Reference.path = (mentionsOf script.nodes).filterMap Mention.import? ∧
    script.mentions.includes.map Reference.path = (mentionsOf script.nodes).filterMap Mention.include? ∧
    script.mentions.injects.map Reference.path = (mentionsOf script.nodes).filterMap Mention.inject? ∧
    script.mentions.natives.map Reference.path = script.nodes.filterMap Node.native? ∧
    script.mentions.scopes.map Scope.identifiers =
      (Stmt.allOwnNames script.body :: script.functions.map functionNames).map List.eraseDups := by
  have hledger := ledger_of_parse h
  obtain ⟨himports, hincludes, hinjects⟩ := paths_of_parse h
  refine ⟨?_, himports, hincludes, hinjects, natives_of_parse h, ?_⟩
  · have hliterals := Ledger.literals_enter {} script.postings
    rw [← hledger, script.filterMap_literal] at hliterals
    exact hliterals
  · have hscopes := script.scopes_enter
    rw [← hledger] at hscopes
    exact hscopes

/-- A function in a function, with names that are used again, and a name of a member. -/
def nesting : Source where
  name := "main"
  text := "f=function(a,b=-1)\ng=function(c) d(a,f.x)\nend function\nend function\n" ++
    "for i in import_code(\"lib\")\nf(i,2)\nend for"

theorem Source.mentions_of_parse_nesting : ∃ script, nesting.parse = .ok script ∧
    script.mentions.literals = script.nodes.filterMap Node.literal? ∧
    script.mentions.natives.map Reference.path = ["lib"] ∧
    script.mentions.scopes.map Scope.identifiers =
      [["f", "i", "import_code"], ["a", "b", "g"], ["c", "d", "a", "f"]] := by
  have hfound : nesting.parse.toOption.any (fun script =>
      script.nodes.filterMap Node.native? = ["lib"] ∧
      (Stmt.allOwnNames script.body :: script.functions.map functionNames).map List.eraseDups =
        [["f", "i", "import_code"], ["a", "b", "g"], ["c", "d", "a", "f"]]) = true := by
    decide +kernel
  cases hparse : nesting.parse with
  | error report => simp [hparse, Except.toOption] at hfound
  | ok script =>
    rw [hparse] at hfound
    obtain ⟨hnatives, hscopes⟩ := of_decide_eq_true hfound
    obtain ⟨hliterals, -, -, -, hnatives', hscopes'⟩ := mentions_of_parse hparse
    exact ⟨script, rfl, hliterals, hnatives'.trans hnatives, hscopes'.trans hscopes⟩

end ScriptBundler

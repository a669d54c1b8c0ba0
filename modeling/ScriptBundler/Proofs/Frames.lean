import ScriptBundler.Script

/-!
# Proofs/Frames — what readers leave as it is

`Keeps R p` says that `R` holds between a state and where the reader `p` comes to from it, also if `p`
yields nothing.  If `R` can be put together from steps and holds of each step that moves on or reports a
fault (`Frame`), it is kept by every reader that records nothing.  If recording, nesting and scopes keep
it too (`Frame.Lasting`), it is kept by the whole grammar.

Every reader is put together from steps, so that it keeps `R` is found by following how it is built; only
the readers of the grammar, which call one another, need an induction on their bound.

Faults are never taken back (`Grows`): what went wrong in a part has gone wrong in the whole, and a run
without faults had none on its way.  And what a reader has opened, an expression or a scope, it has closed
when it ends (`Balanced`), wherever reading stops inside of it.
-/

namespace ScriptBundler.Reader

open Token (Kind)

variable {α β : Type}

theorem bind_some {p : Reader α} {f : α → Reader β} {s t : State} {a : α} (h : p s = (some a, t)) :
    (p >>= f) s = f a t := by
  simp only [Bind.bind, h]

theorem bind_none {p : Reader α} {f : α → Reader β} {s t : State} (h : p s = (none, t)) :
    (p >>= f) s = (none, t) := by
  simp only [Bind.bind, h]

/-- A relation between states that moving on and reporting a fault keep. -/
structure Frame where
  Rel : State → State → Prop
  refl : ∀ s, Rel s s
  trans : ∀ {s t u}, Rel s t → Rel t u → Rel s u
  advance : ∀ s, Rel s s.advance
  report : ∀ s d, Rel s { s with faults := s.faults ++ [d] }

/-- A change of what is on record that leaves the scopes as they are. -/
class Spares (f : Mentions → Mentions) : Prop where
  scopes : ∀ m, (f m).scopes = m.scopes

instance (imports includes injects natives : Mentions → List Reference)
    (literals : Mentions → List Literal) :
    Spares fun m => ⟨imports m, includes m, injects m, natives m, literals m, m.scopes⟩ := ⟨fun _ => rfl⟩

/-- A relation that every step of the grammar keeps. -/
class Frame.Lasting (R : Frame) : Prop where
  mention : ∀ s x, R.Rel s (s.mention x)
  mentioned : ∀ s (f : Mentions → Mentions), Spares f → R.Rel s (s.mapMentions f)
  nested : ∀ {s t : State}, R.Rel { s with depth := s.depth + 1 } t →
    R.Rel s { t with depth := t.depth - 1 }
  withScope : ∀ {s t : State} (span : Span), R.Rel (s.openScope span) t →
    R.Rel s (t.closeScope t.behind)

/-- Whatever a reader comes to, `R` holds between the state before and the state after. -/
class Keeps (R : Frame) (p : Reader α) : Prop where
  holds : ∀ s, R.Rel s (p s).2

namespace Keeps

variable {R : Frame}

/-- A reader that changes nothing. -/
theorem of_eq {p : Reader α} (h : ∀ s, (p s).2 = s) : Keeps R p := ⟨fun s => (h s).symm ▸ R.refl s⟩

instance (a : α) : Keeps R (pure a : Reader α) := of_eq fun _ => rfl

instance : Keeps R (fail : Reader α) := of_eq fun _ => rfl

instance (f : State → α) : Keeps R (get f) := of_eq fun _ => rfl

instance bind (p : Reader α) (f : α → Reader β) [hp : Keeps R p] [hf : ∀ a, Keeps R (f a)] :
    Keeps R (p >>= f) := by
  refine ⟨fun s => ?_⟩
  have hkeeps := hp.holds s
  rcases hs : p s with ⟨_ | a, t⟩ <;> rw [hs] at hkeeps
  · rw [bind_none hs]
    exact hkeeps
  · rw [bind_some hs]
    exact R.trans hkeeps ((hf a).holds t)

instance ite (c : Prop) [Decidable c] (p q : Reader α) [Keeps R p] [Keeps R q] :
    Keeps R (if c then p else q) := by
  split <;> infer_instance

instance attempt (p : Reader α) [hp : Keeps R p] : Keeps R (attempt p) := ⟨fun s => hp.holds s⟩

instance ofOption (o : Option α) : Keeps R (ofOption o) := by
  cases o <;> exact of_eq fun _ => rfl

instance : Keeps R kind := inferInstanceAs (Keeps R (get _))

instance : Keeps R here := inferInstanceAs (Keeps R (get _))

instance : Keeps R behind := inferInstanceAs (Keeps R (get _))

instance (k : Kind) : Keeps R (check k) := inferInstanceAs (Keeps R (get _))

instance : Keeps R advance := ⟨R.advance⟩

instance (fault : Fault) (span : Span) : Keeps R (report fault span) := ⟨fun s => R.report s _⟩

instance (span : Span) (fault : Fault) : Keeps R (rejectAt span fault : Reader α) := by
  unfold rejectAt
  infer_instance

instance (fault : Fault) : Keeps R (reject fault : Reader α) := by
  unfold reject
  infer_instance

instance (k : Kind) : Keeps R (eat k) := by
  unfold eat
  infer_instance

instance (k : Kind) : Keeps R (expect k) := by
  unfold expect
  infer_instance

instance : Keeps R identifier := by
  unfold identifier
  refine @bind _ _ R _ _ _ fun k => ?_
  split <;> infer_instance

instance : Keeps R path := by
  unfold path
  refine @bind _ _ R _ _ _ fun k => ?_
  split <;> infer_instance

/-- Skipping is advancing again and again. -/
theorem skipOver (p : Kind → Bool) (s : State) (ts : List Token) : R.Rel s (s.skipOver p ts).2 := by
  induction ts generalizing s with
  | nil => exact R.refl s
  | cons t ts ih =>
    unfold State.skipOver
    split
    · exact R.trans (R.advance s) (ih s.advance)
    · exact R.refl s

instance (p : Kind → Bool) : Keeps R (skip p) := ⟨fun s => skipOver p s s.ahead⟩

instance : Keeps R continuation := by
  unfold continuation
  infer_instance

instance : Keeps R separators := by
  unfold separators
  infer_instance

instance : Keeps R synchronize := by
  unfold synchronize
  infer_instance

instance : Keeps R terminator := by
  unfold terminator
  infer_instance

instance (word : Keyword) (opener : Span) : Keeps R (blockEnd word opener) := by
  unfold blockEnd
  infer_instance

instance : Keeps R atValueDirective := inferInstanceAs (Keeps R (get _))

instance : Keeps R directiveName := by
  unfold directiveName
  refine @bind _ _ R _ _ _ fun start => @bind _ _ R _ _ _ fun k => ?_
  split <;> infer_instance

instance (start : Span) : Keeps R (directiveEnd start) := by
  unfold directiveEnd
  infer_instance

instance : Keeps R fromWord := by
  unfold fromWord
  refine @bind _ _ R _ _ _ fun k => ?_
  split <;> infer_instance

/-! ## The grammar -/

variable [R.Lasting]

instance nested (p : Reader α) [hp : Keeps R p] : Keeps R (nested p) := by
  refine ⟨fun s => ?_⟩
  unfold Reader.nested
  split
  · exact (inferInstance : Keeps R (reject .nestedTooDeep : Reader α)).holds s
  · exact Frame.Lasting.nested (hp.holds _)

instance (name : String) : Keeps R (mention name) := ⟨fun s => Frame.Lasting.mention s name⟩

instance (f : Mentions → Mentions) [hf : Spares f] : Keeps R (mentioned f) :=
  ⟨fun s => Frame.Lasting.mentioned s f hf⟩

instance withScope (span : Span) (p : Reader α) [hp : Keeps R p] : Keeps R (withScope span p) := by
  refine ⟨fun s => ?_⟩
  have hscope := Frame.Lasting.withScope span (hp.holds (s.openScope span))
  simp only [Reader.withScope, Bind.bind, Reader.update, Reader.attempt]
  cases (p (s.openScope span)).1 <;> exact hscope

/-! Each reader of the grammar keeps `R`, if the readers it is given do. -/

variable [Item α]

instance joinLeft (ops : List BinaryOp) (p : Reader Expr) [Keeps R p] (n : Nat) (left : Expr) :
    Keeps R (joinLeft ops p n left) := by
  induction n generalizing left with
  | zero => exact inferInstanceAs (Keeps R fail)
  | succ n ih =>
    unfold Reader.joinLeft
    refine @bind _ _ R _ _ _ fun k => ?_
    split <;> infer_instance

instance level (n : Nat) (ops : List BinaryOp) (p : Reader Expr) [Keeps R p] :
    Keeps R (level n ops p) := by
  unfold Reader.level
  infer_instance

instance levels (n : Nat) (table : List (List BinaryOp)) (p : Reader Expr) [Keeps R p] :
    Keeps R (levels n table p) := by
  induction table with
  | nil => assumption
  | cons ops table ih => exact level n ops (Reader.levels n table p)

instance items (close : Kind) (item : Reader α) [Keeps R item] (n : Nat) (pending : List Comment) :
    Keeps R (items close item n pending) := by
  induction n generalizing pending with
  | zero => exact inferInstanceAs (Keeps R fail)
  | succ n ih =>
    unfold Reader.items
    infer_instance

instance sequence (n : Nat) (close : Kind) (item : Reader α) [Keeps R item] :
    Keeps R (sequence n close item) := by
  unfold Reader.sequence
  infer_instance

instance bracketed (n : Nat) (close : Symbol) (item : Reader α) [Keeps R item] :
    Keeps R (bracketed n close item) := by
  unfold Reader.bracketed
  infer_instance

instance (callee : Expr) (args : List Expr) (span : Span) (inner : List Comment) :
    Keeps R (call callee args span inner) := by
  unfold call
  split <;> infer_instance

instance unlessAt (k : Kind) (p : Reader α) [Keeps R p] : Keeps R (unlessAt k p) := by
  unfold Reader.unlessAt
  infer_instance

instance sliceEnd (k : Kind) (p : Reader Expr) [Keeps R p] (loose : List Comment) :
    Keeps R (sliceEnd k p loose) := by
  unfold Reader.sliceEnd
  infer_instance

instance slice (p : Reader Expr) [Keeps R p] (base : Expr) (start : Option Expr)
    (loose : List Comment) : Keeps R (slice p base start loose) := by
  unfold Reader.slice
  infer_instance

instance (base : Expr) (e : Option Expr) : Keeps R (index base e) := by
  cases e <;> unfold index <;> infer_instance

instance subscript (p : Reader Expr) [Keeps R p] (base : Expr) : Keeps R (subscript p base) := by
  unfold Reader.subscript
  infer_instance

instance suffixes (p : Reader Expr) [Keeps R p] (n : Nat) (base : Expr) :
    Keeps R (suffixes p n base) := by
  induction n generalizing base with
  | zero => exact inferInstanceAs (Keeps R fail)
  | succ n ih =>
    unfold Reader.suffixes
    refine @bind _ _ R _ _ _ fun k => ?_
    split <;> infer_instance

instance (value : Literal) : Keeps R (literal value) := by
  unfold literal
  infer_instance

instance (start : Span) (operand : Expr) : Keeps R (negative start operand) := by
  unfold negative
  split <;> infer_instance

instance parenthesized (p : Reader Expr) [Keeps R p] : Keeps R (parenthesized p) := by
  unfold Reader.parenthesized
  infer_instance

instance list (n : Nat) (p : Reader Expr) [Keeps R p] : Keeps R (list n p) := by
  unfold Reader.list
  infer_instance

instance entry (p : Reader Expr) [Keeps R p] : Keeps R (entry p) := by
  unfold Reader.entry
  infer_instance

instance mapOf (n : Nat) (p : Reader Expr) [Keeps R p] : Keeps R (Reader.map n p) := by
  unfold Reader.map
  infer_instance

instance param (p : Reader Expr) [Keeps R p] : Keeps R (param p) := by
  unfold Reader.param
  infer_instance

instance params (n : Nat) (p : Reader Expr) [Keeps R p] : Keeps R (params n p) := by
  unfold Reader.params
  infer_instance

instance function (n : Nat) (p : Reader Expr) (block : Reader Block) [Keeps R p] [Keeps R block] :
    Keeps R (function n p block) := by
  unfold Reader.function
  infer_instance

instance (start : Span) (name : String) : Keeps R (directiveValue start name) := by
  unfold directiveValue
  split <;> infer_instance

instance : Keeps R valueDirective := by
  unfold valueDirective
  infer_instance

instance directiveStmt (start : Span) (name : String) : Keeps R (directiveStmt start name) := by
  unfold Reader.directiveStmt
  split <;> infer_instance

instance : Keeps R statementDirective := by
  unfold statementDirective
  infer_instance

instance commandArgs (p : Reader Expr) [Keeps R p] (n : Nat) (first : Expr) :
    Keeps R (commandArgs p n first) := by
  induction n generalizing first with
  | zero => exact inferInstanceAs (Keeps R fail)
  | succ n ih =>
    unfold Reader.commandArgs
    infer_instance

instance command (n : Nat) (p : Reader Expr) [Keeps R p] (callee : Expr) :
    Keeps R (command n p callee) := by
  unfold Reader.command
  infer_instance

instance simpleRest (n : Nat) (p : Reader Expr) [Keeps R p] (e : Expr) :
    Keeps R (simpleRest n p e) := by
  unfold Reader.simpleRest
  refine @bind _ _ R _ _ _ fun k => ?_
  split <;> infer_instance

instance simple (n : Nat) (p : Reader Expr) [Keeps R p] : Keeps R (simple n p) := by
  unfold Reader.simple
  infer_instance

instance return_ (p : Reader Expr) [Keeps R p] : Keeps R (return_ p) := by
  unfold Reader.return_
  infer_instance

instance while_ (p : Reader Expr) (block : Reader Block) [Keeps R p] [Keeps R block] :
    Keeps R (while_ p block) := by
  unfold Reader.while_
  infer_instance

instance for_ (p : Reader Expr) (block : Reader Block) [Keeps R p] [Keeps R block] :
    Keeps R (for_ p block) := by
  unfold Reader.for_
  infer_instance

instance clausesAfter (p : Reader Expr) (block : (Kind → Bool) → Reader Block)
    (more : Span → Expr → Reader (List Clause × Option Block)) [Keeps R p]
    [∀ stop, Keeps R (block stop)] [∀ start condition, Keeps R (more start condition)] :
    Keeps R (clausesAfter p block more) := by
  unfold Reader.clausesAfter
  infer_instance

instance clauses (p : Reader Expr) (block : (Kind → Bool) → Reader Block) [Keeps R p]
    [∀ stop, Keeps R (block stop)] (n : Nat) (start : Span) (condition : Expr) :
    Keeps R (clauses p block n start condition) := by
  induction n generalizing start condition with
  | zero => exact inferInstanceAs (Keeps R fail)
  | succ n ih =>
    unfold Reader.clauses
    infer_instance

instance inlineRest (stmt : Reader Stmt) [Keeps R stmt] : Keeps R (inlineRest stmt) := by
  unfold Reader.inlineRest
  infer_instance

instance inlineIf (stmt : Reader Stmt) [Keeps R stmt] (start : Span) (condition : Expr) :
    Keeps R (inlineIf stmt start condition) := by
  unfold Reader.inlineIf
  infer_instance

instance if_ (n : Nat) (p : Reader Expr) (block : (Kind → Bool) → Reader Block)
    (stmt : Reader Stmt) [Keeps R p] [∀ stop, Keeps R (block stop)] [Keeps R stmt] :
    Keeps R (if_ n p block stmt) := by
  unfold Reader.if_
  infer_instance

instance line (stmt : Reader Stmt) [Keeps R stmt] : Keeps R (line stmt) := by
  unfold Reader.line
  refine @bind _ _ R _ _ _ fun k => ?_
  split <;> infer_instance

instance statements (stop : Kind → Bool) (next : Reader (Option Stmt)) [Keeps R next] (n : Nat) :
    Keeps R (statements stop next n) := by
  induction n with
  | zero => exact inferInstanceAs (Keeps R fail)
  | succ n ih =>
    unfold Reader.statements
    infer_instance

instance blockOf (n : Nat) (stmt : Reader Stmt) [Keeps R stmt] (stop : Kind → Bool) :
    Keeps R (blockOf n stmt stop) := by
  unfold Reader.blockOf
  infer_instance

instance topLine (stmt : Reader Stmt) [Keeps R stmt] : Keeps R (topLine stmt) := by
  unfold Reader.topLine
  infer_instance

/-- What holds of the grammar with less of a bound holds with more. -/
theorem grammar (n : Nat) : Keeps R (expression n) ∧ Keeps R (negation n) ∧ Keeps R (unary n) ∧
    Keeps R (address n) ∧ Keeps R (primary n) ∧ Keeps R (statement n) := by
  induction n with
  | zero => exact ⟨inferInstanceAs (Keeps R fail), inferInstanceAs (Keeps R fail),
      inferInstanceAs (Keeps R fail), inferInstanceAs (Keeps R fail), inferInstanceAs (Keeps R fail),
      inferInstanceAs (Keeps R fail)⟩
  | succ n ih =>
    obtain ⟨hexpr, hneg, hun, haddr, hprim, hstmt⟩ := ih
    refine ⟨?_, ?_, ?_, ?_, ?_, ?_⟩
    · unfold expression
      infer_instance
    · unfold negation
      infer_instance
    · unfold unary
      refine @bind _ _ R _ _ _ fun k => ?_
      split <;> infer_instance
    · unfold address
      infer_instance
    · unfold primary
      refine @bind _ _ R _ _ _ fun k => ?_
      split <;> infer_instance
    · unfold statement
      refine @bind _ _ R _ _ _ fun k => ?_
      split <;> infer_instance

instance (n : Nat) : Keeps R (expression n) := (grammar n).1

instance (n : Nat) : Keeps R (negation n) := (grammar n).2.1

instance (n : Nat) : Keeps R (unary n) := (grammar n).2.2.1

instance (n : Nat) : Keeps R (address n) := (grammar n).2.2.2.1

instance (n : Nat) : Keeps R (primary n) := (grammar n).2.2.2.2.1

instance (n : Nat) : Keeps R (statement n) := (grammar n).2.2.2.2.2

end Keeps

/-! ## Faults -/

namespace Grows

theorem faults_advance (s : State) : s.advance.faults = s.faults := by
  unfold State.advance
  split <;> rfl

theorem faults_skipOver (p : Kind → Bool) (s : State) (ts : List Token) :
    (s.skipOver p ts).2.faults = s.faults := by
  induction ts generalizing s with
  | nil => rfl
  | cons t ts ih =>
    unfold State.skipOver
    split
    · exact (ih s.advance).trans (faults_advance s)
    · rfl

theorem faults_mention (s : State) (name : String) : (s.mention name).faults = s.faults := by
  unfold State.mention
  split <;> rfl

theorem faults_closeScope (s : State) (stop : Span) : (s.closeScope stop).faults = s.faults := by
  unfold State.closeScope
  split <;> rfl

theorem prefix_of_eq {s t : State} (h : t.faults = s.faults) : s.faults <+: t.faults :=
  ⟨[], (List.append_nil _).trans h.symm⟩

end Grows

open Grows (prefix_of_eq)

/-- Faults are only added. -/
def Frame.faults : Frame where
  Rel s t := s.faults <+: t.faults
  refl s := s.faults.prefix_refl
  trans := List.IsPrefix.trans
  advance s := prefix_of_eq (Grows.faults_advance s)
  report _ _ := List.prefix_append ..

instance : Frame.faults.Lasting where
  mention s x := prefix_of_eq (Grows.faults_mention s x)
  mentioned s _ _ := s.faults.prefix_refl
  nested h := h
  withScope _ h := List.IsPrefix.trans h (prefix_of_eq (Grows.faults_closeScope ..))

/-- Whatever a reader comes to, the faults found before it stay. -/
abbrev Grows (p : Reader α) : Prop := Keeps .faults p

namespace Grows

/-- A reader that grows loses no fault. -/
theorem keeps {p : Reader α} (h : Grows p) : ∀ s, s.faults <+: (p s).2.faults := h.holds

/-- A change that leaves the faults. -/
theorem update {f : State → State} (h : ∀ s, (f s).faults = s.faults) : Grows (update f) :=
  ⟨fun s => prefix_of_eq (h s)⟩

instance closeScope (f : State → Span) : Grows (Reader.update fun s => s.closeScope (f s)) :=
  update fun s => faults_closeScope s (f s)

end Grows

/-! ## Records -/

/-- From `s` to `t`, reading has come back to the level it was on.  As many expressions and the same scopes
are open, every scope on record is in its place, and none but the innermost open one has changed, to which
names may be added. -/
structure Balanced (s t : State) : Prop where
  depth : t.depth = s.depth
  openScopes : t.openScopes = s.openScopes
  scopes : ∀ i sc, s.mentions.scopes[i]? = some sc → ∃ sc', t.mentions.scopes[i]? = some sc' ∧
    sc'.span = sc.span ∧ sc.identifiers <+: sc'.identifiers ∧ (s.openScopes.head? ≠ some i → sc' = sc)

namespace Balanced

theorem of_scopes {s t : State} (hdepth : t.depth = s.depth) (hopen : t.openScopes = s.openScopes)
    (h : t.mentions.scopes = s.mentions.scopes) : Balanced s t :=
  ⟨hdepth, hopen, fun _ sc hsc => ⟨sc, h ▸ hsc, rfl, List.prefix_refl _, fun _ => rfl⟩⟩

/-- Being back on a level, again. -/
theorem trans {s t u : State} (h : Balanced s t) (h' : Balanced t u) : Balanced s u := by
  refine ⟨h'.depth.trans h.depth, h'.openScopes.trans h.openScopes, fun i sc hsc => ?_⟩
  obtain ⟨sc', hsc', hspan, hnames, hsame⟩ := h.scopes i sc hsc
  obtain ⟨sc'', hsc'', hspan', hnames', hsame'⟩ := h'.scopes i sc' hsc'
  exact ⟨sc'', hsc'', hspan'.trans hspan, hnames.trans hnames', fun hi =>
    (hsame' (h.openScopes ▸ hi)).trans (hsame hi)⟩

/-- Naming something stays on the level. -/
theorem mention (s : State) (x : String) : Balanced s (s.mention x) := by
  unfold State.mention
  split
  · exact of_scopes rfl rfl rfl
  · rename_i i is hopen
    refine ⟨rfl, rfl, fun j sc hsc => ?_⟩
    show ∃ sc', (s.mentions.scopes.modify i (·.add x))[j]? = some sc' ∧ _
    by_cases hij : i = j
    · subst hij
      refine ⟨sc.add x, by rw [List.getElem?_modify_eq, hsc]; rfl, ?_⟩
      rw [hopen, Scope.add]
      split
      · exact ⟨rfl, List.prefix_refl _, fun _ => rfl⟩
      · exact ⟨rfl, List.prefix_append .., fun h => absurd rfl h⟩
    · exact ⟨sc, (List.getElem?_modify_ne _ _ hij).trans hsc, rfl, List.prefix_refl _, fun _ => rfl⟩

/-- A scope that was opened and closed has changed none of those before it. -/
theorem withScope {s t : State} (span stop : Span) (h : Balanced (s.openScope span) t) :
    Balanced s (t.closeScope stop) := by
  have hopen : t.openScopes = s.mentions.scopes.length :: s.openScopes := h.openScopes
  rw [State.closeScope, hopen]
  refine ⟨h.depth, rfl, fun i sc hsc => ?_⟩
  have hi : i < s.mentions.scopes.length := (List.getElem?_eq_some_iff.mp hsc).1
  have hbefore : (s.openScope span).mentions.scopes[i]? = some sc :=
    (List.getElem?_append_left hi).trans hsc
  have houter : (s.openScope span).openScopes.head? ≠ some i := fun heq =>
    Nat.ne_of_gt hi (Option.some.inj heq)
  obtain ⟨sc', hsc', -, -, hsame⟩ := h.scopes i sc hbefore
  obtain rfl := hsame houter
  exact ⟨sc', (List.getElem?_modify_ne _ _ (Nat.ne_of_gt hi)).trans hsc', rfl, List.prefix_refl _,
    fun _ => rfl⟩

end Balanced

/-- Reading comes back to the level it was on. -/
def Frame.balance : Frame where
  Rel := Balanced
  refl _ := .of_scopes rfl rfl rfl
  trans := .trans
  advance s := by
    unfold State.advance
    split <;> exact .of_scopes rfl rfl rfl
  report _ _ := .of_scopes rfl rfl rfl

/-- **Every expression and every scope is left again.** -/
instance : Frame.balance.Lasting where
  mention := .mention
  mentioned s _ hf := .of_scopes rfl rfl (hf.scopes s.mentions)
  nested h := ⟨congrArg (· - 1) h.depth, h.openScopes, h.scopes⟩
  withScope span h := h.withScope span _

end ScriptBundler.Reader

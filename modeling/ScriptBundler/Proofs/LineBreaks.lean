import ScriptBundler.Proofs.Abreast

/-!
# Proofs/LineBreaks — a line may break where nothing else is meant

    f(a, ⏎ b)  ≡  f(a, b)          a = (b ⏎ + c)   is a fault

Statements stand at spots that are flat: no break is more there, unless something is closed that was
not opened, which is a fault.  So readers of statements, lines and blocks go side by side as those of
expressions do, and the grammar does by induction on its bound (`gliding`).  For a whole script this
gives `Script.ofTokens_break`: a break is insignificant wherever `Spot.allows` it, and inside brackets
nowhere else.
-/

namespace ScriptBundler

open Token (Kind)

namespace Reader

variable {α β : Type} {nl : Token} {c d e : Spot} {k : Kind} {s s' t t' u u' : State}

/-! ## Statements -/

/-- A statement that started at `c` ends at `t`, where the spot is `d`.  If a minus follows, it takes
no operand from a statement that brought its own end. -/
structure Sealed (c d : Spot) (t : State) : Prop where
  enclosures : d.enclosures = c.enclosures
  goesOn : d.goesOn = false
  fresh : d.Fresh t.current.kind
  minus : t.current.kind = .symbol .minus → d.operand = true →
    t.previous.map Token.kind ≠ some (.symbol .semicolon)

/-- What follows an expression is no operator that it could have taken. -/
def NoMinus (k : Kind) : Prop := k ≠ .symbol .minus

/-- As `Glides`, for a statement. -/
def Strides (nl : Token) (N : Nat) (p : Reader Stmt) : Prop :=
  ∀ (c : Spot) (s s' : State), s.tokens.length ≤ N → Clear nl c s s' → c.Flat →
    c.Starts s.current.kind → Pairs p s s' fun _ t t' => Spot.tight s.current.kind = true ∧
      ∃ d, Sealed c d t ∧ Passed nl c s d t t'

/-- As `Glides`, for a block. -/
def Blocks (nl : Token) (N : Nat) (p : Reader Block) : Prop :=
  ∀ (c : Spot) (s s' : State), s.tokens.length ≤ N → Beside nl c s s' → c.Flat →
    c.Starts s.current.kind → Pairs p s s' fun _ t t' => ∃ d, d.enclosures = c.enclosures ∧
      Clear nl d t t' ∧ Leads c s d t

/-- As `Glides`, for a line. -/
def Lines (nl : Token) (N : Nat) (p : Reader (Option Stmt)) : Prop :=
  ∀ (c : Spot) (s s' : State), s.tokens.length ≤ N → Clear nl c s s' → c.Flat →
    c.Starts s.current.kind → s.current.kind ≠ .eof →
    Pairs p s s' fun _ t t' => Spot.closes s.current.kind = false ∧
      ∃ d, d.Flat ∧ d.enclosures = c.enclosures ∧ d.Starts t.current.kind ∧ Passed nl c s d t t'

/-- Blocks stop before words that close nothing but blocks. -/
def BlockStop (stop : Kind → Bool) : Prop := ∀ k, stop k = true → Spot.closes k = false

theorem blockStop_isCloser : BlockStop isCloser := by
  intro k hk
  unfold isCloser at hk
  split at hk
  · rfl
  · rfl
  · cases hk

theorem blockStop_eq (word : Keyword) : BlockStop (· == .keyword word) := by
  intro k hk
  rw [beq_iff_eq.mp hk]
  rfl

theorem Sealed.of_reset (h : d.enclosures = c.enclosures) : Sealed c d.reset t :=
  ⟨h, rfl, Spot.fresh_of_plain rfl, fun _ hoperand => absurd hoperand (by simp [Spot.reset])⟩

/-- A statement may end with an expression before anything but a minus. -/
theorem Sealed.of_ended (h : Spot.Ended c d t.current.kind) (hk : t.current.kind ≠ .symbol .minus) :
    Sealed c d t := ⟨h.enclosures, h.goesOn, h.fresh, fun hminus => absurd hminus hk⟩

theorem Sealed.still (h : Sealed c d s) (hstill : Still s t) : Sealed c d t := by
  obtain ⟨henclosures, hgo, hfresh, hminus⟩ := h
  rw [← hstill.current] at hfresh hminus
  rw [← hstill.previous] at hminus
  exact ⟨henclosures, hgo, hfresh, hminus⟩

/-- The two words that close a block. -/
theorem Pairs.blockEnd (word : Keyword) (opener : Span) (hclear : Clear nl c s s') :
    Pairs (blockEnd word opener) s s' fun _ t t' =>
      Passed nl c s (c.closing.step (.keyword word)) t t' := by
  refine .check (hclear.sees _) (fun hend => ?_) fun _ => ?_
  · rw [if_pos rfl]
    refine .advance hclear hend (by simp) (by simp) fun t t' hpassed => ?_
    refine .bind (.expect (by simp) (by simp) (hpassed.beside.sees rfl rfl)) ?_
    rintro a u u' ⟨-, -, hword⟩
    exact .pure (hpassed.trans hword.toArrives)
  · rw [if_neg Bool.false_ne_true]
    exact .kind hclear (.reject _)

namespace Glides

variable {P : Kind → Prop} {N n : Nat} {expr : Reader Expr} [Grows expr]

/-- The parameters of a function. -/
theorem params (hp : Glides nl P N expr) (n : Nat) (hN : s.tokens.length ≤ N)
    (hb : Beside nl c.begun s s') :
    Pairs (params n expr) s s' fun _ t t' => ∃ d, d.enclosures = c.begun.enclosures ∧
      d.goesOn = false ∧ d.Starts t.current.kind ∧ Arrives nl c.begun s d t t' := by
  refine .eat (by simp) (by simp) (hb.sees rfl rfl) (fun t t' _ hpassed => ?_) fun hne => ?_
  · have hlen := hpassed.shorter
    refine (bracketed Spot.closer_closeParen (param hp) n (by omega) hpassed.beside
      (c.begun.opened_awaits .params) rfl).mono fun _ u u' hclosed => ?_
    exact ⟨c.begun.reset, rfl, rfl, Spot.reset_starts _ _, (hpassed.trans hclosed.toArrives).toArrives⟩
  · exact .pure ⟨c.begun, rfl, rfl, Spot.begun_starts hne, hb, .refl _ _⟩

/-- **A function**. -/
theorem function {block : Reader Block} [Grows block] (hp : Glides nl P N expr)
    (hblock : Blocks nl N block) (n : Nat) (hN : s.tokens.length ≤ N + 1) (hclear : Clear nl c s s')
    (hstarts : c.Starts s.current.kind) (hword : s.current.kind = .keyword .function) :
    Pairs (function n expr block) s s' fun _ t t' => ∃ d, Read nl c s d t t' := by
  refine .advance hclear hword (by simp) (by simp) fun t t' hpassed => ?_
  rw [Spot.step_function (hword ▸ hstarts.fresh)] at hpassed
  have hlen := hpassed.shorter
  refine Pairs.mono (Pairs.withScope (X := fun d _ => d = c.ended) c s hpassed.beside _
    fun u u' _ hopened => ?_) ?_
  · have hlen' := hopened.leads.length
    refine .bind (params hp n (by omega) hopened.beside) ?_
    rintro ⟨params, inner⟩ v v' ⟨d, henclosures, hgo, hstarts', hparams⟩
    have hlen'' := hparams.leads.length
    refine .bind (hblock d v v' (by omega) hparams.beside ?_ hstarts') ?_
    · exact ⟨hgo, by rw [Spot.inBrackets, henclosures]; rfl⟩
    rintro body w w' ⟨e, henclosures', hclear', hleads⟩
    refine .bind (.blockEnd .function _ hclear') ?_
    intro stop x x' hclosed
    have hspot : e.closing.step (.keyword .function) = c.ended := by
      simp [Spot.step, Spot.stepKeyword, Spot.closing, henclosures'.trans henclosures, Spot.begun,
        Spot.ended]
    rw [hspot] at hclosed
    refine .pure ⟨c.ended, rfl, hpassed.trans ?_⟩
    exact ((hopened.passed ((hparams.passed (hclosed.of_leads hleads)))).toArrives)
  · rintro _ u u' ⟨d, rfl, hall⟩
    exact ⟨c.ended, Read.of_ended hall (by rw [hword]; rfl)⟩

end Glides

namespace Strides

/-- Where the line does not go on, a statement starts with a token that is not beside a break. -/
theorem beside {N : Nat} {p : Reader Stmt} (h : Strides nl N p) (hN : s.tokens.length ≤ N)
    (hb : Beside nl c s s') (hflat : c.Flat) (hstarts : c.Starts s.current.kind) :
    Pairs p s s' fun _ t t' => Spot.tight s.current.kind = true ∧
      ∃ d, Sealed c d t ∧ Passed nl c s d t t' := by
  intro a t hrun hfaults
  obtain ⟨_, _, htight, -⟩ := h c s s hN (.refl _ _ hb.toAlike) hflat hstarts a t hrun hfaults
  exact h c s s' hN (hb.tight hflat.goesOn htight) hflat hstarts a t hrun hfaults

/-! ### Directives -/

/-- The end of a directive that is a statement. -/
theorem directiveEnd (start : Span) (hb : Beside nl c.ended s s')
    (hprevious : s.previous.map Token.kind ≠ some (.symbol .semicolon)) :
    Pairs (directiveEnd start) s s' fun _ t t' => ∃ d, Sealed c d t ∧ Arrives nl c.ended s d t t' := by
  refine (Glides.directiveEnd start hb rfl).mono ?_
  rintro span t t' (⟨rfl, rfl, -⟩ | hsemicolon)
  · exact ⟨c.ended, ⟨rfl, rfl, Spot.fresh_of_plain rfl, fun _ _ => hprevious⟩, hb, .refl _ _⟩
  · exact ⟨c.reset, .of_reset rfl, hsemicolon.toArrives⟩

theorem fromWord (hb : Beside nl c.ended s s') :
    Pairs fromWord s s' fun _ t t' => Arrives nl c.ended s c.ended t t' := by
  refine .kind_tight (hb.tight rfl) (fun hno => ?_) fun hclear => ?_
  · split
    · rename_i hfrom
      rw [hfrom] at hno
      cases hno
    · rfl
  · split
    · rename_i hfrom
      exact .advance hclear hfrom (by simp) (by simp) fun t t' hpassed => .pure hpassed.toArrives
    · exact .reject _

/-- What follows the word of a directive. -/
theorem directiveStmt (start : Span) (name : String) (hb : Beside nl (c.directed name) s s')
    (hprevious : s.previous.map Token.kind ≠ some (.symbol .semicolon)) :
    Pairs (directiveStmt start name) s s' fun _ t t' => ∃ d, Sealed c d t ∧
      Arrives nl (c.directed name) s d t t' := by
  unfold Reader.directiveStmt
  split
  · refine .bind (.identifier (hb.tight rfl)) ?_
    rintro bound t t' ⟨-, hbound⟩
    refine .bind (fromWord (c := c) hbound.beside) fun _ u u' hfrom => ?_
    refine .bind (.path (hfrom.beside.tight rfl)) ?_
    rintro target v v' ⟨raw, value, hprevious', hpath⟩
    refine .bind (directiveEnd (c := c) start hpath.beside (by rw [hprevious']; simp)) ?_
    rintro span w w' ⟨d, hsealed, hend⟩
    refine .mention hend.beside _ fun x x' hstill hx => ?_
    refine .mentioned hx.beside _ fun y y' hstill' hy => .pure ⟨d, ?_, ?_⟩
    · exact hsealed.still (hstill.trans hstill')
    · exact ⟨hy.beside, hbound.leads.trans (hfrom.leads.trans (hpath.leads.trans (hend.leads.trans
        (hx.leads.trans hy.leads))))⟩
  · refine .bind (.path (hb.tight rfl)) ?_
    rintro target v v' ⟨raw, value, hprevious', hpath⟩
    refine .bind (directiveEnd (c := c) start hpath.beside (by rw [hprevious']; simp)) ?_
    rintro span w w' ⟨d, hsealed, hend⟩
    refine .mentioned hend.beside _ fun x x' hstill hx => .pure ⟨d, hsealed.still hstill, hx.beside, ?_⟩
    exact hpath.leads.trans (hend.leads.trans hx.leads)
  · refine .bind (directiveEnd (c := c) start hb hprevious) ?_
    rintro span w w' ⟨d, hsealed, hend⟩
    exact .pure ⟨d, hsealed, hend⟩
  · exact .get hb.behind (.rejectAt _ _)

/-- A directive on its own line. -/
theorem statementDirective (hclear : Clear nl c s s') (hhash : s.current.kind = .symbol .hash) :
    Pairs statementDirective s s' fun _ t t' => ∃ d, Sealed c d t ∧ Passed nl c s d t t' := by
  refine .bind (Glides.directiveName hclear hhash) ?_
  rintro ⟨start, name⟩ t t' ⟨hprevious, hpassed⟩
  refine (directiveStmt start name hpassed.beside (by rw [hprevious]; simp)).mono ?_
  rintro stmt u u' ⟨d, hsealed, harrives⟩
  exact ⟨d, hsealed, hpassed.trans harrives⟩

/-! ### Assignments and calls -/

section Simple

variable {N n : Nat} {expr : Reader Expr} [Grows expr]

/-- Arguments of a call without parentheses. -/
theorem commandArgs (hp : Glides nl NoMinus N expr) (n : Nat) (first : Expr) (hN : s.tokens.length ≤ N)
    (hflat : c.Flat) (hread : Read nl c s d t t') (hk : NoMinus t.current.kind) :
    Pairs (commandArgs expr n first) t t' fun _ u u' => NoMinus u.current.kind ∧
      ∃ e, Read nl c s e u u' := by
  induction n generalizing first d t t' with
  | zero => exact .fail
  | succ n ih =>
    have hcomma : d.allows (.symbol .comma) = false := (hread.ended.flat hflat).allows _
    refine .eat (by simp) (by simp) (hread.beside.sees_of_allows hcomma (by simp))
      (fun u u' _ hpassed => ?_) fun _ => .pure ⟨hk, d, hread⟩
    have hlen := hread.shorter
    have hlen' := hpassed.shorter
    refine hp.awaited (by omega) hpassed.beside d.onward_awaits
      fun comments next e v v' hkind hended hnext => ?_
    have hall := hread.trans (hpassed.trans hnext.toArrives).toArrives (hended.of_eq rfl)
    exact .bind (ih _ hall hkind) fun _ _ _ hrest => .pure hrest

theorem kind_of_assignOp? {op : AssignOp} (h : assignOp? k = some op) : k = .symbol op.symbol := by
  unfold assignOp? at h
  split at h
  · have hsymbol := List.find?_some h
    rw [beq_iff_eq.mp hsymbol]
  · cases h

theorem tight_of_startsArgument (h : startsArgument k = true) : Spot.tight k = true := by
  cases k with
  | symbol sign => cases sign <;> simp [startsArgument] at h <;> rfl
  | _ => first | rfl | simp [startsArgument] at h

/-- What follows the expression a statement starts with. -/
theorem simpleRest (hp : Glides nl NoMinus N expr) (n : Nat) (e : Expr) (hN : s.tokens.length ≤ N)
    (hflat : c.Flat) (hread : Read nl c s d t t') (hk : NoMinus t.current.kind) :
    Pairs (simpleRest n expr e) t t' fun _ u u' => ∃ f, Sealed c f u ∧ Passed nl c s f u u' := by
  have hlen := hread.shorter
  have hstays : ∃ f, Sealed c f t ∧ Passed nl c s f t t' :=
    ⟨d, .of_ended hread.ended hk, hread.toPassed⟩
  refine .of_stays ⟨.expr e, e.span⟩ hread.beside hread.ended.goesOn (fun hclear => .kind hclear ?_)
    (fun v hv => .kind ?_) fun _ => hstays
  · split
    · rename_i op hop
      split
      · have hassign : d.step (.symbol op.symbol) = d.reset := by cases op <;> rfl
        refine .advance hclear (kind_of_assignOp? hop) (by simp) (by simp) fun u u' hpassed => ?_
        rw [hassign] at hpassed
        have hlen' := hpassed.shorter
        refine .bind (hp.beside (by omega) hpassed.beside rfl (d.reset_starts _)) ?_
        rintro value v v' ⟨hkind, f, hvalue⟩
        have hall := hread.trans (hpassed.trans hvalue.toArrives).toArrives (hvalue.ended.of_eq rfl)
        exact .pure ⟨f, .of_ended hall.ended hkind, hall.toPassed⟩
      · exact .rejectAt _ _
    · refine .kind hclear ?_
      split
      · refine .bind (hp.beside (by omega) hread.beside hread.ended.goesOn (hread.ended.starts hk)) ?_
        rintro first u u' ⟨hkind, f, hfirst⟩
        have hargs := hread.trans hfirst.toArrives hfirst.ended
        refine .bind (commandArgs hp n first hN hflat hargs hkind) ?_
        rintro args v v' ⟨hkind', g, hargs⟩
        refine .bind (Glides.call _ _ _ _ hargs.beside) ?_
        rintro e' w w' ⟨hstill, harrives⟩
        have hall := hargs.still hstill harrives
        exact .pure ⟨g, .of_ended hall.ended (hstill.current ▸ hkind'), hall.toPassed⟩
      · exact .pure hstays
  · have hassign : assignOp? v.current.kind = none := by
      by_contra hsome
      obtain ⟨op, hop⟩ := Option.ne_none_iff_exists'.mp hsome
      rw [kind_of_assignOp? hop] at hv
      cases op <;> cases hv
    have hargument : startsArgument v.current.kind = false := by
      by_contra hstarts
      rw [tight_of_startsArgument (Bool.not_eq_false _ ▸ hstarts)] at hv
      cases hv
    rw [hassign]
    refine .kind ?_
    rw [hargument, Bool.false_and]
    rfl

/-- A statement that starts with an expression. -/
theorem simple (hp : Glides nl NoMinus N expr) (n : Nat) : Strides nl N (simple n expr) := by
  intro c s s' hN hclear hflat hstarts
  refine .bind (hp c s s' hN hclear hstarts) ?_
  rintro e t t' ⟨hk, d, hread⟩
  exact (simpleRest hp n e hN hflat hread hk).mono fun _ _ _ hsealed => ⟨hread.tight, hsealed⟩

theorem return_ (hp : Glides nl NoMinus N expr) (hN : s.tokens.length ≤ N + 1)
    (hclear : Clear nl c s s') (hflat : c.Flat) (hword : s.current.kind = .keyword .return_) :
    Pairs (return_ expr) s s' fun _ t t' => ∃ d, Sealed c d t ∧ Passed nl c s d t t' := by
  refine .advance hclear hword (by simp) (by simp) fun t t' hpassed => ?_
  have hlen := hpassed.shorter
  cases hcloses : Spot.closes t.current.kind with
  | false =>
    refine .kind (hpassed.beside.flat hflat.reset hcloses) ?_
    split
    · exact .pure ⟨c.reset, .of_reset rfl, hpassed⟩
    · refine .bind (hp.beside (by omega) hpassed.beside rfl (c.reset_starts _)) ?_
      rintro value u u' ⟨hk, d, hvalue⟩
      exact .pure ⟨d, .of_ended (hvalue.ended.of_eq rfl) hk, hpassed.trans hvalue.toArrives⟩
  | true =>
    -- no value starts with what closes, and no statement ends before it
    refine .of_false (.kind (Clear.refl nl c.reset hpassed.beside.toAlike) ?_)
    split
    · rename_i hends
      rw [(Spot.closes_eq_false hcloses).2.2.2] at hends
      cases hends
    · refine .bind (hp c.reset t t (by omega) (.refl _ _ hpassed.beside.toAlike) (c.reset_starts _)) ?_
      rintro value u u' ⟨-, d, hvalue⟩
      rw [Spot.closes_of_tight hvalue.tight] at hcloses
      cases hcloses

end Simple

/-! ### Blocks -/

section Compound

variable {N n : Nat} {expr : Reader Expr} [Grows expr]

/-- A `while` loop. -/
theorem while_ {block : Reader Block} [Grows block] (hp : Glides nl NoMinus N expr)
    (hblock : Blocks nl N block) (hN : s.tokens.length ≤ N + 1) (hclear : Clear nl c s s')
    (hflat : c.Flat) (hword : s.current.kind = .keyword .while_) :
    Pairs (while_ expr block) s s' fun _ t t' => ∃ d, Sealed c d t ∧ Passed nl c s d t t' := by
  refine .advance hclear hword (by simp) (by simp) fun t t' hpassed => ?_
  have hlen := hpassed.shorter
  refine .bind (hp.beside (by omega) hpassed.beside rfl (c.reset_starts _)) ?_
  rintro condition u u' ⟨hk, d, hcondition⟩
  have hlen' := hcondition.shorter
  refine .bind (hblock d u u' (by omega) hcondition.beside (hcondition.ended.flat hflat.reset)
    (hcondition.ended.starts hk)) ?_
  rintro body v v' ⟨e, henclosures, hclear', hleads⟩
  refine .bind (.blockEnd .while_ _ hclear') fun stop w w' hclosed => .pure ⟨e.reset, .of_reset ?_, ?_⟩
  · exact henclosures.trans hcondition.ended.enclosures
  · exact hpassed.trans (hcondition.toPassed.trans (hclosed.of_leads hleads).toArrives).toArrives

/-- A `for` loop. -/
theorem for_ {block : Reader Block} [Grows block] (hp : Glides nl NoMinus N expr)
    (hblock : Blocks nl N block) (hN : s.tokens.length ≤ N + 1) (hclear : Clear nl c s s')
    (hflat : c.Flat) (hword : s.current.kind = .keyword .for_) :
    Pairs (for_ expr block) s s' fun _ t t' => ∃ d, Sealed c d t ∧ Passed nl c s d t t' := by
  refine .advance hclear hword (by simp) (by simp) fun t t' hpassed => ?_
  refine .bind (.identifier (hpassed.beside.tight rfl)) ?_
  rintro item u u' ⟨-, hitem⟩
  refine .mention hitem.beside _ fun v v' _ hv => ?_
  refine .bind (.expect (by simp) (by simp) (hv.beside.sees rfl rfl)) ?_
  rintro a w w' ⟨-, -, hin⟩
  have hhead : Passed nl c s c.reset w w' :=
    hpassed.trans (hitem.trans (hv.passed hin).toArrives).toArrives
  have hlen := hhead.shorter
  refine .bind (hp.beside (by omega) hhead.beside rfl (c.reset_starts _)) ?_
  rintro iterable x x' ⟨hk, d, hiterable⟩
  have hlen' := hiterable.shorter
  refine .bind (hblock d x x' (by omega) hiterable.beside (hiterable.ended.flat hflat.reset)
    (hiterable.ended.starts hk)) ?_
  rintro body y y' ⟨e, henclosures, hclear', hleads⟩
  refine .bind (.blockEnd .for_ _ hclear') fun stop z z' hclosed => .pure ⟨e.reset, .of_reset ?_, ?_⟩
  · exact henclosures.trans hiterable.ended.enclosures
  · exact hhead.trans (hiterable.toPassed.trans (hclosed.of_leads hleads).toArrives).toArrives

variable {block : (Kind → Bool) → Reader Block} [∀ stop, Grows (block stop)] {stmt : Reader Stmt}
  [Grows stmt]

/-- **The clauses of an `if` with blocks**. -/
theorem clauses (hp : Glides nl NoMinus N expr) (hblock : ∀ stop, BlockStop stop → Blocks nl N (block stop))
    (n : Nat) (start : Span) (condition : Expr) (hN : s.tokens.length ≤ N) (hb : Beside nl c s s')
    (hflat : c.Flat) (hstarts : c.Starts s.current.kind) :
    Pairs (clauses expr block n start condition) s s' fun _ t t' => ∃ d, d.enclosures = c.enclosures ∧
      Clear nl d t t' ∧ Leads c s d t := by
  induction n generalizing start condition c s s' with
  | zero => exact .fail
  | succ n ih =>
    refine .bind (hblock _ blockStop_isCloser c s s' hN hb hflat hstarts) ?_
    rintro body t t' ⟨d, henclosures, hclear, hleads⟩
    have hlen := hleads.length
    have hafter : Pairs (clausesAfter expr block (Reader.clauses expr block n)) t t' fun _ u u' =>
        ∃ e, e.enclosures = c.enclosures ∧ Clear nl e u u' ∧ Leads c s e u := by
      refine .check (hclear.sees _) (fun helse => ?_) fun _ => .pure ⟨d, henclosures, hclear, hleads⟩
      rw [if_pos rfl]
      refine .advance hclear helse (by simp) (by simp) fun u u' hpassed => ?_
      have hlen' := hpassed.shorter
      have hdflat : d.reset.Flat := hflat.of_eq henclosures rfl
      refine .eat (by simp) (by simp) (hpassed.beside.sees rfl rfl) (fun v v' _ hif => ?_) fun _ => ?_
      · have hlen'' := hif.shorter
        refine .bind (hp.beside (by omega) hif.beside rfl (d.reset_starts _)) ?_
        rintro next w w' ⟨hk, e, hnext⟩
        have hlen₃ := hnext.shorter
        refine .bind (.expect (by simp) (by simp) (hnext.beside.sees hnext.ended.goesOn rfl)) ?_
        rintro a x x' ⟨-, -, hthen⟩
        have henclosures' : e.enclosures = c.enclosures := hnext.ended.enclosures.trans henclosures
        refine (ih _ next (by have := hthen.shorter; omega) hthen.beside (hflat.of_eq henclosures' rfl)
          (e.reset_starts _)).mono ?_
        rintro more y y' ⟨f, hf, hclear', hmore⟩
        exact ⟨f, hf.trans henclosures', hclear', hleads.trans (hpassed.leads.trans (hif.leads.trans
          (hnext.leads.trans (hthen.leads.trans hmore))))⟩
      · refine .bind (hblock _ (blockStop_eq _) _ u u' (by omega) hpassed.beside hdflat
          (d.reset_starts _)) ?_
        rintro last v v' ⟨e, he, hclear', hlast⟩
        exact .pure ⟨e, he.trans henclosures, hclear', hleads.trans (hpassed.leads.trans hlast)⟩
    refine .bind hafter ?_
    rintro ⟨more, last⟩ u u' hu
    exact .pure hu

/-- An `if` on one line, from its first statement on. -/
theorem inlineIf (hstmt : Strides nl N stmt) (start : Span) (condition : Expr)
    (hN : s.tokens.length ≤ N) (hb : Beside nl c s s') (hflat : c.Flat) (hstarts : c.Starts s.current.kind) :
    Pairs (inlineIf stmt start condition) s s' fun _ t t' => ∃ d, Sealed c d t ∧
      Arrives nl c s d t t' := by
  refine .bind (hstmt.beside hN hb hflat hstarts) ?_
  rintro body t t' ⟨-, d, hsealed, hbody⟩
  have hlen := hbody.shorter
  have hrest : Pairs (inlineRest stmt) t t' fun _ u u' => ∃ e, Sealed c e u ∧
      Arrives nl c s e u u' := by
    refine .eat (by simp) (by simp) (hbody.beside.sees hsealed.goesOn rfl) (fun u u' _ helse => ?_)
      fun _ => .pure ⟨d, hsealed, hbody.toArrives⟩
    have hlen' := helse.shorter
    refine .get (helse.beside.sees (k := .keyword .if_) rfl rfl).same ?_
    refine .bind (hstmt.beside (by omega) helse.beside (hflat.of_eq hsealed.enclosures rfl)
      (d.reset_starts _)) ?_
    rintro last v v' ⟨-, e, hsealed', hlast⟩
    refine .pure ⟨e, ?_, (hbody.trans (helse.trans hlast.toArrives).toArrives).toArrives⟩
    exact { hsealed' with enclosures := hsealed'.enclosures.trans hsealed.enclosures }
  refine .bind hrest ?_
  rintro ⟨more, last⟩ u u' hu
  exact .pure hu

/-- **An `if`** of either shape. -/
theorem if_ (hp : Glides nl NoMinus N expr) (hblock : ∀ stop, BlockStop stop → Blocks nl N (block stop))
    (hstmt : Strides nl N stmt) (n : Nat) (hN : s.tokens.length ≤ N + 1) (hclear : Clear nl c s s')
    (hflat : c.Flat) (hword : s.current.kind = .keyword .if_) :
    Pairs (if_ n expr block stmt) s s' fun _ t t' => ∃ d, Sealed c d t ∧ Passed nl c s d t t' := by
  refine .advance hclear hword (by simp) (by simp) fun t t' hpassed => ?_
  have hlen := hpassed.shorter
  refine .bind (hp.beside (by omega) hpassed.beside rfl (c.reset_starts _)) ?_
  rintro condition u u' ⟨hk, d, hcondition⟩
  have hlen' := hcondition.shorter
  refine .bind (.expect (by simp) (by simp) (hcondition.beside.sees hcondition.ended.goesOn rfl)) ?_
  rintro a v v' ⟨-, -, hthen⟩
  have hlen'' := hthen.shorter
  have henclosures : d.enclosures = c.enclosures := hcondition.ended.enclosures
  have hdflat : d.reset.Flat := hflat.of_eq henclosures rfl
  have hhead : Passed nl c s d.reset v v' :=
    hpassed.trans (hcondition.toPassed.trans hthen.toArrives).toArrives
  cases hcloses : Spot.closes v.current.kind with
  | false =>
    refine .kind (hthen.beside.flat hdflat hcloses) ?_
    split
    · refine .bind (clauses hp hblock n _ condition (by omega) hthen.beside hdflat
        (d.reset_starts _)) ?_
      rintro ⟨cs, last⟩ w w' ⟨e, he, hclear', hleads⟩
      refine .bind (.blockEnd .if_ _ hclear') fun stop x x' hclosed => .pure ⟨e.reset, .of_reset ?_, ?_⟩
      · exact he.trans henclosures
      · exact hhead.trans (hclosed.of_leads hleads).toArrives
    · refine (inlineIf hstmt _ condition (by omega) hthen.beside hdflat (d.reset_starts _)).mono ?_
      rintro stmt w w' ⟨e, hsealed, harrives⟩
      refine ⟨e, ?_, hhead.trans harrives⟩
      exact { hsealed with enclosures := hsealed.enclosures.trans henclosures }
  | true =>
    -- neither a block nor a statement starts with what closes
    refine .of_false (.kind (Clear.refl nl d.reset hthen.beside.toAlike) ?_)
    split
    · rename_i hline
      obtain ⟨hlayout, heof, -⟩ := Spot.closes_eq_false hcloses
      rw [hlayout, beq_eq_false_iff_ne.mpr heof] at hline
      cases hline
    · refine .bind (hstmt d.reset v v (by omega) (.refl _ _ hthen.beside.toAlike) hdflat
        (d.reset_starts _)) ?_
      rintro stmt w w' ⟨htight, -⟩
      rw [Spot.closes_of_tight htight] at hcloses
      cases hcloses

end Compound

/-! ### Lines -/

/-- Whether a statement may end at `s`. -/
def endsHere (s : State) : Bool :=
  s.current.kind.isTerminator || isCloser s.current.kind ||
    (s.previous.map Token.kind) == some (.symbol .semicolon)

theorem run_terminator (s : State) : Reader.terminator s = (if endsHere s then pure ()
    else reject (.expectedStatementEnd s.current.kind) : Reader Unit) s := rfl

/-- Where a statement ends, another can start. -/
theorem terminator (hb : Beside nl d s s') (hsealed : Sealed c d s) :
    Pairs terminator s s' fun _ t t' => t = s ∧ t' = s' ∧ d.Starts s.current.kind := by
  intro a t hrun _
  rw [run_terminator] at hrun
  cases hends : endsHere s with
  | false =>
    rw [hends] at hrun
    cases hrun
  | true =>
    rw [hends] at hrun
    obtain rfl : s = t := congrArg Prod.snd hrun
    have hends' : endsHere s' = true := by
      rcases hb.clear_or with hclear | ⟨-, hnewline⟩
      · rw [← hends, endsHere, endsHere, hclear.current, hb.previous]
      · rw [endsHere, hnewline]
        rfl
    refine ⟨s', by rw [run_terminator, hends']; rfl, rfl, rfl, hsealed.fresh, fun hminus => ?_⟩
    by_contra hoperand
    have hprevious := hsealed.minus hminus (Bool.not_eq_false _ ▸ hoperand)
    rw [endsHere, hminus, beq_eq_false_iff_ne.mpr hprevious] at hends
    cases hends

section Blocks

variable {N n : Nat} {stmt : Reader Stmt} [Grows stmt]

/-- A line in a block. -/
theorem line (hstmt : Strides nl N stmt) (hmoves : ParsesStmt .any N stmt stmt) :
    Lines nl N (line stmt) := by
  intro c s s' hN hclear hflat hstarts hne
  refine .kind hclear ?_
  split
  · rename_i text hcomment
    refine .advance hclear hcomment (by simp) (by simp) fun t t' hpassed => .pure ⟨?_, c.pause, ?_⟩
    · rw [hcomment]
      rfl
    · exact ⟨hflat.of_eq rfl hflat.goesOn, rfl, Spot.starts_of_plain rfl rfl, hpassed⟩
  · have hread : Pairs (do let a ← stmt; Reader.terminator; return a) s s' fun _ t t' =>
        Spot.closes s.current.kind = false ∧ ∃ d, d.Flat ∧ d.enclosures = c.enclosures ∧
          d.Starts t.current.kind ∧ Passed nl c s d t t' := by
      refine .bind (hstmt c s s' hN hclear hflat hstarts) ?_
      rintro a t t' ⟨htight, d, hsealed, hpassed⟩
      refine .bind (terminator hpassed.beside hsealed) ?_
      rintro _ u u' ⟨rfl, rfl, hdstarts⟩
      exact .pure ⟨Spot.closes_of_tight htight, d, hflat.of_eq hsealed.enclosures hsealed.goesOn,
        hsealed.enclosures, hdstarts, hpassed⟩
    -- a statement that is not read leaves a fault, so it was read
    have hsettled : Settles .any (do let a ← stmt; Reader.terminator; return a)
        (do let a ← stmt; Reader.terminator; return a) s fun _ _ _ _ => True :=
      .bind (hmoves s hN) fun _ _ _ _ _ _ _ => .last .terminator fun _ _ _ _ _ _ => trivial
    refine .bind (hread.attempt (hsettled.settled hclear.ends).fault) ?_
    rintro r t t' ⟨a, rfl, hline⟩
    exact .pure hline

/-- A line at the top level. -/
theorem topLine (hstmt : Strides nl N stmt) (hmoves : ParsesStmt .any N stmt stmt) :
    Lines nl N (topLine stmt) := by
  intro c s s' hN hclear hflat hstarts hne
  refine .kind hclear ?_
  split
  · exact .get (by rw [hclear.current]) (.report _ _)
  · exact line hstmt hmoves c s s' hN hclear hflat hstarts hne

/-- **Line by line**, both read the same up to where the block ends. -/
theorem statements {next : Reader (Option Stmt)} [Grows next] {stop : Kind → Bool} (hstop : BlockStop stop)
    (hnext : Lines nl N next) (n : Nat) (hN : s.tokens.length ≤ N) (hb : Beside nl c s s')
    (hflat : c.Flat) (hstarts : c.Starts s.current.kind) :
    Pairs (statements stop next n) s s' fun _ t t' => Spot.closes s.lineStart.current.kind = false ∧
      ∃ d, d.enclosures = c.enclosures ∧ Clear nl d t t' ∧ Leads c s d t := by
  induction n generalizing c s s' with
  | zero => exact .fail
  | succ n ih =>
    obtain ⟨d, hdflat, henclosures, hdstarts, hleads, halike, hkeeps, hclear⟩ :=
      hb.lineStart hflat hstarts
    have hlen := hleads.length
    intro ss u hrun hfaults
    replace hfaults := hfaults.trans hkeeps.symm
    rw [run_statements] at hrun ⊢
    -- no line starts with what closes, and no block ends before it
    have hcloses : Spot.closes s.lineStart.current.kind = false := by
      split at hrun
      · rename_i hends
        simp only [halike.room, Bool.or_false, Bool.or_eq_true, beq_iff_eq] at hends
        rcases hends with heof | hends
        · rw [heof]
          rfl
        · exact hstop _ hends
      · rename_i hgo
        obtain ⟨r, v, hv, hvfaults, -⟩ := Pairs.faults_of_bind hrun hfaults
        obtain ⟨_, _, hcloses, -⟩ := hnext d s.lineStart s.lineStart (by omega) (.refl _ _ halike) hdflat
          hdstarts (fun heof => hgo (by rw [heof]; rfl)) r v hv hvfaults
        exact hcloses
    have hclear := hclear hcloses
    have hfull : s'.lineStart.isFull = s.lineStart.isFull := by
      rw [State.isFull, State.isFull, hclear.faults]
    rw [hclear.current, hfull]
    refine (?_ : Pairs _ s.lineStart s'.lineStart fun _ t t' =>
      Spot.closes s.lineStart.current.kind = false ∧ ∃ d, d.enclosures = c.enclosures ∧
        Clear nl d t t' ∧ Leads c s d t) ss u hrun hfaults
    split
    · exact .pure ⟨hcloses, d, henclosures, hclear, hleads⟩
    · rename_i hgo
      have hne : s.lineStart.current.kind ≠ .eof := fun heof => hgo (by rw [heof]; rfl)
      refine .bind (hnext d _ _ (by omega) hclear hdflat hdstarts hne) ?_
      rintro r v v' ⟨-, e, heflat, he, hestarts, hpassed⟩
      have hlen' := hpassed.shorter
      refine .bind (ih (by omega) hpassed.beside heflat hestarts) ?_
      rintro rest w w' ⟨-, f, hf, hclear', hrest⟩
      exact .pure ⟨hcloses, f, hf.trans (he.trans henclosures), hclear',
        hleads.trans (hpassed.leads.trans hrest)⟩

/-- **The statements of a block**. -/
theorem blockOf (hstmt : Strides nl N stmt) (hmoves : ParsesStmt .any N stmt stmt) (n : Nat)
    {stop : Kind → Bool} (hstop : BlockStop stop) : Blocks nl N (blockOf n stmt stop) := by
  intro c s s' hN hb hflat hstarts
  refine .get hb.behind ?_
  refine .bind (statements hstop (line hstmt hmoves) n hN hb hflat hstarts) ?_
  rintro ss t t' ⟨-, d, henclosures, hclear, hleads⟩
  exact .get (by rw [hclear.current]) (.pure ⟨d, henclosures, hclear, hleads⟩)

end Blocks

end Strides

/-! ## The grammar -/

namespace Glides

variable {P : Kind → Prop} {M N : Nat}

/-- An operator before its operand. -/
theorem prefixed {p : Reader Expr} [Grows p] (op : UnaryOp) (hp : Glides nl P N p)
    (hN : s.tokens.length ≤ N + 1) (hclear : Clear nl c s s') (hk : s.current.kind = k) (hne : k ≠ .eof)
    (htight : Spot.tight k = true) (hstep : c.step k = c.reset) :
    Pairs (do let start := (← Reader.advance).span; return mkUnary op start (← Reader.nested p)) s s'
      fun _ t t' => P t.current.kind ∧ ∃ d, Read nl c s d t t' := by
  have hline : k ≠ .newline := fun heq => by
    rw [heq] at htight
    cases htight
  refine .advance hclear hk hne hline fun t t' hpassed => ?_
  rw [hstep] at hpassed
  have hlen := hpassed.shorter
  refine .bind (hp.nested.beside (by omega) hpassed.beside rfl (c.reset_starts _)) ?_
  rintro e u u' ⟨hkind, d, hread⟩
  exact .pure ⟨hkind, d, hpassed.trans hread.toArrives, hk ▸ htight, hread.ended.of_eq rfl⟩

theorem expression {n : Nat} (hp : Glides nl NoMinus N (negation n)) :
    Glides nl NoMinus N (expression (n + 1)) :=
  ((levels looseLevels hp n).mono (fun _ hk => hk.1) (Nat.le_refl N)).nested

theorem negation {n : Nat} (hp : Glides nl NoMinus N (negation n))
    (hq : Glides nl (fun _ => True) M (unary n)) (hM : M ≤ N + 1) :
    Glides nl NoMinus M (Reader.negation (n + 1)) := by
  intro c s s' hs hclear hstarts
  refine .check (hclear.sees _) (fun hnot => ?_) fun _ => ?_
  · exact prefixed .not hp (by omega) hclear hnot (by simp) rfl rfl
  · have hlevels := (levels tightLevels hq n).mono (Q := NoMinus) (fun k hk hminus =>
      hk.2 [.add, .sub] (by simp [tightLevels]) .sub (by simp) hminus.symm) (Nat.le_refl M)
    exact hlevels c s s' hs hclear hstarts

theorem unary {n : Nat} (hp : Glides nl (fun _ => True) N (unary n))
    (hq : Glides nl (fun _ => True) M (address n)) (hM : M ≤ N + 1) :
    Glides nl (fun _ => True) M (Reader.unary (n + 1)) := by
  intro c s s' hs hclear hstarts
  refine .kind hclear ?_
  split
  · rename_i hminus
    refine .advance hclear hminus (by simp) (by simp) fun t t' hpassed => ?_
    have hstep : c.step (.symbol .minus) = c.reset :=
      congrArg (Spot.mk c.enclosures .plain false) (hstarts.minus hminus)
    rw [hstep] at hpassed
    have hlen := hpassed.shorter
    refine .bind (hp.nested.beside (by omega) hpassed.beside rfl (c.reset_starts _)) ?_
    rintro e u u' ⟨-, d, hread⟩
    have hall : Read nl c s d u u' :=
      ⟨hpassed.trans hread.toArrives, by rw [hminus]; rfl, hread.ended.of_eq rfl⟩
    refine (negative _ e hall.beside).mono ?_
    rintro e' v v' ⟨hstill, harrives⟩
    exact ⟨trivial, d, hall.still hstill harrives⟩
  · rename_i hnew
    exact prefixed .new hp (by omega) hclear hnew (by simp) rfl rfl
  · refine .bind (hq c s s' hs hclear hstarts) ?_
    rintro left t t' ⟨-, d, hread⟩
    have hlen := hread.shorter
    refine .eat (by simp) (by simp) (hread.beside.sees hread.ended.goesOn rfl)
      (fun u u' _ hpassed => ?_) fun _ => .pure ⟨trivial, d, hread⟩
    have hlen' := hpassed.shorter
    refine hp.nested.awaited (by omega) hpassed.beside d.onward_awaits
      fun comments right e v v' _ hended hright => .pure ⟨trivial, e, ?_⟩
    exact hread.trans (hpassed.trans hright.toArrives).toArrives (hended.of_eq rfl)

theorem address {n : Nat} (hp : Glides nl (fun _ => True) M (address n))
    (hq : Glides nl (fun _ => True) N (primary n)) (hr : Glides nl NoMinus M (Reader.expression n))
    (hM : N ≤ M + 1) : Glides nl (fun _ => True) N (Reader.address (n + 1)) := by
  intro c s s' hs hclear hstarts
  refine .check (hclear.sees _) (fun haddress => ?_) fun _ => ?_
  · exact prefixed .address hp (by omega) hclear haddress (by simp) rfl rfl
  · refine .bind (hq c s s' hs hclear hstarts) ?_
    rintro base t t' ⟨-, d, hread⟩
    exact (suffixes hr n base (by omega) hread).mono fun _ _ _ hu => ⟨trivial, hu⟩

/-- What an expression starts with. -/
theorem primary {n : Nat} (hp : Glides nl NoMinus N (Reader.expression n))
    (hstmt : Strides nl N (statement n)) (hmoves : ParsesStmt .any N (statement n) (statement n))
    (hM : M ≤ N + 1) : Glides nl (fun _ => True) M (Reader.primary (n + 1)) := by
  intro c s s' hs hclear hstarts
  have hfresh := hstarts.fresh
  refine Pairs.mono (Q := fun _ t t' => ∃ d, Read nl c s d t t') (.kind hclear ?_) fun _ _ _ h =>
    ⟨trivial, h⟩
  split
  · rename_i hkind
    exact literal _ hclear hkind rfl rfl (by simp)
  · rename_i hkind
    exact literal _ hclear hkind (Spot.step_string (hkind ▸ hfresh)) rfl (by simp)
  · rename_i hkind
    exact literal _ hclear hkind rfl rfl (by simp)
  · rename_i hkind
    exact literal _ hclear hkind rfl rfl (by simp)
  · rename_i hkind
    exact literal _ hclear hkind rfl rfl (by simp)
  · rename_i name hkind
    refine .advance hclear hkind (by simp) (by simp) fun t t' hpassed => ?_
    rw [Spot.step_identifier (hkind ▸ hfresh)] at hpassed
    refine .mention hpassed.beside _ fun u u' hstill harrives => .pure ⟨c.ended, ?_⟩
    exact (Read.of_ended hpassed (by rw [hkind]; rfl)).still hstill harrives
  · rename_i hkind
    exact parenthesized hp (by omega) hclear hstarts hkind
  · rename_i hkind
    exact list hp n (by omega) hclear hkind
  · rename_i hkind
    exact map hp n (by omega) hclear hkind
  · rename_i hkind
    exact function hp (Strides.blockOf hstmt hmoves n (blockStop_eq _)) n (by omega) hclear hstarts hkind
  · rename_i hkind
    exact valueDirective hclear hkind
  · exact .reject _

end Glides

/-- Whether the tokens after the sign of a directive name one that stands for a value. -/
def namesValue : List Token → Bool
  | ⟨.identifier name, _⟩ :: _ => name ∈ valueDirectives
  | _ => false

theorem namesValue_eq_false {x : Token} {xs : List Token} (h : Spot.tight x.kind = false) :
    namesValue (x :: xs) = false := by
  unfold namesValue
  split
  · rename_i heq
    obtain ⟨rfl, -⟩ := List.cons.inj heq
    cases h
  · rfl

/-- A break more does not hide the name of a directive. -/
theorem namesValue_eq {ts us : List Token} (h : Slipped nl c ts us) (hgo : c.goesOn = false) :
    namesValue us = namesValue ts := by
  cases h with
  | done => rfl
  | @here _ t _ hnl hallows =>
    have hloose : Spot.tight t.kind = false := by
      by_contra htight
      rw [Spot.allows_eq_false hgo (Bool.not_eq_false _ ▸ htight)] at hallows
      cases hallows
    rw [namesValue_eq_false hloose, namesValue_eq_false (by rw [hnl]; rfl)]
  | @later _ t _ _ _ =>
    obtain ⟨k, span⟩ := t
    cases k <;> rfl

/-- **A statement**. -/
theorem Strides.statement {M N n : Nat} (hp : Glides nl NoMinus M (expression n))
    (hstmt : Strides nl N (statement n)) (hmoves : ParsesStmt .any N (statement n) (statement n)) (hN : N ≤ M)
    (hM : M ≤ N + 1) : Strides nl M (Reader.statement (n + 1)) := by
  intro c s s' hs hclear hflat hstarts
  have hp' : Glides nl NoMinus N (expression n) := hp.mono (fun _ hk => hk) hN
  have hblock : ∀ stop, BlockStop stop → Blocks nl N (Reader.blockOf n (Reader.statement n) stop) :=
    fun stop hstop => blockOf hstmt hmoves n hstop
  have hword : ∀ {p : Reader Stmt} {k : Kind}, s.current.kind = k → Spot.tight k = true →
      Pairs p s s' (fun _ t t' => ∃ d, Sealed c d t ∧ Passed nl c s d t t') →
      Pairs p s s' fun _ t t' => Spot.tight s.current.kind = true ∧
        ∃ d, Sealed c d t ∧ Passed nl c s d t t' := fun hk htight h =>
    h.mono fun _ _ _ hsealed => ⟨hk ▸ htight, hsealed⟩
  refine .kind hclear ?_
  split
  · rename_i hkind
    exact hword hkind rfl (if_ hp' hblock hstmt n (by omega) hclear hflat hkind)
  · rename_i hkind
    exact hword hkind rfl (while_ hp' (hblock _ (blockStop_eq _)) (by omega) hclear hflat hkind)
  · rename_i hkind
    exact hword hkind rfl (for_ hp' (hblock _ (blockStop_eq _)) (by omega) hclear hflat hkind)
  · rename_i hkind
    exact hword hkind rfl (return_ hp' (by omega) hclear hflat hkind)
  · rename_i hkind
    exact hword hkind rfl (.advance hclear hkind (by simp) (by simp) fun t t' hpassed =>
      .pure ⟨c.reset, .of_reset rfl, hpassed⟩)
  · rename_i hkind
    exact hword hkind rfl (.advance hclear hkind (by simp) (by simp) fun t t' hpassed =>
      .pure ⟨c.reset, .of_reset rfl, hpassed⟩)
  · rename_i hkind
    have hahead := hclear.ahead
    rw [hkind] at hahead
    refine .get (namesValue_eq hahead rfl) (.ite (fun _ => ?_) fun _ => ?_)
    · exact simple hp n c s s' hs hclear hflat hstarts
    · exact hword hkind rfl (statementDirective hclear hkind)
  · exact simple hp n c s s' hs hclear hflat hstarts

/-- What holds of the readers that call one another if their bound is `n`. -/
structure Gliding (nl : Token) (n : Nat) : Prop where
  expression : Glides nl NoMinus ((n + 1) / 8) (expression n)
  negation : Glides nl NoMinus ((n + 2) / 8) (negation n)
  unary : Glides nl (fun _ => True) ((n + 3) / 8) (unary n)
  address : Glides nl (fun _ => True) ((n + 4) / 8) (address n)
  primary : Glides nl (fun _ => True) ((n + 5) / 8) (primary n)
  statement : Strides nl (n / 8) (statement n)

/-- **The grammar reads a text with a break more as it reads it without.** -/
theorem gliding (nl : Token) (n : Nat) : Gliding nl n := by
  induction n with
  | zero =>
    exact ⟨fun _ _ _ _ _ _ => .fail, fun _ _ _ _ _ _ => .fail, fun _ _ _ _ _ _ => .fail,
      fun _ _ _ _ _ _ => .fail, fun _ _ _ _ _ _ => .fail, fun _ _ _ _ _ _ _ => .fail⟩
  | succ n ih =>
    have hmoves := (settling .any (Nat.le_refl n)).statement
    have hexpr : Glides nl NoMinus (n / 8) (Reader.expression n) :=
      ih.expression.mono (fun _ hk => hk) (by omega)
    exact
      { expression := .expression ih.negation
        negation := .negation ih.negation ih.unary (by omega)
        unary := .unary ih.unary ih.address (by omega)
        address := .address (ih.address.mono (fun _ hk => hk) (by omega)) ih.primary hexpr (by omega)
        primary := .primary hexpr ih.statement hmoves (by omega)
        statement := .statement ih.expression ih.statement hmoves (by omega) (by omega) }

/-! ## Scripts -/

theorem lineStart_eq (h : isSeparator s.current.kind = false) : s.lineStart = s := by
  have hskip : s.skipOver isSeparator s.ahead = ([], s) := by
    unfold State.skipOver
    split
    · rfl
    · rw [h, if_neg Bool.false_ne_true]
  rw [State.lineStart, separators, bind_some (by rw [skip, hskip])]
  rfl

theorem flat_start : ({} : Spot).Flat := ⟨rfl, rfl⟩

/-- **A script with a break more is read as without it**, and inside brackets its lines break only where
they may. -/
theorem Pairs.script {n : Nat} (hb : Beside nl {} s s') (hn : 8 * s.tokens.length ≤ n) :
    Pairs (script n) s s' fun _ t t' => t'.faults = t.faults ∧ Tidy {} s.tokens := by
  have hlines : Lines nl (n / 8) (topLine (statement n)) :=
    Strides.topLine (gliding nl n).statement (settling .any (Nat.le_refl n)).statement
  have hstop : BlockStop fun _ => false := fun _ hk => absurd hk Bool.false_ne_true
  intro r t hrun hfaults
  rw [run_script] at hrun
  obtain ⟨body, u, hu, hufaults, hrest⟩ := Pairs.faults_of_bind hrun hfaults
  have hbody := fun v (hv : Beside nl {} (s.openScope s.current.span) v) =>
    Strides.statements (s := s.openScope s.current.span) hstop hlines n
      (show s.tokens.length ≤ n / 8 by omega) hv flat_start (Spot.reset_starts {} _) body u hu hufaults
  -- nothing is closed at once, so there is no break in front of the script
  have hcloses : Spot.closes s.current.kind = false := by
    have hself : Beside nl {} s s := ⟨hb.toAlike.refl, rfl, .done _ _⟩
    obtain ⟨_, _, hcloses, -⟩ := hbody _ (hself.openScope _)
    by_contra htrue
    have hsep := (Spot.closes_eq_false (Bool.not_eq_false _ ▸ htrue)).2.2.1
    rw [lineStart_eq (s := s.openScope s.current.span) hsep] at hcloses
    exact htrue hcloses
  have hcurrent : s'.current = s.current := (hb.flat flat_start hcloses).current
  obtain ⟨u', hu', -, d, -, hclear, hleads⟩ := hbody _ (hb.openScope _)
  have hmentions :
      (u'.closeScope u.current.span).mentions = (u.closeScope u.current.span).mentions := by
    unfold State.closeScope
    rw [hclear.openScopes, hclear.mentions]
    split <;> simp [hclear.mentions]
  cases hrest
  refine ⟨u'.closeScope u'.current.span, ?_, ?_, hleads.tidy ?_⟩
  · rw [run_script, hcurrent, bind_some hu']
    show (some (Script.mk body (u'.closeScope u'.current.span).mentions
      (s.current.span.merge u'.current.span)), u'.closeScope u'.current.span) = _
    rw [hclear.current, hmentions]
  · rw [Grows.faults_closeScope, Grows.faults_closeScope, hclear.faults]
  · have heof : u.current.kind = .eof := by
      obtain ⟨_, _, -, hended⟩ := ((Settles.statements _
        (Settles.topLine (settling .any (Nat.le_refl n)).statement) (Nat.le_refl n)
        (s.openScope s.current.span) (show s.tokens.length ≤ n / 8 by omega)
        (show s.tokens.length ≤ n by omega)).settled hb.ends).passes
      rw [hu] at hended
      rcases (hended body rfl).2 with heof | hfull | hno
      · exact heof
      · rw [hclear.room] at hfull
        cases hfull
      · cases hno
    rw [State.tokens, State.ahead_eq_nil hclear.ends heof]
    exact ⟨fun hnewline => absurd (heof.symm.trans hnewline) (by simp), trivial⟩

end Reader

/-! ## Breaks that are allowed -/

theorem Spot.after_append (c : Spot) (ts us : List Token) :
    c.after (ts ++ us) = (c.after ts).after us := List.foldl_append ..

variable {nl next : Token} {us vs : List Token}

/-- Where a break is allowed, one more slips in. -/
theorem Slipped.of_allows {c : Spot} (hnl : nl.kind = .newline)
    (h : (c.after us).allows next.kind = true) (vs : List Token) :
    Slipped nl c (us ++ next :: vs) (us ++ nl :: next :: vs) := by
  induction us generalizing c with
  | nil => exact .here hnl h
  | cons u us ih => exact .later (ih h)

/-- Inside of brackets, a break that stands there is one that is allowed. -/
theorem Tidy.allows {c : Spot} (hnl : nl.kind = .newline) (h : Tidy c (us ++ nl :: next :: vs))
    (hin : (c.after us).inBrackets = true) : (c.after us).allows next.kind = true := by
  induction us generalizing c with
  | nil => exact h.1 hnl hin next rfl
  | cons u us ih => exact ih h.2 hin

theorem EndsOnce.exists_cons {ts : List Token} (h : EndsOnce ts) : ∃ t rest, ts = t :: rest := by
  obtain ⟨us, e, rfl, -⟩ := h
  exact List.exists_cons_of_ne_nil (by simp)

theorem EndsOnce.append {ts : List Token} (hts : ∀ t ∈ ts, t.kind ≠ .eof) (h : EndsOnce us) :
    EndsOnce (ts ++ us) := by
  induction ts with
  | nil => exact h
  | cons t ts ih =>
    exact (ih fun u hu => hts u (List.mem_cons_of_mem _ hu)).cons (hts t (List.mem_cons_self ..))

/-- **What is read does not depend on a break more**, and without a fault lines break where they may. -/
theorem Script.ofTokens_of_slipped {ts : List Token} (h : Slipped nl {} ts us) (hends : EndsOnce ts)
    (hlen : ts.length ≤ us.length) (hfaults : (Script.ofTokens ts).faults = []) :
    Script.ofTokens us = Script.ofTokens ts ∧ Tidy {} ts := by
  obtain ⟨x, xs, rfl⟩ := hends.exists_cons
  obtain ⟨y, ys, rfl⟩ := (h.endsOnce hends).exists_cons
  have hb : Reader.Beside nl {} (.ofTokens (x :: xs)) (.ofTokens (y :: ys)) :=
    ⟨⟨hends, rfl, rfl, rfl, rfl, rfl⟩, rfl, h⟩
  have hbound : 8 * (x :: xs).length ≤ Reader.bound (x :: xs).length := Nat.le_add_right _ _
  have hmore : Reader.bound (x :: xs).length ≤ Reader.bound (y :: ys).length :=
    Nat.add_le_add_right (Nat.mul_le_mul_left 8 hlen) 8
  obtain ⟨r, t, ht⟩ := Reader.script_yields (s := .ofTokens (x :: xs)) hends hbound
  -- the bound for the longer text reads the shorter one as well
  have hrun : Reader.script (Reader.bound (y :: ys).length) (.ofTokens (x :: xs)) = (some r, t) :=
    ((Reader.Settles.script (s := .ofTokens (x :: xs)) hmore hbound).settled hends).same.trans ht
  have hreading : Script.ofTokens (x :: xs) = ⟨r, t.faults⟩ := by rw [Script.ofTokens, ht]
  rw [hreading] at hfaults ⊢
  obtain ⟨t', ht', hfaults', htidy⟩ :=
    Reader.Pairs.script hb (Nat.le_trans hbound hmore) r t hrun hfaults
  refine ⟨?_, htidy⟩
  rw [Script.ofTokens, ht']
  exact congrArg (Script.Reading.mk r) hfaults'

/-- A line goes on after a comma, and after an operator that stands between two operands. -/
theorem Spot.goesOn_step {c : Spot} {k : Kind}
    (h : k = .symbol .comma ∨ ∃ op : BinaryOp, k = op.token ∧ (op = .sub → c.operand = true)) :
    (c.step k).goesOn = true := by
  rcases h with rfl | ⟨op, rfl, hsub⟩
  · rfl
  · cases op with
    | sub => exact hsub rfl
    | _ => rfl

/-- **Where a line may break.**  A script that is read without a fault is read as the same one with a
line break more, if the tokens before it and the one after it allow that.  So it is after a comma and
after an operator between two operands.  Inside brackets, a break anywhere else is a fault. -/
theorem Script.ofTokens_break {ts : List Token} {i : Nat} {nl next : Token}
    (hnl : nl.kind = .newline) (hends : EndsOnce ts) (hfaults : (Script.ofTokens ts).faults = [])
    (hnext : ts[i]? = some next) :
    ((Spot.after {} (ts.take i)).allows next.kind = true →
      Script.ofTokens (ts.take i ++ nl :: ts.drop i) = Script.ofTokens ts) ∧
    (∀ j t, i = j + 1 → ts[j]? = some t →
      (t.kind = .symbol .comma ∨ ∃ op : BinaryOp, t.kind = op.token ∧
        (op = .sub → (Spot.after {} (ts.take j)).operand = true)) →
      Script.ofTokens (ts.take i ++ nl :: ts.drop i) = Script.ofTokens ts) ∧
    ((Spot.after {} (ts.take i)).inBrackets = true →
      ((Script.ofTokens (ts.take i ++ nl :: ts.drop i)).faults = [] ↔
        (Spot.after {} (ts.take i)).allows next.kind = true)) := by
  obtain ⟨hi, hget⟩ := List.getElem?_eq_some_iff.mp hnext
  have hdrop : ts.drop i = next :: ts.drop (i + 1) := by rw [List.drop_eq_getElem_cons hi, hget]
  have hsplit : ts = ts.take i ++ next :: ts.drop (i + 1) := by
    rw [← hdrop, List.take_append_drop]
  have hsame : (Spot.after {} (ts.take i)).allows next.kind = true →
      Script.ofTokens (ts.take i ++ nl :: ts.drop i) = Script.ofTokens ts := fun hallows => by
    have hslipped := Slipped.of_allows hnl hallows (ts.drop (i + 1))
    rw [← hsplit, ← hdrop] at hslipped
    exact (Script.ofTokens_of_slipped hslipped hends (by simp; omega) hfaults).1
  refine ⟨hsame, fun j t hj ht hlast => hsame ?_, fun hin => ⟨fun hbroken => ?_, fun hallows => ?_⟩⟩
  · have htake : ts.take i = ts.take j ++ [t] := by
      rw [hj, List.take_add_one, ht]
      rfl
    rw [htake, Spot.after_append]
    exact Spot.allows_of_goesOn (Spot.goesOn_step hlast)
  · have hparts := Reader.endsOnce_of_append (hsplit ▸ hends) (List.cons_ne_nil _ _)
    have hends' : EndsOnce (ts.take i ++ nl :: ts.drop i) :=
      .append hparts.2 (.cons (by simp [hnl]) (hdrop ▸ hparts.1))
    have hslipped : Slipped nl {} (ts.take i ++ nl :: ts.drop i) (ts.take i ++ nl :: ts.drop i) :=
      .done _ _
    have htidy := (Script.ofTokens_of_slipped hslipped hends' (Nat.le_refl _) hbroken).2
    rw [hdrop] at htidy
    exact htidy.allows hnl hin
  · rw [hsame hallows]
    exact hfaults

/-- In `x = (a + b)` a line may break after the plus but not before it. -/
theorem Script.ofTokens_break_sum :
    (Script.ofTokens (scan "x = (a + b)").tokens).faults = [] ∧
    Script.ofTokens ((scan "x = (a + b)").tokens.take 5 ++ ⟨.newline, default⟩ ::
      (scan "x = (a + b)").tokens.drop 5) = Script.ofTokens (scan "x = (a + b)").tokens ∧
    (Script.ofTokens ((scan "x = (a + b)").tokens.take 4 ++ ⟨.newline, default⟩ ::
      (scan "x = (a + b)").tokens.drop 4)).faults ≠ [] := by
  have hends : EndsOnce (scan "x = (a + b)").tokens := endsOnce_scanFrom _ _ _
  have hfaults : (Script.ofTokens (scan "x = (a + b)").tokens).faults = [] := by decide +kernel
  have hnext : ∀ i (hi : i < (scan "x = (a + b)").tokens.length),
      (scan "x = (a + b)").tokens[i]? = some (scan "x = (a + b)").tokens[i] := fun i hi =>
    List.getElem?_eq_getElem hi
  refine ⟨hfaults, ?_, fun hbroken => ?_⟩
  · exact (Script.ofTokens_break rfl hends hfaults (hnext 5 (by decide +kernel))).1 (by decide +kernel)
  · have hiff := (Script.ofTokens_break (show Token.kind ⟨.newline, default⟩ = .newline from rfl) hends
      hfaults (hnext 4 (by decide +kernel))).2.2 (by decide +kernel)
    exact absurd (hiff.mp hbroken) (by decide +kernel)

end ScriptBundler

import ScriptBundler.Proofs.Progress

/-!
# Proofs/Spots — where a line may break

    x = f ( ⏎ a ⏎ , ⏎ b + ⏎ c ⏎ )          `⏎` marks the spots that allow a break

A `Spot` is what the tokens before a place say about it.  After an opening bracket, a comma, a colon and
an operator between two operands the line goes on; before a closing bracket and a colon, and before a
comma inside brackets, an item has ended.  Only there a line may break (`Spot.allows`), and where it does
inside brackets it may break again.

Two things have to be kept apart that are spelled alike.  A minus stands between two operands only if
one ends before it, and a closing parenthesis ends one unless it closes parameters.
-/

namespace ScriptBundler

open Token (Kind)

/-! ## Spots -/

/-- What encloses a spot. -/
inductive Enclosure where
  | bracket
  | params
  /-- A function, from its first word on. -/
  | body
deriving DecidableEq, Repr

/-- What the last tokens lead to. -/
inductive Phase where
  | plain
  /-- The name of a directive. -/
  | sign
  /-- What a directive that stands for a value asks for. -/
  | argument
  /-- The end of such a directive, which may have a semicolon. -/
  | value
  /-- The word that says which block is closed. -/
  | closing
  /-- The parameters of a function, which may be left out. -/
  | heading
deriving DecidableEq, Repr

/-- What the tokens before a place say about it. -/
structure Spot where
  /-- Innermost first. -/
  enclosures : List Enclosure := []
  phase : Phase := .plain
  /-- Whether an operand ends right here. -/
  operand : Bool := false
  /-- Whether the line goes on after the last token that is not layout. -/
  goesOn : Bool := false
deriving DecidableEq, Repr

namespace Spot

/-- Whether brackets are what encloses a spot most closely. -/
def inBrackets (c : Spot) : Bool :=
  match c.enclosures with
  | .bracket :: _ => true
  | .params :: _ => true
  | _ => false

/-- Tokens before which an item has ended, wherever they stand. -/
def closes : Kind → Bool
  | .symbol s => [Symbol.closeParen, .closeBracket, .closeBrace, .colon].contains s
  | _ => false

/-- Whether a line may break between a spot and a token of the kind `next`. -/
def allows (c : Spot) (next : Kind) : Bool :=
  c.goesOn || closes next || (c.inBrackets && (next == .symbol .comma || Reader.isLayout next))

/-- What the name of a directive leads to. -/
def named (name : String) : Phase :=
  if name = "envar" ∨ name = "inject" then .argument
  else if name = "line" ∨ name = "filename" then .value
  else .plain

/-- Signs that stand between two operands or two items, but for the minus. -/
def joins (s : Symbol) : Bool :=
  [Symbol.comma, .colon, .plus, .star, .slash, .percent, .caret, .pipe, .amp, .shiftLeft, .shiftRight,
    .shiftRightZero, .equal, .notEqual, .less, .greater, .lessEqual, .greaterEqual].contains s

/-- The spot where something starts anew. -/
def reset (c : Spot) : Spot := { enclosures := c.enclosures }

/-- The spot after a token that ends an operand. -/
def ended (c : Spot) : Spot := ⟨c.enclosures, .plain, true, false⟩

/-- The spot after a sign between two operands or two items. -/
def onward (c : Spot) : Spot := ⟨c.enclosures, .plain, false, true⟩

/-- The spot after layout. -/
def pause (c : Spot) : Spot := { c with phase := .plain, operand := false }

/-- The spot after an opening bracket. -/
def opened (c : Spot) (e : Enclosure) : Spot := ⟨e :: c.enclosures, .plain, false, true⟩

/-- The spot after a closing bracket. -/
def closed (c : Spot) : Spot :=
  ⟨c.enclosures.tail, .plain, c.enclosures.head? != some .params, false⟩

/-- The spot after the name of a directive. -/
def directed (c : Spot) (name : String) : Spot := ⟨c.enclosures, named name, true, false⟩

/-- The spot at the end of a directive that stands for a value. -/
def valued (c : Spot) : Spot := ⟨c.enclosures, .value, true, false⟩

/-- The spot after the first word of a function. -/
def begun (c : Spot) : Spot := ⟨.body :: c.enclosures, .heading, false, false⟩

/-- The spot after the first word of the end of a block. -/
def closing (c : Spot) : Spot := ⟨c.enclosures, .closing, false, false⟩

/-- The spot after one more sign. -/
def stepSymbol (c : Spot) : Symbol → Spot
  | .openParen => c.opened (if c.phase = .heading then .params else .bracket)
  | .openBracket | .openBrace => c.opened .bracket
  | .closeParen | .closeBracket | .closeBrace => c.closed
  | .minus => ⟨c.enclosures, .plain, false, c.operand⟩
  | .semicolon => ⟨c.enclosures, .plain, c.phase == .value, false⟩
  | .hash => ⟨c.enclosures, .sign, false, false⟩
  | s => ⟨c.enclosures, .plain, false, joins s⟩

/-- The spot after one more word. -/
def stepKeyword (c : Spot) : Keyword → Spot
  | .function => if c.phase = .closing then ⟨c.enclosures.tail, .plain, true, false⟩ else c.begun
  | .end_ => c.closing
  | k => ⟨c.enclosures, .plain, [Keyword.true, .false, .null].contains k,
      [Keyword.and, .or, .isa].contains k⟩

/-- The spot after one more token. -/
def step (c : Spot) : Kind → Spot
  | .newline | .comment _ | .eof => c.pause
  | .number .. => c.ended
  | .string .. => if c.phase = .argument then c.valued else c.ended
  | .identifier name =>
    match c.phase with
    | .sign => c.directed name
    | .argument => c.valued
    | _ => c.ended
  | .keyword k => c.stepKeyword k
  | .symbol s => c.stepSymbol s

/-- The spot after tokens. -/
def after (c : Spot) (ts : List Token) : Spot := ts.foldl (fun c t => c.step t.kind) c

/-- The phase makes no difference to a token of the kind `k`. -/
def Fresh (c : Spot) (k : Kind) : Prop := c.step k = { c with phase := .plain }.step k

/-- An expression can start here with a token of the kind `k`: a minus would stand between no operands. -/
structure Starts (c : Spot) (k : Kind) : Prop where
  fresh : c.Fresh k
  minus : k = .symbol .minus → c.operand = false

/-- An expression that started at `c` ends at `d`, before a token of the kind `k`. -/
structure Ended (c d : Spot) (k : Kind) : Prop where
  enclosures : d.enclosures = c.enclosures
  operand : d.operand = true
  goesOn : d.goesOn = false
  fresh : d.Fresh k

/-- The line goes on here, and an operand or an item can start. -/
structure Awaits (c : Spot) : Prop where
  phase : c.phase = .plain
  operand : c.operand = false
  goesOn : c.goesOn = true

/-- A sign that closes brackets. -/
structure Closer (close : Symbol) : Prop where
  step : ∀ c : Spot, c.step (.symbol close) = c.closed
  closes : closes (.symbol close) = true

/-- Where statements stand: the line does not go on, and no bracket is open. -/
structure Flat (c : Spot) : Prop where
  goesOn : c.goesOn = false
  inBrackets : c.inBrackets = false

/-- A line may break before a token of the kind `k` only if it goes on. -/
def tight (k : Kind) : Bool := !closes k && k != .symbol .comma && !Reader.isLayout k

variable {c d : Spot} {k : Kind}

theorem allows_of_goesOn (h : c.goesOn = true) : c.allows k = true := by simp [allows, h]

theorem allows_of_closes (hk : closes k = true) : c.allows k = true := by simp [allows, hk]

/-- Where the line does not go on, it may not break before a tight token. -/
theorem allows_eq_false (hgo : c.goesOn = false) (hk : tight k = true) : c.allows k = false := by
  simp only [tight, Bool.and_eq_true, Bool.not_eq_true', bne_iff_ne, ne_eq] at hk
  obtain ⟨⟨hcloses, hcomma⟩, hlayout⟩ := hk
  simp [allows, hgo, hcloses, hlayout, beq_eq_false_iff_ne.mpr hcomma]

theorem inBrackets_of_eq (h : d.enclosures = c.enclosures) : d.inBrackets = c.inBrackets := by
  rw [inBrackets, inBrackets, h]

theorem Flat.of_eq (h : c.Flat) (henclosures : d.enclosures = c.enclosures) (hgo : d.goesOn = false) :
    d.Flat := ⟨hgo, (inBrackets_of_eq henclosures).trans h.inBrackets⟩

theorem closes_of_tight (hk : tight k = true) : closes k = false := by
  simp only [tight, Bool.and_eq_true, Bool.not_eq_true'] at hk
  exact hk.1.1

/-- What closes something is no layout, and no statement ends before it. -/
theorem closes_eq_false (h : closes k = true) : Reader.isLayout k = false ∧ k ≠ .eof ∧
    Reader.isSeparator k = false ∧ (k.isTerminator || Reader.isCloser k) = false := by
  cases k with
  | symbol sign => cases sign <;> simp [closes] at h <;> exact ⟨rfl, by simp, rfl, rfl⟩
  | _ => cases h

/-- Where statements stand, a line may break only before what closes something. -/
theorem Flat.allows (h : c.Flat) (k : Kind) : c.allows k = closes k := by
  simp [Spot.allows, h.goesOn, h.inBrackets]

theorem fresh_of_plain (h : c.phase = .plain) : c.Fresh k := by
  obtain ⟨enclosures, phase, operand, goesOn⟩ := c
  cases h
  rfl

/-- Where no operand ends and nothing is led to, anything can start. -/
theorem starts_of_plain (hphase : c.phase = .plain) (hoperand : c.operand = false) : c.Starts k :=
  ⟨fresh_of_plain hphase, fun _ => hoperand⟩

/-- After an operand an expression may end. -/
theorem ended_ended (c : Spot) (k : Kind) : Ended c c.ended k := ⟨rfl, rfl, rfl, fresh_of_plain rfl⟩

theorem Ended.of_eq {b : Spot} (h : Ended c d k) (henclosures : c.enclosures = b.enclosures) :
    Ended b d k :=
  { h with enclosures := h.enclosures.trans henclosures }

/-- An expression ends where statements stand if it started there. -/
theorem Ended.flat (h : Ended c d k) (hc : c.Flat) : d.Flat := hc.of_eq h.enclosures h.goesOn

/-- After an opening bracket an item is awaited. -/
theorem opened_awaits (c : Spot) (e : Enclosure) : (c.opened e).Awaits := ⟨rfl, rfl, rfl⟩

/-- After a sign between operands one is awaited. -/
theorem onward_awaits (c : Spot) : c.onward.Awaits := ⟨rfl, rfl, rfl⟩

theorem closer_closeParen : Closer .closeParen := ⟨fun _ => rfl, rfl⟩

theorem closer_closeBracket : Closer .closeBracket := ⟨fun _ => rfl, rfl⟩

theorem closer_closeBrace : Closer .closeBrace := ⟨fun _ => rfl, rfl⟩

/-- Which bracket was closed depends on what encloses the spot. -/
theorem closed_of_eq (h : d.enclosures = c.enclosures) : d.closed = c.closed := by
  rw [closed, closed, h]

/-- After an operand, every operator is one between two operands. -/
theorem step_op (h : c.operand = true) (op : BinaryOp) : c.step op.token = c.onward := by
  cases op with
  | sub => exact congrArg (Spot.mk c.enclosures .plain false) h
  | _ => rfl

/-- A parenthesis opens brackets, unless it opens parameters. -/
theorem step_openParen (h : c.Fresh (.symbol .openParen)) :
    c.step (.symbol .openParen) = c.opened .bracket := h.trans rfl

/-- A name ends an operand, unless it names a directive. -/
theorem step_identifier {name : String} (h : c.Fresh (.identifier name)) :
    c.step (.identifier name) = c.ended := h.trans rfl

theorem step_string {raw value : String} (h : c.Fresh (.string raw value)) :
    c.step (.string raw value) = c.ended := h.trans rfl

theorem step_function (h : c.Fresh (.keyword .function)) : c.step (.keyword .function) = c.begun :=
  h.trans rfl

/-- After the first word of a function, only an opening parenthesis has a meaning of its own. -/
theorem begun_starts (hk : k ≠ .symbol .openParen) : c.begun.Starts k := by
  refine ⟨?_, fun _ => rfl⟩
  cases k with
  | symbol sign =>
    cases sign with
    | openParen => exact absurd rfl hk
    | _ => rfl
  | keyword word => cases word <;> rfl
  | _ => rfl

/-- At the end of a directive that stands for a value, only a semicolon has a meaning of its own. -/
theorem valued_ended (hk : k ≠ .symbol .semicolon) : Ended c c.valued k := by
  refine ⟨rfl, rfl, rfl, ?_⟩
  cases k with
  | symbol sign =>
    cases sign with
    | semicolon => exact absurd rfl hk
    | _ => rfl
  | keyword word => cases word <;> rfl
  | _ => rfl

/-- No operator ends an item. -/
theorem tight_op (op : BinaryOp) : tight op.token = true := by
  cases op <;> rfl

/-- Behind an expression another one can start, unless with a minus. -/
theorem Ended.starts (h : Ended c d k) (hk : k ≠ .symbol .minus) : d.Starts k :=
  ⟨h.fresh, fun hminus => absurd hminus hk⟩

theorem step_layout (hk : Reader.isLayout k = true) : c.step k = c.pause := by
  unfold Reader.isLayout at hk
  split at hk
  · rfl
  · rfl
  · cases hk

/-- Layout pauses a spot, however much there is of it. -/
theorem after_layout {ts : List Token} (h : ∀ t ∈ ts, Reader.isLayout t.kind = true) (hne : ts ≠ []) :
    c.after ts = c.pause := by
  induction ts generalizing c with
  | nil => exact absurd rfl hne
  | cons t ts ih =>
    have hstep : c.after (t :: ts) = c.pause.after ts := by
      rw [after, List.foldl_cons, step_layout (h t (List.mem_cons_self ..)), after]
    rw [hstep]
    cases ts with
    | nil => rfl
    | cons u us => exact ih (fun v hv => h v (List.mem_cons_of_mem _ hv)) (List.cons_ne_nil _ _)

theorem Flat.reset (h : c.Flat) : c.reset.Flat := h.of_eq rfl rfl

theorem reset_starts (c : Spot) (k : Kind) : c.reset.Starts k := starts_of_plain rfl rfl

/-- What stands between statements leaves a spot where the next one can start. -/
theorem step_separator (hgo : c.goesOn = false) (h : c.Starts k) (hk : Reader.isSeparator k = true) :
    c.step k = c.reset := by
  unfold Reader.isSeparator at hk
  split at hk
  · rw [step, pause, hgo, Spot.reset]
  · exact h.fresh
  · cases hk

end Spot

/-! ## Breaks at spots -/

/-- The same tokens, or with the line break `nl` more at a spot that allows it. -/
inductive Slipped (nl : Token) : Spot → List Token → List Token → Prop
  | done (c : Spot) (ts : List Token) : Slipped nl c ts ts
  | here {c : Spot} {t : Token} {ts : List Token} (hnl : nl.kind = .newline)
    (h : c.allows t.kind = true) : Slipped nl c (t :: ts) (nl :: t :: ts)
  | later {c : Spot} {t : Token} {ts us : List Token} (h : Slipped nl (c.step t.kind) ts us) :
    Slipped nl c (t :: ts) (t :: us)

/-- Inside brackets, lines break only at spots that allow it. -/
def Tidy : Spot → List Token → Prop
  | _, [] => True
  | c, t :: ts =>
    (t.kind = .newline → c.inBrackets = true → ∀ u ∈ ts.head?, c.allows u.kind = true) ∧
      Tidy (c.step t.kind) ts

section Lists

variable {nl x : Token} {c : Spot} {ts us xs : List Token}

/-- A break more leaves tokens that end once. -/
theorem Slipped.endsOnce (h : Slipped nl c ts us) (hts : EndsOnce ts) : EndsOnce us := by
  induction h with
  | done => exact hts
  | here hnl => exact hts.cons (by simp [hnl])
  | @later c t ts us h ih =>
    by_cases hnil : ts = []
    · subst hnil
      cases h
      exact hts
    · obtain ⟨hends, hne⟩ := Reader.endsOnce_of_append (show EndsOnce ([t] ++ ts) from hts) hnil
      exact (ih hends).cons (hne t (List.mem_singleton_self t))

/-- A break more is passed over as layout, and hides no comment. -/
theorem Slipped.layout (h : Slipped nl c ts us) :
    (us.takeWhile (Reader.isLayout ·.kind)).filterMap Reader.comment? =
        (ts.takeWhile (Reader.isLayout ·.kind)).filterMap Reader.comment? ∧
      ∀ x xs, ts.dropWhile (Reader.isLayout ·.kind) = x :: xs →
        ∃ ys, us.dropWhile (Reader.isLayout ·.kind) = x :: ys ∧
          Slipped nl ((c.after (ts.takeWhile (Reader.isLayout ·.kind))).step x.kind) xs ys := by
  induction h with
  | done c ts => exact ⟨rfl, fun x xs hx => ⟨xs, hx, .done _ _⟩⟩
  | @here c t ts hnl _ =>
    have hlayout : Reader.isLayout nl.kind = true := by rw [hnl]; rfl
    have hcomment : Reader.comment? nl = none := by rw [Reader.comment?, hnl]
    refine ⟨?_, fun x xs hx => ⟨xs, ?_, .done _ _⟩⟩
    · rw [List.takeWhile_cons, hlayout, if_pos rfl, List.filterMap_cons_none hcomment]
    · rw [List.dropWhile_cons, hlayout, if_pos rfl, hx]
  | @later c t ts us h ih =>
    cases hlayout : Reader.isLayout t.kind with
    | true =>
      simp only [List.takeWhile_cons, List.dropWhile_cons, hlayout, if_true]
      exact ⟨by rw [List.filterMap_cons, List.filterMap_cons, ih.1], ih.2⟩
    | false =>
      simp only [List.takeWhile_cons, List.dropWhile_cons, hlayout, Bool.false_eq_true, if_false]
      refine ⟨trivial, fun x xs hx => ?_⟩
      obtain ⟨rfl, rfl⟩ := List.cons.inj hx
      exact ⟨us, rfl, h⟩

/-- Where layout is passed over, lines break where they may if what follows it allows a break. -/
theorem Tidy.of_layout (hx : ts.dropWhile (Reader.isLayout ·.kind) = x :: xs)
    (hallows : c.inBrackets = true → c.allows x.kind = true)
    (htidy : Tidy (c.after (ts.takeWhile (Reader.isLayout ·.kind))) (x :: xs)) : Tidy c ts := by
  induction ts generalizing c with
  | nil => cases hx
  | cons t ts ih =>
    cases hlayout : Reader.isLayout t.kind with
    | true =>
      simp only [List.takeWhile_cons, List.dropWhile_cons, hlayout, if_true] at hx htidy
      have hpause := Spot.step_layout (c := c) hlayout
      refine ⟨fun _ hin u hu => ?_, ih hx ?_ htidy⟩
      · cases ts with
        | nil => cases hu
        | cons v vs =>
          obtain rfl : v = u := Option.some.inj hu
          cases hv : Reader.isLayout v.kind with
          | true => simp [Spot.allows, hin, hv]
          | false =>
            simp only [List.dropWhile_cons, hv, Bool.false_eq_true, if_false] at hx
            obtain ⟨rfl, -⟩ := List.cons.inj hx
            exact hallows hin
      · rw [hpause]
        exact hallows
    | false =>
      simp only [List.takeWhile_cons, List.dropWhile_cons, hlayout, Bool.false_eq_true, if_false]
        at hx htidy
      rw [hx]
      exact htidy

/-- Between statements there is no break more, unless something closes that was not opened. -/
theorem Slipped.separators (hflat : c.Flat) (h : Slipped nl c ts us)
    (hstarts : ∀ t ∈ ts.head?, c.Starts t.kind)
    (hx : ts.dropWhile (Reader.isSeparator ·.kind) = x :: xs) (hcloses : Spot.closes x.kind = false) :
    us.takeWhile (Reader.isSeparator ·.kind) = ts.takeWhile (Reader.isSeparator ·.kind) ∧
      ∃ ys, us.dropWhile (Reader.isSeparator ·.kind) = x :: ys ∧
        Slipped nl ((c.after (ts.takeWhile (Reader.isSeparator ·.kind))).step x.kind) xs ys := by
  induction h with
  | done c ts => exact ⟨rfl, xs, hx, .done _ _⟩
  | @here c t ts _ hallows =>
    have htcloses : Spot.closes t.kind = true := (hflat.allows t.kind).symm.trans hallows
    have hsep := (Spot.closes_eq_false htcloses).2.2.1
    simp only [List.dropWhile_cons, hsep, Bool.false_eq_true, if_false] at hx
    obtain ⟨rfl, -⟩ := List.cons.inj hx
    rw [htcloses] at hcloses
    cases hcloses
  | @later c t ts us h ih =>
    cases hsep : Reader.isSeparator t.kind with
    | true =>
      simp only [List.takeWhile_cons, List.dropWhile_cons, hsep, if_true] at hx ⊢
      have hreset := Spot.step_separator hflat.goesOn (hstarts t rfl) hsep
      obtain ⟨htake, hrest⟩ := ih (hreset ▸ hflat.reset)
        (fun u _ => hreset ▸ Spot.reset_starts c u.kind) hx
      exact ⟨by rw [htake], hrest⟩
    | false =>
      simp only [List.takeWhile_cons, List.dropWhile_cons, hsep, Bool.false_eq_true, if_false] at hx ⊢
      obtain ⟨rfl, rfl⟩ := List.cons.inj hx
      exact ⟨trivial, us, rfl, h⟩

/-- What stands between statements leads from one that ended to where the next one starts. -/
theorem Spot.Flat.after_separators (hflat : c.Flat) (hstarts : ∀ t ∈ ts.head?, c.Starts t.kind)
    (hx : ts.dropWhile (Reader.isSeparator ·.kind) = x :: xs) :
    ∃ d, d = c.after (ts.takeWhile (Reader.isSeparator ·.kind)) ∧ d.Flat ∧
      d.enclosures = c.enclosures ∧ d.Starts x.kind ∧ (Tidy d (x :: xs) → Tidy c ts) := by
  induction ts generalizing c with
  | nil => cases hx
  | cons t ts ih =>
    cases hsep : Reader.isSeparator t.kind with
    | true =>
      simp only [List.takeWhile_cons, List.dropWhile_cons, hsep, if_true] at hx ⊢
      have hreset := Spot.step_separator hflat.goesOn (hstarts t rfl) hsep
      obtain ⟨d, hd, hdflat, henclosures, hdstarts, htidy⟩ :=
        ih hflat.reset (fun u _ => Spot.reset_starts c u.kind) hx
      refine ⟨d, ?_, hdflat, henclosures, hdstarts, fun h => ⟨fun _ hin => ?_, ?_⟩⟩
      · rw [hd, ← hreset]
        rfl
      · rw [hflat.inBrackets] at hin
        cases hin
      · rw [hreset]
        exact htidy h
    | false =>
      simp only [List.takeWhile_cons, List.dropWhile_cons, hsep, Bool.false_eq_true, if_false] at hx ⊢
      obtain ⟨rfl, rfl⟩ := List.cons.inj hx
      exact ⟨c, rfl, hflat, rfl, hstarts t rfl, id⟩

end Lists

namespace Reader

variable {α β : Type} {nl : Token} {c d e : Spot} {s s' t t' u u' : State}

/-! ## States side by side -/

/-- Two states on the way through tokens that end once, without a fault, which agree in all but where
they stand. -/
structure Alike (s s' : State) : Prop where
  ends : EndsOnce s.tokens
  room : s.isFull = false
  faults : s'.faults = s.faults
  depth : s'.depth = s.depth
  mentions : s'.mentions = s.mentions
  openScopes : s'.openScopes = s.openScopes

/-- From the spot `c` on, `s'` has the same tokens as `s`, or a break more. -/
structure Beside (nl : Token) (c : Spot) (s s' : State) : Prop extends Alike s s' where
  previous : s'.previous = s.previous
  tokens : Slipped nl c s.tokens s'.tokens

/-- As `Beside`, but the next token is the same.  What was passed before it does not matter. -/
structure Clear (nl : Token) (c : Spot) (s s' : State) : Prop extends Alike s s' where
  current : s'.current = s.current
  ahead : Slipped nl (c.step s.current.kind) s.ahead s'.ahead

theorem Alike.refl (h : Alike s s') : Alike s s := ⟨h.ends, h.room, rfl, rfl, rfl, rfl⟩

theorem Clear.refl (nl : Token) (c : Spot) (h : Alike s s') : Clear nl c s s :=
  { h.refl with current := rfl, ahead := .done _ _ }

/-- A break that is more stands right here, or the next token is the same. -/
theorem Beside.clear_or (h : Beside nl c s s') :
    Clear nl c s s' ∨ (c.allows s.current.kind = true ∧ s'.current.kind = .newline) := by
  have htokens := h.tokens
  rw [State.tokens, State.tokens] at htokens
  generalize hts : s.current :: s.ahead = ts at htokens
  generalize hus : s'.current :: s'.ahead = us at htokens
  cases htokens with
  | done =>
    obtain ⟨hcurrent, hahead⟩ := List.cons.inj (hts.trans hus.symm)
    exact .inl { h with current := hcurrent.symm, ahead := hahead ▸ .done _ _ }
  | here hnl hallows =>
    obtain ⟨rfl, -⟩ := List.cons.inj hts
    exact .inr ⟨hallows, (List.cons.inj hus).1 ▸ hnl⟩
  | later hlater =>
    obtain ⟨rfl, rfl⟩ := List.cons.inj hts
    obtain ⟨hcurrent, rfl⟩ := List.cons.inj hus
    exact .inl { h with current := hcurrent, ahead := hlater }

/-- Where no break is allowed there is none more. -/
theorem Beside.clear (h : Beside nl c s s') (hallows : c.allows s.current.kind = false) :
    Clear nl c s s' := by
  rcases h.clear_or with hclear | ⟨hyes, -⟩
  · exact hclear
  · rw [hallows] at hyes
    cases hyes

/-! ## From one state to another -/

/-- What is left at `t` is no more than at `s`, and if lines break there only where they may, so they
do from `s` on. -/
structure Leads (c : Spot) (s : State) (d : Spot) (t : State) : Prop where
  length : t.tokens.length ≤ s.tokens.length
  tidy : Tidy d t.tokens → Tidy c s.tokens

theorem Leads.refl (c : Spot) (s : State) : Leads c s c s := ⟨Nat.le_refl _, id⟩

theorem Leads.trans (h : Leads c s d t) (h' : Leads d t e u) : Leads c s e u :=
  ⟨Nat.le_trans h'.length h.length, fun htidy => h.tidy (h'.tidy htidy)⟩

/-- A run from `s` arrives at `t`, beside which `t'` stands. -/
structure Arrives (nl : Token) (c : Spot) (s : State) (d : Spot) (t t' : State) : Prop where
  beside : Beside nl d t t'
  leads : Leads c s d t

/-- A run that arrives, and moved past a token. -/
structure Passed (nl : Token) (c : Spot) (s : State) (d : Spot) (t t' : State) : Prop
    extends Arrives nl c s d t t' where
  shorter : t.tokens.length < s.tokens.length

/-- Passing a token after arriving somewhere. -/
theorem Arrives.passed (h : Arrives nl c s d t t') (h' : Passed nl d t e u u') : Passed nl c s e u u' :=
  ⟨⟨h'.beside, h.leads.trans h'.leads⟩, Nat.lt_of_lt_of_le h'.shorter h.leads.length⟩

theorem Passed.of_leads (h : Leads c s d t) (h' : Passed nl d t e u u') : Passed nl c s e u u' :=
  ⟨⟨h'.beside, h.trans h'.leads⟩, Nat.lt_of_lt_of_le h'.shorter h.length⟩

/-- Arriving somewhere after passing a token. -/
theorem Passed.trans (h : Passed nl c s d t t') (h' : Arrives nl d t e u u') : Passed nl c s e u u' :=
  ⟨⟨h'.beside, h.leads.trans h'.leads⟩, Nat.lt_of_le_of_lt h'.leads.length h.shorter⟩

/-- Advancing moves to the next token. -/
theorem State.advance_eq {x : Token} {xs : List Token} (h : s.ahead = x :: xs) :
    s.advance = { s with current := x, ahead := xs, previous := some s.current } := by
  rw [State.advance, h]

/-- **Moving past a token that both have.** -/
theorem Clear.advance (h : Clear nl c s s') (hne : s.current.kind ≠ .eof)
    (hline : s.current.kind = .newline → c.inBrackets = false) :
    Passed nl c s (c.step s.current.kind) s.advance s'.advance := by
  obtain ⟨x, xs, hxs⟩ := List.exists_cons_of_ne_nil (State.ahead_ne_nil h.ends hne)
  have hslipped := h.ahead
  rw [hxs] at hslipped
  obtain ⟨y, ys, hys⟩ : ∃ y ys, s'.ahead = y :: ys := by
    refine List.exists_cons_of_ne_nil fun hnil => ?_
    rw [hnil] at hslipped
    cases hslipped
  have htokens : s.tokens = s.current :: (x :: xs) := by rw [State.tokens, hxs]
  rw [State.advance_eq hxs, State.advance_eq hys]
  refine ⟨⟨⟨⟨?_, h.room, h.faults, h.depth, h.mentions, h.openScopes⟩, ?_, ?_⟩, ⟨?_, ?_⟩⟩, ?_⟩
  · exact State.endsOnce_of_suffix h.ends ⟨[s.current], htokens.symm⟩
  · rw [h.current]
  · rw [hys] at hslipped
    exact hslipped
  · rw [htokens]
    exact Nat.le_succ _
  · intro htidy
    rw [htokens]
    exact ⟨fun hnewline hin => absurd hin (by simp [hline hnewline]), htidy⟩
  · rw [htokens]
    exact Nat.lt_succ_self _

/-! ## Moving over tokens -/

/-- Moving on stops at the first token that is not passed over. -/
theorem run_skipOver (look : Kind → Bool) (hlook : look .eof = false) : ∀ ahead (s : State),
    EndsOnce s.tokens → s.ahead = ahead → ∃ x xs, s.tokens.dropWhile (look ·.kind) = x :: xs ∧
      s.skipOver look ahead = (s.tokens.takeWhile (look ·.kind),
        { s with
          current := x, ahead := xs
          previous := (s.tokens.takeWhile (look ·.kind)).getLast?.or s.previous })
  | [], s, hs, hahead => by
    have heof : s.current.kind = .eof := by
      by_contra hne
      exact State.ahead_ne_nil hs hne hahead
    have hstop : look s.current.kind = false := by rw [heof, hlook]
    refine ⟨s.current, s.ahead, ?_, ?_⟩
    · rw [State.tokens, List.dropWhile_cons, hstop, if_neg Bool.false_ne_true]
    · rw [State.skipOver, State.tokens, List.takeWhile_cons, hstop, if_neg Bool.false_ne_true]
      rfl
  | y :: ys, s, hs, hahead => by
    unfold State.skipOver
    cases hhead : look s.current.kind with
    | true =>
      have hne : s.current.kind ≠ .eof := fun heq => by rw [heq, hlook] at hhead; cases hhead
      have htokens := State.tokens_advance hs hne
      have hahead' : s.advance.ahead = ys := by rw [State.advance, hahead]
      obtain ⟨x, xs, hdrop, hrun⟩ := run_skipOver look hlook ys s.advance
        (State.endsOnce_of_suffix hs ⟨[s.current], htokens.symm⟩) hahead'
      refine ⟨x, xs, ?_, ?_⟩
      · rw [htokens, List.dropWhile_cons, hhead, if_pos rfl, hdrop]
      · rw [if_pos rfl, hrun, htokens, List.takeWhile_cons, hhead, if_pos rfl, State.advance_eq hahead]
        simp [List.getLast?_cons, State.tokens]
    | false =>
      refine ⟨s.current, s.ahead, ?_, ?_⟩
      · rw [State.tokens, List.dropWhile_cons, hhead, if_neg Bool.false_ne_true]
      · rw [State.tokens, List.takeWhile_cons, hhead, if_neg Bool.false_ne_true]
        rfl

/-- Both move over layout, to the same token, and `d` is the spot before it. -/
structure Skips (nl : Token) (c : Spot) (s : State) (d : Spot) (t t' : State) : Prop where
  clear : Clear nl d t t'
  spot : (d = c ∧ t.current = s.current) ∨ d = c.pause
  solid : isLayout t.current.kind = false
  still : isLayout s.current.kind = false → t.current = s.current
  length : t.tokens.length ≤ s.tokens.length
  tidy : (c.inBrackets = true → c.allows t.current.kind = true) → Tidy d t.tokens → Tidy c s.tokens

/-- Moving over layout leads on where a break is allowed. -/
theorem Skips.leads (h : Skips nl c s d t t')
    (hallows : c.inBrackets = true → c.allows t.current.kind = true) : Leads c s d t :=
  ⟨h.length, h.tidy hallows⟩

/-- Moving over layout opens and closes nothing. -/
theorem Skips.enclosures (h : Skips nl c s d t t') : d.enclosures = c.enclosures := by
  rcases h.spot with ⟨rfl, -⟩ | rfl <;> rfl

/-- Where the line goes on, layout makes no difference. -/
theorem Skips.of_awaits (h : Skips nl c s d t t') (hc : c.Awaits) :
    Leads c s d t ∧ ∀ k, d.Starts k := by
  refine ⟨h.leads fun _ => Spot.allows_of_goesOn hc.goesOn, fun k => ?_⟩
  rcases h.spot with ⟨rfl, -⟩ | rfl
  · exact Spot.starts_of_plain hc.phase hc.operand
  · exact Spot.starts_of_plain rfl rfl

/-- **Both move over layout to the same token**, and find the same comments. -/
theorem run_continuation (h : Alike s s') (htokens : Slipped nl c s.tokens s'.tokens) :
    ∃ comments d t t',
      continuation s = (some comments, t) ∧ continuation s' = (some comments, t') ∧
      t.faults = s.faults ∧ Skips nl c s d t t' := by
  have hends' : EndsOnce s'.tokens := htokens.endsOnce h.ends
  obtain ⟨x, xs, hdrop, hrun⟩ := run_skipOver isLayout rfl s.ahead s h.ends rfl
  obtain ⟨x', ys, hdrop', hrun'⟩ := run_skipOver isLayout rfl s'.ahead s' hends' rfl
  obtain ⟨hcomments, hslipped⟩ := htokens.layout
  obtain ⟨zs, hzs, hahead⟩ := hslipped x xs hdrop
  obtain ⟨rfl, rfl⟩ := List.cons.inj (hdrop'.symm.trans hzs)
  have hsuffix : x' :: xs <:+ s.tokens := hdrop ▸ List.dropWhile_suffix _
  have hsolid : isLayout x'.kind = false := by
    have hhead := List.head?_dropWhile_not (isLayout ·.kind) s.tokens
    rw [hdrop] at hhead
    simpa using hhead
  have hstill : isLayout s.current.kind = false →
      s.tokens.takeWhile (isLayout ·.kind) = [] ∧ x' = s.current := fun hs => by
    rw [State.tokens, List.dropWhile_cons, hs, if_neg Bool.false_ne_true] at hdrop
    refine ⟨?_, (List.cons.inj hdrop).1.symm⟩
    rw [State.tokens, List.takeWhile_cons, hs, if_neg Bool.false_ne_true]
  generalize hcs : s.tokens.takeWhile (isLayout ·.kind) = skipped at *
  generalize hcs' : s'.tokens.takeWhile (isLayout ·.kind) = skipped' at *
  refine ⟨skipped.filterMap comment?, c.after skipped,
    { s with current := x', ahead := xs, previous := skipped.getLast?.or s.previous },
    { s' with current := x', ahead := ys, previous := skipped'.getLast?.or s'.previous },
    ?_, ?_, rfl, ?_⟩
  · rw [continuation, bind_some (by rw [skip, hrun])]
    rfl
  · rw [continuation, bind_some (by rw [skip, hrun']), ← hcomments]
    rfl
  · refine
      { clear := ⟨⟨?_, h.room, h.faults, h.depth, h.mentions, h.openScopes⟩, rfl, hahead⟩
        spot := ?_
        solid := hsolid
        still := fun hs => (hstill hs).2
        length := hsuffix.length_le
        tidy := fun hallows htidy => Tidy.of_layout hdrop hallows (hcs ▸ htidy) }
    · exact State.endsOnce_of_suffix (t := { s with current := x', ahead := xs }) h.ends hsuffix
    · cases hs : isLayout s.current.kind with
      | false =>
        obtain ⟨rfl, hcurrent⟩ := hstill hs
        exact .inl ⟨rfl, hcurrent⟩
      | true =>
        refine .inr (Spot.after_layout (fun t ht => ?_) fun hnil => ?_)
        · exact List.all_eq_true.mp (hcs ▸ List.all_takeWhile) t ht
        · rw [hnil, State.tokens, List.takeWhile_cons, hs, if_pos rfl] at hcs
          cases hcs

/-- **Both move over what stands between statements**, to the same token unless it closes something. -/
theorem Beside.lineStart (h : Beside nl c s s') (hflat : c.Flat) (hstarts : c.Starts s.current.kind) :
    ∃ d, d.Flat ∧ d.enclosures = c.enclosures ∧
      d.Starts s.lineStart.current.kind ∧ Leads c s d s.lineStart ∧
      Alike s.lineStart s.lineStart ∧ s.lineStart.faults = s.faults ∧
      (Spot.closes s.lineStart.current.kind = false → Clear nl d s.lineStart s'.lineStart) := by
  have hends' : EndsOnce s'.tokens := h.tokens.endsOnce h.ends
  obtain ⟨x, xs, hdrop, hrun⟩ := run_skipOver isSeparator rfl s.ahead s h.ends rfl
  obtain ⟨x', ys, hdrop', hrun'⟩ := run_skipOver isSeparator rfl s'.ahead s' hends' rfl
  have hstart : ∀ t ∈ s.tokens.head?, c.Starts t.kind := fun t ht => by
    obtain rfl : s.current = t := Option.some.inj ht
    exact hstarts
  have hline : ∀ (v w : State) (skipped : List Token),
      v.skipOver isSeparator v.ahead = (skipped, w) → v.lineStart = w := fun v w skipped hv => by
    rw [State.lineStart, separators, bind_some (by rw [skip, hv])]
    rfl
  obtain ⟨d, hd, hdflat, henclosures, hdstarts, htidy⟩ := hflat.after_separators hstart hdrop
  have hsuffix : x :: xs <:+ s.tokens := hdrop ▸ List.dropWhile_suffix _
  have hends : EndsOnce (x :: xs) :=
    State.endsOnce_of_suffix (t := { s with current := x, ahead := xs }) h.ends hsuffix
  rw [hline s _ _ hrun, hline s' _ _ hrun']
  refine ⟨d, hdflat, henclosures, hdstarts, ⟨hsuffix.length_le, htidy⟩,
    ⟨hends, h.room, rfl, rfl, rfl, rfl⟩, rfl, fun hcloses => ?_⟩
  obtain ⟨htake, zs, hzs, hahead⟩ := h.tokens.separators hflat hstart hdrop hcloses
  obtain ⟨rfl, rfl⟩ := List.cons.inj (hdrop'.symm.trans hzs)
  exact ⟨⟨hends, h.room, h.faults, h.depth, h.mentions, h.openScopes⟩, rfl, hd ▸ hahead⟩

end Reader

end ScriptBundler

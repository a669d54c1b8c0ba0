import ScriptBundler.Proofs.Image
import ScriptBundler.Proofs.Level
import ScriptBundler.Proofs.Reading

/-!
# Proofs/Phrase — tokens that are read as an expression

`Phrase k e ks` says that tokens of the kinds `ks` are an expression of level `k`, and that reading them
yields `e`, up to stretches and comments.  For each way in which the grammar puts an expression
together there is a lemma that puts phrases together.

Levels count from loose to tight.  Operators that group to the left are read by a loop, and a phrase of
their level may be the first operand of a longer one.  So the fact about a phrase is that reading comes
to the loop with `e` in hand, before any tokens that do not bind tighter (`Phrase.turns`); that it comes
to an end before tokens that do not bind at all follows (`Phrase.reads`).
-/

namespace ScriptBundler

open Token (Kind)

/-! ## Levels -/

namespace Reader

/-- The level at which a token goes on an expression before it. -/
def binding : Kind → Option Nat
  | .keyword .or => some 0
  | .keyword .and => some 1
  | .keyword .isa => some 3
  | .symbol s =>
    match s with
    | .equal | .notEqual | .less | .greater | .lessEqual | .greaterEqual => some 3
    | .pipe => some 4
    | .amp => some 5
    | .shiftLeft | .shiftRight | .shiftRightZero => some 6
    | .plus | .minus => some 7
    | .star | .slash | .percent => some 8
    | .caret => some 10
    | .dot | .openBracket | .openParen => some 11
    | _ => none
  | _ => none

/-- What follows does not go on an expression of level `k`. -/
def Halts (k : Nat) (rest : List Kind) : Prop := ∀ j ∈ binding (next rest), j < k

/-- What ends a loose expression ends a tight one. -/
theorem Halts.mono {j k : Nat} {rest : List Kind} (h : Halts j rest) (hjk : j ≤ k) : Halts k rest :=
  fun i hi => Nat.lt_of_lt_of_le (h i hi) hjk

/-- Tokens that an expression of level `k` can start with. -/
def startsAt (k : Nat) : Kind → Bool
  | .number .. | .string .. | .identifier _ => true
  | .keyword w =>
    match w with
    | .true | .false | .null | .function => true
    | .not => k ≤ 2
    | .new => k ≤ 9
    | _ => false
  | .symbol s =>
    match s with
    | .openParen | .openBracket | .openBrace | .hash => true
    | .minus => k ≤ 9
    | .address => k ≤ 10
    | _ => false
  | _ => false

/-- What starts a tight expression starts a loose one. -/
theorem startsAt_mono {j k : Nat} (hjk : j ≤ k) {t : Kind} (h : startsAt k t = true) :
    startsAt j t = true := by
  revert h
  fun_cases startsAt k t <;> simp [startsAt] <;> omega

/-- The operators of a level that is read by a loop. -/
def opsAt : Nat → List BinaryOp
  | 0 => [.or]
  | 1 => [.and]
  | 3 => [.equal, .notEqual, .less, .greater, .lessEqual, .greaterEqual, .isa]
  | 4 => [.bitOr]
  | 5 => [.bitAnd]
  | 6 => [.shiftLeft, .shiftRight, .shiftRightZero]
  | 7 => [.add, .sub]
  | 8 => [.mul, .div, .mod]
  | _ => []

/-- The reader of a level. -/
def atLevel (n : Nat) : Nat → Reader Expr
  | 0 => levels n looseLevels (negation n)
  | 1 => levels n (looseLevels.drop 1) (negation n)
  | 2 => negation n
  | 3 => levels n tightLevels (unary n)
  | 4 => levels n (tightLevels.drop 1) (unary n)
  | 5 => levels n (tightLevels.drop 2) (unary n)
  | 6 => levels n (tightLevels.drop 3) (unary n)
  | 7 => levels n (tightLevels.drop 4) (unary n)
  | 8 => levels n (tightLevels.drop 5) (unary n)
  | 9 => unary n
  | 10 => address n
  | _ => do suffixes (expression n) n (← primary n)

instance (n k : Nat) : Grows (atLevel n k) := by
  fun_cases atLevel n k <;> infer_instance

/-- How reading goes on at a level, with `e` in hand. -/
def goOn (n : Nat) : Nat → Nat → Expr → Reader Expr
  | 2, _, e | 9, _, e | 10, _, e => pure e
  | 11, m, e => suffixes (expression n) m e
  | k, m, e => joinLeft (opsAt k) (atLevel n (k + 1)) m e

/-- What the bound may fall short of eight for each token. -/
def slack (k : Nat) : Nat := if k ≤ 2 then 2 else if k ≤ 9 then 3 else k - 6

/-- The levels that are read by a loop over operators. -/
def isLoop (k : Nat) : Bool := !(opsAt k).isEmpty

theorem isLoop_cases {k : Nat} (h : isLoop k = true) :
    k = 0 ∨ k = 1 ∨ k = 3 ∨ k = 4 ∨ k = 5 ∨ k = 6 ∨ k = 7 ∨ k = 8 := by
  revert h
  unfold isLoop
  fun_cases opsAt k <;> simp

/-- A level with a loop reads operands of the next one. -/
theorem atLevel_loop (n : Nat) {k : Nat} (h : isLoop k = true) :
    atLevel n k = level n (opsAt k) (atLevel n (k + 1)) := by
  rcases isLoop_cases h with rfl | rfl | rfl | rfl | rfl | rfl | rfl | rfl <;> rfl

/-- With an operand in hand, a loop looks for the operators of its level. -/
theorem goOn_loop (n m : Nat) {k : Nat} (h : isLoop k = true) (e : Expr) :
    goOn n k m e = joinLeft (opsAt k) (atLevel n (k + 1)) m e := by
  rcases isLoop_cases h with rfl | rfl | rfl | rfl | rfl | rfl | rfl | rfl <;> rfl

/-- The operators of a level bind at that level. -/
theorem binding_of_mem_opsAt {k : Nat} {op : BinaryOp} (h : op ∈ opsAt k) :
    binding op.token = some k := by
  revert h
  fun_cases opsAt k <;> cases op <;> simp [binding, BinaryOp.token]

/-- Where nothing goes on an expression, its reading ends. -/
theorem Steps.goOn (n : Nat) {k m : Nat} {rest : List Kind} (hk : k ≤ 11) (e : Expr) (hm : 0 < m)
    (h : Halts k rest) : Steps (goOn n k m e) rest rest (· = e) := by
  obtain ⟨m, rfl⟩ := Nat.exists_eq_succ_of_ne_zero (Nat.ne_of_gt hm)
  cases hloop : isLoop k with
  | true =>
    rw [goOn_loop n _ hloop]
    refine trans kind fun got hgot => ?_
    have hnone : (opsAt k).find? (fun op => op.token == got) = none := by
      refine List.find?_eq_none.mpr fun op hop htoken => ?_
      have hbind : binding (next rest) = some k := by
        rw [← hgot, ← eq_of_beq htoken]
        exact binding_of_mem_opsAt hop
      exact Nat.lt_irrefl k (h k hbind)
    rw [hnone]
    exact pure rfl
  | false =>
    have hcases : ∀ k ≤ 11, isLoop k = false → k = 2 ∨ k = 9 ∨ k = 10 ∨ k = 11 := by decide
    rcases hcases k hk hloop with rfl | rfl | rfl | rfl
    · exact pure rfl
    · exact pure rfl
    · exact pure rfl
    · refine trans kind fun got hgot => ?_
      have hsuffix : ∀ s, got = .symbol s → binding got ≠ some 11 := fun s _ hbind =>
        Nat.lt_irrefl 11 (h 11 (hgot ▸ hbind))
      split
      · exact absurd rfl (hsuffix _ rfl)
      · exact absurd rfl (hsuffix _ rfl)
      · exact absurd rfl (hsuffix _ rfl)
      · exact pure rfl

end Reader

open Reader

/-- Tokens start like an expression of level `k`.  If they start with a directive, it is one that
stands for a value. -/
structure Starts (k : Nat) (ks : List Kind) : Prop where
  head : startsAt k (next ks) = true
  directive : next ks = .symbol .hash →
    ∃ name ∈ valueDirectives, ∃ ts, ks = .symbol .hash :: .identifier name :: ts

namespace Starts

variable {k : Nat} {ks : List Kind}

theorem cons (h : Starts k ks) : ∃ t ts, ks = t :: ts ∧ startsAt k t = true := by
  cases ks with
  | nil => cases h.head
  | cons t ts => exact ⟨t, ts, rfl, h.head⟩

theorem mono {j : Nat} (h : Starts k ks) (hjk : j ≤ k) : Starts j ks :=
  ⟨startsAt_mono hjk h.head, h.directive⟩

theorem append (h : Starts k ks) (ls : List Kind) : Starts k (ks ++ ls) := by
  obtain ⟨t, ts, rfl, ht⟩ := h.cons
  refine ⟨ht, fun hhash => ?_⟩
  obtain ⟨name, hname, us, heq⟩ := h.directive hhash
  exact ⟨name, hname, us ++ ls, by rw [heq]; rfl⟩

/-- Tokens that do not start with a directive. -/
theorem of_head {t : Kind} (ht : startsAt k t = true) (hhash : t ≠ .symbol .hash) (ts : List Kind) :
    Starts k (t :: ts) :=
  ⟨ht, fun h => absurd h hhash⟩

end Starts

/-- Tokens of the kinds `ks` are an expression of level `k` and are read as `e`. -/
structure Phrase (k : Nat) (e : Expr) (ks : List Kind) : Prop where
  starts : Starts k ks
  turns : ∀ n rest, 8 * ks.length ≤ n + slack k → Halts (k + 1) rest →
    Turns (atLevel n k) (ks ++ rest) rest fun q =>
      ∃ m e', q = goOn n k m e' ∧ e'.bare = e ∧ n ≤ m + ks.length

namespace Phrase

variable {k n : Nat} {e : Expr} {ks rest : List Kind}

/-- A phrase has tokens. -/
theorem length_pos (h : Phrase k e ks) : 0 < ks.length := by
  obtain ⟨t, ts, rfl, -⟩ := h.starts.cons
  exact Nat.succ_pos _

theorem next_append (h : Phrase k e ks) (rest : List Kind) : startsAt k (next (ks ++ rest)) = true :=
  (h.starts.append rest).head

theorem slack_le (hk : k ≤ 11) : slack k ≤ 5 := by
  unfold slack
  split <;> try split
  all_goals omega

/-- A bound that suffices is not used up at once. -/
theorem exists_succ (h : Phrase k e ks) {j : Nat} (hj : j ≤ 11) (hn : 8 * ks.length ≤ n + slack j) :
    ∃ m, n = m + 1 := by
  have hpos := h.length_pos
  have hslack := slack_le hj
  exact ⟨n - 1, by omega⟩

/-- **A phrase is read as a whole** where nothing goes on it. -/
theorem reads (h : Phrase k e ks) (hk : k ≤ 11) (hn : 8 * ks.length ≤ n + slack k)
    (hrest : Halts k rest) : Reads (atLevel n k) (ks ++ rest) rest (·.bare = e) := by
  refine Turns.trans (h.turns n rest hn (hrest.mono (Nat.le_succ k))) ?_
  rintro _ ⟨m, e', rfl, he, hm⟩
  have hpos := h.length_pos
  have hslack := slack_le hk
  exact ((Steps.goOn n hk e' (by omega) hrest).reads).mono fun _ ha => ha ▸ he

/-- An expression of any level, in brackets or on its own. -/
theorem expression (h : Phrase 0 e ks) (hn : 8 * ks.length ≤ n + 1) (hrest : Halts 0 rest) :
    Reads (expression n) (ks ++ rest) rest (·.bare = e) := by
  have hpos := h.length_pos
  cases n with
  | zero => omega
  | succ n => exact (h.reads (n := n) (by decide) hn hrest).nested

/-! ## A tight expression is a loose one -/

/-- A loop without an operator reads its only operand. -/
theorem loosen_loop (hloop : isLoop k = true) (h : Phrase (k + 1) e ks) : Phrase k e ks := by
  have hk : k + 1 ≤ 11 := by
    rcases isLoop_cases hloop with h | h | h | h | h | h | h | h <;> omega
  have hslack : slack (k + 1) = slack k := by
    rcases isLoop_cases hloop with rfl | rfl | rfl | rfl | rfl | rfl | rfl | rfl <;> rfl
  refine ⟨h.starts.mono (Nat.le_succ k), fun n rest hn hrest => ?_⟩
  rw [atLevel_loop n hloop]
  refine Turns.trans (Turns.bind (h.reads hk (hslack ▸ hn) hrest)) ?_
  rintro _ ⟨e', rfl, he⟩
  exact Turns.refl ⟨n, e', (goOn_loop n n hloop e').symm, he, Nat.le_add_right ..⟩

theorem loosen_negation (h : Phrase 3 e ks) : Phrase 2 e ks := by
  obtain ⟨t, ts, rfl, ht⟩ := h.starts.cons
  refine ⟨h.starts.mono (by decide), fun n rest hn hrest => ?_⟩
  have hnot : t ≠ .keyword .not := by rintro rfl; exact absurd ht (by decide)
  obtain ⟨n, rfl⟩ := h.exists_succ (by decide) hn
  refine Steps.turns (Steps.check _) fun b hb => ?_
  rw [hb, List.cons_append, next, beq_eq_false_iff_ne.mpr hnot, if_neg Bool.false_ne_true]
  refine Turns.mono (h.reads (n := n) (by decide) hn hrest) ?_
  rintro _ ⟨e', rfl, he⟩
  exact ⟨n + 1, e', rfl, he, Nat.le_add_right ..⟩

theorem loosen_unary (h : Phrase 10 e ks) : Phrase 9 e ks := by
  obtain ⟨t, ts, rfl, ht⟩ := h.starts.cons
  refine ⟨h.starts.mono (by decide), fun n rest hn hrest => ?_⟩
  obtain ⟨n, rfl⟩ := h.exists_succ (by decide) hn
  refine Steps.turns Steps.kind fun got hgot => ?_
  replace hgot : got = t := hgot
  subst hgot
  split
  · exact absurd ht (by decide)
  · exact absurd ht (by decide)
  · refine Turns.trans (Turns.bind (h.reads (n := n) (by decide) hn hrest)) ?_
    rintro _ ⟨e', rfl, he⟩
    have hcaret : next rest ≠ .symbol .caret := fun hnext =>
      absurd (hrest 10 (by rw [hnext]; rfl)) (by decide)
    refine Steps.turns (Steps.not_eat hcaret) fun b hb => ?_
    rw [hb, if_neg Bool.false_ne_true]
    exact Turns.refl ⟨n + 1, e', rfl, he, Nat.le_add_right ..⟩

theorem loosen_address (h : Phrase 11 e ks) : Phrase 10 e ks := by
  obtain ⟨t, ts, rfl, ht⟩ := h.starts.cons
  refine ⟨h.starts.mono (by decide), fun n rest hn hrest => ?_⟩
  have haddress : t ≠ .symbol .address := by rintro rfl; exact absurd ht (by decide)
  obtain ⟨n, rfl⟩ := h.exists_succ (by decide) hn
  refine Steps.turns (Steps.check _) fun b hb => ?_
  rw [hb, List.cons_append, next, beq_eq_false_iff_ne.mpr haddress, if_neg Bool.false_ne_true]
  refine Turns.mono (h.reads (n := n) (by decide) hn hrest) ?_
  rintro _ ⟨e', rfl, he⟩
  exact ⟨n + 1, e', rfl, he, Nat.le_add_right ..⟩

/-- An expression is one of the next looser level. -/
theorem loosen_succ (hk : k ≤ 10) (h : Phrase (k + 1) e ks) : Phrase k e ks := by
  cases hloop : isLoop k with
  | true => exact loosen_loop hloop h
  | false =>
    have hcases : ∀ k ≤ 10, isLoop k = false → k = 2 ∨ k = 9 ∨ k = 10 := by decide
    rcases hcases k hk hloop with rfl | rfl | rfl
    · exact loosen_negation h
    · exact loosen_unary h
    · exact loosen_address h

/-- **A tight expression is a loose one.** -/
theorem loosen {j : Nat} (h : Phrase j e ks) (hj : j ≤ 11) (hk : k ≤ j) : Phrase k e ks := by
  induction j with
  | zero => exact Nat.le_zero.mp hk ▸ h
  | succ j ih =>
    rcases Nat.lt_or_ge j k with hlt | hge
    · exact Nat.le_antisymm hlt hk ▸ h
    · exact ih (loosen_succ (by omega) h) (by omega) hge

/-! ## Operators -/

/-- No expression starts with a line break or a comment. -/
theorem isLayout_of_startsAt {t : Kind} (ht : startsAt k t = true) : isLayout t = false := by
  cases t <;> first | rfl | cases ht

/-- The line goes on up to a phrase. -/
theorem continuation {gap : List Kind} (h : Phrase k e ks) (hgap : ∀ t ∈ gap, isLayout t = true) :
    Steps continuation (gap ++ (ks ++ rest)) (ks ++ rest) fun _ => True :=
  Steps.continuation hgap (isLayout_of_startsAt (h.next_append rest))

/-- Comments before the right operand do not change the bare expression. -/
theorem bare_mkBinary (op : BinaryOp) (l r : Expr) (cs : List Comment) :
    (mkBinary op l (Item.lead r cs)).bare = (Expr.Form.binary op l.bare r.bare).node := by
  rw [← Expr.bare_lead r cs]
  rfl

theorem isLoop_level {op : BinaryOp} (hop : op ≠ .pow) : isLoop op.level = true := by
  cases op <;> first | rfl | exact absurd rfl hop

/-- An operator binds at its own level. -/
theorem binding_token {op : BinaryOp} (hop : op ≠ .pow) : binding op.token = some op.level := by
  cases op <;> first | rfl | exact absurd rfl hop

/-- An operator is found among those of its level. -/
theorem find?_token {op : BinaryOp} (hop : op ≠ .pow) :
    (opsAt op.level).find? (fun o => o.token == op.token) = some op := by
  cases op <;> first | rfl | exact absurd rfl hop

/-- **Two operands**, the left one as loose as the operator. -/
theorem binary {op : BinaryOp} {l r : Expr} {ls gap rs : List Kind} (hop : op ≠ .pow)
    (hl : Phrase op.level l ls) (hgap : ∀ t ∈ gap, isLayout t = true)
    (hr : Phrase (op.level + 1) r rs) :
    Phrase op.level (Expr.Form.binary op l r).node (ls ++ op.token :: (gap ++ rs)) := by
  have hloop := isLoop_level hop
  have hk : op.level + 1 ≤ 11 := by cases op <;> decide
  have hslack : slack (op.level + 1) = slack op.level := by
    cases op <;> first | rfl | exact absurd rfl hop
  refine ⟨hl.starts.append _, fun n rest hn hrest => ?_⟩
  simp only [List.append_assoc, List.cons_append, List.length_append, List.length_cons] at hn ⊢
  have hhalts : Halts (op.level + 1) (op.token :: (gap ++ (rs ++ rest))) := by
    intro j hj
    rw [next, binding_token hop, Option.mem_some] at hj
    omega
  refine Turns.trans (hl.turns n _ (by omega) hhalts) ?_
  rintro _ ⟨m, l', rfl, rfl, hm⟩
  have hslack_le := slack_le (Nat.le_of_succ_le hk)
  obtain ⟨m, rfl⟩ : ∃ m', m = m' + 1 := ⟨m - 1, by omega⟩
  rw [goOn_loop n _ hloop]
  refine Steps.turns Steps.kind fun got hgot => ?_
  rw [hgot, next, find?_token hop]
  refine Steps.turns (Steps.advance _) fun _ _ => Steps.turns (hr.continuation hgap) fun cs _ => ?_
  refine Turns.trans (Turns.bind (hr.reads hk (by omega) hrest)) ?_
  rintro _ ⟨r', rfl, rfl⟩
  exact Turns.refl ⟨m, _, (goOn_loop n m hloop _).symm, bare_mkBinary op l' r' cs, by omega⟩

/-- Where a level is not read by a loop, also what is of that level may follow. -/
theorem reads_single (h : Phrase k e ks) (hk : k = 2 ∨ k = 9 ∨ k = 10)
    (hn : 8 * ks.length ≤ n + slack k) (hrest : Halts (k + 1) rest) :
    Reads (atLevel n k) (ks ++ rest) rest (·.bare = e) := by
  refine Turns.mono (h.turns n rest hn hrest) ?_
  rintro _ ⟨m, e', rfl, he, -⟩
  rcases hk with rfl | rfl | rfl <;> exact ⟨e', rfl, he⟩

/-- **A power**, whose right operand may be one. -/
theorem pow {l r : Expr} {ls gap rs : List Kind} (hl : Phrase 10 l ls)
    (hgap : ∀ t ∈ gap, isLayout t = true) (hr : Phrase 9 r rs) :
    Phrase 9 (Expr.Form.binary .pow l r).node (ls ++ .symbol .caret :: (gap ++ rs)) := by
  obtain ⟨t, ts, rfl, ht⟩ := hl.starts.cons
  refine ⟨(hl.starts.append _).mono (by decide), fun n rest hn hrest => ?_⟩
  simp only [List.append_assoc, List.cons_append, List.length_append, List.length_cons] at hn ⊢
  change _ ≤ n + 3 at hn
  obtain ⟨n, rfl⟩ : ∃ m, n = m + 1 := ⟨n - 1, by omega⟩
  refine Steps.turns Steps.kind fun got hgot => ?_
  replace hgot : got = t := hgot
  subst hgot
  split
  · exact absurd ht (by decide)
  · exact absurd ht (by decide)
  · have hhalts : Halts 11 (.symbol .caret :: (gap ++ (rs ++ rest))) := by
      rintro j ⟨⟩
      decide
    have hln : 8 * (got :: ts).length ≤ n + 4 := by simp only [List.length_cons]; omega
    refine Turns.trans (Turns.bind (hl.reads_single (n := n) (by decide) hln hhalts)) ?_
    rintro _ ⟨l', rfl, rfl⟩
    refine Steps.turns (Steps.eat _) fun b hb => ?_
    rw [hb, if_pos rfl]
    refine Steps.turns (hr.continuation hgap) fun cs _ => ?_
    have hrn : 8 * rs.length ≤ n + 3 := by omega
    refine Turns.trans (Turns.bind (hr.reads_single (n := n) (by decide) hrn hrest).nested) ?_
    rintro _ ⟨r', rfl, rfl⟩
    exact Turns.refl ⟨n + 1, _, rfl, bare_mkBinary .pow l' r' cs, by omega⟩

theorem bare_mkUnary (op : UnaryOp) (start : Span) (e : Expr) :
    (mkUnary op start e).bare = (Expr.Form.unary op e.bare).node := rfl

/-- A `not` before a phrase. -/
theorem negation_not (h : Phrase 2 e ks) :
    Phrase 2 (Expr.Form.unary .not e).node (.keyword .not :: ks) := by
  refine ⟨.of_head rfl (by decide) ks, fun n rest hn hrest => ?_⟩
  change 8 * (ks.length + 1) ≤ n + 2 at hn
  obtain ⟨n, rfl⟩ : ∃ m, n = m + 1 := ⟨n - 1, by omega⟩
  refine Steps.turns (Steps.check _) fun b hb => ?_
  rw [hb, List.cons_append, next, beq_self_eq_true, if_pos rfl]
  refine Steps.turns (Steps.advance _) fun start _ => ?_
  have hkn : 8 * ks.length ≤ n + 2 := by omega
  refine Turns.trans (Turns.bind (h.reads_single (n := n) (by decide) hkn hrest).nested) ?_
  rintro _ ⟨e', rfl, rfl⟩
  exact Turns.refl ⟨n + 1, _, rfl, bare_mkUnary .not _ e', Nat.le_add_right ..⟩

/-- A `new` before a phrase. -/
theorem unary_new (h : Phrase 9 e ks) :
    Phrase 9 (Expr.Form.unary .new e).node (.keyword .new :: ks) := by
  refine ⟨.of_head rfl (by decide) ks, fun n rest hn hrest => ?_⟩
  change 8 * (ks.length + 1) ≤ n + 3 at hn
  obtain ⟨n, rfl⟩ : ∃ m, n = m + 1 := ⟨n - 1, by omega⟩
  refine Steps.turns Steps.kind fun got hgot => ?_
  subst hgot
  refine Steps.turns (Steps.advance _) fun start _ => ?_
  have hkn : 8 * ks.length ≤ n + 3 := by omega
  refine Turns.trans (Turns.bind (h.reads_single (n := n) (by decide) hkn hrest).nested) ?_
  rintro _ ⟨e', rfl, rfl⟩
  exact Turns.refl ⟨n + 1, _, rfl, bare_mkUnary .new _ e', Nat.le_add_right ..⟩

/-- An `@` before a phrase. -/
theorem address_of (h : Phrase 10 e ks) :
    Phrase 10 (Expr.Form.unary .address e).node (.symbol .address :: ks) := by
  refine ⟨.of_head rfl (by decide) ks, fun n rest hn hrest => ?_⟩
  change 8 * (ks.length + 1) ≤ n + 4 at hn
  obtain ⟨n, rfl⟩ : ∃ m, n = m + 1 := ⟨n - 1, by omega⟩
  refine Steps.turns (Steps.check _) fun b hb => ?_
  rw [hb, List.cons_append, next, beq_self_eq_true, if_pos rfl]
  refine Steps.turns (Steps.advance _) fun start _ => ?_
  have hkn : 8 * ks.length ≤ n + 4 := by omega
  refine Turns.trans (Turns.bind (h.reads_single (n := n) (by decide) hkn hrest).nested) ?_
  rintro _ ⟨e', rfl, rfl⟩
  exact Turns.refl ⟨n + 1, _, rfl, bare_mkUnary .address _ e', Nat.le_add_right ..⟩

/-- **An operator before an operand.** -/
theorem unary {op : UnaryOp} (hop : op ≠ .neg) (h : Phrase op.level e ks) :
    Phrase op.level (Expr.Form.unary op e).node (op.token :: ks) := by
  cases op with
  | neg => exact absurd rfl hop
  | not => exact negation_not h
  | new => exact unary_new h
  | address => exact address_of h

/-- What a minus makes of an operand depends on the bare operand only. -/
theorem negative_reads (start : Span) (e : Expr) :
    Steps (negative start e) rest rest (·.bare = e.bare.negate.node) := by
  obtain ⟨form, span, cs⟩ := e
  unfold negative
  split
  · rename_i raw value hform
    obtain rfl : form = .literal (.number raw value false) := hform
    exact Steps.trans (Steps.mentioned _) fun _ _ => Steps.pure rfl
  · rename_i hform
    refine Steps.pure ?_
    rw [bare_mkUnary, Expr.negate_of_not_isUnsigned]
    cases form with
    | literal l =>
      cases l with
      | number raw value negated =>
        cases negated with
        | true => rfl
        | false => exact absurd rfl (hform raw value)
      | _ => rfl
    | _ => rfl

/-- **A minus before an operand.** -/
theorem minus (h : Phrase 9 e ks) : Phrase 9 e.negate.node (.symbol .minus :: ks) := by
  refine ⟨.of_head rfl (by decide) ks, fun n rest hn hrest => ?_⟩
  change 8 * (ks.length + 1) ≤ n + 3 at hn
  obtain ⟨n, rfl⟩ : ∃ m, n = m + 1 := ⟨n - 1, by omega⟩
  refine Steps.turns Steps.kind fun got hgot => ?_
  subst hgot
  refine Steps.turns (Steps.advance _) fun start _ => ?_
  have hkn : 8 * ks.length ≤ n + 3 := by omega
  refine Turns.trans (Turns.bind (h.reads_single (n := n) (by decide) hkn hrest).nested) ?_
  rintro _ ⟨e', rfl, rfl⟩
  refine Turns.mono (negative_reads _ e').reads ?_
  rintro _ ⟨a, rfl, ha⟩
  exact ⟨n + 1, a, rfl, ha, Nat.le_add_right ..⟩

end Phrase

/-! ## Items between brackets -/

/-- Line breaks and comments. -/
def Gap (ks : List Kind) : Prop := ∀ k ∈ ks, isLayout k = true

theorem Gap.nil : Gap [] := by simp [Gap]

theorem Gap.newline : Gap [.newline] := by simp [Gap, isLayout]

theorem Gap.append {ks ls : List Kind} (hks : Gap ks) (hls : Gap ls) : Gap (ks ++ ls) :=
  fun k hk => (List.mem_append.mp hk).elim (hks k) (hls k)

/-- Items with commas between them, and with gaps after items and commas.  `A` says how an item is
written. -/
inductive Separated {α : Type} (A : α → List Kind → Prop) : List α → List Kind → Prop where
  | nil : Separated A [] []
  | last {a : α} {ks gap : List Kind} : A a ks → Gap gap → Separated A [a] (ks ++ gap)
  | lastComma {a : α} {ks gap gap' : List Kind} : A a ks → Gap gap → Gap gap' →
      Separated A [a] (ks ++ (gap ++ .symbol .comma :: gap'))
  | cons {a : α} {as : List α} {ks gap gap' ls : List Kind} : A a ks → Gap gap → Gap gap' →
      as ≠ [] → Separated A as ls →
      Separated A (a :: as) (ks ++ (gap ++ .symbol .comma :: (gap' ++ ls)))

/-- Where an item ends. -/
def EndsItem (close : Kind) (rest : List Kind) : Prop :=
  isLayout (next rest) = true ∨ next rest = .symbol .comma ∨ next rest = close

/-- An item ends before a gap and what comes after it. -/
theorem EndsItem.gap {close : Kind} {gap rest : List Kind} (hgap : Gap gap)
    (hrest : next rest = .symbol .comma ∨ next rest = close) : EndsItem close (gap ++ rest) := by
  cases gap with
  | nil => exact .inr hrest
  | cons k gap => exact .inl (hgap k (List.mem_cons_self ..))

/-- How a reader of items deals with an item that is written as `A` says. -/
structure ReadsItem {α : Type} [Item α] [Bare α] (item : Reader α) (close : Kind) (N : Nat)
    (A : α → List Kind → Prop) : Prop where
  opens : ∀ {a ks}, A a ks → ∀ rest, next (ks ++ rest) ≠ close ∧ isLayout (next (ks ++ rest)) = false
  reads : ∀ {a ks}, A a ks → ks.length ≤ N → ∀ rest, EndsItem close rest →
    Reads item (ks ++ rest) rest (Bare.bare · = a)

namespace Separated

variable {α : Type} {A : α → List Kind → Prop} [Item α] [Bare α]

/-- Items do not start with the closing bracket or with layout. -/
theorem opens {item : Reader α} {close : Kind} {N : Nat} (hitem : ReadsItem item close N A)
    {as : List α} {ks : List Kind} (h : Separated A as ks) (has : as ≠ []) (rest : List Kind) :
    next (ks ++ rest) ≠ close ∧ isLayout (next (ks ++ rest)) = false := by
  cases h with
  | nil => exact absurd rfl has
  | last ha _ => rw [List.append_assoc]; exact hitem.opens ha _
  | lastComma ha _ _ => rw [List.append_assoc]; exact hitem.opens ha _
  | cons ha _ _ _ _ => rw [List.append_assoc]; exact hitem.opens ha _

/-- **Items between brackets are read one by one.** -/
theorem reads {item : Reader α} [Grows item] {close : Kind} {N : Nat}
    (hitem : ReadsItem item close N A) (hlayout : isLayout close = false)
    (hcomma : close ≠ .symbol .comma) {as : List α} {ks : List Kind} (h : Separated A as ks)
    (hN : ks.length ≤ N) {m : Nat} (hm : ks.length < m) (pending : List Comment)
    (rest : List Kind) :
    Reads (items close item m pending) (ks ++ close :: rest) (close :: rest)
      (fun r => r.1.map Bare.bare = as) := by
  obtain ⟨m, rfl⟩ : ∃ m', m = m' + 1 := ⟨m - 1, by omega⟩
  induction h generalizing m pending with
  | nil =>
    refine Steps.bind (Steps.check close) fun b hb => ?_
    rw [hb, List.nil_append, next, beq_self_eq_true, if_pos rfl]
    exact Reads.pure rfl
  | @last a ks gap ha hgap =>
    simp only [List.append_assoc, List.length_append] at hN hm ⊢
    obtain ⟨hclose, -⟩ := hitem.opens ha (gap ++ close :: rest)
    refine Steps.bind (Steps.check close) fun b hb => ?_
    rw [hb, beq_eq_false_iff_ne.mpr hclose, if_neg Bool.false_ne_true]
    refine Reads.bind (hitem.reads ha (by omega) _ (.gap hgap (.inr rfl))) fun a' ha' => ?_
    refine Steps.bind (Steps.continuation hgap hlayout) fun cs _ => ?_
    refine Steps.bind (Steps.not_eat hcomma) fun more hmore => ?_
    refine Steps.bind (Steps.no_continuation hlayout) fun cs' _ => ?_
    refine Steps.bind (Steps.check close) fun c hc => ?_
    rw [hmore, Bool.false_and, if_neg Bool.false_ne_true]
    exact Reads.pure (by simp [ha'])
  | @lastComma a ks gap gap' ha hgap hgap' =>
    simp only [List.append_assoc, List.length_append, List.cons_append] at hN hm ⊢
    obtain ⟨hclose, -⟩ := hitem.opens ha (gap ++ .symbol .comma :: (gap' ++ close :: rest))
    refine Steps.bind (Steps.check close) fun b hb => ?_
    rw [hb, beq_eq_false_iff_ne.mpr hclose, if_neg Bool.false_ne_true]
    refine Reads.bind (hitem.reads ha (by omega) _ (.gap hgap (.inl rfl))) fun a' ha' => ?_
    refine Steps.bind (Steps.continuation hgap rfl) fun cs _ => ?_
    refine Steps.bind (Steps.eat _) fun more hmore => ?_
    refine Steps.bind (Steps.continuation hgap' hlayout) fun cs' _ => ?_
    refine Steps.bind (Steps.check close) fun c hc => ?_
    rw [hc, next, beq_self_eq_true, Bool.not_true, Bool.and_false, if_neg Bool.false_ne_true]
    exact Reads.pure (by simp [ha'])
  | @cons a as ks gap gap' ls ha hgap hgap' has hls ih =>
    simp only [List.append_assoc, List.length_append, List.cons_append, List.length_cons] at hN hm ⊢
    obtain ⟨hclose, -⟩ := hitem.opens ha (gap ++ .symbol .comma :: (gap' ++ (ls ++ close :: rest)))
    obtain ⟨hclose', hlayout'⟩ := hls.opens hitem has (close :: rest)
    refine Steps.bind (Steps.check close) fun b hb => ?_
    rw [hb, beq_eq_false_iff_ne.mpr hclose, if_neg Bool.false_ne_true]
    refine Reads.bind (hitem.reads ha (by omega) _ (.gap hgap (.inl rfl))) fun a' ha' => ?_
    refine Steps.bind (Steps.continuation hgap rfl) fun cs _ => ?_
    refine Steps.bind (Steps.eat _) fun more hmore => ?_
    refine Steps.bind (Steps.continuation hgap' hlayout') fun cs' _ => ?_
    refine Steps.bind (Steps.check close) fun c hc => ?_
    rw [hmore, hc, beq_eq_false_iff_ne.mpr hclose', Bool.not_false, Bool.true_and, if_pos rfl]
    obtain ⟨m, rfl⟩ : ∃ m', m = m' + 1 := ⟨m - 1, by omega⟩
    have htaken : Bare.bare (Item.takeTrailing (Item.lead a' pending) cs').1 = a := by simp [ha']
    generalize Item.takeTrailing (Item.lead a' pending) cs' = taken at htaken ⊢
    refine Reads.bind (ih (by omega) taken.2 m (by omega)) fun r hr => ?_
    exact Reads.pure (by simp [htaken, hr])

/-- **Items and the bracket that closes them.** -/
theorem bracketed {item : Reader α} [Grows item] {close : Symbol} {n : Nat} {as : List α}
    {ks gap : List Kind} (hitem : ReadsItem item (.symbol close) ks.length A)
    (hcomma : close ≠ .comma) (h : Separated A as ks) (hn : ks.length < n) (hgap : Gap gap)
    (rest : List Kind) :
    Reads (bracketed n close item) (gap ++ (ks ++ .symbol close :: rest)) rest
      (fun r => r.1.map Bare.bare = as) := by
  have hlayout : isLayout (next (ks ++ .symbol close :: rest)) = false := by
    by_cases has : as = []
    · subst has
      cases h
      rfl
    · exact (h.opens hitem has _).2
  have hcomma' : Kind.symbol close ≠ .symbol .comma := fun heq => hcomma (Kind.symbol.inj heq)
  refine Reads.bind (Steps.bind (Steps.continuation hgap hlayout) fun pending _ =>
    h.reads hitem rfl hcomma' (Nat.le_refl _) hn pending rest) fun r hr => ?_
  exact Steps.bind (Steps.expect _) fun _ _ => Reads.pure hr

end Separated

/-! ## Primary expressions -/

namespace Phrase

variable {k n : Nat} {e : Expr} {ks rest : List Kind}

/-- What is read as a primary expression is a phrase. -/
theorem of_primary {t : Kind} (hstart : Starts 11 (t :: ks))
    (h : ∀ n rest, 8 * ks.length ≤ n →
      Reads (primary (n + 1)) (t :: (ks ++ rest)) rest (·.bare = e)) : Phrase 11 e (t :: ks) := by
  refine ⟨hstart, fun n rest hn _ => ?_⟩
  change 8 * (ks.length + 1) ≤ n + 5 at hn
  obtain ⟨n, rfl⟩ : ∃ m, n = m + 1 := ⟨n - 1, by omega⟩
  refine Turns.trans (Turns.bind (h n rest (by omega))) ?_
  rintro _ ⟨e', rfl, he⟩
  exact Turns.refl ⟨n + 1, e', rfl, he, Nat.le_add_right ..⟩

theorem literal_reads (l : Literal) (t : Kind) :
    Reads (literal l) (t :: rest) rest (·.bare = (Expr.Form.literal l).node) :=
  Steps.bind (Steps.advance t) fun _ _ =>
    Steps.bind (Steps.mentioned _) fun _ _ => Reads.pure rfl

theorem number (raw : String) (value : Binary64) :
    Phrase 11 (Expr.Form.literal (.number raw value false)).node [.number raw value] :=
  of_primary (.of_head rfl (by simp) _) fun _ _ _ => Steps.bind Steps.kind fun _ hk => hk ▸ literal_reads _ _

theorem string (raw value : String) :
    Phrase 11 (Expr.Form.literal (.string raw value)).node [.string raw value] :=
  of_primary (.of_head rfl (by simp) _) fun _ _ _ => Steps.bind Steps.kind fun _ hk => hk ▸ literal_reads _ _

theorem bool (b : Bool) : Phrase 11 (Expr.Form.literal (.bool b)).node
    [.keyword (if b then .true else .false)] := by
  cases b <;>
    exact of_primary (.of_head rfl (by simp) _) fun _ _ _ => Steps.bind Steps.kind fun _ hk => hk ▸ literal_reads _ _

theorem null : Phrase 11 (Expr.Form.literal .null).node [.keyword .null] :=
  of_primary (.of_head rfl (by simp) _) fun _ _ _ => Steps.bind Steps.kind fun _ hk => hk ▸ literal_reads _ _

theorem identifier (name : String) :
    Phrase 11 (Expr.Form.identifier name).node [.identifier name] := by
  refine of_primary (.of_head rfl (by simp) _) fun n rest _ => Steps.bind Steps.kind fun k hk => ?_
  subst hk
  refine Steps.bind (Steps.advance _) fun _ _ => Steps.bind (Steps.mention _) fun _ _ => ?_
  exact Reads.pure rfl

theorem binding_of_isLayout {t : Kind} (ht : isLayout t = true) : binding t = none := by
  cases t <;> first | rfl | cases ht

/-- Nothing goes on an expression before a symbol that does not bind. -/
theorem halts_symbol {s : Symbol} (hs : binding (.symbol s) = none) (k : Nat) (rest : List Kind) :
    Halts k (.symbol s :: rest) := by
  intro j hj
  rw [next, hs] at hj
  cases hj

/-- Nothing goes on an expression before a gap. -/
theorem halts_gap {gap : List Kind} (hgap : Gap gap) (hrest : Halts k rest) :
    Halts k (gap ++ rest) := by
  cases gap with
  | nil => exact hrest
  | cons t gap =>
    intro j hj
    rw [List.cons_append, next, binding_of_isLayout (hgap t (List.mem_cons_self ..))] at hj
    cases hj

theorem halts_item {s : Symbol} (hs : binding (.symbol s) = none) (h : EndsItem (.symbol s) rest) :
    Halts k rest := by
  intro j hj
  rcases h with hlayout | hcomma | hclose
  · rw [binding_of_isLayout hlayout] at hj
    cases hj
  · rw [hcomma] at hj
    cases hj
  · rw [hclose, hs] at hj
    cases hj

/-- **An expression in parentheses**. -/
theorem paren {gap gap' : List Kind} (h : Phrase 0 e ks) (hgap : Gap gap) (hgap' : Gap gap') :
    Phrase 11 (Expr.Form.paren e).node
      (.symbol .openParen :: (gap ++ (ks ++ (gap' ++ [.symbol .closeParen])))) := by
  refine of_primary (.of_head rfl (by simp) _) fun n rest hn => Steps.bind Steps.kind fun k hk => ?_
  subst hk
  simp only [List.append_assoc, List.length_append, List.singleton_append] at hn ⊢
  refine Steps.bind (Steps.advance _) fun start _ => Steps.bind (h.continuation hgap) fun cs _ => ?_
  refine Reads.bind (h.expression (n := n) (by omega)
    (halts_gap hgap' (halts_symbol rfl 0 rest))) fun e' he => ?_
  refine Steps.bind (Steps.continuation hgap' rfl) fun cs' _ => ?_
  refine Steps.bind (Steps.expect _) fun close _ => Reads.pure ?_
  subst he
  rw [← Expr.bare_lead e' cs, ← Expr.bare_trail _ cs']
  rfl

/-- Items that are expressions. -/
theorem readsItem (close : Symbol) {N : Nat} (hclose : binding (.symbol close) = none)
    (hstarts : startsAt 0 (.symbol close) = false) (hN : 8 * N ≤ n + 1) :
    ReadsItem (Reader.expression n) (.symbol close) N (Phrase 0) where
  opens h rest := by
    have hnext := h.next_append rest
    refine ⟨fun heq => ?_, isLayout_of_startsAt hnext⟩
    rw [heq, hstarts] at hnext
    cases hnext
  reads h hlen rest hrest := h.expression (by omega) (halts_item hclose hrest)

/-- **A list**. -/
theorem list {es : List Expr} {gap : List Kind} (h : Separated (Phrase 0) es ks) (hgap : Gap gap) :
    Phrase 11 (Expr.Form.list es).node
      (.symbol .openBracket :: (gap ++ (ks ++ [.symbol .closeBracket]))) := by
  refine of_primary (.of_head rfl (by simp) _) fun n rest hn => Steps.bind Steps.kind fun k hk => ?_
  subst hk
  simp only [List.append_assoc, List.length_append, List.singleton_append, List.length_singleton]
    at hn ⊢
  refine Steps.bind (Steps.advance _) fun start _ => ?_
  have hread := h.bracketed (readsItem .closeBracket (n := n) rfl rfl (by omega)) (by decide)
    (n := n) (by omega) hgap rest
  refine Reads.bind hread fun r hr => Steps.bind Steps.behind fun _ _ => Reads.pure ?_
  exact hr ▸ Expr.bare_list ..

end Phrase

/-- How an entry of a map is written. -/
def EntryPhrase (a : Entry) (ks : List Kind) : Prop :=
  ∃ kks gap gap' vks, ks = kks ++ (gap ++ .symbol .colon :: (gap' ++ vks)) ∧
    Phrase 0 a.key kks ∧ Gap gap ∧ Gap gap' ∧ Phrase 0 a.value vks ∧ a = ⟨a.key, a.value, default, {}⟩

namespace EntryPhrase

theorem readsItem {n N : Nat} (hN : 8 * N ≤ n + 1) :
    ReadsItem (entry (expression n)) (.symbol .closeBrace) N EntryPhrase where
  opens := by
    rintro a _ ⟨kks, gap, gap', vks, rfl, hkey, -⟩ rest
    rw [List.append_assoc]
    exact (Phrase.readsItem .closeBrace (n := n) rfl rfl hN).opens hkey _
  reads := by
    rintro a _ ⟨kks, gap, gap', vks, rfl, hkey, hgap, hgap', hvalue, ha⟩ hlen rest hrest
    simp only [List.append_assoc, List.length_append, List.cons_append, List.length_cons] at hlen ⊢
    have hends : Halts 0 (gap ++ .symbol .colon :: (gap' ++ (vks ++ rest))) :=
      Phrase.halts_gap hgap (Phrase.halts_symbol rfl 0 _)
    refine Reads.bind (hkey.expression (n := n) (by omega) hends) fun key hk => ?_
    refine Steps.bind (Steps.continuation hgap rfl) fun cs _ => ?_
    refine Steps.bind (Steps.expect _) fun _ _ => Steps.bind (hvalue.continuation hgap') fun cs' _ => ?_
    refine Reads.bind (hvalue.expression (n := n) (by omega) (Phrase.halts_item rfl hrest))
      fun value hv => Reads.pure ?_
    rw [ha, ← hk, ← hv]
    rfl

end EntryPhrase

/-- An end of a slice, with the gaps around it. -/
def BoundPhrase : Option Expr → List Kind → Prop
  | none, ks => Gap ks
  | some e, ks => ∃ gap es gap', ks = gap ++ (es ++ gap') ∧ Gap gap ∧ Phrase 0 e es ∧ Gap gap'

theorem BoundPhrase.append_gap {e : Option Expr} {ks gap : List Kind} (h : BoundPhrase e ks)
    (hgap : Gap gap) : BoundPhrase e (ks ++ gap) := by
  cases e with
  | none => exact Gap.append h hgap
  | some e =>
    obtain ⟨before, es, after, rfl, hbefore, he, hafter⟩ := h
    exact ⟨before, es, after ++ gap, by simp, hbefore, he, hafter.append hgap⟩

namespace Phrase

variable {k n : Nat} {e : Expr} {ks rest : List Kind}

/-- **A map**. -/
theorem map {es : List Entry} {gap : List Kind} (h : Separated EntryPhrase es ks) (hgap : Gap gap) :
    Phrase 11 (Expr.Form.map es).node
      (.symbol .openBrace :: (gap ++ (ks ++ [.symbol .closeBrace]))) := by
  refine of_primary (.of_head rfl (by simp) _) fun n rest hn => Steps.bind Steps.kind fun k hk => ?_
  subst hk
  simp only [List.append_assoc, List.length_append, List.singleton_append, List.length_singleton]
    at hn ⊢
  refine Steps.bind (Steps.advance _) fun start _ => ?_
  have hread := h.bracketed (EntryPhrase.readsItem (n := n) (by omega)) (by decide) (n := n) (by omega)
    hgap rest
  refine Reads.bind hread fun r hr => Steps.bind Steps.behind fun _ _ => Reads.pure ?_
  exact hr ▸ Expr.bare_map ..

/-! ## What follows a primary expression -/

/-- A phrase of the tightest level that more tokens go on. -/
theorem of_suffix {b : Expr} {bs : List Kind} {t : Kind} (hb : Phrase 11 b bs)
    (h : ∀ n m rest b', 8 * ks.length ≤ n → ks.length < m → b'.bare = b →
      Turns (suffixes (Reader.expression n) (m + 1) b') (t :: (ks ++ rest)) rest fun q =>
        ∃ e', q = suffixes (Reader.expression n) m e' ∧ e'.bare = e) :
    Phrase 11 e (bs ++ t :: ks) := by
  refine ⟨hb.starts.append _, fun n rest hn _ => ?_⟩
  simp only [List.append_assoc, List.length_append, List.cons_append, List.length_cons] at hn ⊢
  change _ ≤ n + 5 at hn
  have hhalts : Halts 12 (t :: (ks ++ rest)) := by
    intro j hj
    have hlt : ∀ j ∈ binding t, j < 12 := by
      intro j hj
      revert hj
      fun_cases binding t <;> simp <;> rintro rfl <;> decide
    exact hlt j hj
  have hbn : 8 * bs.length ≤ n + 5 := by omega
  refine Turns.trans (hb.turns n _ hbn hhalts) ?_
  rintro _ ⟨m, b', rfl, hb', hm⟩
  obtain ⟨m, rfl⟩ : ∃ m', m = m' + 1 := ⟨m - 1, by omega⟩
  refine Turns.mono (h n m rest b' (by omega) (by omega) hb') ?_
  rintro _ ⟨e', rfl, he⟩
  exact ⟨m, e', rfl, he, by omega⟩

/-- **A member of a value**. -/
theorem member {b : Expr} {bs : List Kind} (hb : Phrase 11 b bs) (field : String) :
    Phrase 11 (Expr.Form.member b ⟨field, default⟩).node
      (bs ++ [.symbol .dot, .identifier field]) := by
  refine hb.of_suffix fun n m rest b' _ _ hb' => Steps.turns Steps.kind fun k hk => ?_
  subst hk hb'
  refine Steps.turns (Steps.advance _) fun _ _ => Steps.turns (Steps.identifier field) fun f hf => ?_
  subst hf
  exact Turns.refl ⟨_, rfl, rfl⟩

theorem call_steps (c : Expr) (es : List Expr) (span : Span) (inner : List Comment) :
    Steps (Reader.call c es span inner) rest rest
      (·.bare = (Expr.Form.call c.bare (es.map Expr.bare)).node) := by
  unfold Reader.call
  split
  · split
    · exact Steps.trans (Steps.mentioned _) fun _ _ => Steps.pure (Expr.bare_call ..)
    · exact Steps.pure (Expr.bare_call ..)
  · exact Steps.pure (Expr.bare_call ..)

/-- **A call**. -/
theorem call {c : Expr} {cs gap : List Kind} {es : List Expr} (hc : Phrase 11 c cs)
    (h : Separated (Phrase 0) es ks) (hgap : Gap gap) :
    Phrase 11 (Expr.Form.call c es).node
      (cs ++ .symbol .openParen :: (gap ++ (ks ++ [.symbol .closeParen]))) := by
  refine hc.of_suffix fun n m rest c' hn hm hc' => Steps.turns Steps.kind fun k hk => ?_
  subst hk hc'
  simp only [List.append_assoc, List.length_append, List.singleton_append, List.length_singleton]
    at hn hm ⊢
  refine Steps.turns (Steps.advance _) fun _ _ => ?_
  have hread := h.bracketed (readsItem .closeParen (n := n) rfl rfl (by omega)) (by decide)
    (n := m) (by omega) hgap rest
  refine Turns.trans (Turns.bind hread) ?_
  rintro _ ⟨r, rfl, rfl⟩
  refine Steps.turns Steps.behind fun _ _ => Steps.turns (call_steps _ _ _ _) fun e' he => ?_
  exact Turns.refl ⟨e', rfl, he⟩

/-- Comments around an end of a slice do not change it. -/
theorem bare_around (e : Option Expr) (before after : List Comment) :
    (around e before after).1.map Expr.bare = e.map Expr.bare := by
  cases e <;> simp [around]

/-- An end of a slice, before a token that ends an expression. -/
theorem sliceEnd_reads (stop : Kind) {end_ : Option Expr} (h : BoundPhrase end_ ks)
    (hn : 8 * ks.length ≤ n) (hstop : startsAt 0 stop = false) (hlayout : isLayout (next rest) = false)
    (hrest : Halts 0 rest) (hnone : end_ = none → next rest = stop) (loose : List Comment) :
    Reads (sliceEnd stop (Reader.expression n) loose) (ks ++ rest) rest
      (fun r => r.1.map Expr.bare = end_) := by
  cases end_ with
  | none =>
    refine Steps.bind (Steps.continuation h hlayout) fun before _ => ?_
    have hunless : Steps (unlessAt stop (Reader.expression n)) rest rest (· = none) := by
      refine Steps.trans (Steps.check stop) fun b hb => ?_
      rw [hb, hnone rfl, beq_self_eq_true, if_pos rfl]
      exact Steps.pure rfl
    refine Steps.bind hunless fun e he => ?_
    refine Steps.bind (Steps.no_continuation hlayout) fun after _ => ?_
    exact Reads.pure (by rw [bare_around, he]; rfl)
  | some e =>
    obtain ⟨gap, es, gap', rfl, hgap, he, hgap'⟩ := h
    simp only [List.append_assoc, List.length_append] at hn ⊢
    refine Steps.bind (he.continuation hgap) fun before _ => ?_
    have hunless : Reads (unlessAt stop (Reader.expression n)) (es ++ (gap' ++ rest)) (gap' ++ rest)
        (·.map Expr.bare = some e) := by
      refine Steps.bind (Steps.check stop) fun b hb => ?_
      have hnext := he.next_append (gap' ++ rest)
      have hne : next (es ++ (gap' ++ rest)) ≠ stop := by
        rintro rfl
        rw [hstop] at hnext
        cases hnext
      rw [hb, beq_eq_false_iff_ne.mpr hne, if_neg Bool.false_ne_true]
      refine Reads.bind (he.expression (by omega) (halts_gap hgap' hrest)) fun e' he' => Reads.pure ?_
      rw [Option.map_some, he']
    refine Reads.bind hunless fun e' he' => ?_
    refine Steps.bind (Steps.continuation hgap' hlayout) fun after _ => Reads.pure ?_
    rw [bare_around, he']

/-- **An item of a value**. -/
theorem index {b i : Expr} {bs : List Kind} (hb : Phrase 11 b bs) (hi : BoundPhrase (some i) ks) :
    Phrase 11 (Expr.Form.index b i).node
      (bs ++ .symbol .openBracket :: (ks ++ [.symbol .closeBracket])) := by
  refine hb.of_suffix fun n m rest b' hn hm hb' => Steps.turns Steps.kind fun k hk => ?_
  subst hk hb'
  simp only [List.append_assoc, List.length_append, List.singleton_append, List.length_singleton]
    at hn hm ⊢
  refine Steps.turns (Steps.advance _) fun _ _ => ?_
  have hread : Reads (subscript (Reader.expression n) b') (ks ++ .symbol .closeBracket :: rest) rest
      (·.bare = (Expr.Form.index b'.bare i).node) := by
    refine Reads.bind (sliceEnd_reads (.symbol .colon) hi (by omega) rfl rfl
      (halts_symbol rfl 0 rest) (by simp) []) fun r hr => ?_
    obtain ⟨start, loose⟩ := r
    obtain ⟨i', rfl, rfl⟩ := Option.map_eq_some_iff.mp hr
    refine Steps.bind (Steps.not_eat (by simp [next])) fun c hc => ?_
    rw [hc, if_neg Bool.false_ne_true]
    exact Steps.bind (Steps.expect _) fun _ _ => Reads.pure rfl
  refine Turns.trans (Turns.bind hread) ?_
  rintro _ ⟨e', rfl, he⟩
  exact Turns.refl ⟨e', rfl, he⟩

/-- **A slice of a value**. -/
theorem slice {b : Expr} {i j : Option Expr} {bs is js : List Kind} (hb : Phrase 11 b bs)
    (hi : BoundPhrase i is) (hj : BoundPhrase j js) :
    Phrase 11 (Expr.Form.slice b i j).node
      (bs ++ .symbol .openBracket :: (is ++ .symbol .colon :: (js ++ [.symbol .closeBracket]))) := by
  refine hb.of_suffix fun n m rest b' hn hm hb' => Steps.turns Steps.kind fun k hk => ?_
  subst hk hb'
  simp only [List.append_assoc, List.length_append, List.cons_append, List.length_cons,
    List.nil_append] at hn hm ⊢
  refine Steps.turns (Steps.advance _) fun _ _ => ?_
  have hread : Reads (subscript (Reader.expression n) b')
      (is ++ .symbol .colon :: (js ++ .symbol .closeBracket :: rest)) rest
      (·.bare = (Expr.Form.slice b'.bare i j).node) := by
    refine Reads.bind (sliceEnd_reads (.symbol .colon) hi (by omega) rfl rfl
      (halts_symbol rfl 0 _) (fun _ => rfl) []) fun r hr => ?_
    refine Steps.bind (Steps.eat _) fun c hc => ?_
    rw [hc, if_pos rfl]
    refine Reads.bind (sliceEnd_reads (.symbol .closeBracket) hj (by omega) rfl rfl
      (halts_symbol rfl 0 _) (fun _ => rfl) r.2) fun r' hr' => ?_
    refine Steps.bind (Steps.expect _) fun _ _ => Reads.pure ?_
    rw [Expr.bare_slice, hr, hr']
  refine Turns.trans (Turns.bind hread) ?_
  rintro _ ⟨e', rfl, he⟩
  exact Turns.refl ⟨e', rfl, he⟩

end Phrase

/-! ## Directives that stand for a value -/

namespace ValueDirective

/-- The word that names a directive. -/
def word : ValueDirective → String
  | envar _ => "envar"
  | inject _ => "inject"
  | line => "line"
  | filename => "filename"

/-- What follows the word. -/
def args : ValueDirective → List Kind
  | envar name => [.identifier name]
  | inject path => [.string (quote path) path]
  | line | filename => []

/-- How a directive is written. -/
def kinds (d : ValueDirective) : List Kind :=
  .symbol .hash :: .identifier d.word :: (d.args ++ [.symbol .semicolon])

end ValueDirective

/-- The word of a directive. -/
theorem directiveName_steps (name : String) {rest : List Kind} :
    Steps directiveName (.symbol .hash :: .identifier name :: rest) rest (·.2 = name) := by
  refine Steps.trans (Steps.advance _) fun _ _ => Steps.trans Steps.kind fun k hk => ?_
  subst hk
  exact Steps.trans (Steps.advance _) fun _ _ => Steps.pure rfl

theorem directiveEnd_steps (start : Span) {rest : List Kind} :
    Steps (directiveEnd start) (.symbol .semicolon :: rest) rest fun _ => True :=
  Steps.trans (Steps.eat _) fun _ _ => Steps.trans Steps.behind fun _ _ => Steps.pure trivial

/-- What follows the word of a directive for a value. -/
theorem directiveValue_steps (start : Span) (d : ValueDirective) {rest : List Kind} :
    Steps (directiveValue start d.word) (d.args ++ rest) rest (· = d) := by
  cases d with
  | envar name => exact Steps.trans (Steps.identifier name) fun _ hi => Steps.pure (hi ▸ rfl)
  | inject path =>
    refine Steps.trans (Steps.path _ path) fun p hp => Steps.trans Steps.behind fun _ _ => ?_
    exact Steps.trans (Steps.mentioned _) fun _ _ => Steps.pure (hp ▸ rfl)
  | line => exact Steps.pure rfl
  | filename => exact Steps.pure rfl

/-- **A directive that stands for a value**. -/
theorem Phrase.directive (d : ValueDirective) : Phrase 11 (Expr.Form.directive d).node d.kinds := by
  have hword : d.word ∈ valueDirectives := by cases d <;> simp [ValueDirective.word, valueDirectives]
  refine of_primary ⟨rfl, fun _ => ⟨_, hword, _, rfl⟩⟩ fun n rest _ =>
    Steps.bind Steps.kind fun k hk => ?_
  subst hk
  simp only [List.append_assoc, List.cons_append, List.nil_append]
  refine Steps.bind (directiveName_steps d.word) fun r hr => ?_
  obtain ⟨start, _⟩ := r
  subst hr
  refine Steps.bind (directiveValue_steps start d) fun d' hd => ?_
  exact Steps.bind (directiveEnd_steps start) fun _ _ => Reads.pure (hd ▸ rfl)

end ScriptBundler

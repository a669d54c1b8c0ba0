import ScriptBundler.Proofs.Phrase
import ScriptBundler.Proofs.Proper

/-!
# Proofs/Sentence — tokens that are read as statements

`Sentence s ks` says that tokens of the kinds `ks` are a statement and are read as `s`, up to stretches
and comments beside nodes, where a statement can end.  An `else` can follow a statement that is the
body of an `if` on one line, unless the statement would take the `else` for its own (`Stmt.isOpen`).

`Lines ss ks` says the same of statements below one another.  It leaves the end of the last line open,
because a text may end there.
-/

namespace ScriptBundler

open Token (Kind)
open Reader

/-- What may follow the statement `s`. -/
def Follows (s : Stmt) (rest : List Kind) : Prop :=
  (next rest).isTerminator = true ∨ (next rest = .keyword .else_ ∧ s.isOpen = false)

/-- Tokens that a statement can start with. -/
def startsStmt (t : Kind) : Bool :=
  startsAt 0 t || match t with
    | .keyword w => w ∈ [.if_, .while_, .for_, .return_, .break_, .continue_]
    | _ => false

/-- Tokens of the kinds `ks` are a statement and are read as `s`. -/
structure Sentence (s : Stmt) (ks : List Kind) : Prop where
  starts : startsStmt (next ks) = true
  reads : ∀ n rest, 8 * ks.length ≤ n → Follows s rest →
    Reads (statement n) (ks ++ rest) rest (·.bare = s)

namespace Follows

variable {s : Stmt} {rest : List Kind}

/-- What may follow a statement does not go on an expression. -/
theorem halts (h : Follows s rest) (k : Nat) : Halts k rest := by
  intro j hj
  rcases h with hterm | ⟨helse, -⟩
  · generalize next rest = t at hj hterm
    revert hj hterm
    fun_cases Kind.isTerminator t <;> simp [binding]
  · rw [helse] at hj
    cases hj

theorem assignOp? (h : Follows s rest) : assignOp? (next rest) = none := by
  rcases h with hterm | ⟨helse, -⟩
  · generalize next rest = t at hterm
    revert hterm
    fun_cases Kind.isTerminator t <;> simp [Reader.assignOp?, AssignOp.symbol]
  · rw [helse]
    rfl

theorem startsArgument (h : Follows s rest) : startsArgument (next rest) = false := by
  rcases h with hterm | ⟨helse, -⟩
  · generalize next rest = t at hterm
    revert hterm
    fun_cases Kind.isTerminator t <;> simp [Reader.startsArgument]
  · rw [helse]
    rfl

/-- What may follow a statement ends it. -/
theorem ends (h : Follows s rest) : ((next rest).isTerminator || isCloser (next rest)) = true := by
  rcases h with hterm | ⟨helse, -⟩
  · rw [hterm, Bool.true_or]
  · rw [helse]
    rfl

end Follows

theorem next_append_of_ne_nil {ks : List Kind} (h : ks ≠ []) (rest : List Kind) : next (ks ++ rest) = next ks := by
  cases ks with
  | nil => exact absurd rfl h
  | cons t ts => rfl

namespace Sentence

variable {s : Stmt} {e : Expr} {ks rest : List Kind}

theorem ne_nil (h : Sentence s ks) : ks ≠ [] := by
  rintro rfl
  cases h.starts

/-- A statement that starts with a word. -/
theorem of_keyword {w : Keyword} (hw : startsStmt (.keyword w) = true)
    (h : ∀ n rest, 8 * ks.length + 7 ≤ n → Follows s rest →
      Reads (statement (n + 1)) (.keyword w :: (ks ++ rest)) rest (·.bare = s)) :
    Sentence s (.keyword w :: ks) := by
  refine ⟨hw, fun n rest hn hrest => ?_⟩
  simp only [List.length_cons] at hn
  obtain ⟨n, rfl⟩ : ∃ m, n = m + 1 := ⟨n - 1, by omega⟩
  exact h n rest (by omega) hrest

theorem break_ : Sentence Stmt.Form.break_.node [.keyword .break_] := by
  refine of_keyword rfl fun n rest _ _ => Steps.bind Steps.kind fun k hk => ?_
  subst hk
  exact Steps.bind (Steps.advance _) fun _ _ => Reads.pure rfl

theorem continue_ : Sentence Stmt.Form.continue_.node [.keyword .continue_] := by
  refine of_keyword rfl fun n rest _ _ => Steps.bind Steps.kind fun k hk => ?_
  subst hk
  exact Steps.bind (Steps.advance _) fun _ _ => Reads.pure rfl

theorem return_none : Sentence (Stmt.Form.return_ none).node [.keyword .return_] := by
  refine of_keyword rfl fun n rest _ hrest => Steps.bind Steps.kind fun k hk => ?_
  subst hk
  refine Steps.bind (Steps.advance _) fun _ _ => Steps.bind Steps.kind fun k hk => ?_
  rw [hk, List.nil_append, hrest.ends, if_pos rfl]
  exact Reads.pure rfl

/-- A return with a value. -/
theorem return_some (h : Phrase 0 e ks) :
    Sentence (Stmt.Form.return_ (some e)).node (.keyword .return_ :: ks) := by
  refine of_keyword rfl fun n rest hn hrest => Steps.bind Steps.kind fun k hk => ?_
  subst hk
  refine Steps.bind (Steps.advance _) fun _ _ => Steps.bind Steps.kind fun k hk => ?_
  have hgoes : (k.isTerminator || isCloser k) = false := by
    have hnext := h.next_append rest
    rw [← hk] at hnext
    revert hnext
    fun_cases startsAt 0 k <;> simp [Kind.isTerminator, isCloser]
  rw [hgoes, if_neg Bool.false_ne_true]
  refine Reads.bind (h.expression (n := n) (by omega) (hrest.halts 0)) fun e' he => Reads.pure ?_
  exact he ▸ rfl

/-! ## Statements that start with an expression -/

theorem atValueDirective_steps (name : String) :
    Steps atValueDirective (.symbol .hash :: .identifier name :: rest)
      (.symbol .hash :: .identifier name :: rest) (· = decide (name ∈ valueDirectives)) := by
  refine Steps.get fun s hs => ?_
  obtain ⟨-, hahead⟩ := List.cons.inj hs
  cases hs' : s.ahead with
  | nil => rw [hs'] at hahead; cases hahead
  | cons t ts =>
    rw [hs'] at hahead
    obtain ⟨kind, span⟩ := t
    obtain rfl : kind = .identifier name := (List.cons.inj hahead).1
    rfl

/-- A statement that starts like an expression. -/
theorem of_simple {ls : List Kind} {Q : Stmt → Prop} {n : Nat} (hstarts : Starts 0 ks)
    (h : Reads (simple n (expression n)) (ks ++ ls) rest Q) :
    Reads (statement (n + 1)) (ks ++ ls) rest Q := by
  obtain ⟨t, ts, rfl, ht⟩ := hstarts.cons
  refine Steps.bind Steps.kind fun k hk => ?_
  replace hk : k = t := hk
  subst hk
  split
  · cases ht
  · cases ht
  · cases ht
  · cases ht
  · cases ht
  · cases ht
  · obtain ⟨name, hname, us, heq⟩ := hstarts.directive rfl
    rw [heq] at h ⊢
    refine Steps.bind (atValueDirective_steps name) fun b hb => ?_
    rw [hb, if_pos (decide_eq_true hname)]
    exact h
  · exact h

theorem startsStmt_of_starts (h : Starts 0 ks) : startsStmt (next ks) = true := by
  simp [startsStmt, h.head]

/-- **An expression on its own**. -/
theorem expr (h : Phrase 0 e ks) : Sentence (Stmt.Form.expr e).node ks := by
  refine ⟨startsStmt_of_starts h.starts, fun n rest hn hrest => ?_⟩
  have hpos := h.length_pos
  obtain ⟨n, rfl⟩ : ∃ m, n = m + 1 := ⟨n - 1, by omega⟩
  refine of_simple h.starts ?_
  refine Reads.bind (h.expression (by omega) (hrest.halts 0)) fun e' he => ?_
  refine Steps.bind Steps.kind fun k hk => ?_
  rw [hk, hrest.assignOp?]
  refine Steps.bind Steps.kind fun k hk => ?_
  rw [hk, hrest.startsArgument, Bool.false_and, if_neg Bool.false_ne_true]
  exact Reads.pure (he ▸ Stmt.bare_expr e' _)

theorem assignOp?_symbol (op : AssignOp) : assignOp? (.symbol op.symbol) = some op := by
  cases op <;> rfl

theorem isTarget_bare (e : Expr) : isTarget e.bare = isTarget e := by
  obtain ⟨form, _, _⟩ := e
  cases form <;> rfl

theorem halts_assign (op : AssignOp) (k : Nat) (rest : List Kind) :
    Halts k (.symbol op.symbol :: rest) :=
  Phrase.halts_symbol (by cases op <;> rfl) k rest

/-- **An assignment**. -/
theorem assign (op : AssignOp) {v : Expr} {vs : List Kind} (h : Phrase 0 e ks)
    (htarget : isTarget e = true) (hv : Phrase 0 v vs) :
    Sentence (Stmt.Form.assign op e v).node (ks ++ .symbol op.symbol :: vs) := by
  have hstarts := h.starts.append (.symbol op.symbol :: vs)
  refine ⟨startsStmt_of_starts hstarts, fun n rest hn hrest => ?_⟩
  have hpos := h.length_pos
  simp only [List.append_assoc, List.cons_append, List.length_append, List.length_cons] at hn ⊢
  obtain ⟨n, rfl⟩ : ∃ m, n = m + 1 := ⟨n - 1, by omega⟩
  refine of_simple h.starts ?_
  refine Reads.bind (h.expression (by omega) (halts_assign op 0 _)) fun e' he => ?_
  refine Steps.bind Steps.kind fun k hk => ?_
  rw [← he, isTarget_bare] at htarget
  simp only [hk, next, assignOp?_symbol, htarget, if_true]
  refine Steps.bind (Steps.advance _) fun _ _ => ?_
  refine Reads.bind (hv.expression (by omega) (hrest.halts 0)) fun v' hv' => Reads.pure ?_
  rw [← he, ← hv']
  rfl

/-! ## Directives -/

theorem statementDirective_of {n : Nat} {name : String} {Q : Stmt → Prop} {ls : List Kind}
    (hname : name ∉ valueDirectives)
    (h : Reads statementDirective (.symbol .hash :: .identifier name :: ls) rest Q) :
    Reads (statement (n + 1)) (.symbol .hash :: .identifier name :: ls) rest Q := by
  refine Steps.bind Steps.kind fun k hk => ?_
  subst hk
  refine Steps.bind (atValueDirective_steps name) fun b hb => ?_
  rw [hb, decide_eq_false hname, if_neg Bool.false_ne_true]
  exact h

/-- **An import**. -/
theorem import_ (name path : String) :
    Sentence (Stmt.Form.directive (.import_ ⟨name, default⟩ path)).node
      [.symbol .hash, .identifier "import", .identifier name, .identifier "from",
        .string (quote path) path, .symbol .semicolon] := by
  refine ⟨rfl, fun n rest hn _ => ?_⟩
  simp only [List.length_cons] at hn
  obtain ⟨n, rfl⟩ : ∃ m, n = m + 1 := ⟨n - 1, by omega⟩
  refine statementDirective_of (by decide) ?_
  refine Steps.bind (directiveName_steps "import") fun r hr => ?_
  obtain ⟨start, _⟩ := r
  subst hr
  refine Steps.bind (Steps.identifier name) fun i hi => ?_
  have hfrom : Steps fromWord (.identifier "from" :: .string (quote path) path :: .symbol .semicolon :: rest)
      (.string (quote path) path :: .symbol .semicolon :: rest) fun _ => True := by
    refine Steps.trans Steps.kind fun k hk => ?_
    subst hk
    exact Steps.trans (Steps.advance _) fun _ _ => Steps.pure trivial
  refine Steps.bind hfrom fun _ _ => Steps.bind (Steps.path _ path) fun p hp => ?_
  refine Steps.bind (directiveEnd_steps start) fun _ _ => Steps.bind (Steps.mention _) fun _ _ => ?_
  exact Steps.bind (Steps.mentioned _) fun _ _ => Reads.pure (by subst hi hp; rfl)

/-- **An include**. -/
theorem include_ (path : String) :
    Sentence (Stmt.Form.directive (.include_ path)).node
      [.symbol .hash, .identifier "include", .string (quote path) path, .symbol .semicolon] := by
  refine ⟨rfl, fun n rest hn _ => ?_⟩
  simp only [List.length_cons] at hn
  obtain ⟨n, rfl⟩ : ∃ m, n = m + 1 := ⟨n - 1, by omega⟩
  refine statementDirective_of (by decide) ?_
  refine Steps.bind (directiveName_steps "include") fun r hr => ?_
  obtain ⟨start, _⟩ := r
  subst hr
  refine Steps.bind (Steps.path _ path) fun p hp => Steps.bind (directiveEnd_steps start) fun _ _ => ?_
  exact Steps.bind (Steps.mentioned _) fun _ _ => Reads.pure (by subst hp; rfl)

theorem debugger : Sentence (Stmt.Form.directive .debugger).node
    [.symbol .hash, .identifier "debugger", .symbol .semicolon] := by
  refine ⟨rfl, fun n rest hn _ => ?_⟩
  simp only [List.length_cons] at hn
  obtain ⟨n, rfl⟩ : ∃ m, n = m + 1 := ⟨n - 1, by omega⟩
  refine statementDirective_of (by decide) ?_
  refine Steps.bind (directiveName_steps "debugger") fun r hr => ?_
  obtain ⟨start, _⟩ := r
  subst hr
  exact Steps.bind (directiveEnd_steps start) fun _ _ => Reads.pure rfl

end Sentence

/-! ## Statements below one another -/

/-- Statements and comments on lines below one another. -/
inductive Lines : List Stmt → List Kind → Prop where
  | nil : Lines [] []
  | newline {ss : List Stmt} {ks : List Kind} : Lines ss ks → Lines ss (.newline :: ks)
  | comment {text : String} {ss : List Stmt} {ks : List Kind} : Lines ss ks →
      Lines ((Stmt.Form.comment text).node :: ss) (.comment text :: ks)
  | stmt {s : Stmt} {ss : List Stmt} {ls ks : List Kind} : Sentence s ls →
      (next ks).isTerminator = true → Lines ss ks → Lines (s :: ss) (ls ++ ks)

/-- Tokens that a line can start with. -/
def startsLine : Kind → Bool
  | .comment _ => true
  | t => startsStmt t

/-- How a reader of lines deals with comments and with statements of at most `N` tokens. -/
structure ReadsLine (p : Reader (Option Stmt)) (N : Nat) : Prop where
  comment : ∀ text rest, Reads p (.comment text :: rest) rest
    (·.map Stmt.bare = some (Stmt.Form.comment text).node)
  stmt : ∀ {s ks}, Sentence s ks → ks.length ≤ N → ∀ rest, (next rest).isTerminator = true →
    Reads p (ks ++ rest) rest (·.map Stmt.bare = some s)

/-- A statement ends before a terminator. -/
theorem terminator_steps {rest : List Kind} (h : (next rest).isTerminator = true) :
    Steps terminator rest rest fun _ => True := by
  refine Steps.trans Steps.kind fun k hk =>
    Steps.trans (Steps.get (Q := fun _ => True) fun _ _ => trivial) fun _ _ => ?_
  rw [hk, h, Bool.true_or, Bool.true_or, if_pos rfl]
  exact Steps.pure trivial

/-- A statement starts with none of the tokens between statements. -/
theorem startsStmt_cases {t : Kind} (h : startsStmt t = true) :
    isSeparator t = false ∧ isCloser t = false ∧ t ≠ .eof ∧ ∀ text, t ≠ .comment text := by
  cases t with
  | keyword w => cases w <;> revert h <;> simp [startsStmt, startsAt, isSeparator, isCloser]
  | symbol s => cases s <;> revert h <;> simp [startsStmt, startsAt, isSeparator, isCloser]
  | comment | newline | eof => cases h
  | _ => simp [isSeparator, isCloser]

theorem startsLine_of_startsStmt {t : Kind} (h : startsStmt t = true) : startsLine t = true := by
  cases t <;> first | exact h | rfl

/-- How lines in a block are read. -/
theorem ReadsLine.line {n N : Nat} (hN : 8 * N ≤ n) : ReadsLine (line (statement n)) N where
  comment text rest := by
    refine Steps.bind Steps.kind fun k hk => ?_
    subst hk
    exact Steps.bind (Steps.advance _) fun _ _ => Reads.pure rfl
  stmt {s ks} hs hlen rest hrest := by
    refine Steps.bind Steps.kind fun k hk => ?_
    have hcomment : ∀ text, k ≠ .comment text := by
      rw [hk, next_append_of_ne_nil hs.ne_nil]
      exact (startsStmt_cases hs.starts).2.2.2
    split
    · exact absurd rfl (hcomment _)
    · have hbody : Reads (do let s ← statement n; terminator; return s) (ks ++ rest) rest
          (·.bare = s) :=
        Reads.bind (hs.reads n rest (by omega) (.inl hrest)) fun s' hs' =>
          Steps.bind (terminator_steps hrest) fun _ _ => Reads.pure hs'
      refine Reads.bind hbody.attempt fun r hr => ?_
      obtain ⟨s', rfl, hs'⟩ := hr
      exact Reads.pure (congrArg some hs')

/-- How lines at the top level are read. -/
theorem ReadsLine.topLine {n N : Nat} (hN : 8 * N ≤ n) : ReadsLine (topLine (statement n)) N where
  comment text rest := by
    refine Steps.bind Steps.kind fun k hk => ?_
    subst hk
    exact (ReadsLine.line hN).comment text rest
  stmt {s ks} hs hlen rest hrest := by
    refine Steps.bind Steps.kind fun k hk => ?_
    rw [hk, next_append_of_ne_nil hs.ne_nil, (startsStmt_cases hs.starts).2.1, if_neg Bool.false_ne_true]
    exact (ReadsLine.line hN).stmt hs hlen rest hrest

section Statements

variable {stop : Kind → Bool} {p : Reader (Option Stmt)} {ks rest : List Kind}

theorem isFull_reads : Reads (get State.isFull) rest rest (· = false) :=
  fun s hs hfull => .inr ⟨pure s.isFull, s, rfl, ⟨s.isFull, rfl, hfull⟩, hs, rfl⟩

theorem separators_steps (h : isSeparator (next rest) = false) :
    Steps separators rest rest fun _ => True :=
  Steps.trans (Steps.skip_nothing h) fun _ _ => Steps.pure trivial

/-- A line break before statements is passed over. -/
theorem statements_newline (n : Nat) {Q : List Stmt → Prop}
    (h : Reads (statements stop p (n + 1)) ks rest Q) :
    Reads (statements stop p (n + 1)) (.newline :: ks) rest Q := by
  intro s hs hfull
  obtain ⟨hnext, hahead⟩ := hs.advance
  have hskip : separators s = separators s.advance := by
    have hp : isSeparator s.current.kind = true := by rw [hs.current]; rfl
    unfold separators skip
    simp only [Bind.bind, Pure.pure]
    rw [hahead, State.skipOver, if_pos hp]
  have heq : statements stop p (n + 1) s = statements stop p (n + 1) s.advance := by
    rw [statements]
    simp only [Bind.bind, hskip]
  have hfaults := Grows.faults_advance s
  rw [heq]
  refine (h s.advance hnext (isFull_congr hfaults ▸ hfull)).imp (·.congr hfaults) ?_
  rintro ⟨q, t, hq, hQ, ht, hfaults'⟩
  exact ⟨q, t, hq, hQ, ht, hfaults'.trans hfaults⟩

variable [Grows p]

/-- Where the lines are over, line breaks are passed and nothing is read. -/
theorem statements_end (m n : Nat) (hsep : isSeparator (next rest) = false)
    (hstop : (next rest == .eof || stop (next rest)) = true) :
    Reads (statements stop p (n + 1)) (List.replicate m .newline ++ rest) rest (· = []) := by
  induction m with
  | zero =>
    rw [List.replicate_zero, List.nil_append]
    refine Steps.bind (separators_steps hsep) fun _ _ => Steps.bind Steps.kind fun k hk => ?_
    refine Reads.bind isFull_reads fun full hfull => ?_
    rw [hfull, Bool.or_false, hk, hstop, if_pos rfl]
    exact Reads.pure rfl
  | succ m ih => exact statements_newline n ih

/-- One more line before others. -/
theorem statements_line {n : Nat} {ls : List Kind} {s : Stmt} {ss : List Stmt}
    (hstart : startsLine (next ls) = true) (hstop : stop (next ls) = false)
    (hs : Reads p ls ks (·.map Stmt.bare = some s))
    (h : Reads (statements stop p n) ks rest (·.map Stmt.bare = ss)) :
    Reads (statements stop p (n + 1)) ls rest (·.map Stmt.bare = s :: ss) := by
  have hcases : isSeparator (next ls) = false ∧ next ls ≠ .eof := by
    generalize next ls = t at hstart
    cases t with
    | comment text => simp [isSeparator]
    | _ => exact ⟨(startsStmt_cases hstart).1, (startsStmt_cases hstart).2.2.1⟩
  refine Steps.bind (separators_steps hcases.1) fun _ _ => Steps.bind Steps.kind fun k hk => ?_
  refine Reads.bind isFull_reads fun full hfull => ?_
  have hgoes : (k == .eof || full || stop k) = false := by
    rw [hk, hfull]
    simp [hcases.2, hstop]
  rw [hgoes, if_neg Bool.false_ne_true]
  refine Reads.bind hs fun r hr => Reads.bind h fun rs hrs => Reads.pure ?_
  obtain ⟨s', rfl, rfl⟩ := Option.map_eq_some_iff.mp hr
  rw [← hrs]
  rfl

/-- **Lines are read one by one**, up to a tail that holds none. -/
theorem Lines.reads {N : Nat} {tail : List Kind} {ss : List Stmt} (hp : ReadsLine p N)
    (hstop : ∀ t, startsLine t = true → stop t = false) (htail : (next tail).isTerminator = true)
    (hend : ∀ n, Reads (statements stop p (n + 1)) tail rest (· = [])) (h : Lines ss ks)
    (hN : ks.length ≤ N) {n : Nat} (hn : ks.length < n) :
    Reads (statements stop p n) (ks ++ tail) rest (·.map Stmt.bare = ss) := by
  obtain ⟨n, rfl⟩ : ∃ m, n = m + 1 := ⟨n - 1, by omega⟩
  induction h generalizing n with
  | nil => exact (hend n).mono fun _ hss => by rw [hss]; rfl
  | newline _ ih =>
    simp only [List.length_cons] at hN hn
    exact statements_newline n (ih (by omega) n (by omega))
  | @comment text ss ks _ ih =>
    simp only [List.length_cons] at hN hn
    obtain ⟨n, rfl⟩ : ∃ m, n = m + 1 := ⟨n - 1, by omega⟩
    exact statements_line rfl (hstop _ rfl) (hp.comment text _) (ih (by omega) n (by omega))
  | @stmt s ss ls ks hs hks _ ih =>
    simp only [List.length_append] at hN hn
    have hpos := List.length_pos_iff.mpr hs.ne_nil
    obtain ⟨n, rfl⟩ : ∃ m, n = m + 1 := ⟨n - 1, by omega⟩
    have hstart : startsLine (next (ls ++ (ks ++ tail))) = true := by
      rw [next_append_of_ne_nil hs.ne_nil]
      exact startsLine_of_startsStmt hs.starts
    have hnext : (next (ks ++ tail)).isTerminator = true := by
      cases ks with
      | nil => exact htail
      | cons k ks => exact hks
    rw [List.append_assoc]
    exact statements_line hstart (hstop _ hstart) (hp.stmt hs (by omega) _ hnext)
      (ih (by omega) n (by omega))

end Statements

/-! ## Blocks -/

/-- A block: statements that start below the line before them, and the end of the last line. -/
structure BlockPhrase (ss : List Stmt) (ks : List Kind) : Prop where
  opens : isLayout (next ks) = true
  lines : ∃ body m, ks = body ++ List.replicate (m + 1) .newline ∧ Lines ss body

theorem startsStmt_ne_end {t : Kind} (h : startsLine t = true) : (t == .keyword .end_) = false := by
  refine beq_eq_false_iff_ne.mpr ?_
  rintro rfl
  cases h

theorem isCloser_of_startsLine {t : Kind} (h : startsLine t = true) : isCloser t = false := by
  cases t with
  | comment => rfl
  | _ => exact (startsStmt_cases h).2.1

namespace BlockPhrase

variable {ss : List Stmt} {ks rest : List Kind} {n : Nat}

theorem length_pos (h : BlockPhrase ss ks) : 0 < ks.length := by
  obtain ⟨body, m, rfl, -⟩ := h.lines
  rw [List.length_append, List.length_replicate]
  omega

/-- **A block is read as its statements**. -/
theorem reads (h : BlockPhrase ss ks) {stop : Kind → Bool}
    (hstop : ∀ t, startsLine t = true → stop t = false) (hn : 8 * ks.length ≤ n)
    (hsep : isSeparator (next rest) = false) (hrest : stop (next rest) = true) :
    Reads (blockOf n (statement n) stop) (ks ++ rest) rest (·.bare = ⟨ss, default⟩) := by
  have hpos := h.length_pos
  obtain ⟨body, m, rfl, hlines⟩ := h.lines
  simp only [List.length_append] at hn hpos
  refine Steps.bind Steps.behind fun _ _ => ?_
  rw [List.append_assoc]
  have hend : ∀ i, Reads (statements stop (line (statement n)) (i + 1))
      (List.replicate (m + 1) .newline ++ rest) rest (· = []) :=
    fun i => statements_end (m + 1) i hsep (by rw [hrest, Bool.or_true])
  have hread := hlines.reads (N := body.length) (ReadsLine.line (by omega)) hstop rfl hend
    (Nat.le_refl _) (n := n) (by omega)
  refine Reads.bind hread fun ss' hss => Steps.bind Steps.here fun _ _ => Reads.pure ?_
  exact congrArg (Block.mk · default) hss

/-- A block that nothing but `end` closes. -/
theorem reads_end (h : BlockPhrase ss ks) (hn : 8 * ks.length ≤ n) :
    Reads (blockOf n (statement n) (· == .keyword .end_)) (ks ++ .keyword .end_ :: rest)
      (.keyword .end_ :: rest) (·.bare = ⟨ss, default⟩) :=
  h.reads (fun _ => startsStmt_ne_end) hn rfl rfl

/-- A block of an `if`, before its `end` or `else`. -/
theorem reads_closer (h : BlockPhrase ss ks) (hn : 8 * ks.length ≤ n)
    (hrest : isCloser (next rest) = true) :
    Reads (blockOf n (statement n) isCloser) (ks ++ rest) rest (·.bare = ⟨ss, default⟩) := by
  refine h.reads (fun _ => isCloser_of_startsLine) hn ?_ hrest
  revert hrest
  fun_cases isCloser (next rest) <;> simp_all [isSeparator]

end BlockPhrase

/-- The two words at the end of a block. -/
theorem blockEnd_steps (word : Keyword) (opener : Span) {rest : List Kind} :
    Steps (blockEnd word opener) (.keyword .end_ :: .keyword word :: rest) rest fun _ => True := by
  refine Steps.trans (Steps.check _) fun b hb => ?_
  rw [hb, next, beq_self_eq_true, if_pos rfl]
  exact Steps.trans (Steps.advance _) fun _ _ =>
    Steps.trans (Steps.expect _) fun _ _ => Steps.pure trivial

/-! ## Functions -/

/-- How a parameter is written. -/
def ParamPhrase : Param → List Kind → Prop
  | ⟨name, value, span, comments⟩, ks => name.span = default ∧ span = default ∧ comments = {} ∧
    match value with
    | none => ks = [.identifier name.name]
    | some value => ∃ vs, ks = .identifier name.name :: .symbol .assign :: vs ∧ Phrase 0 value vs

namespace ParamPhrase

theorem next_eq {p : Param} {ks : List Kind} (h : ParamPhrase p ks) :
    next ks = .identifier p.name.name := by
  obtain ⟨name, value, span, comments⟩ := p
  obtain ⟨-, -, -, h⟩ := h
  cases value with
  | none => rw [h]; rfl
  | some value => obtain ⟨vs, rfl, -⟩ := h; rfl

/-- How parameters are read as items. -/
theorem readsItem {n N : Nat} (hN : 8 * N ≤ n + 1) :
    ReadsItem (param (expression n)) (.symbol .closeParen) N ParamPhrase where
  opens {p ks} h rest := by
    have hnext := h.next_eq
    cases ks with
    | nil => cases hnext
    | cons t ts =>
      obtain rfl : t = .identifier p.name.name := hnext
      exact ⟨by simp [next], rfl⟩
  reads {p ks} h hlen rest hrest := by
    obtain ⟨⟨name, _⟩, value, span, comments⟩ := p
    obtain ⟨rfl, rfl, rfl, h⟩ := h
    cases value with
    | none =>
      subst h
      refine Steps.bind (Steps.identifier name) fun i hi => Steps.bind (Steps.mention _) fun _ _ => ?_
      have hassign : next rest ≠ .symbol .assign := by
        rintro heq
        rw [EndsItem, heq] at hrest
        rcases hrest with h | h | h <;> cases h
      refine Steps.bind (Steps.not_eat hassign) fun b hb => ?_
      rw [hb, if_neg Bool.false_ne_true]
      exact Reads.pure (by subst hi; rfl)
    | some value =>
      obtain ⟨vs, rfl, hv⟩ := h
      simp only [List.length_cons] at hlen
      refine Steps.bind (Steps.identifier name) fun i hi => Steps.bind (Steps.mention _) fun _ _ => ?_
      refine Steps.bind (Steps.eat _) fun b hb => ?_
      rw [hb, if_pos rfl]
      refine Reads.bind (hv.expression (n := n) (by omega) (Phrase.halts_item rfl hrest))
        fun v hv' => Reads.pure ?_
      subst hi hv'
      rfl

end ParamPhrase

/-- How the parameters of a function are written; without any the parentheses may be missing. -/
def ParamsPhrase (ps : List Param) (ks : List Kind) : Prop :=
  (ps = [] ∧ ks = []) ∨ ∃ gap ls, ks = .symbol .openParen :: (gap ++ (ls ++ [.symbol .closeParen])) ∧
    Gap gap ∧ Separated ParamPhrase ps ls

/-- The parameters of a function are read. -/
theorem ParamsPhrase.reads {n : Nat} {ps : List Param} {ks rest : List Kind}
    (h : ParamsPhrase ps ks) (hn : 8 * ks.length ≤ n) (hrest : next rest ≠ .symbol .openParen) :
    Reads (params n (expression n)) (ks ++ rest) rest (·.1.map Param.bare = ps) := by
  rcases h with ⟨rfl, rfl⟩ | ⟨gap, ls, rfl, hgap, hls⟩
  · refine Steps.bind (Steps.not_eat hrest) fun b hb => ?_
    rw [hb, if_neg Bool.false_ne_true]
    exact Reads.pure rfl
  · simp only [List.length_cons, List.length_append] at hn
    simp only [List.cons_append, List.append_assoc, List.nil_append]
    refine Steps.bind (Steps.eat _) fun b hb => ?_
    rw [hb, if_pos rfl]
    exact hls.bracketed (ParamPhrase.readsItem (by omega)) (by decide) (by omega) hgap rest

/-- **A function**. -/
theorem Phrase.function {ps : List Param} {ss : List Stmt} {ks bs : List Kind}
    (hps : ParamsPhrase ps ks) (hbody : BlockPhrase ss bs) :
    Phrase 11 (Expr.Form.function ps ⟨ss, default⟩).node
      (.keyword .function :: (ks ++ (bs ++ [.keyword .end_, .keyword .function]))) := by
  refine of_primary (.of_head rfl (by simp) _) fun n rest hn => Steps.bind Steps.kind fun k hk => ?_
  subst hk
  simp only [List.append_assoc, List.length_append, List.cons_append, List.nil_append] at hn ⊢
  refine Steps.bind (Steps.advance _) fun start _ => Reads.withScope _ ?_
  have hparen : next (bs ++ .keyword .end_ :: .keyword .function :: rest) ≠ .symbol .openParen := by
    rw [next_append_of_ne_nil (List.length_pos_iff.mp hbody.length_pos)]
    intro heq
    have hopens := hbody.opens
    rw [heq] at hopens
    cases hopens
  refine Reads.bind (hps.reads (n := n) (by omega) hparen) fun r hr => ?_
  refine Reads.bind (hbody.reads_end (n := n) (by omega)) fun b hb => ?_
  refine Steps.bind (blockEnd_steps _ _) fun _ _ => Reads.pure ?_
  rw [Expr.bare_function, hr, hb]

namespace Sentence

variable {s : Stmt} {e c : Expr} {ss : List Stmt} {ks cks bs rest : List Kind}

/-! ## Loops -/

/-- A block goes on no expression before it. -/
theorem halts_block (h : BlockPhrase ss bs) (k : Nat) (rest : List Kind) : Halts k (bs ++ rest) := by
  intro j hj
  rw [next_append_of_ne_nil (List.length_pos_iff.mp h.length_pos),
    Phrase.binding_of_isLayout h.opens] at hj
  cases hj

/-- **A `while` loop**. -/
theorem while_ (hc : Phrase 0 c cks) (hbody : BlockPhrase ss bs) :
    Sentence (Stmt.Form.while_ c ⟨ss, default⟩).node
      (.keyword .while_ :: (cks ++ (bs ++ [.keyword .end_, .keyword .while_]))) := by
  refine of_keyword rfl fun n rest hn _ => Steps.bind Steps.kind fun k hk => ?_
  subst hk
  simp only [List.append_assoc, List.length_append, List.cons_append, List.nil_append] at hn ⊢
  refine Steps.bind (Steps.advance _) fun start _ => ?_
  refine Reads.bind (hc.expression (n := n) (by omega) (halts_block hbody 0 _)) fun c' hc' => ?_
  refine Reads.bind (hbody.reads_end (n := n) (by omega)) fun b hb => ?_
  refine Steps.bind (blockEnd_steps _ _) fun _ _ => Reads.pure ?_
  rw [Stmt.bare_while, hc', hb]

/-- **A `for` loop**. -/
theorem for_ (item : String) (hc : Phrase 0 c cks) (hbody : BlockPhrase ss bs) :
    Sentence (Stmt.Form.for_ ⟨item, default⟩ c ⟨ss, default⟩).node
      (.keyword .for_ :: .identifier item :: .keyword .in_ ::
        (cks ++ (bs ++ [.keyword .end_, .keyword .for_]))) := by
  refine of_keyword rfl fun n rest hn _ => Steps.bind Steps.kind fun k hk => ?_
  subst hk
  simp only [List.append_assoc, List.length_append, List.cons_append, List.nil_append,
    List.length_cons] at hn ⊢
  refine Steps.bind (Steps.advance _) fun start _ => Steps.bind (Steps.identifier item) fun i hi => ?_
  refine Steps.bind (Steps.mention _) fun _ _ => Steps.bind (Steps.expect _) fun _ _ => ?_
  refine Reads.bind (hc.expression (n := n) (by omega) (halts_block hbody 0 _)) fun c' hc' => ?_
  refine Reads.bind (hbody.reads_end (n := n) (by omega)) fun b hb => ?_
  refine Steps.bind (blockEnd_steps _ _) fun _ _ => Reads.pure ?_
  rw [Stmt.bare_for, hi, hc', hb]

/-! ## Conditions -/

theorem halts_then (k : Nat) (rest : List Kind) : Halts k (.keyword .then_ :: rest) := by
  intro j hj
  cases hj

end Sentence

/-- The clauses of an `if` with blocks from the first `then` on, up to its `end`. -/
inductive Branches : Expr → List Clause → Option Block → List Kind → Prop where
  | last {c : Expr} {ss : List Stmt} {ks : List Kind} : BlockPhrase ss ks →
      Branches c [⟨c, ⟨ss, default⟩, default⟩] none ks
  | else_ {c : Expr} {ss ts : List Stmt} {ks ls : List Kind} : BlockPhrase ss ks →
      BlockPhrase ts ls →
      Branches c [⟨c, ⟨ss, default⟩, default⟩] (some ⟨ts, default⟩) (ks ++ .keyword .else_ :: ls)
  | elseIf {c d : Expr} {ss : List Stmt} {cs : List Clause} {last : Option Block}
      {ks ds ls : List Kind} : BlockPhrase ss ks → Phrase 0 d ds → Branches d cs last ls →
      Branches c (⟨c, ⟨ss, default⟩, default⟩ :: cs) last
        (ks ++ .keyword .else_ :: .keyword .if_ :: (ds ++ .keyword .then_ :: ls))

namespace Branches

/-- What follows the first `then` of an `if` with blocks starts on a new line. -/
theorem isLayout_next {c : Expr} {cs : List Clause} {last : Option Block} {ks : List Kind}
    (h : Branches c cs last ks) (rest : List Kind) : isLayout (next (ks ++ rest)) = true := by
  have hopens : ∀ {ss ks}, BlockPhrase ss ks → ∀ rest, isLayout (next (ks ++ rest)) = true := by
    intro ss ks hblock rest
    rw [next_append_of_ne_nil (List.length_pos_iff.mp hblock.length_pos)]
    exact hblock.opens
  cases h with
  | last hb => exact hopens hb _
  | else_ hb _ => rw [List.append_assoc]; exact hopens hb _
  | elseIf hb _ _ => rw [List.append_assoc]; exact hopens hb _

/-- **Clauses are read one by one.** -/
theorem reads {n m : Nat} {c c' : Expr} {cs : List Clause} {last : Option Block} {ks : List Kind}
    (h : Branches c cs last ks) (hc : c'.bare = c) (hn : 8 * ks.length ≤ n) (hm : ks.length ≤ m)
    (start : Span) (rest : List Kind) :
    Reads (clauses (expression n) (blockOf n (statement n)) m start c')
      (ks ++ .keyword .end_ :: rest) (.keyword .end_ :: rest)
      (fun r => r.1.map Clause.bare = cs ∧ r.2.map Block.bare = last) := by
  induction h generalizing c' m start with
  | @last c ss ks hb =>
    have hpos := hb.length_pos
    obtain ⟨m, rfl⟩ : ∃ m', m = m' + 1 := ⟨m - 1, by omega⟩
    refine Reads.bind (hb.reads_closer (n := n) hn rfl) fun b hb' => ?_
    have hafter : Steps (clausesAfter (expression n) (blockOf n (statement n))
        (clauses (expression n) (blockOf n (statement n)) m)) (.keyword .end_ :: rest)
        (.keyword .end_ :: rest) (· = ([], none)) := by
      refine Steps.trans (Steps.check _) fun e he => ?_
      rw [he, next, if_neg (by decide)]
      exact Steps.pure rfl
    refine Steps.bind hafter fun r hr => Reads.pure ?_
    rw [hr, List.map_cons, Clause.bare, hc, hb']
    exact ⟨rfl, rfl⟩
  | @else_ c ss ts ks ls hb hl =>
    simp only [List.append_assoc, List.length_append, List.cons_append, List.length_cons] at hn hm ⊢
    have hpos := hl.length_pos
    obtain ⟨m, rfl⟩ : ∃ m', m = m' + 1 := ⟨m - 1, by omega⟩
    refine Reads.bind (hb.reads_closer (n := n) (by omega) rfl) fun b hb' => ?_
    have hif : next (ls ++ .keyword .end_ :: rest) ≠ .keyword .if_ := by
      intro heq
      have hopens := hl.opens
      rw [next_append_of_ne_nil (List.length_pos_iff.mp hpos)] at heq
      rw [heq] at hopens
      cases hopens
    have hafter : Reads (clausesAfter (expression n) (blockOf n (statement n))
        (clauses (expression n) (blockOf n (statement n)) m))
        (.keyword .else_ :: (ls ++ .keyword .end_ :: rest)) (.keyword .end_ :: rest)
        (fun r => r.1 = [] ∧ r.2.map Block.bare = some ⟨ts, default⟩) := by
      refine Steps.bind (Steps.check _) fun e he => ?_
      rw [he, next, beq_self_eq_true, if_pos rfl]
      refine Steps.bind (Steps.advance _) fun _ _ => Steps.bind (Steps.not_eat hif) fun f hf => ?_
      rw [hf, if_neg Bool.false_ne_true]
      refine Reads.bind (hl.reads_end (n := n) (by omega)) fun l hl' => Reads.pure ?_
      exact ⟨rfl, congrArg some hl'⟩
    refine Reads.bind hafter fun r hr => Reads.pure ?_
    rw [hr.1, hr.2, List.map_cons, Clause.bare, hc, hb']
    exact ⟨rfl, rfl⟩
  | @elseIf c d ss cs last ks ds ls hb hd _ ih =>
    simp only [List.append_assoc, List.length_append, List.cons_append, List.length_cons] at hn hm ⊢
    obtain ⟨m, rfl⟩ : ∃ m', m = m' + 1 := ⟨m - 1, by omega⟩
    refine Reads.bind (hb.reads_closer (n := n) (by omega) rfl) fun b hb' => ?_
    have hafter : Reads (clausesAfter (expression n) (blockOf n (statement n))
        (clauses (expression n) (blockOf n (statement n)) m))
        (.keyword .else_ :: .keyword .if_ ::
          (ds ++ .keyword .then_ :: (ls ++ .keyword .end_ :: rest))) (.keyword .end_ :: rest)
        (fun r => r.1.map Clause.bare = cs ∧ r.2.map Block.bare = last) := by
      refine Steps.bind (Steps.check _) fun e he => ?_
      rw [he, next, beq_self_eq_true, if_pos rfl]
      refine Steps.bind (Steps.advance _) fun t _ => Steps.bind (Steps.eat _) fun f hf => ?_
      rw [hf, if_pos rfl]
      refine Reads.bind (hd.expression (n := n) (by omega) (Sentence.halts_then 0 _)) fun d' hd' => ?_
      exact Steps.bind (Steps.expect _) fun _ _ => ih hd' (by omega) (by omega) t.span
    refine Reads.bind hafter fun r hr => Reads.pure ?_
    rw [List.map_cons, Clause.bare, hc, hb', hr.1, hr.2]
    exact ⟨rfl, rfl⟩

end Branches

namespace Sentence

variable {s t : Stmt} {c : Expr} {cks ks ls : List Kind}

/-- **An `if` with blocks.** -/
theorem if_block {cs : List Clause} {last : Option Block} (hc : Phrase 0 c cks)
    (h : Branches c cs last ks) :
    Sentence (Stmt.Form.if_ cs last false).node
      (.keyword .if_ :: (cks ++ .keyword .then_ :: (ks ++ [.keyword .end_, .keyword .if_]))) := by
  refine of_keyword rfl fun n rest hn _ => Steps.bind Steps.kind fun k hk => ?_
  subst hk
  simp only [List.append_assoc, List.length_append, List.cons_append, List.nil_append,
    List.length_cons] at hn ⊢
  refine Steps.bind (Steps.advance _) fun start _ => ?_
  refine Reads.bind (hc.expression (n := n) (by omega) (halts_then 0 _)) fun c' hc' => ?_
  refine Steps.bind (Steps.expect _) fun _ _ => Steps.bind Steps.kind fun k hk => ?_
  rw [hk, h.isLayout_next, Bool.true_or, if_pos rfl]
  refine Reads.bind (h.reads (n := n) (m := n) hc' (by omega) (by omega) _ _) fun r hr => ?_
  refine Steps.bind (blockEnd_steps _ _) fun _ _ => Reads.pure ?_
  rw [Stmt.bare_if, hr.1, hr.2]

/-- After the condition of an `if` on one line. -/
theorem of_inline (hc : Phrase 0 c cks) (hks : startsStmt (next ks) = true)
    (h : ∀ n rest start c', 8 * ks.length ≤ n → Follows s rest → c'.bare = c →
      Reads (inlineIf (statement n) start c') (ks ++ rest) rest (·.bare = s)) :
    Sentence s (.keyword .if_ :: (cks ++ .keyword .then_ :: ks)) := by
  refine of_keyword rfl fun n rest hn hrest => Steps.bind Steps.kind fun k hk => ?_
  subst hk
  simp only [List.append_assoc, List.length_append, List.cons_append, List.length_cons] at hn ⊢
  refine Steps.bind (Steps.advance _) fun start _ => ?_
  refine Reads.bind (hc.expression (n := n) (by omega) (halts_then 0 _)) fun c' hc' => ?_
  refine Steps.bind (Steps.expect _) fun _ _ => Steps.bind Steps.kind fun k hk => ?_
  have hk' : (isLayout k || k == .eof) = false := by
    rw [next_append_of_ne_nil (by rintro rfl; cases hks)] at hk
    rw [← hk] at hks
    obtain ⟨hsep, -, heof, hcomment⟩ := startsStmt_cases hks
    cases k with
    | comment text => exact absurd rfl (hcomment text)
    | newline => cases hsep
    | eof => exact absurd rfl heof
    | _ => rfl
  rw [hk', if_neg Bool.false_ne_true]
  exact h n rest start.span c' (by omega) hrest hc'

theorem bare_single (s : Stmt) : (single s).bare = ⟨[s.bare], default⟩ := rfl

/-- **An `if` on one line** with one condition. -/
theorem if_alone (hc : Phrase 0 c cks) (hs : Sentence s ks) :
    Sentence (Stmt.Form.if_ [⟨c, ⟨[s], default⟩, default⟩] none true).node
      (.keyword .if_ :: (cks ++ .keyword .then_ :: ks)) := by
  refine of_inline hc hs.starts fun n rest start c' hn hrest hc' => ?_
  have hterm : (next rest).isTerminator = true := by
    rcases hrest with h | ⟨-, hopen⟩
    · exact h
    · cases hopen
  refine Reads.bind (hs.reads n rest hn (.inl hterm)) fun s' hs' => ?_
  have hrest : Steps (inlineRest (statement n)) rest rest (· = ([], none)) := by
    refine Steps.trans (Steps.not_eat ?_) fun b hb => ?_
    · intro heq
      rw [heq] at hterm
      cases hterm
    · rw [hb, if_neg Bool.false_ne_true]
      exact Steps.pure rfl
  refine Steps.bind hrest fun r hr => Reads.pure ?_
  subst hr
  rw [Stmt.bare_if, List.map_cons, Clause.bare, hc', bare_single, hs']
  rfl

/-- An `if` on one line with an `else`.  `cs` and `last` are what the statement after it adds. -/
theorem of_else {cs : List Clause} {last : Option Block} (hc : Phrase 0 c cks) (hs : Sentence s ks)
    (hopen : s.isOpen = false) (ht : Sentence t ls) (hlast : last ≠ none → t.isOpen = false)
    (hmore : ∀ t', t'.bare = t →
      (inlineElse (next ls == .keyword .if_) t').1.map Clause.bare = cs ∧
        (inlineElse (next ls == .keyword .if_) t').2.map Block.bare = last) :
    Sentence (Stmt.Form.if_ (⟨c, ⟨[s], default⟩, default⟩ :: cs) last true).node
      (.keyword .if_ :: (cks ++ .keyword .then_ :: (ks ++ .keyword .else_ :: ls))) := by
  refine of_inline hc ((next_append_of_ne_nil hs.ne_nil _).symm ▸ hs.starts)
    fun n rest start c' hn hrest hc' => ?_
  simp only [List.append_assoc, List.length_append, List.cons_append, List.length_cons] at hn ⊢
  have hfollow : Follows t rest := by
    refine hrest.imp id fun ⟨helse, h⟩ => ⟨helse, hlast ?_⟩
    rintro rfl
    cases h
  refine Reads.bind (hs.reads n _ (by omega) (.inr ⟨rfl, hopen⟩)) fun s' hs' => ?_
  have hrest : Reads (inlineRest (statement n)) (.keyword .else_ :: (ls ++ rest)) rest
      fun r => r.1.map Clause.bare = cs ∧ r.2.map Block.bare = last := by
    refine Steps.bind (Steps.eat _) fun b hb => ?_
    rw [hb, if_pos rfl]
    refine Steps.bind (Steps.check _) fun chained hchained => ?_
    rw [next_append_of_ne_nil ht.ne_nil] at hchained
    refine Reads.bind (ht.reads n rest (by omega) hfollow) fun t' ht' => Reads.pure ?_
    exact hchained ▸ hmore t' ht'
  refine Reads.bind hrest fun r hr => Reads.pure ?_
  rw [Stmt.bare_if, List.map_cons, Clause.bare, hc', bare_single, hs', hr.1, hr.2]

theorem isInline_bare (s : Stmt) : s.bare.isInline = s.isInline := by
  obtain ⟨form, span⟩ := s
  cases form with
  | expr e => rw [Stmt.bare_expr]; rfl
  | if_ cs last inline => cases inline <;> rfl
  | directive d => cases d <;> rfl
  | _ => rfl

/-- **An `if` on one line with an `else`.** -/
theorem if_else (hc : Phrase 0 c cks) (hs : Sentence s ks) (hopen : s.isOpen = false)
    (ht : Sentence t ls) (hinline : t.isInline = false) :
    Sentence (Stmt.Form.if_ [⟨c, ⟨[s], default⟩, default⟩] (some ⟨[t], default⟩) true).node
      (.keyword .if_ :: (cks ++ .keyword .then_ :: (ks ++ .keyword .else_ :: ls))) := by
  refine of_else hc hs hopen ht (fun _ => Stmt.isOpen_of_not_isInline hinline) fun t' ht' => ?_
  subst ht'
  rw [isInline_bare] at hinline
  rw [Stmt.inlineElse_of_not_isInline _ hinline]
  exact ⟨rfl, rfl⟩

/-- What is an `if` up to stretches and comments is an `if`. -/
theorem eq_if_of_bare {cs : List Clause} {last : Option Block} {inline : Bool}
    (h : s.bare = (Stmt.Form.if_ cs last inline).node) : ∃ cs' last' span,
      s = ⟨.if_ cs' last' inline, span⟩ ∧ cs'.map Clause.bare = cs ∧ last'.map Block.bare = last := by
  obtain ⟨form, span⟩ := s
  cases form with
  | if_ cs' last' inline' =>
    rw [Stmt.bare_if] at h
    obtain ⟨rfl, rfl, rfl⟩ := Stmt.Form.if_.inj (congrArg Stmt.form h)
    exact ⟨cs', last', span, rfl, rfl, rfl⟩
  | expr e => rw [Stmt.bare_expr] at h; cases h
  | directive d => cases d <;> cases h
  | _ => cases h

/-- **An `if` on one line with an `else if`.** -/
theorem if_chain {cs : List Clause} {last : Option Block} (hc : Phrase 0 c cks)
    (hs : Sentence s ks) (hopen : s.isOpen = false)
    (ht : Sentence (Stmt.Form.if_ cs last true).node ls) (hif : next ls = .keyword .if_) :
    Sentence (Stmt.Form.if_ (⟨c, ⟨[s], default⟩, default⟩ :: cs) last true).node
      (.keyword .if_ :: (cks ++ .keyword .then_ :: (ks ++ .keyword .else_ :: ls))) := by
  refine of_else hc hs hopen ht (fun hlast => ?_) fun t' ht' => ?_
  · cases last with
    | none => exact absurd rfl hlast
    | some b => rfl
  · obtain ⟨cs', last', span, rfl, hcs, hlast⟩ := eq_if_of_bare ht'
    rw [hif, beq_self_eq_true]
    exact ⟨hcs, hlast⟩

end Sentence

end ScriptBundler

import ScriptBundler.Proofs.Descent

/-!
# Proofs/Progress — reading moves on until the text ends

    s ──▸ t          what is left at `t` is the end of what was left at `s`

What is read is derived from the tokens passed over, on every run.  So no reader goes back, and a line
moves past a token, whether or not it can be read: if its first token is none a statement can start with,
the way to the next line starts behind it.  Where a block is not at its end, each of its rounds moves on.

Readers call one another, with a bound on how deep.  They come to an end by themselves, before the bound
does (`Finishes`): a larger one changes nothing, and where nothing is read, a fault was found.
-/

namespace ScriptBundler.Reader

open Token (Kind)

variable {α β : Type} {s t : State}

/-- A run of which nothing is supposed. -/
abbrev Setting.any : Setting := .ofClean False

theorem Settles.settled {p q : Reader α} {Q : List Token → List Posting → α → State → Prop}
    (h : Settles .any p q s Q) (hs : EndsOnce s.tokens) : Settled .any s Q (p s) (q s) :=
  h (.ofClean False hs) fun hc => hc.elim

/-- Nothing is read twice. -/
theorem Settled.onward {c : Setting} {Q : List Token → List Posting → α → State → Prop}
    {r r' : Option α × State} (h : Settled c s Q r r') : r.2.tokens <:+ s.tokens := by
  obtain ⟨ts, ps, hpass, -⟩ := h.passes
  exact hpass.onward

/-- From `s` on, the readers `p` come to an end by themselves, before the bound `n` does. -/
structure Finishes (p : Nat → Reader α) (n : Nat) (s : State) : Prop where
  /-- A larger bound changes nothing. -/
  same : ∀ m, n ≤ m → p m s = p n s
  /-- Where nothing is read, a fault was found. -/
  fault : (p n s).1 = none → s.faults.length < (p n s).2.faults.length
  /-- What is left is the end of what was left before. -/
  onward : (p n s).2.tokens <:+ s.tokens

/-- What settles with every larger bound is finished. -/
theorem Finishes.of_settles {p : Nat → Reader α} {n : Nat} {Q : List Token → List Posting → α → State → Prop}
    (hs : EndsOnce s.tokens) (h : ∀ m, n ≤ m → Settles .any (p n) (p m) s Q) : Finishes p n s := by
  have hsettled := fun m hm => (h m hm).settled hs
  exact ⟨fun m hm => (hsettled m hm).same, (hsettled n (Nat.le_refl n)).fault,
    (hsettled n (Nat.le_refl n)).onward⟩

/-! ## Rounds of a block -/

/-- The state after what stands between statements. -/
def State.lineStart (s : State) : State := (separators s).2

/-- From `s` on to `t`, at least one token was passed. -/
structure Onward (s t : State) : Prop where
  suffix : t.tokens <:+ s.tokens
  shorter : t.tokens.length < s.tokens.length

/-- A round of a block from `s` on: it is the last one, or a line moves on and the others follow it. -/
def Round (stop : Kind → Bool) (next : Reader (Option Stmt)) (n : Nat) (s : State) : Prop :=
  statements stop next (n + 1) s = (some [], s.lineStart) ∨
  ∃ r t, next s.lineStart = (some r, t) ∧ Onward s t ∧
    statements stop next (n + 1) s = (do return r.toList ++ (← statements stop next n)) t

/-- A reader yields if both its parts do. -/
theorem bind_yields {p : Reader α} {f : α → Reader β} (hp : ∃ a t, p s = (some a, t))
    (hf : ∀ a t, ∃ b u, f a t = (some b, u)) : ∃ b u, (p >>= f) s = (some b, u) := by
  obtain ⟨a, t, ha⟩ := hp
  rw [bind_some ha]
  exact hf a t

/-- Going on after a fault always yields. -/
theorem synchronize_yields (s : State) : ∃ r t, synchronize s = (some r, t) := by
  refine bind_yields ⟨_, _, rfl⟩ fun _ t => bind_yields ⟨_, _, rfl⟩ fun k u => ?_
  split
  · exact ⟨_, _, rfl⟩
  · exact ⟨_, _, rfl⟩

/-- A line that cannot be read is passed over. -/
theorem line_yields (stmt : Reader Stmt) (s : State) : ∃ r t, line stmt s = (some r, t) := by
  refine bind_yields ⟨_, _, rfl⟩ fun k t => ?_
  split
  · exact ⟨_, _, rfl⟩
  · refine bind_yields ⟨_, _, rfl⟩ fun r u => ?_
    cases r with
    | none => exact bind_yields (synchronize_yields u) fun _ _ => ⟨_, _, rfl⟩
    | some a => exact ⟨some a, u, rfl⟩

/-- A line at the top level always yields. -/
theorem topLine_yields (stmt : Reader Stmt) (s : State) : ∃ r t, topLine stmt s = (some r, t) := by
  refine bind_yields ⟨_, _, rfl⟩ fun k t => ?_
  split
  · refine bind_yields ⟨_, _, rfl⟩ fun span u => bind_yields ⟨_, _, rfl⟩ fun _ v => ?_
    exact bind_yields ⟨_, _, rfl⟩ fun _ w => bind_yields (synchronize_yields w) fun _ _ => ⟨_, _, rfl⟩
  · exact line_yields stmt t

/-- One round of reading lines. -/
theorem run_statements (stop : Kind → Bool) (next : Reader (Option Stmt)) (n : Nat) (s : State) :
    statements stop next (n + 1) s =
      (if s.lineStart.current.kind == .eof || s.lineStart.isFull || stop s.lineStart.current.kind then
        Pure.pure []
      else do
        let r ← next
        let rest ← statements stop next n
        return r.toList ++ rest : Reader (List Stmt)) s.lineStart := rfl

/-- A line that starts at `s` moves on. -/
theorem onward_of_parsesLine {next : Reader (Option Stmt)} {N : Nat} {r : Option Stmt}
    (hnext : Settles.ParsesLine .any N next next) (hs : EndsOnce s.tokens) (hN : s.tokens.length ≤ N)
    (hne : s.current.kind ≠ .eof) (hsep : isSeparator s.current.kind = false)
    (h : next s = (some r, t)) : Onward s t := by
  obtain ⟨-, ⟨ts, ps, hpass, hr⟩, -⟩ := (hnext s hN hne hsep).settled hs
  rw [h] at hpass hr
  have hlen : s.tokens.length = ts.length + t.tokens.length := hpass.length
  have hpos := List.length_pos_iff.mpr (hr r rfl).ne_nil
  exact ⟨hpass.onward, by omega⟩

/-- **Every round moves on**, or is the last. -/
theorem round (stop : Kind → Bool) {next : Reader (Option Stmt)} {N : Nat}
    (hnext : Settles.ParsesLine .any N next next) (hyields : ∀ t, ∃ r u, next t = (some r, u)) (n : Nat)
    (hs : EndsOnce s.tokens) (hN : s.tokens.length ≤ N) : Round stop next n s := by
  obtain ⟨-, ⟨gs, ps, hpass, hsep⟩, -⟩ := (Settles.separators (c := .any)).settled hs
  have honward : s.lineStart.tokens <:+ s.tokens := hpass.onward
  have hrun := run_statements stop next n s
  split at hrun
  · exact .inl hrun
  · rename_i hgo
    have hne : s.lineStart.current.kind ≠ .eof := fun heq => hgo (by rw [heq]; rfl)
    obtain ⟨r, t, ht⟩ := hyields s.lineStart
    have hline := onward_of_parsesLine hnext (State.endsOnce_of_suffix hs honward)
      (honward.length_le.trans hN) hne (hsep () rfl).2.2 ht
    refine .inr ⟨r, t, ht, ⟨hline.suffix.trans honward, ?_⟩, ?_⟩
    · exact Nat.lt_of_lt_of_le hline.shorter honward.length_le
    · rw [hrun, bind_some ht]

/-- A block is read to its end. -/
theorem statements_yields {stop : Kind → Bool} {next : Reader (Option Stmt)} {N n : Nat}
    (hnext : Settles.ParsesLine .any N next next) (hyields : ∀ t, ∃ r u, next t = (some r, u))
    (hs : EndsOnce s.tokens) (hN : s.tokens.length ≤ N) (hn : s.tokens.length ≤ n) :
    ∃ ss t, statements stop next n s = (some ss, t) := by
  induction n generalizing s with
  | zero => exact absurd s.tokens_pos (by omega)
  | succ n ih =>
    rcases round stop hnext hyields n hs hN with hlast | ⟨r, t, -, hon, hmore⟩
    · exact ⟨_, _, hlast⟩
    · rw [hmore]
      have hshorter := hon.shorter
      exact bind_yields (ih (State.endsOnce_of_suffix hs hon.suffix) (by omega) (by omega))
        fun _ _ => ⟨_, _, rfl⟩

/-! ## Scripts -/

/-- **A script always yields**. -/
theorem script_yields {n : Nat} (hs : EndsOnce s.tokens) (hn : 8 * s.tokens.length ≤ n) :
    ∃ r t, script n s = (some r, t) := by
  have hlen : (s.openScope s.current.span).tokens.length = s.tokens.length := rfl
  have hline := Settles.topLine (settling .any (Nat.le_refl n)).statement
  rw [run_script]
  exact bind_yields (statements_yields (s := s.openScope s.current.span) hline (topLine_yields _) hs
    (by omega) (by omega)) fun _ _ => ⟨_, _, rfl⟩

/-- **Reading moves on until the text ends.**  The tokens of every text end once; and if tokens end
once, some bound suffices to read them all, so that more changes nothing.  From any state on the way,
expressions, statements and blocks come to an end before the bound does: more changes nothing, they are
read or there is a new fault, and no reader goes back.  So does a line where one can start, and it moves
past a token, as each round of a block does that is not its last.  If there was no fault, the end of the
text was reached. -/
theorem script_moves_on : (∀ text, EndsOnce (scan text).tokens) ∧ ∀ ts, EndsOnce ts →
    (∃ r t, (∀ n, bound ts.length ≤ n → script n (.ofTokens ts) = (some r, t)) ∧
      Script.ofTokens ts = ⟨r, t.faults⟩ ∧ t.tokens <:+ ts ∧
      (t.faults = [] → t.current.kind = .eof ∧ t.ahead = [])) ∧
    ∀ s n, s.tokens <:+ ts → 8 * s.tokens.length ≤ n →
      Finishes expression n s ∧ Finishes statement n s ∧
      (∀ stop, Finishes (fun n => blockOf n (statement n) stop) n s) ∧
      (s.current.kind ≠ .eof → isSeparator s.current.kind = false →
        Finishes (fun n => line (statement n)) n s ∧ Finishes (fun n => topLine (statement n)) n s ∧
        Onward s (line (statement n) s).2) ∧
      ∀ stop k, Round stop (line (statement n)) k s ∧ Round stop (topLine (statement n)) k s := by
  refine ⟨fun text => endsOnce_scanFrom _ _ _, fun ts hts => ⟨?_, fun s n hsuffix hn => ?_⟩⟩
  · have htokens := State.tokens_ofTokens hts
    have hends : EndsOnce (State.ofTokens ts).tokens := htokens.symm ▸ hts
    have hbound : 8 * (State.ofTokens ts).tokens.length ≤ bound ts.length := by
      rw [htokens]
      exact Nat.le_add_right _ _
    obtain ⟨r, t, ht⟩ := script_yields hends hbound
    have hsettled := fun n (hn : bound ts.length ≤ n) =>
      (Settles.script (c := .any) (s := .ofTokens ts) hn hbound).settled hends
    have honward : t.tokens <:+ ts := by
      have := (hsettled _ (Nat.le_refl _)).onward
      rwa [ht, htokens] at this
    refine ⟨r, t, fun n hn => (hsettled n hn).same.trans ht, ?_, honward, fun hfaults => ?_⟩
    · rw [Script.ofTokens, ht]
    · obtain ⟨_, _, -, hended⟩ := (hsettled _ (Nat.le_refl _)).passes
      rw [ht] at hended
      have heof : t.current.kind = .eof := by
        rcases (hended r rfl).2.2 with h | h
        · exact h
        · rw [State.isFull, hfaults] at h
          cases h
      exact ⟨heof, State.ahead_eq_nil (State.endsOnce_of_suffix hends (htokens.symm ▸ honward)) heof⟩
  · have hends : EndsOnce s.tokens := by
      obtain ⟨us, rfl⟩ := hsuffix
      exact (endsOnce_of_append hts (List.cons_ne_nil _ _)).1
    have hlen : s.tokens.length ≤ n / 8 := by omega
    have hgrammar := fun m (hm : n ≤ m) => settling .any hm
    have hline := Settles.line (hgrammar n (Nat.le_refl n)).statement
    have htop := Settles.topLine (hgrammar n (Nat.le_refl n)).statement
    refine ⟨.of_settles hends fun m hm => (hgrammar m hm).expression s (by omega),
      .of_settles hends fun m hm => (hgrammar m hm).statement s hlen,
      fun stop => .of_settles hends fun m hm =>
        Settles.blockOf (hgrammar m hm).statement hm (by omega) stop s hlen,
      fun hne hsep => ⟨.of_settles hends fun m hm => Settles.line (hgrammar m hm).statement s hlen hne hsep,
        .of_settles hends fun m hm => Settles.topLine (hgrammar m hm).statement s hlen hne hsep, ?_⟩,
      fun stop k => ⟨round stop hline (line_yields _) k hends hlen,
        round stop htop (topLine_yields _) k hends hlen⟩⟩
    obtain ⟨r, t, ht⟩ := line_yields (statement n) s
    rw [ht]
    exact onward_of_parsesLine hline hends hlen hne hsep ht

end ScriptBundler.Reader

import ScriptBundler.Proofs.Progress

/-!
# Proofs/Balance — every line starts where its block started

    f = function(a, (b]     ◂ a fault inside of two expressions and the scope of a function
    c = d                   ◂ nothing is open but the script: `c` and `d` are recorded there

A reader may stop anywhere, inside of brackets, blocks and functions.  Whether or not it yields something,
it has left what it entered (`Balanced`).  So do the lines of a block one by one, and the next one is read
with the scopes and the depth of the block, after any fault.
-/

namespace ScriptBundler.Reader

open Token (Kind)

/-- Whether the lines of a block end here. -/
def State.endsLines (stop : Kind → Bool) (s : State) : Bool :=
  s.current.kind == .eof || s.isFull || stop s.current.kind

/-- From `s` on, reading lines by `next` comes to one that starts at `t`. -/
inductive Starts (stop : Kind → Bool) (next : Reader (Option Stmt)) : State → State → Prop
  | here {s} : s.lineStart.endsLines stop = false → Starts stop next s s.lineStart
  | after {s t} : s.lineStart.endsLines stop = false → Starts stop next (next s.lineStart).2 t →
      Starts stop next s t

variable {stop : Kind → Bool} {next : Reader (Option Stmt)} {s t : State}

/-- Names go to the scope that was the innermost one before. -/
theorem Balanced.scopes_mention (h : Balanced s t) {i : Nat} {is : List Nat} (hopen : s.openScopes = i :: is)
    (x : String) : (t.mention x).mentions.scopes = t.mentions.scopes.modify i (·.add x) := by
  rw [State.mention, h.openScopes.trans hopen]
  rfl

/-- **A run of lines keeps what one line keeps.** -/
theorem Starts.balanced [hnext : Keeps .balance next] (h : Starts stop next s t) : Balanced s t := by
  have hstart : ∀ u : State, Balanced u u.lineStart := Keeps.holds (R := .balance) (p := separators)
  induction h with
  | here => exact hstart _
  | after _ _ ih => exact (hstart _).trans (.trans (hnext.holds _) ih)

/-- Lines are read where they start, and nowhere else. -/
theorem statements_congr {next' : Reader (Option Stmt)} (k : Nat)
    (h : ∀ t, Starts stop next s t → next' t = next t) :
    statements stop next' k s = statements stop next k s := by
  induction k generalizing s with
  | zero => rfl
  | succ k ih =>
    rw [run_statements, run_statements]
    split
    · rfl
    · rename_i hends
      have hgo : s.lineStart.endsLines stop = false := Bool.eq_false_iff.mpr hends
      have hrest := ih fun t ht => h t (.after hgo ht)
      have hline := h _ (.here hgo)
      rcases hrun : next s.lineStart with ⟨_ | r, u⟩
      · rw [bind_none (hline.trans hrun), bind_none hrun]
      · rw [hrun] at hrest
        rw [bind_some (hline.trans hrun), bind_some hrun]
        simp only [Bind.bind, hrest]

/-- The state in which the lines of a script are read. -/
def State.opening (ts : List Token) : State := (ofTokens ts).openScope (ofTokens ts).current.span

/-- **Reading leaves what it enters.**  Whether or not it yields something, the reader of expressions, of
statements or of blocks ends with the depth and the open scopes it started with; scopes on record stay in
their places, and only the innermost open one may get more names.  So every line of a block starts with the
depth and the scopes of the block, whatever went wrong before it, and records its names in the same scope;
every line of a script starts at depth zero, in the scope of the script.  No line is read elsewhere. -/
theorem reading_balanced (n : Nat) :
    (∀ s, Balanced s (expression n s).2 ∧ Balanced s (statement n s).2 ∧
      ∀ k stop, Balanced s (blockOf k (statement n) stop s).2) ∧
    (∀ stop s t, Starts stop (line (statement n)) s t → Balanced s t ∧ ∀ i is, s.openScopes = i :: is →
      ∀ x, (t.mention x).mentions.scopes = t.mentions.scopes.modify i (·.add x)) ∧
    (∀ ts t, Starts (fun _ => false) (topLine (statement n)) (.opening ts) t →
      t.depth = 0 ∧ t.openScopes = [0] ∧
        ∀ x, (t.mention x).mentions.scopes = t.mentions.scopes.modify 0 (·.add x)) ∧
    ∀ stop next next' k s, (∀ t, Starts stop next s t → next' t = next t) →
      statements stop next' k s = statements stop next k s := by
  refine ⟨fun s => ⟨Keeps.holds (R := .balance) s, Keeps.holds (R := .balance) s, fun k stop =>
      Keeps.holds (R := .balance) s⟩, fun stop s t h => ⟨h.balanced, fun i is hopen x =>
        h.balanced.scopes_mention hopen x⟩, fun ts t h => ?_, fun _ _ _ k _ => statements_congr k⟩
  have hbalanced := h.balanced
  have hstart : (State.opening ts).depth = 0 ∧ (State.opening ts).openScopes = [0] := by
    cases ts <;> exact ⟨rfl, rfl⟩
  exact ⟨hbalanced.depth.trans hstart.1, hbalanced.openScopes.trans hstart.2,
    hbalanced.scopes_mention hstart.2⟩

/-- A fault in the brackets of a parameter's value, and a line after it. -/
def openBrackets : Source where
  name := "main"
  text := "f = function(a = (b]\nc = d"

theorem reading_balanced_brackets : ∃ t,
    Starts (fun _ => false) (topLine (statement 99)) (.opening openBrackets.scan.tokens) t ∧
    t.faults.length = 1 ∧ t.current.kind = .identifier "c" ∧ t.mentions.scopes.length = 2 ∧
    t.depth = 0 ∧ t.openScopes = [0] := by
  have hstarts : Starts (fun _ => false) (topLine (statement 99)) (.opening openBrackets.scan.tokens) _ :=
    .after (by decide +kernel) (.here (by decide +kernel))
  obtain ⟨-, -, htop, -⟩ := reading_balanced 99
  obtain ⟨hdepth, hopen, -⟩ := htop _ _ hstarts
  exact ⟨_, hstarts, by decide +kernel, by decide +kernel, by decide +kernel, hdepth, hopen⟩

end ScriptBundler.Reader

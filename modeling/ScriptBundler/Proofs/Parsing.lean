import ScriptBundler.Proofs.Scanning
import ScriptBundler.Proofs.Sentence
import ScriptBundler.Script

/-!
# Proofs/Parsing — when a text is a script

A text is a script if neither its tokens nor its grammar has a fault (`Source.parse_eq_ok_iff`).  A text
whose tokens are lines is a script with the statements on those lines, unless it nests expressions too
deep (`Source.parse_lines`).
-/

namespace ScriptBundler

open Token (Kind)
open Reader

/-! ## Reports -/

namespace Report

/-- Errors are counted, also those beyond the limit. -/
theorem errorCount_foldl (ds : List Diagnostic) (r : Report) :
    (ds.foldl addError r).errorCount = r.errorCount + ds.length := by
  induction ds generalizing r with
  | nil => rfl
  | cons d ds ih =>
    rw [List.foldl_cons, ih, List.length_cons]
    exact Nat.add_right_comm ..

theorem warnings_foldl (ds : List Diagnostic) (r : Report) :
    (ds.foldl addError r).warnings = r.warnings := by
  induction ds generalizing r with
  | nil => rfl
  | cons d ds ih => exact ih (r.addError d)

/-- Errors that are shown stay so. -/
theorem errors_foldl (ds : List Diagnostic) (r : Report) :
    r.errors <+: (ds.foldl addError r).errors := by
  induction ds generalizing r with
  | nil => exact List.prefix_rfl
  | cons d ds ih =>
    refine List.IsPrefix.trans ?_ (ih (r.addError d))
    unfold addError
    split
    · exact List.prefix_append ..
    · exact List.prefix_rfl

theorem ofFaults_eq (source : Source) (faults : List Located) :
    ofFaults source faults =
      (faults.map fun f => Diagnostic.locate source f.fault f.span).foldl addError {} :=
  List.foldl_map.symm

/-- There are no errors if neither tokens nor grammar have a fault. -/
theorem hasErrors_append (source : Source) (fs gs : List Located) :
    ((ofFaults source fs).append (ofFaults source gs)).hasErrors = false ↔ fs = [] ∧ gs = [] := by
  simp only [append, ofFaults_eq, warnings_foldl, List.foldl_nil, hasErrors, errorCount_foldl,
    List.length_map, decide_eq_false_iff_not, ← List.length_eq_zero_iff]
  constructor
  · omega
  · rintro ⟨hfs, hgs⟩
    rw [List.length_eq_zero_iff] at hgs
    subst hgs
    simp [hfs]

/-- The first fault of the grammar is reported first, if the tokens have none. -/
theorem first?_append (source : Source) (f : Located) (fs : List Located) :
    ((ofFaults source []).append (ofFaults source (f :: fs))).first? =
      some (.locate source f.fault f.span) := by
  have hfirst : [Diagnostic.locate source f.fault f.span] <+: (ofFaults source (f :: fs)).errors := by
    rw [ofFaults_eq]
    exact errors_foldl _ (addError {} (.locate source f.fault f.span))
  obtain ⟨ds, hds⟩ := hfirst
  have hagain : [Diagnostic.locate source f.fault f.span] <+:
      ((ofFaults source (f :: fs)).errors.foldl addError {}).errors := by
    rw [← hds]
    exact errors_foldl ds (addError {} (.locate source f.fault f.span))
  obtain ⟨es, hes⟩ := hagain
  have hwarnings : (ofFaults source (f :: fs)).warnings = [] := by
    rw [ofFaults_eq]
    exact warnings_foldl _ _
  simp only [append, hwarnings, List.foldl_nil, first?]
  rw [ofFaults, List.foldl_nil, ← hes]
  rfl

end Report

/-! ## Scripts -/

namespace Source

/-- **A text is a script if it has no fault.** -/
theorem parse_eq_ok_iff {source : Source} {script : Script} : source.parse = .ok script ↔
    source.scan.faults = [] ∧ (Script.ofTokens source.scan.tokens).faults = [] ∧
      (Script.ofTokens source.scan.tokens).script = script := by
  rw [parse]
  have hiff := Report.hasErrors_append source source.scan.faults
    (Script.ofTokens source.scan.tokens).faults
  split
  · rename_i herrors
    rw [herrors] at hiff
    simp only [reduceCtorEq, false_iff, not_and] at hiff ⊢
    exact fun hscan hread => absurd hread (hiff hscan)
  · rename_i herrors
    rw [Bool.not_eq_true] at herrors
    obtain ⟨hscan, hread⟩ := hiff.mp herrors
    simp [hscan, hread]

/-- The text nests expressions too deep, and that is what is reported first. -/
def NestsTooDeep (source : Source) : Prop :=
  ∃ report, source.parse = .error report ∧
    report.first?.map Diagnostic.code = some Fault.nestedTooDeep.code

/-- Whether a text is a script does not depend on the name it has. -/
theorem not_nestsTooDeep {text : String} (h : (Source.mk "" text).parse.toOption.isSome = true)
    (name : String) : ¬ (Source.mk name text).NestsTooDeep := by
  rintro ⟨report, hreport, -⟩
  cases hparse : (Source.mk "" text).parse with
  | error report => simp [hparse, Except.toOption] at h
  | ok script =>
    have hread : (Source.mk name text).parse = .ok script := by
      rw [parse_eq_ok_iff] at hparse ⊢
      exact hparse
    cases hread.symm.trans hreport

end Source

/-- **Lines are read as a script**. -/
theorem Lines.script {ss : List Stmt} {ks : List Kind} (h : Lines ss ks) {n : Nat}
    (hn : 8 * ks.length < n) :
    Reads (Reader.script n) ks [] (fun r => r.body.map Stmt.bare = ss) := by
  have hend : ∀ i, Reads (statements (fun _ => false) (topLine (statement n)) (i + 1)) [] [] (· = []) :=
    fun i => statements_end 0 i rfl rfl
  have hread := h.reads (N := ks.length) (ReadsLine.topLine (by omega)) (fun _ _ => rfl) rfl hend
    (Nat.le_refl _) (n := n) (by omega)
  rw [List.append_nil] at hread
  refine Steps.bind Steps.here fun _ _ => ?_
  refine Steps.bind (Steps.update (fun _ => rfl) (fun _ => rfl) fun _ => rfl) fun _ _ => ?_
  refine Reads.bind hread fun body hbody => Steps.bind Steps.here fun stop _ => ?_
  refine Steps.bind (Steps.closeScope fun _ => stop) fun _ _ => ?_
  exact Steps.bind (Steps.get (Q := fun _ => True) fun _ _ => trivial) fun _ _ => Reads.pure hbody

theorem ahead_ofTokens {ts : List Token} {ks : List Kind} (h : ts.map Token.kind = ks ++ [.eof]) :
    (State.ofTokens ts).Ahead ks := by
  cases ts with
  | nil => simp at h
  | cons t ts => exact h

/-- **Lines of tokens are a script**, unless they nest expressions too deep. -/
theorem Source.parse_lines (name : String) {cs : List Char} {ks : List Kind} {ss : List Stmt}
    (hscan : Scans cs ks []) (h : Lines ss ks) :
    (Source.mk name (String.ofList cs)).NestsTooDeep ∨
      ∃ script, (Source.mk name (String.ofList cs)).parse = .ok script ∧
        script.body.map Stmt.bare = ss := by
  obtain ⟨htokens, hfaults⟩ := scan_of_scans hscan
  generalize hsource : Source.mk name (String.ofList cs) = source
  replace htokens : source.scan.tokens.map Token.kind = ks ++ [.eof] := by rw [← hsource]; exact htokens
  replace hfaults : source.scan.faults = [] := by rw [← hsource]; exact hfaults
  have hlen : source.scan.tokens.length = ks.length + 1 := by
    rw [← List.length_map Token.kind, htokens, List.length_append, List.length_singleton]
  have hread := h.script (n := bound source.scan.tokens.length) (by rw [bound]; omega)
  rcases hread _ (ahead_ofTokens htokens) (by cases source.scan.tokens <;> rfl) with
    ⟨d, hd, fs, hfs⟩ | ⟨_, t, hscript, ⟨script, rfl, hbody⟩, -, hread⟩
  · left
    have hempty : (State.ofTokens source.scan.tokens).faults = [] := by
      cases source.scan.tokens <;> rfl
    have hread : (Script.ofTokens source.scan.tokens).faults = d :: fs := by
      rw [Script.ofTokens]
      split <;> rename_i hs <;> rw [hs, hempty] at hfs <;> exact hfs.symm
    refine ⟨_, if_pos ?_, ?_⟩
    · rw [hread, ← Bool.not_eq_false, Report.hasErrors_append]
      simp
    · rw [hread, hfaults, Report.first?_append, Option.map_some, Diagnostic.locate, hd]
  · right
    have hempty : t.faults = [] := by
      rw [hread]
      cases source.scan.tokens <;> rfl
    have hofTokens : Script.ofTokens source.scan.tokens = ⟨script, []⟩ := by
      rw [Script.ofTokens, hscript, ← hempty]
      rfl
    refine ⟨script, parse_eq_ok_iff.mpr ⟨hfaults, ?_, ?_⟩, hbody⟩ <;> rw [hofTokens]

end ScriptBundler

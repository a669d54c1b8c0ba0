import ScriptBundler.Proofs.Shifts

/-!
# Proofs/Unwritable — which scripts cannot be written

    a text ──read──▸ a tree ──write──▸ a text
                        │
                a shift, minified ──▸ the failure

Two things stop a writer: a shift, where text is minified, and an `if` on one line with a body that is
not one statement.  Every mode stops at the second only if such an `if` is among the nodes, and no `if` of
a tree that was read is one.  So a script that was read is written, unless it is minified and has a shift;
then the failure is that of the first shift.
-/

namespace ScriptBundler

open Layout (text eol intercalate)

/-! ## Nodes that stop a writer -/

/-- Whether a node shifts bits. -/
def Node.isShift : Node → Bool
  | .expr ⟨.binary op _ _, _, _⟩ => op.isShift
  | _ => false

theorem Node.shift?_eq_none {n : Node} : n.shift? = none ↔ n.isShift = false := by
  unfold shift? isShift
  split
  · simp
  · simp

/-- Nodes without a shift. -/
theorem firstShift?_eq_none {ns : List Node} :
    firstShift? ns = none ↔ ∀ n ∈ ns, n.isShift = false := by
  rw [firstShift?, List.findSome?_eq_none_iff]
  exact forall₂_congr fun n _ => Node.shift?_eq_none

/-- A shift is reported as an operator without support. -/
theorem eq_unsupported_of_firstShift? {ns : List Node} {e : WriteError} (h : firstShift? ns = some e) :
    ∃ op span, e = .unsupportedOperator op span := by
  obtain ⟨n, -, hn⟩ := List.exists_of_findSome?_eq_some h
  unfold Node.shift? at hn
  split at hn
  · split at hn
    · exact ⟨_, _, (Option.some.inj hn).symm⟩
    · cases hn
  · cases hn

/-- The first shift has none before it. -/
theorem firstShift?_eq_some {ns : List Node} {op : BinaryOp} {span : Span} :
    firstShift? ns = some (.unsupportedOperator op span) ↔ ∃ before after l r cs,
      ns = before ++ .expr ⟨.binary op l r, span, cs⟩ :: after ∧ op.isShift = true ∧
        ∀ n ∈ before, n.isShift = false := by
  rw [firstShift?, List.findSome?_eq_some_iff]
  constructor
  · rintro ⟨before, n, after, hns, hn, hbefore⟩
    unfold Node.shift? at hn
    split at hn
    · rename_i l r cs
      split at hn
      · rename_i hop
        obtain ⟨rfl, rfl⟩ : _ ∧ _ := by simpa using hn
        exact ⟨before, after, _, _, _, hns, hop, fun n hn => Node.shift?_eq_none.mp (hbefore n hn)⟩
      · cases hn
    · cases hn
  · rintro ⟨before, after, l, r, cs, hns, hop, hbefore⟩
    exact ⟨before, _, after, hns, by simp [Node.shift?, hop], fun n hn =>
      Node.shift?_eq_none.mpr (hbefore n hn)⟩

/-! ## Scripts that were read -/

namespace Source

variable {source : Source} {script : Script} {settings : Settings}

/-- The bodies of an `if` on one line are one statement each, also where it has several conditions. -/
theorem even_of_parse (h : source.parse = .ok script) : ∀ n ∈ script.nodes, n.isUneven = false := by
  intro n hn
  have hproper := Stmt.proper_allNodes ((inductive_proper source.stock).stmts script.body)
    (readFrom_stock h).proper n hn
  unfold Node.isUneven
  split
  · rename_i cs last span
    obtain ⟨hcs, hlast⟩ := Reformatted.length_of_onOneLine (hproper.2.2.2 rfl)
    cases last with
    | none => simpa using hcs
    | some b => simpa using And.intro hcs (hlast b rfl)
  · rfl

/-- A script on its own includes nothing. -/
theorem include?_scene (path : String) : (source.scene script settings).include? path = none := by
  unfold Scene.include? Scene.linked?
  split <;> rfl

/-- A script on its own that can be written is an output. -/
theorem bundle_of_run (h : source.parse = .ok script) {p : Layout × List Nat}
    (hrun : (source.scene script settings).script script [] = .ok p) :
    ∃ t, source.bundle settings = .ok t := by
  refine ⟨Bundle.joinParts (Bundle.separator settings.mode) [source.lead script settings, p.1.join], ?_⟩
  rw [bundle_eq h]
  show Bundle.part _ (_ <$> Layout.join <$> Prod.fst <$> (source.scene script settings).script script []) = _
  rw [hrun]
  rfl

/-- A script on its own that cannot be written is none. -/
theorem bundle_of_failed_run (h : source.parse = .ok script) {e : WriteError}
    (hrun : (source.scene script settings).script script [] = .error e) :
    source.bundle settings = .error (.ofWriteError source.name e) := by
  rw [bundle_eq h]
  show Bundle.part _ (_ <$> Layout.join <$> Prod.fst <$> (source.scene script settings).script script []) = _
  rw [hrun]
  rfl

/-- **A script that was read is written unless a node stops its writer**, and the first one that does is what
it fails for. -/
theorem ends_of_parse {ε : Type} {sceneOf : ε → Scene} {demand : Node → List Demand}
    {stop? : Node → Option WriteError} {placed : List Nat} {w : (ε → Write Layout) → Write Layout}
    {out : Layout → Layout} (h : source.parse = .ok script)
    (hw : Drafts (source.scene script settings) sceneOf demand stop? False [] placed script.nodes w out)
    (splicer : ε → Write Layout) : Ends (w splicer []) (fun _ => script.nodes.findSome? stop? = none)
      fun e => script.nodes.findSome? stop? = some e := by
  refine (hw.ends (E := fun _ => False) splicer (fun hinclude => ?_) []).mono (fun _ => id) fun e he => ?_
  · exact absurd ((include?_scene _).symm.trans hinclude) (Option.some_ne_none _).symm
  · refine he.resolve_right fun he => ?_
    obtain ⟨n, hn, huneven⟩ := (he.resolve_left id).1.resolve_left id
    exact absurd (even_of_parse h n hn) (by simp [huneven])

/-- In every mode but one, no node stops a writer. -/
theorem script_ends_of_ne (h : source.parse = .ok script) (hmode : settings.mode ≠ .minified) :
    Ends ((source.scene script settings).script script []) (fun _ => True) fun _ => False := by
  have hnone : ∀ e, script.nodes.findSome? (fun _ => (none : Option WriteError)) = some e → False := by
    intro e he
    obtain ⟨n, -, hn⟩ := List.exists_of_findSome?_eq_some he
    cases hn
  unfold Scene.script
  rw [settings_scene]
  cases hcase : settings.mode with
  | verbatim =>
    exact (ends_of_parse h (Verbatim.drafted_rows ⟨_, 0⟩ _) _).mono (fun _ _ => trivial) hnone
  | minified => exact absurd hcase hmode
  | reformatted =>
    exact (ends_of_parse h (Reformatted.drafted_rows ⟨_, 0, true⟩ _) _).mono (fun _ _ => trivial) hnone

/-- Minified text is written unless there is a shift, and the first one is what it fails for. -/
theorem script_ends_minified (h : source.parse = .ok script) (hmode : settings.mode = .minified) :
    Ends ((source.scene script settings).script script []) (fun _ => firstShift? script.nodes = none)
      fun e => firstShift? script.nodes = some e := by
  unfold Scene.script
  rw [settings_scene, hmode]
  exact ends_of_parse h (Minified.drafted_stmts ⟨_, false⟩ _) _

/-- **A script that was read is written, unless it is minified and has a shift.**  Then the failure is at
the first shift, where nodes come before those in them and in the order of the text.  No `if` on one line
has a body of other than one statement, so writing never fails for that. -/
theorem bundle_fails_at_shift (hparse : source.parse = .ok script) :
    (settings.mode ≠ .minified → ∃ t, source.bundle settings = .ok t) ∧
    (settings.mode = .minified →
      ((∃ t, source.bundle settings = .ok t) ↔ ∀ n ∈ script.nodes, n.isShift = false) ∧
      ∀ before after op l r span cs,
        script.nodes = before ++ .expr ⟨.binary op l r, span, cs⟩ :: after → op.isShift = true →
        (∀ n ∈ before, n.isShift = false) →
          source.bundle settings =
            .error ⟨source.name, some span, .unwritable (.unsupportedOperator op span)⟩) ∧
    (∀ n ∈ script.nodes, n.isUneven = false) ∧
    ∀ e count, source.bundle settings = .error e → e.cause ≠ .unwritable (.inlineBody count) := by
  have hother := fun hmode : settings.mode ≠ .minified => script_ends_of_ne hparse hmode
  have hminified := fun hmode : settings.mode = .minified => script_ends_minified hparse hmode
  cases hrun : (source.scene script settings).script script [] with
  | ok p =>
    obtain ⟨t, ht⟩ := bundle_of_run hparse hrun
    rw [ht]
    refine ⟨fun _ => ⟨t, rfl⟩, fun hmode => ?_, even_of_parse hparse, fun e count he => ?_⟩
    · have hnone := hminified hmode
      rw [hrun] at hnone
      refine ⟨⟨fun _ => firstShift?_eq_none.mp hnone, fun _ => ⟨t, rfl⟩⟩, ?_⟩
      intro before after op l r span cs hnodes hop hbefore
      have hfirst := firstShift?_eq_some.mpr ⟨before, after, l, r, cs, hnodes, hop, hbefore⟩
      cases hfirst.symm.trans hnone
    · cases he
  | error e =>
    have hmode : settings.mode = .minified := by
      by_contra hne
      have hfalse := hother hne
      rw [hrun] at hfalse
      exact hfalse
    have hfirst := hminified hmode
    rw [hrun] at hfirst
    obtain ⟨op, span, rfl⟩ := eq_unsupported_of_firstShift? hfirst
    rw [bundle_of_failed_run hparse hrun]
    refine ⟨fun hne => absurd hmode hne, fun _ => ⟨⟨fun ht => ?_, fun hall => ?_⟩, ?_⟩,
      even_of_parse hparse, fun e count he hcause => ?_⟩
    · obtain ⟨t, ht⟩ := ht
      cases ht
    · cases (firstShift?_eq_none.mpr hall).symm.trans hfirst
    · intro before after op' l r span' cs hnodes hop hbefore
      have hfirst' := firstShift?_eq_some.mpr ⟨before, after, l, r, cs, hnodes, hop, hbefore⟩
      cases hfirst.symm.trans hfirst'
      rfl
    · cases he
      cases hcause

/-- A shift in the second condition of an `if` on one line, with another one in it and one behind it. -/
def shifting : Source where
  name := "main"
  text := "if a then f(1 | 2) else if b >> (2 << c) then g else h\ny = 3 >>> 4"

theorem bundle_fails_at_shift_shifting : ∃ script, shifting.parse = .ok script ∧
    (∃ t, shifting.bundle { mode := .verbatim } = .ok t) ∧
    (∃ t, shifting.bundle { mode := .reformatted } = .ok t) ∧
    shifting.bundle { mode := .minified } = .error ⟨"main", some ⟨⟨1, 28, 27⟩, ⟨1, 41, 40⟩⟩,
      .unwritable (.unsupportedOperator .shiftRight ⟨⟨1, 28, 27⟩, ⟨1, 41, 40⟩⟩)⟩ := by
  have hfirst : shifting.parse.toOption.bind (firstShift? ·.nodes) =
      some (.unsupportedOperator .shiftRight ⟨⟨1, 28, 27⟩, ⟨1, 41, 40⟩⟩) := by decide +kernel
  cases hparse : shifting.parse with
  | error report => simp [hparse, Except.toOption] at hfirst
  | ok script =>
    rw [hparse] at hfirst
    obtain ⟨before, after, l, r, cs, hnodes, hop, hbefore⟩ := firstShift?_eq_some.mp hfirst
    exact ⟨script, rfl, (bundle_fails_at_shift hparse).1 (by decide),
      (bundle_fails_at_shift hparse).1 (by decide),
      ((bundle_fails_at_shift hparse).2.1 rfl).2 before after _ l r _ cs hnodes hop hbefore⟩

end Source

end ScriptBundler

import ScriptBundler.Proofs.Outline

/-!
# Proofs/Guarding — includes that lead back to themselves

    outline of a script ─┬─ hole: module not there yet ──▸ outline of the module, then on
                         └─ hole: module there ──────────▸ nothing, then on

Modules may include one another in a circle.  What a script is expanded to is said without a bound
(`Expands`): a hole for a module that is not in place is filled with what the module is expanded to, and
stays empty otherwise.  Every outline is expanded in one way (`Expands.unique`) and in finitely many
steps, because there are finitely many modules to put in place.  The bound that writers have is large
enough to do the same (`expands_run`).

One after another, texts are asked for (`Session`).  Whatever an earlier text has left behind, a text is
written as if it were the first.
-/

namespace ScriptBundler

open Layout (text eol)
open scoped List

theorem Room.push {size n i : Nat} {s : List Nat} (h : Room size n s) (hi : i < size) (hnew : i ∉ s) :
    Room size n (i :: s) :=
  h.append (List.nodup_cons.mpr ⟨hnew, h.nodup⟩) (List.forall_mem_singleton.mpr hi)

/-! ## Filling holes -/

namespace Outline

variable {ε : Type} {O : ε → Outline ε Layout}

/-- With modules `s` in place, an outline is expanded to the given result, where `O env` is the outline
of the module that is active in `env`. -/
inductive Expands (O : ε → Outline ε Layout) :
    Outline ε Layout → List Nat → Except WriteError (Layout × List Nat) → Prop
  | done (l : Layout) (s : List Nat) : Expands O (.done l) s (.ok (l, s))
  | stuck (e : WriteError) (s : List Nat) : Expands O (.stuck e) s (.error e)
  /-- The module is in place already. -/
  | again {i env rest s r} : i ∈ s → Expands O (rest []) s r → Expands O (.hole i env rest) s r
  /-- The module is put in place, and writing goes on where it was. -/
  | first {i env rest s l s' r} : i ∉ s → Expands O (O env) (i :: s) (.ok (l, s')) →
    Expands O (rest l) s' r → Expands O (.hole i env rest) s r
  | fails {i env rest s e} : i ∉ s → Expands O (O env) (i :: s) (.error e) →
    Expands O (.hole i env rest) s (.error e)

/-- An outline expands in one way. -/
theorem Expands.unique {o : Outline ε Layout} {s : List Nat}
    {r r' : Except WriteError (Layout × List Nat)} (h : Expands O o s r) (h' : Expands O o s r') :
    r' = r := by
  induction h generalizing r' with
  | done l s =>
    cases h'
    rfl
  | stuck e s =>
    cases h'
    rfl
  | again hmem _ ih =>
    cases h' with
    | again _ hrest => exact ih hrest
    | first hnew => exact absurd hmem hnew
    | fails hnew => exact absurd hmem hnew
  | first hnew _ _ ih ihrest =>
    cases h' with
    | again hmem => exact absurd hmem hnew
    | first _ hbody hrest =>
      cases ih hbody
      exact ihrest hrest
    | fails _ hbody => cases ih hbody
  | fails hnew _ ih =>
    cases h' with
    | again hmem => exact absurd hmem hnew
    | first _ hbody => cases ih hbody
    | fails _ hbody =>
      cases ih hbody
      rfl

section Bounded

variable {V : ε → Prop} {size : Nat}

/-- Modules are put in place once each, and there are no more than `size`. -/
theorem Expands.room (hO : ∀ env, V env → (O env).Holes fun i env => i < size ∧ V env)
    {o : Outline ε Layout} {s : List Nat} {r : Except WriteError (Layout × List Nat)}
    (h : Expands O o s r) (ho : o.Holes fun i env => i < size ∧ V env) {n : Nat} (hs : Room size n s) :
    ∀ p, r = .ok p → Room size n p.2 := by
  induction h with
  | done l s =>
    rintro p ⟨⟩
    exact hs
  | stuck e s =>
    rintro p ⟨⟩
  | again _ _ ih => exact ih (ho.2 []) hs
  | first hnew _ _ ih ihrest =>
    obtain ⟨⟨hi, hV⟩, hrest⟩ := ho
    exact ihrest (hrest _) (ih (hO _ hV) (hs.push hi hnew) _ rfl)
  | fails _ _ _ =>
    rintro p ⟨⟩

/-- An outline is expanded by running it, if the modules in its holes are expanded. -/
theorem expands_run_of (hO : ∀ env, V env → (O env).Holes fun i env => i < size ∧ V env)
    {splicer : ε → Write Layout} {n : Nat}
    (hsplicer : ∀ i env s, i ∉ s → i < size → V env → Room size n s →
      Expands O (O env) (i :: s) (splicer env (i :: s)))
    {o : Outline ε Layout} (ho : o.Holes fun i env => i < size ∧ V env) {s : List Nat}
    (hs : Room size n s) : Expands O o s (o.run splicer s) := by
  induction o generalizing s with
  | done l => exact .done l s
  | stuck e => exact .stuck e s
  | hole i env rest ih =>
    obtain ⟨⟨hi, hV⟩, hrest⟩ := ho
    by_cases hmem : i ∈ s
    · have hrun : (hole i env rest).run splicer s = (rest []).run splicer s := by
        show (Scene.splice i (splicer env) s >>= fun p => (rest p.1).run splicer p.2) = _
        rw [Scene.splice_eq, if_pos hmem]
        rfl
      rw [hrun]
      exact .again hmem (ih [] (hrest []) hs)
    · have hbody := hsplicer i env s hmem hi hV hs
      have hrun : (hole i env rest).run splicer s =
          splicer env (i :: s) >>= fun p => (rest p.1).run splicer p.2 := by
        show (Scene.splice i (splicer env) s >>= fun p => (rest p.1).run splicer p.2) = _
        rw [Scene.splice_eq, if_neg hmem]
      rw [hrun]
      cases hsplice : splicer env (i :: s) with
      | error e =>
        rw [hsplice] at hbody
        exact .fails hmem hbody
      | ok p =>
        rw [hsplice] at hbody
        have hroom := hbody.room hO (hO env hV) (hs.push hi hmem) p rfl
        exact .first hmem hbody (ih p.1 (hrest p.1) hroom)

/-- **A bound on how deep includes are inside one another is no bound**, if it is not less than the
number of modules that are left: outlines are expanded as if there were none. -/
theorem expands_run (hO : ∀ env, V env → (O env).Holes fun i env => i < size ∧ V env)
    {body : Nat → ε → Write Layout} (hbody : ∀ n env, body (n + 1) env = (O env).run (body n))
    {n : Nat} {o : Outline ε Layout} (ho : o.Holes fun i env => i < size ∧ V env) {s : List Nat}
    (hs : Room size n s) : Expands O o s (o.run (body n) s) := by
  induction n generalizing o s with
  | zero =>
    exact expands_run_of hO (fun i env s hnew hi _ hs => absurd (hs.mem_of_zero hi) hnew) ho hs
  | succ n ih =>
    refine expands_run_of hO (fun i env s hnew hi hV hs => ?_) ho hs
    rw [hbody]
    exact ih (hO env hV) (hs.cons hi hnew)

end Bounded

end Outline

/-! ## Outlines of modules -/

/-- `O` are the outlines of modules: what is written for the active one with any splicer.  All holes are
for modules that it includes. -/
def Manner.OutlinesModules (M : Manner) (O : M.Env → Outline M.Env Layout) : Prop :=
  ∀ env, (O env).Outlines ((M.scene env).Enters M.scene) fun splicer =>
    M.stmts splicer env (M.scene env).own

/-- Modules have outlines. -/
theorem Manner.exists_outlinesModules (M : Manner) : ∃ O, M.OutlinesModules O := by
  choose O hO using fun env => M.outlined env (M.scene env).own
  exact ⟨O, hO⟩

/-! ## Texts one after another -/

/-- What one who writes texts one after another carries along: all that can be left behind by a text. -/
structure Held where
  /-- The module that looks up what references stand for. -/
  active : Option Module := none
  /-- What was written. -/
  buffer : Layout := []
  /-- The modules that were put in place of an include. -/
  placed : List Nat := []
  /-- How many levels in a line starts. -/
  depth : Nat := 0
  /-- Whether brackets may spread over lines for their length. -/
  multiline : Bool := true
  /-- How many arguments and parameters are around what is written, where constants stay as they are. -/
  literalGuard : Nat := 0

/-- What is reset before a text.  Each way of writing resets what it uses, and leaves the rest. -/
def Mode.reset (active : Option Module) (h : Held) : Mode → Held
  | .verbatim => { h with active, buffer := [], placed := [], depth := 0 }
  | .minified => { h with active, buffer := [], placed := [], literalGuard := 0 }
  | .reformatted => { h with active, buffer := [], placed := [], depth := 0, multiline := true }

/-- What the next node is written against. -/
def Held.env (h : Held) (scene : Scene) : (mode : Mode) → mode.manner.Env
  | .verbatim => { scene, depth := h.depth : Verbatim.Env }
  | .minified => { scene, guarded := decide (0 < h.literalGuard) : Minified.Env }
  | .reformatted => { scene, depth := h.depth, multiline := h.multiline : Reformatted.Env }

/-- **After a reset nothing is used that was left behind**, at whatever depth the text starts. -/
theorem Mode.env_reset (mode : Mode) (active : Option Module) (h : Held) (scene : Scene) (buffer : Layout)
    (depth : Nat) : ({ mode.reset active h with buffer, depth } : Held).env scene mode =
      mode.manner.start scene depth := by
  cases mode <;> rfl

/-- A reset leaves the given module, an empty buffer and nothing put in place. -/
theorem Mode.reset_eq (mode : Mode) (active : Option Module) (h : Held) :
    (mode.reset active h).active = active ∧ (mode.reset active h).buffer = [] ∧
      (mode.reset active h).placed = [] := by
  cases mode <;> exact ⟨rfl, rfl, rfl⟩

/-- The text of a layout that something is put around. -/
theorem Scene.textOf_map (f : Layout → Layout) (w : Write Layout) :
    textOf (f <$> w) = (fun p => Layout.join (f p.1)) <$> w [] := by
  show Layout.join <$> Prod.fst <$> (w [] >>= fun p => pure (f p.1, p.2)) = _
  cases w [] <;> rfl

/-- A text that is asked for. -/
structure Job where
  script : Script
  /-- The module that looks up what references stand for. -/
  active : Option Module := none
  /-- What the script is registered under, if it is. -/
  id : Option String := none

namespace Job

variable (naming : Naming) (modules : List Module) (r : Job)

/-- What the text is written against. -/
def scene : Scene := { naming, modules, active := r.active }

/-- The text, written by one who has written no other. -/
def write : Write Layout :=
  match r.id with
  | none => (r.scene naming modules).script r.script
  | some id => (r.scene naming modules).registered id r.script

/-- How deep the statements are. -/
def depth : Nat := if r.id.isSome then 1 else 0

/-- What stands before the statements. -/
def head : Layout :=
  r.id.elim [] fun id => text ((r.scene naming modules).moduleHeader naming.manner.equals id) ++ eol

/-- What stands after the statements. -/
def foot : Layout := r.id.elim [] fun _ => text "end function"

/-- What is answered by one who has written other texts before, of which `left` is left.  Everything is
reset, the head is written, and the statements follow. -/
def answer (left : Held) : Except WriteError String :=
  let reset := naming.settings.mode.reset r.active left
  let held := { reset with buffer := reset.buffer ++ r.head naming modules, depth := r.depth }
  let env := held.env { naming, modules, active := held.active } naming.settings.mode
  (fun p => Layout.join (held.buffer ++ p.1 ++ r.foot)) <$>
    naming.manner.stmts (naming.manner.body modules.length) env r.script.body held.placed

/-- The layout that is asked for, with any splicer. -/
def layout (splicer : naming.manner.Env → Write Layout) : Write Layout :=
  (fun l => r.head naming modules ++ l ++ r.foot) <$> naming.manner.stmts splicer
    (naming.manner.start (r.scene naming modules) r.depth) r.script.body

/-- A job writes its layout, with modules put into the holes. -/
theorem write_eq : r.write naming modules =
    r.layout naming modules (naming.manner.body modules.length) := by
  obtain ⟨script, active, id⟩ := r
  cases id with
  | none =>
    refine (Scene.script_eq ..).trans (congrArg (· <$> _) (funext fun l => ?_))
    exact (List.append_nil l).symm
  | some id => exact Scene.registered_eq ..

/-- The layout of a job fills holes. -/
theorem outlined_layout :
    Outlined ((r.scene naming modules).Enters naming.manner.scene)
      (r.layout naming modules) := by
  have hbody := naming.manner.outlined
    (naming.manner.start (r.scene naming modules) r.depth) r.script.body
  rw [Manner.scene_start] at hbody
  exact hbody.map _

/-- **A text does not depend on what was left behind.** -/
theorem answer_eq (left : Held) :
    r.answer naming modules left = Scene.textOf (r.write naming modules) := by
  obtain ⟨hactive, hbuffer, hplaced⟩ := naming.settings.mode.reset_eq r.active left
  rw [write_eq, layout, Scene.textOf_map]
  unfold answer
  dsimp only
  rw [Mode.env_reset, hactive, hbuffer, hplaced, List.nil_append]
  rfl

variable {naming modules r}

/-- An outline of a text is expanded to what is written, whatever outlines the modules have. -/
theorem expands_write {O : naming.manner.Env → Outline naming.manner.Env Layout}
    (hO : naming.manner.OutlinesModules O)
    {o : Outline naming.manner.Env Layout}
    (ho : o.Outlines ((r.scene naming modules).Enters naming.manner.scene)
      (r.layout naming modules)) :
    o.Expands O [] (r.write naming modules []) ∧
      ∀ p, r.write naming modules [] = .ok p → Room modules.length modules.length p.2 := by
  -- A module that is put in place is one of the modules, and the scene stays the same otherwise.
  have henters : ∀ scene : Scene, scene.modules = modules → ∀ i env,
      scene.Enters naming.manner.scene i env →
        i < modules.length ∧ (naming.manner.scene env).modules = modules := by
    rintro scene rfl i env ⟨path, t, hinclude, henv⟩
    exact ⟨(List.getElem?_eq_some_iff.mp (Scene.getElem?_of_include? hinclude)).1,
      by rw [henv, Scene.inside]⟩
  have hholes : ∀ env, (naming.manner.scene env).modules = modules →
      (O env).Holes fun i env =>
        i < modules.length ∧ (naming.manner.scene env).modules = modules :=
    fun env henv => (hO env).holes.mono (henters _ henv)
  have hstart := ho.holes.mono (henters (r.scene naming modules) rfl)
  have hrun : o.run (naming.manner.body modules.length) = r.write naming modules := by
    rw [ho.run_eq, write_eq]
  have hexpands := Outline.expands_run hholes
    (fun n env => (naming.manner.body_succ n env).trans ((hO env).run_eq _).symm) hstart
    (Room.start modules.length)
  rw [hrun] at hexpands
  exact ⟨hexpands, hexpands.room hholes hstart (.start _)⟩

/-- What a job writes is a text of its module. -/
theorem isText_write {m : Module} (h : r.active = some m) :
    Scene.IsText { naming, modules } m r.script (r.write naming modules) := by
  obtain ⟨script, active, id⟩ := r
  cases h
  cases id with
  | none => exact .inl rfl
  | some id => exact .inr ⟨id, rfl⟩

end Job

/-- Texts are asked for one after another, with `left` left behind before the first of them.  What is left
behind by each is not said, as it may have failed half way. -/
inductive Session (naming : Naming) (modules : List Module) :
    Held → List Job → List (Except WriteError String) → Prop
  | nil (left : Held) : Session naming modules left [] []
  | cons {left left' : Held} {job jobs answers} : Session naming modules left' jobs answers →
    Session naming modules left (job :: jobs) (job.answer naming modules left :: answers)

namespace Session

variable {naming : Naming} {modules : List Module} {left : Held} {jobs : List Job}
  {answers : List (Except WriteError String)}

/-- **A job is answered as if it were the only one**. -/
theorem answers_eq (h : Session naming modules left jobs answers) :
    answers = jobs.map fun job => Scene.textOf (job.write naming modules) := by
  induction h with
  | nil => rfl
  | cons _ ih => rw [List.map_cons, ← ih, Job.answer_eq]

/-- **Every text that is asked for is written as if it were the first, with each module in it once.**

The modules and the text have outlines: what is written with any splicer, with holes only for modules
that the active one includes, in an environment where the module is active.  So nothing after a hole
depends on what the module in it looks up.  Expanding the outline of the text, without a bound, ends in
one result, which is the answer.  The modules put in place in it are all different.  They are those that
the script asks for, or that one of them asks for, and the result holds the texts of their directives and
of those of the script, each looked up by the module it stands in. -/
theorem answers_guarded (h : Session naming modules left jobs answers) :
    answers = jobs.map (fun job => Scene.textOf (job.write naming modules)) ∧
    ∃ O, naming.manner.OutlinesModules O ∧
      ∀ job ∈ jobs, ∃ (o : Outline naming.manner.Env Layout)
        (result : Except WriteError (Layout × List Nat)),
        o.Outlines ((job.scene naming modules).Enters naming.manner.scene)
          (job.layout naming modules) ∧
        (∀ result', o.Expands O [] result' ↔ result' = result) ∧
        Scene.textOf (job.write naming modules) = (fun p => Layout.join p.1) <$> result ∧
        ∀ l inlined, result = .ok (l, inlined) →
          inlined.Nodup ∧ (∀ i ∈ inlined, i < modules.length) ∧
          ∀ m, job.active = some m →
            (∀ i, i ∈ inlined ↔ ∃ t, .module t ∈ (job.scene naming modules).allDemands job.script.body ∧
              Relation.ReflTransGen (job.scene naming modules).Leads t i) ∧
            (Demand.pieces ((job.scene naming modules).allDemands job.script.body) ++
              inlined.flatMap fun i => Demand.pieces ((job.scene naming modules).wants i)) <+~ l := by
  refine ⟨h.answers_eq, ?_⟩
  obtain ⟨O, hO⟩ := naming.manner.exists_outlinesModules
  refine ⟨O, hO, fun job _ => ?_⟩
  obtain ⟨o, ho⟩ := job.outlined_layout naming modules
  obtain ⟨hexpands, hroom⟩ := Job.expands_write hO ho
  refine ⟨o, job.write naming modules [], ho,
    fun result' => ⟨hexpands.unique, fun heq => heq ▸ hexpands⟩, ?_, fun l inlined hrun => ?_⟩
  · show Layout.join <$> Prod.fst <$> job.write naming modules [] = _
    cases job.write naming modules [] <;> rfl
  · have hplaced := hroom _ hrun
    refine ⟨hplaced.nodup, hplaced.lt, fun m hm => ?_⟩
    have hgathers := (Job.isText_write hm).gathers hrun
    have hscene : job.scene naming modules = Scene.inside { naming, modules } m := by
      rw [Job.scene, hm]
      rfl
    rw [hscene]
    exact ⟨fun i => hgathers.mem_iff, hgathers.pieces⟩

/-- Two modules that include each other. -/
def ring : List Module :=
  let read text := (Script.ofTokens (ScriptBundler.scan text).tokens).script
  [{ path := "a", script := read "y = #filename;\n#include \"b\";\nz = #filename;", includes := [("b", 1)] },
   { path := "b", script := read "#include \"a\";\nw = #filename;", includes := [("a", 0)] }]

/-- A module of the ring, registered after a text that fails with both modules in place. -/
def ringJobs : List Job :=
  let shift := (Script.ofTokens (ScriptBundler.scan "#include \"b\";\nx = 1 << 2").tokens).script
  [{ script := shift, active := ring[0]? }, { script := ring[0].script, active := ring[0]?, id := "d" }]

/-- Names that the ring is written with. -/
def ringNaming : Naming := .ofSettings { mode := .minified }

/-- What a text leaves behind that has failed inside an argument, with both modules in place. -/
def halfway : Held where
  active := ring[1]?
  buffer := text "w="
  placed := [1, 0]
  depth := 3
  multiline := false
  literalGuard := 1

theorem answers_guarded_ring : ∃ answers, Session ringNaming ring halfway ringJobs answers ∧
    answers.map Except.toOption = [none, some (
      "__MODULES[\"d\"]=function(module)\ny=\"a\"\ny=\"a\"\nz=\"a\"\nw=\"b\"\nz=\"a\"\nend function")] ∧
    answers = ringJobs.map (fun job => Scene.textOf (job.write ringNaming ring)) ∧
    ∃ O, ringNaming.manner.OutlinesModules O ∧ ∀ job ∈ ringJobs, ∃ (o : Outline ringNaming.manner.Env Layout)
      (result : Except WriteError (Layout × List Nat)), o.Expands O [] result ∧
        ∀ l inlined, result = .ok (l, inlined) → inlined.Nodup := by
  have h : Session ringNaming ring halfway ringJobs (ringJobs.map (·.answer ringNaming ring halfway)) :=
    .cons (.cons (.nil halfway))
  obtain ⟨hanswers, O, hO, hjobs⟩ := answers_guarded h
  refine ⟨_, h, by decide +kernel, hanswers, O, hO, fun job hjob => ?_⟩
  obtain ⟨o, result, -, hexpands, -, hplaced⟩ := hjobs job hjob
  exact ⟨o, result, (hexpands result).mpr rfl, fun l inlined hresult => (hplaced l inlined hresult).1⟩

end Session

end ScriptBundler

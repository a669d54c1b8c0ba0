import ScriptBundler.Proofs.Drafting

/-!
# Proofs/Inclusion — where includes stand

Every way of writing meets what the nodes of a module ask for (`Drafts.meets`), and so do the modules that
are put in place, by how many are left.  The three ways of writing differ in what they write a node
against and in the layout they make of it; what they have in common is a `Manner`, and all that is said of
texts is said of it.
-/

namespace ScriptBundler

open Layout (text eol)
open scoped List

/-- What a splicer writes for a module meets what the module asks for. -/
def Serves {ε : Type} (sceneOf : ε → Scene) (scene : Scene) (Body : Nat → Layout → Prop) (n : Nat)
    (splicer : ε → Write Layout) : Prop :=
  ∀ i t env, scene.modules[i]? = some t → sceneOf env = scene.inside t →
    Fills scene Body n i (splicer env)

namespace Drafts

variable {ε α : Type} {scene : Scene} {m : Module} {Body : Nat → Layout → Prop} {n : Nat}
  {sceneOf : ε → Scene} {splicer : ε → Write Layout} {stop? : Node → Option WriteError} {uneven : Prop}
  {pre : Layout} {placed : List Nat} {ns : List Node} {w : (ε → Write Layout) → Write α}
  {out : α → Layout}

/-- **Going through nodes meets what they ask for.** -/
theorem meets (hsplicer : Serves sceneOf scene Body n splicer)
    (h : Drafts (scene.inside m) sceneOf (scene.inside m).demand stop? uneven pre placed ns w out) :
    Meets scene Body n pre (placed.map .module ++ (scene.inside m).demands ns) (w splicer) out := by
  induction h with
  | write _ hdemands hout => exact (Meets.mark hout).of_eq hdemands
  | bind _ _ ih ihk =>
    refine (ih.bind ihk).perm ?_
    simp only [List.map_append, Scene.demands_append, List.append_assoc]
    exact List.Perm.append_left _ (List.perm_append_comm_assoc ..)
  | mono _ hout ih => exact ih.mono hout
  | drop _ hdemands out' ih => exact ((ih.of_eq hdemands.symm).drop out').of_eq hdemands
  | enter _ _ hdemand ih => exact ih.of_eq (congrArg (· ++ _) hdemand)
  | stop _ => exact .throw _
  | uneven _ => exact .throw _
  | @splice _ _ _ i t _ hinclude henv _ =>
    have hi : scene.modules[i]? = some t := Scene.getElem?_of_include? hinclude
    refine (Meets.splice (List.getElem?_eq_some_iff.mp hi).1 (hsplicer _ _ _ hi henv)).of_eq ?_
    simp [Scene.demand, Node.lines, Scene.marks, hinclude]

/-- Statements on lines meet what their lines ask for. -/
theorem meets_lines {mode : Mode} (hmode : scene.settings.mode = mode) {ss : List Stmt}
    (hsplicer : Serves sceneOf scene Body n splicer)
    (h : Drafts (scene.inside m) sceneOf ((scene.inside m).demandIn mode) stop? uneven []
      (ss.filterMap (scene.inside m).included?) (Stmt.allNodes ss) w out) :
    Meets scene Body n [] ((scene.inside m).allDemands ss) (w splicer) out := by
  have hdemand : (scene.inside m).demandIn mode = (scene.inside m).demand := by
    rw [← hmode]
    exact (scene.inside m).demandIn_settings
  rw [hdemand] at h
  exact (h.meets hsplicer).perm ((scene.inside m).perm_allDemands ss).symm

end Drafts

/-! ## Ways of writing -/

/-- The statements of the active module. -/
def Scene.own (scene : Scene) : List Stmt := scene.active.elim [] (·.script.body)

/-- A way of writing. -/
structure Manner where
  /-- The settings that choose it. -/
  mode : Mode
  /-- What a node is written against. -/
  Env : Type
  scene : Env → Scene
  /-- The environment of a script, `depth` levels deep. -/
  start (scene : Scene) (depth : Nat) : Env
  /-- Statements, with a splicer for the modules among them. -/
  stmts : (Env → Write Layout) → Env → List Stmt → Write Layout
  /-- The splicer.  A number bounds how many includes can be inside one another. -/
  body : Nat → Env → Write Layout
  /-- What stands between the two sides of an assignment. -/
  equals : String
  /-- Why a node cannot be written. -/
  stop? : Node → Option WriteError
  scene_start : ∀ (s : Scene) depth, scene (start s depth) = s
  body_succ : ∀ n env, body (n + 1) env = stmts (body n) env (scene env).own
  drafted : ∀ env ss, Drafts (scene env) scene ((scene env).demandIn mode) stop? False []
    (ss.filterMap (scene env).included?) (Stmt.allNodes ss) (fun splicer => stmts splicer env ss) id

/-- Laid out as it was read. -/
def Verbatim.manner : Manner where
  mode := .verbatim
  Env := Env
  scene := Env.scene
  start scene depth := { scene, depth }
  stmts splicer env ss := Row.arrangeAll <$> rows splicer env ss
  body := body
  equals := " = "
  stop? _ := none
  scene_start _ _ := rfl
  body_succ n env := by
    rw [body, Scene.own]
    cases env.scene.active <;> rfl
  drafted := drafted_rows

/-- As short as possible. -/
def Minified.manner : Manner where
  mode := .minified
  Env := Env
  scene := Env.scene
  start scene _ := { scene }
  stmts := stmts
  body := body
  equals := "="
  stop? := Node.shift?
  scene_start _ _ := rfl
  body_succ n env := by
    rw [body, Scene.own]
    cases env.scene.active <;> rfl
  drafted := drafted_stmts

/-- Laid out by one rule. -/
def Reformatted.manner : Manner where
  mode := .reformatted
  Env := Env
  scene := Env.scene
  start scene depth := { scene, depth }
  stmts splicer env ss := Row.arrangeAll <$> rows splicer env ss
  body := body
  equals := " = "
  stop? _ := none
  scene_start _ _ := rfl
  body_succ n env := by
    rw [body, Scene.own]
    cases env.scene.active <;> rfl
  drafted := drafted_rows

/-- The way of writing that a mode stands for. -/
def Mode.manner : Mode → Manner
  | .verbatim => Verbatim.manner
  | .minified => Minified.manner
  | .reformatted => Reformatted.manner

@[simp] theorem Mode.mode_manner (mode : Mode) : mode.manner.mode = mode := by cases mode <;> rfl

/-- The way of writing that the settings choose. -/
abbrev Naming.manner (n : Naming) : Manner := n.settings.mode.manner

namespace Manner

variable {M : Manner} {scene : Scene} {n : Nat} {m : Module}

/-- `k` is how the statements of module `i` are written in place of an include. -/
def Puts (M : Manner) (scene : Scene) (i : Nat) (k : Layout) : Prop :=
  ∃ n env s s' t, Room scene.modules.length n s ∧ scene.modules[i]? = some t ∧
    M.scene env = scene.inside t ∧ M.body (n + 1) env s = .ok (k, s')

/-- What is put in place of an include are the statements of the module. -/
theorem body_succ_inside {env : M.Env} (henv : M.scene env = scene.inside m) :
    M.body (n + 1) env = M.stmts (M.body n) env m.script.body := by
  rw [M.body_succ, henv]
  rfl

/-- Statements meet what they ask for, if the modules among them do. -/
theorem meets_stmts {Body : Nat → Layout → Prop} {splicer : M.Env → Write Layout}
    (hmode : scene.settings.mode = M.mode) (hsplicer : Serves M.scene scene Body n splicer) {env : M.Env}
    (henv : M.scene env = scene.inside m) (ss : List Stmt) :
    Meets scene Body n [] ((scene.inside m).allDemands ss) (M.stmts splicer env ss) id := by
  have hdrafted := M.drafted env ss
  rw [henv] at hdrafted
  exact hdrafted.meets_lines hmode hsplicer

/-- What is put in place of includes meets what they ask for, however many modules are left. -/
theorem serves_body (hmode : scene.settings.mode = M.mode) (n : Nat) :
    Serves M.scene scene (M.Puts scene) n (M.body n) := by
  induction n with
  | zero => exact fun i t env hi _ => .zero (List.getElem?_eq_some_iff.mp hi).1
  | succ n ih =>
    intro i t env hi henv
    refine .succ (List.getElem?_eq_some_iff.mp hi).1 ?_ fun s p hs hp =>
      ⟨n, env, s, p.2, t, hs, hi, henv, hp⟩
    rw [body_succ_inside henv, Scene.wants_of_getElem? hi]
    exact meets_stmts hmode ih henv t.script.body

end Manner

/-! ## Texts -/

namespace Scene

variable {scene : Scene} {m : Module}

/-- What is written around the statements of a script, which is registered if it has an id. -/
def framed (scene : Scene) (id? : Option String) (l : Layout) : Layout :=
  id?.elim l fun id =>
    text (scene.moduleHeader scene.naming.manner.equals id) ++ eol ++ l ++ text "end function"

/-- A frame around a layout keeps it. -/
theorem sublist_framed (scene : Scene) (id? : Option String) (l : Layout) : l <+ scene.framed id? l := by
  cases id? with
  | none => exact .refl _
  | some id => exact (List.sublist_append_right _ _).trans (List.sublist_append_left _ _)

/-- The statements of a script, `depth` levels deep, with a splicer for the modules among them. -/
def statements (scene : Scene) (splicer : scene.naming.manner.Env → Write Layout) (depth : Nat)
    (s : Script) : Write Layout :=
  scene.naming.manner.stmts splicer (scene.naming.manner.start scene depth) s.body

/-- The main script is its statements in a frame. -/
theorem script_eq (scene : Scene) (s : Script) : scene.script s =
    scene.framed none <$> scene.statements (scene.naming.manner.body scene.modules.length) 0 s := by
  refine Eq.trans ?_ (id_map _).symm
  unfold script statements Naming.manner settings
  cases scene.naming.settings.mode <;> rfl

/-- A module in its function is its statements in a frame. -/
theorem registered_eq (scene : Scene) (id : String) (s : Script) : scene.registered id s =
    scene.framed (some id) <$> scene.statements (scene.naming.manner.body scene.modules.length) 1 s := by
  rw [map_eq_pure_bind]
  unfold registered statements framed Naming.manner settings
  cases scene.naming.settings.mode <;> rfl

/-- `k` is how the statements of module `i` are written in place of an include. -/
def Puts (scene : Scene) : Nat → Layout → Prop := scene.naming.manner.Puts scene

/-- The text of a script whose references `m` looks up, alone or registered. -/
def IsText (scene : Scene) (m : Module) (s : Script) (w : Write Layout) : Prop :=
  w = (scene.inside m).script s ∨ ∃ id, w = (scene.inside m).registered id s

/-- The statements of a text, and what is written around them. -/
theorem IsText.exists_framed {s : Script} {w : Write Layout} (h : scene.IsText m s w) :
    ∃ id? depth, w = (scene.inside m).framed id? <$>
      (scene.inside m).statements (scene.naming.manner.body scene.modules.length) depth s := by
  rcases h with rfl | ⟨id, rfl⟩
  · exact ⟨none, 0, script_eq ..⟩
  · exact ⟨some id, 1, registered_eq ..⟩

/-- **The text of a script holds what its nodes ask for**, in every mode. -/
theorem IsText.meets {s : Script} {w : Write Layout} (h : scene.IsText m s w) :
    Meets scene scene.Puts scene.modules.length [] ((scene.inside m).allDemands s.body) w id := by
  obtain ⟨id?, depth, rfl⟩ := h.exists_framed
  have hmode : scene.settings.mode = scene.naming.manner.mode := (Mode.mode_manner _).symm
  rw [map_eq_pure_bind]
  exact (Manner.meets_stmts hmode (Manner.serves_body hmode _) (Manner.scene_start ..) s.body).last
    (sublist_framed (scene.inside m) id?)

/-- A text gathers what its statements ask for. -/
theorem IsText.gathers {s : Script} {w : Write Layout} (h : scene.IsText m s w) {l : Layout}
    {inlined : List Nat} (hw : w [] = .ok (l, inlined)) :
    Gathers scene scene.Puts ((scene.inside m).allDemands s.body) [] inlined l := by
  have hends := h.meets [] (.start _)
  rw [hw] at hends
  obtain ⟨new, rest, hnew, hgathers, hsub⟩ := hends
  obtain rfl : inlined = new := hnew.trans (List.append_nil new)
  exact hgathers.mono hsub

/-- The text of `m`, as an entry or registered. -/
def IsChunk (scene : Scene) (m : Module) (w : Write Layout) : Prop :=
  w = (scene.inside m).script m.script ∨ ∃ id, w = (scene.inside m).registered id m.script

/-- What the text of a module holds, from no module in place on. -/
theorem IsChunk.gathers {w : Write Layout} (h : scene.IsChunk m w) {l : Layout} {inlined : List Nat}
    (hw : w [] = .ok (l, inlined)) :
    Gathers scene scene.Puts ((scene.inside m).allDemands m.script.body) [] inlined l :=
  IsText.gathers h hw

/-- What modules that are put in place ask for. -/
theorem marksOf_subperm_wants (is : List Nat) :
    (is.filterMap (scene.modules[·]?)).flatMap scene.marksOf <+~
      is.flatMap fun i => Demand.pieces (scene.wants i) := by
  induction is with
  | nil => exact List.Subperm.refl _
  | cons i is ih =>
    cases hi : scene.modules[i]? with
    | none =>
      rw [List.filterMap_cons_none hi, List.flatMap_cons]
      exact ih.trans (List.sublist_append_right _ _).subperm
    | some t =>
      rw [List.filterMap_cons_some hi, List.flatMap_cons, List.flatMap_cons, wants_of_getElem? hi]
      exact ((scene.inside t).perm_pieces_allDemands t.script.body).symm.subperm.append ih

/-- **What is written for the nodes of a module and of those put in place of includes is all there**, each
looked up by the module it stands in. -/
theorem IsChunk.marks_subperm {w : Write Layout} (h : scene.IsChunk m w) {l : Layout} {inlined : List Nat}
    (hw : w [] = .ok (l, inlined)) :
    (m :: inlined.filterMap (scene.modules[·]?)).flatMap scene.marksOf <+~ l := by
  rw [List.flatMap_cons]
  have hown := ((scene.inside m).perm_pieces_allDemands m.script.body).symm.subperm
  exact (hown.append (marksOf_subperm_wants inlined)).trans (h.gathers hw).pieces

end Scene

end ScriptBundler

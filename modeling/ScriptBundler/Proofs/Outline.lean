import ScriptBundler.Proofs.Inclusion

/-!
# Proofs/Outline — what is written around the modules that are put in place

    statements ──write──▸ layout
        │                   ▲
        └──▸ outline ───────┘ run: each hole is filled once

Writing statements never looks into what a splicer does.  It writes some text, asks for the text of a
module, writes on with what it got, and so forth: an `Outline`, with a hole for every include it comes
to.  Every writer is an outline that is run (`Outlined`), by one rule for each way writers are put
together (`Drafts.outlined`).
-/

namespace ScriptBundler

/-- Something that is written around the texts of modules.  A hole is left for the text of module `i`,
which is written in the environment `env`. -/
inductive Outline (ε α : Type) where
  | done (a : α)
  | stuck (e : WriteError)
  | hole (i : Nat) (env : ε) (rest : Layout → Outline ε α)

namespace Outline

variable {ε α β : Type} {H : Nat → ε → Prop}

/-- The outline that goes on with what another one gives. -/
def bind : Outline ε α → (α → Outline ε β) → Outline ε β
  | done a, f => f a
  | stuck e, _ => stuck e
  | hole i env rest, f => hole i env fun l => (rest l).bind f

/-- Fills the holes with what `splicer` writes. -/
def run (splicer : ε → Write Layout) : Outline ε α → Write α
  | done a => pure a
  | stuck e => throw e
  | hole i env rest => Scene.splice i (splicer env) >>= fun l => (rest l).run splicer

/-- All holes are as `H` says, whatever the holes before them are filled with. -/
def Holes (H : Nat → ε → Prop) : Outline ε α → Prop
  | done _ => True
  | stuck _ => True
  | hole i env rest => H i env ∧ ∀ l, (rest l).Holes H

/-- One outline after another is run so. -/
theorem run_bind (splicer : ε → Write Layout) (o : Outline ε α) (f : α → Outline ε β) :
    (o.bind f).run splicer = o.run splicer >>= fun a => (f a).run splicer := by
  induction o with
  | done a => exact (pure_bind a fun a => (f a).run splicer).symm
  | stuck e => rfl
  | hole i env rest ih =>
    have hrest : (fun l => ((rest l).bind f).run splicer) =
        fun l => (rest l).run splicer >>= fun a => (f a).run splicer := funext ih
    rw [bind, run, hrest, run, bind_assoc]

/-- The holes of one outline after another. -/
theorem Holes.bind {o : Outline ε α} {f : α → Outline ε β} (ho : o.Holes H) (hf : ∀ a, (f a).Holes H) :
    (o.bind f).Holes H := by
  induction o with
  | done a => exact hf a
  | stuck e => trivial
  | hole i env rest ih => exact ⟨ho.1, fun l => ih l (ho.2 l)⟩

theorem Holes.mono {K : Nat → ε → Prop} {o : Outline ε α} (ho : o.Holes H)
    (h : ∀ i env, H i env → K i env) : o.Holes K := by
  induction o with
  | done a => trivial
  | stuck e => trivial
  | hole i env rest ih => exact ⟨h i env ho.1, fun l => ih l (ho.2 l)⟩

/-- `o` is what `w` does with every splicer, and its holes are as `H` says. -/
structure Outlines (H : Nat → ε → Prop) (o : Outline ε α) (w : (ε → Write Layout) → Write α) : Prop where
  holes : o.Holes H
  run_eq : ∀ splicer, o.run splicer = w splicer

end Outline

/-- `w` uses a splicer only to fill holes that are as `H` says. -/
def Outlined {ε α : Type} (H : Nat → ε → Prop) (w : (ε → Write Layout) → Write α) : Prop :=
  ∃ o : Outline ε α, o.Outlines H w

namespace Outlined

variable {ε α β : Type} {H : Nat → ε → Prop} {w : (ε → Write Layout) → Write α}

protected theorem pure (a : α) : Outlined H fun _ => pure a := ⟨.done a, trivial, fun _ => rfl⟩

protected theorem throw (e : WriteError) : Outlined H fun _ => (throw e : Write α) :=
  ⟨.stuck e, trivial, fun _ => rfl⟩

/-- One writer after another. -/
theorem bind {f : (ε → Write Layout) → α → Write β} (h : Outlined H w)
    (hf : ∀ a, Outlined H fun splicer => f splicer a) :
    Outlined H fun splicer => w splicer >>= f splicer := by
  obtain ⟨o, hholes, hrun⟩ := h
  choose os hos using hf
  refine ⟨o.bind os, hholes.bind fun a => (hos a).holes, fun splicer => ?_⟩
  rw [Outline.run_bind, hrun]
  exact congrArg _ (funext fun a => (hos a).run_eq splicer)

theorem last (h : Outlined H w) (f : α → β) :
    Outlined H fun splicer => w splicer >>= fun a => pure (f a) := h.bind fun a => .pure (f a)

theorem map (h : Outlined H w) (f : α → β) : Outlined H fun splicer => f <$> w splicer := by
  simp only [map_eq_pure_bind]
  exact h.last f

/-- An include leaves a hole. -/
protected theorem splice {i : Nat} {env : ε} (h : H i env) :
    Outlined H fun splicer => Scene.splice i (splicer env) :=
  ⟨.hole i env .done, ⟨h, fun _ => trivial⟩, fun _ => bind_pure _⟩

end Outlined

namespace Scene

/-- Module `i` is put in place of an include that stands in the scene, in an environment in which the
module is the active one. -/
def Enters (scene : Scene) {ε : Type} (sceneOf : ε → Scene) (i : Nat) (env : ε) : Prop :=
  ∃ path t, scene.include? path = some (i, t) ∧ sceneOf env = scene.inside t

end Scene

/-- **Every writer fills holes**, each with a module that the active one includes. -/
theorem Drafts.outlined {ε α : Type} {scene : Scene} {sceneOf : ε → Scene} {demand : Node → List Demand}
    {stop? : Node → Option WriteError} {uneven : Prop} {pre : Layout} {placed : List Nat}
    {ns : List Node} {w : (ε → Write Layout) → Write α} {out : α → Layout}
    (h : Drafts scene sceneOf demand stop? uneven pre placed ns w out) :
    Outlined (scene.Enters sceneOf) w := by
  induction h with
  | write _ _ _ => exact .pure _
  | bind _ _ ih ihk => exact ih.bind ihk
  | mono _ _ ih => exact ih
  | drop _ _ _ ih => exact ih
  | enter _ _ _ ih => exact ih
  | stop _ => exact .throw _
  | uneven _ => exact .throw _
  | splice hinclude henv _ => exact .splice ⟨_, _, hinclude, henv⟩

/-- Every way of writing statements fills holes. -/
theorem Manner.outlined (M : Manner) (env : M.Env) (ss : List Stmt) :
    Outlined ((M.scene env).Enters M.scene) fun splicer => M.stmts splicer env ss :=
  (M.drafted env ss).outlined

end ScriptBundler

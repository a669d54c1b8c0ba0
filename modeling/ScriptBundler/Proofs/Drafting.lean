import ScriptBundler.Proofs.Reformatted
import ScriptBundler.Proofs.Splicing
import ScriptBundler.Proofs.Verbatim

/-!
# Proofs/Drafting — how writers go through nodes

    nodes ──write──▸ text, holes for the modules that includes stand for, or the node it stops at

Every way of writing goes through the nodes of a tree in the order of the text, and is put together from
few steps: text is written, one part follows another, an include leaves a hole for a module, and a node
that cannot be written stops it.  `Drafts` says so of a writer, and has one rule for each of these steps.
All else that is said here of writers in every mode follows from these rules alone.
-/

namespace ScriptBundler

open Layout (text eol intercalate)
open scoped List

/-! ## Nodes that stop a writer -/

/-- Why a node cannot be minified. -/
def Node.shift? : Node → Option WriteError
  | .expr ⟨.binary op _ _, span, _⟩ => if op.isShift then some (.unsupportedOperator op span) else none
  | _ => none

/-- An `if` on one line with a body that is not one statement. -/
def Node.isUneven : Node → Bool
  | .stmt ⟨.if_ cs last true, _⟩ =>
    cs.any (·.body.stmts.length != 1) || last.any (·.stmts.length != 1)
  | _ => false

theorem Node.isUneven_of_clause {cs : List Clause} {last : Option Block} {span : Span} {c : Clause}
    (hc : c ∈ cs) (h : c.body.stmts.length ≠ 1) : Node.isUneven (.stmt ⟨.if_ cs last true, span⟩) = true :=
  Bool.or_eq_true_iff.mpr (.inl (List.any_eq_true.mpr ⟨c, hc, bne_iff_ne.mpr h⟩))

theorem Node.isUneven_of_last {cs : List Clause} {last : Option Block} {span : Span} {b : Block}
    (hb : b ∈ last) (h : b.stmts.length ≠ 1) : Node.isUneven (.stmt ⟨.if_ cs last true, span⟩) = true := by
  obtain rfl := hb
  exact Bool.or_eq_true_iff.mpr (.inr (bne_iff_ne.mpr h))

/-! ## Drafts -/

namespace Scene

/-- What is written for a node whose text depends on the module it stands in, in the given mode. -/
def marksIn (scene : Scene) (mode : Mode) : Node → Layout
  | .stmt ⟨.directive (.import_ name path), _⟩ =>
    text (match mode with
      | .minified => scene.importText "=" (scene.naming.identifier name.name) path
      | _ => scene.importText " = " name.name path)
  | n => scene.marks n

/-- What a node asks for in the given mode. -/
def demandIn (scene : Scene) (mode : Mode) (n : Node) : List Demand :=
  ((n.lines mode).filterMap scene.included?).map .module ++ (scene.marksIn mode n).map .piece

/-- In the mode of the scene a node asks for what the scene says. -/
theorem demandIn_settings (scene : Scene) : scene.demandIn scene.settings.mode = scene.demand := by
  funext n
  have hmarks : scene.marksIn scene.settings.mode n = scene.marks n := by
    unfold marksIn
    split <;> rfl
  rw [demandIn, hmarks, demand]

end Scene

/-- How `w` goes through the nodes `ns`.  The modules `placed` are put in place of includes that stand on
lines, and the layout that `out` makes of the result holds `pre`, which was written before, and what `ns`
asks for.  A node stops it for the reason that `stop?` gives, and where `uneven` holds, an `if` around the
nodes may stop it as well. -/
inductive Drafts {ε : Type} (scene : Scene) (sceneOf : ε → Scene) (demand : Node → List Demand)
    (stop? : Node → Option WriteError) :
    Prop → {α : Type} → Layout → List Nat → List Node → ((ε → Write Layout) → Write α) →
      (α → Layout) → Prop
  | write {uneven pre l ns} {α : Type} {a : α} {out} (hstop : ns.findSome? stop? = none)
    (hdemands : ns.flatMap demand = l.map .piece) (hout : pre ++ l <+ out a) :
    Drafts scene sceneOf demand stop? uneven pre [] ns (fun _ => pure a) out
  | bind {uneven pre placed placed' ns ns'} {α β : Type} {w} {k : (ε → Write Layout) → α → Write β}
    {out out'} (h : Drafts scene sceneOf demand stop? uneven [] placed ns w out)
    (hk : ∀ a, Drafts scene sceneOf demand stop? uneven (pre ++ out a) placed' ns' (k · a) out') :
    Drafts scene sceneOf demand stop? uneven pre (placed ++ placed') (ns ++ ns')
      (fun splicer => w splicer >>= k splicer) out'
  | mono {uneven pre placed ns} {α : Type} {w} {out out' : α → Layout}
    (h : Drafts scene sceneOf demand stop? uneven pre placed ns w out) (hout : ∀ a, out a <+ out' a) :
    Drafts scene sceneOf demand stop? uneven pre placed ns w out'
  /-- Where nothing is asked for, what is written may be left out. -/
  | drop {uneven ns} {α : Type} {w} {out : α → Layout}
    (h : Drafts scene sceneOf demand stop? uneven [] [] ns w out) (hdemands : ns.flatMap demand = []) (out') :
    Drafts scene sceneOf demand stop? uneven [] [] ns w out'
  /-- A node around others, which asks for the modules that are placed among them. -/
  | enter {uneven pre placed n ns} {α : Type} {w} {out : α → Layout}
    (h : Drafts scene sceneOf demand stop? (uneven ∨ n.isUneven = true) pre placed ns w out)
    (hstop : stop? n = none) (hdemand : demand n = placed.map .module) :
    Drafts scene sceneOf demand stop? uneven pre [] (n :: ns) w out
  | stop {uneven pre n ns e} {α : Type} {out : α → Layout} (h : stop? n = some e) :
    Drafts scene sceneOf demand stop? uneven pre [] (n :: ns) (fun _ => throw e) out
  | uneven {uneven pre placed ns count} {α : Type} {out : α → Layout} (h : uneven) :
    Drafts scene sceneOf demand stop? uneven pre placed ns (fun _ => throw (.inlineBody count)) out
  /-- What is put in place of an include. -/
  | splice {uneven path span i t env} (hinclude : scene.include? path = some (i, t))
    (henv : sceneOf env = scene.inside t)
    (hstop : stop? (.stmt ⟨.directive (.include_ path), span⟩) = none) :
    Drafts scene sceneOf demand stop? uneven [] [i] [.stmt ⟨.directive (.include_ path), span⟩]
      (fun splicer => Scene.splice i (splicer env)) id

namespace Drafts

variable {ε α β : Type} {scene : Scene} {sceneOf : ε → Scene} {demand : Node → List Demand}
  {stop? : Node → Option WriteError} {uneven : Prop} {pre : Layout} {placed : List Nat} {ns : List Node}
  {w : (ε → Write Layout) → Write α} {out : α → Layout} {out' : β → Layout}

/-- Nothing is asked for. -/
protected theorem pure {a : α} (h : pre <+ out a) :
    Drafts scene sceneOf demand stop? uneven pre [] [] (fun _ => pure a) out :=
  write (l := []) rfl rfl ((List.append_nil pre).symm ▸ h)

/-- A node that asks for nothing. -/
theorem leaf {n : Node} {a : α} (hstop : stop? n = none) (hdemand : demand n = [])
    (h : pre <+ out a) : Drafts scene sceneOf demand stop? uneven pre [] [n] (fun _ => pure a) out :=
  (Drafts.pure h).enter hstop hdemand

/-- The last thing that is written. -/
theorem last (h : Drafts scene sceneOf demand stop? uneven [] placed ns w out) {f : α → β}
    (hf : ∀ a, pre ++ out a <+ out' (f a)) :
    Drafts scene sceneOf demand stop? uneven pre placed ns (fun splicer => w splicer >>= fun a => pure (f a))
      out' := by
  have hbind := h.bind (k := fun _ a => pure (f a)) fun a => Drafts.pure (hf a)
  rwa [List.append_nil, List.append_nil] at hbind

theorem map (h : Drafts scene sceneOf demand stop? uneven [] placed ns w out) {f : α → β}
    (hf : ∀ a, out a <+ out' (f a)) :
    Drafts scene sceneOf demand stop? uneven [] placed ns (fun splicer => f <$> w splicer) out' := by
  simp only [map_eq_pure_bind]
  exact h.last hf

end Drafts

namespace Scene

/-- Whether a module is put in place of a statement does not depend on how it is written. -/
theorem spliced?_cases (scene : Scene) (s : Stmt) :
    (∃ path span i t, s = ⟨.directive (.include_ path), span⟩ ∧ scene.include? path = some (i, t) ∧
      scene.included? s = some i ∧
        ∀ body, scene.spliced? body s = some (splice i (body (scene.inside t)))) ∨
    scene.included? s = none ∧ ∀ body, scene.spliced? body s = none := by
  obtain ⟨form, span⟩ := s
  cases form with
  | directive d =>
    cases d with
    | include_ path =>
      simp only [spliced?_include, included?_include]
      cases hinclude : scene.include? path with
      | none => exact .inr ⟨rfl, fun _ => rfl⟩
      | some p => exact .inl ⟨path, span, p.1, p.2, rfl, hinclude, rfl, fun _ => rfl⟩
    | _ => exact .inr ⟨rfl, fun _ => rfl⟩
  | _ => exact .inr ⟨rfl, fun _ => rfl⟩

/-- A call that is linked has nothing in it that asks for more. -/
theorem demands_of_nativeCall? {scene : Scene} {c : Expr} {es : List Expr} {call : String} {span : Span}
    {cs : Comments} (h : scene.nativeCall? c es = some call) (mode : Mode) :
    (Expr.nodes ⟨.call c es, span, cs⟩).flatMap (scene.demandIn mode) = (text call).map .piece := by
  obtain ⟨form, cspan, ccs⟩ := c
  have hmarks : scene.marks (.expr ⟨.call ⟨form, cspan, ccs⟩ es, span, cs⟩) = text call := by
    rw [marks, h]
    rfl
  unfold nativeCall? at h
  split at h
  · rename_i hform
    obtain rfl : form = _ := hform
    exact (List.append_nil _).trans (congrArg _ hmarks)
  · cases h

/-- A call that is not linked asks for nothing itself. -/
theorem demand_call {scene : Scene} {c : Expr} {es : List Expr} (span : Span) (cs : Comments)
    (h : scene.nativeCall? c es = none) (mode : Mode) :
    scene.demandIn mode (.expr ⟨.call c es, span, cs⟩) = [] := by
  have hmarks : scene.marksIn mode (.expr ⟨.call c es, span, cs⟩) = [] := by
    show (scene.nativeCall? c es).elim [] text = []
    rw [h]
    rfl
  rw [demandIn, hmarks]
  rfl

theorem nativeCall?_nil (scene : Scene) (c : Expr) : scene.nativeCall? c [] = none := by
  unfold nativeCall?
  split
  · rename_i h
    cases h
  · rfl

end Scene

/-- A call without arguments that is written as what it calls. -/
theorem Drafts.alone {ε : Type} {scene here : Scene} {sceneOf : ε → Scene} {mode : Mode}
    {stop? : Node → Option WriteError} {uneven : Prop} {w : (ε → Write Layout) → Write Layout} {c : Expr}
    {span span' : Span} {cs : Comments}
    (h : ∀ uneven, Drafts scene sceneOf (here.demandIn mode) stop? uneven [] [] c.nodes w id)
    (hstop : stop? (.stmt ⟨.expr ⟨.call c [], span', cs⟩, span⟩) = none)
    (hcall : stop? (.expr ⟨.call c [], span', cs⟩) = none) :
    Drafts scene sceneOf (here.demandIn mode) stop? uneven [] []
      (Stmt.nodes ⟨.expr ⟨.call c [], span', cs⟩, span⟩) w id := by
  have hnodes : Stmt.nodes ⟨.expr ⟨.call c [], span', cs⟩, span⟩ =
      .stmt ⟨.expr ⟨.call c [], span', cs⟩, span⟩ :: .expr ⟨.call c [], span', cs⟩ :: c.nodes :=
    congrArg (_ :: _ :: ·) (List.append_nil _)
  rw [hnodes]
  exact ((h _).enter hcall (Scene.demand_call span' cs (here.nativeCall?_nil c) mode)).enter hstop rfl

/-- No shift is in a call that loads a script. -/
theorem Node.shift?_of_nativeCall? {scene : Scene} {c : Expr} {es : List Expr} {call : String} {span : Span}
    {cs : Comments} (h : scene.nativeCall? c es = some call) :
    (Expr.nodes ⟨.call c es, span, cs⟩).findSome? Node.shift? = none := by
  obtain ⟨form, cspan, ccs⟩ := c
  unfold Scene.nativeCall? at h
  split at h
  · rename_i hform
    obtain rfl : form = _ := hform
    rfl
  · cases h

/-- Layouts stand in their row as they are. -/
theorem Layout.flatten_sublist_intercalate (sep : String) (ls : List Layout) :
    ls.flatten <+ intercalate sep ls := by
  induction ls with
  | nil => exact .refl _
  | cons l ls ih =>
    cases ls with
    | nil => exact .refl _
    | cons l' ls =>
      refine List.Sublist.append_left (ih.trans ?_) l
      exact List.sublist_append_right ..

/-! ## As short as possible -/

namespace Minified

variable {scene : Scene} {uneven : Prop} {env : Env}

theorem flatten_sublist_head (ls : List Layout) :
    ls.flatten <+ if ls.isEmpty then [] else text "(" ++ intercalate "," ls ++ text ")" := by
  cases ls with
  | nil => exact .refl _
  | cons l ls =>
    have := Layout.flatten_sublist_intercalate "," (l :: ls)
    show _ <+ text "(" ++ intercalate "," (l :: ls) ++ text ")"
    grind

/-- Nodes that are minified.  A shift stops it. -/
abbrev Drafted (scene : Scene) (uneven : Prop) {α : Type} (placed : List Nat) (ns : List Node)
    (w : Splicer → Write α) (out : α → Layout) : Prop :=
  Drafts scene Env.scene (scene.demandIn .minified) Node.shift? uneven [] placed ns w out

/-- An expression is drafted as its nodes demand, in every environment of the scene. -/
def DraftsExpr (scene : Scene) (e : Expr) : Prop :=
  ∀ uneven env, env.scene = scene → Drafted scene uneven [] e.nodes (expr · env e) id

/-- A statement is drafted as its nodes demand, in every environment of the scene. -/
def DraftsStmt (scene : Scene) (s : Stmt) : Prop :=
  ∀ uneven env, env.scene = scene → Drafted scene uneven [] s.nodes (line · env s) id

section

variable (henv : env.scene = scene)
include henv

namespace DraftsExpr

/-- Expressions one after another. -/
theorem exprs {es : List Expr} (hes : ∀ e ∈ es, DraftsExpr scene e) :
    Drafted scene uneven [] (Expr.allNodes es) (exprs · env es) List.flatten := by
  induction es with
  | nil => exact .pure (.refl _)
  | cons e es ih =>
    obtain ⟨he, hes⟩ := List.forall_mem_cons.mp hes
    exact (he _ env henv).bind fun l => (ih hes).last fun ls => .refl _

theorem bound {e : Option Expr} (he : ∀ a ∈ e, DraftsExpr scene a) :
    Drafted scene uneven [] (Expr.nodes? e) (bound · env e) id := by
  cases e with
  | none => exact .pure (.refl _)
  | some e => exact he e rfl _ env henv

/-- Entries of a map one after another. -/
theorem entries {es : List Entry} (hes : ∀ a ∈ es, DraftsExpr scene a.key ∧ DraftsExpr scene a.value) :
    Drafted scene uneven [] (Entry.allNodes es) (entries · env es) List.flatten := by
  induction es with
  | nil => exact .pure (.refl _)
  | cons e es ih =>
    obtain ⟨key, value, span, cs⟩ := e
    obtain ⟨⟨hkey, hvalue⟩, hes⟩ := List.forall_mem_cons.mp hes
    rw [Entry.allNodes, List.append_assoc]
    refine (hkey _ env henv).bind fun k => (hvalue _ env henv).bind fun v => (ih hes).last fun ls => ?_
    grind

/-- Parameters one after another. -/
theorem params {ps : List Param} (hps : ∀ p ∈ ps, ∀ e ∈ p.default, DraftsExpr scene e) :
    Drafted scene uneven [] (Param.allNodes ps) (params · env ps) List.flatten := by
  induction ps generalizing uneven with
  | nil => exact .pure (.refl _)
  | cons p ps ih =>
    obtain ⟨name, value, span, cs⟩ := p
    obtain ⟨hp, hrest⟩ := List.forall_mem_cons.mp hps
    cases value with
    | none =>
      refine ((ih hrest).last fun ls => ?_).enter rfl rfl
      grind
    | some e =>
      refine ((hp e rfl _ env.guard henv).bind fun l => (ih hrest).last fun ls => ?_).enter rfl rfl
      grind

end DraftsExpr

namespace DraftsStmt

/-- A statement that leaves no line behind asks for nothing. -/
theorem endLine {s : Stmt} (hs : DraftsStmt scene s) :
    Drafted scene uneven [] s.nodes (fun splicer => endLine scene s <$> line splicer env s) id := by
  by_cases hsilent : isSilent scene s = true
  · have hnone : s.nodes.flatMap (scene.demandIn .minified) = [] := by
      obtain ⟨form, span⟩ := s
      cases form with
      | directive d =>
        cases d with
        | debugger => rfl
        | _ => cases hsilent
      | comment => rfl
      | _ => cases hsilent
    exact ((hs _ env henv).drop hnone fun _ => []).map fun l => List.nil_sublist _
  · refine (hs _ env henv).map fun l => ?_
    rw [Minified.endLine, if_neg hsilent]
    exact List.sublist_append_left ..

/-- Statements one after another; includes among them leave their holes first. -/
theorem stmts {ss : List Stmt} (hss : ∀ s ∈ ss, DraftsStmt scene s) :
    Drafted scene uneven (ss.filterMap scene.included?) (Stmt.allNodes ss) (stmts · env ss) id := by
  induction ss with
  | nil => exact .pure (.refl _)
  | cons s ss ih =>
    obtain ⟨hs, hrest⟩ := List.forall_mem_cons.mp hss
    simp only [Minified.stmts, henv]
    rcases scene.spliced?_cases s with ⟨path, span, i, t, rfl, hinclude, hi, hspliced⟩ | ⟨hi, hspliced⟩
    · simp only [hspliced, List.filterMap_cons_some hi]
      have hsplice : Drafted scene uneven [i] [.stmt ⟨.directive (.include_ path), span⟩]
          (fun splicer => Scene.splice i (splicer { env with scene := scene.inside t })) id :=
        .splice hinclude rfl rfl
      exact hsplice.bind fun l => (ih hrest).last fun ls => .refl _
    · simp only [hspliced, List.filterMap_cons_none hi]
      exact (endLine henv hs).bind fun l => (ih hrest).last fun ls => .refl _

theorem block {b : Block} (hb : ∀ s ∈ b.stmts, DraftsStmt scene s) :
    Drafted scene uneven (b.stmts.filterMap scene.included?) b.nodes (block · env b) id := by
  obtain ⟨ss, span⟩ := b
  exact stmts henv hb

/-- The clauses of an `if` with blocks. -/
theorem blockClauses {cs : List Clause}
    (hcs : ∀ c ∈ cs, DraftsExpr scene c.condition ∧ ∀ s ∈ c.body.stmts, DraftsStmt scene s)
    (word : String) :
    Drafted scene uneven ((cs.flatMap (·.body.stmts)).filterMap scene.included?) (Clause.allNodes cs)
      (blockClauses · env word cs) id := by
  induction cs generalizing word with
  | nil => exact .pure (.refl _)
  | cons c cs ih =>
    obtain ⟨condition, body, span⟩ := c
    obtain ⟨⟨hcondition, hbody⟩, hcs⟩ := List.forall_mem_cons.mp hcs
    rw [Clause.allNodes, List.append_assoc, List.flatMap_cons, List.filterMap_append]
    refine (hcondition _ env henv).bind fun c => (block henv hbody).bind fun b =>
      (ih hcs _).last fun rest => ?_
    grind

theorem blockElse {b : Option Block} (hb : ∀ a ∈ b, ∀ s ∈ a.stmts, DraftsStmt scene s) :
    Drafted scene uneven ((b.toList.flatMap (·.stmts)).filterMap scene.included?) (Block.nodes? b)
      (blockElse · env b) id := by
  cases b with
  | none => exact .pure (.refl _)
  | some b =>
    rw [Option.toList_some, List.flatMap_singleton]
    refine (block henv (hb b rfl)).last fun l => ?_
    grind

/-- A body on one line; it is uneven if it is not one statement. -/
theorem inlineBody {b : Block} (huneven : b.stmts.length ≠ 1 → uneven)
    (hb : ∀ s ∈ b.stmts, DraftsStmt scene s) :
    Drafted scene uneven [] b.nodes (inlineBody · env b) id := by
  obtain ⟨ss, span⟩ := b
  match ss with
  | [] => exact .uneven (huneven (by simp))
  | [s] =>
    rw [Block.nodes, Stmt.allNodes, Stmt.allNodes, List.append_nil]
    exact hb s List.mem_cons_self _ env henv
  | _ :: _ :: _ => exact .uneven (huneven (by simp))

/-- The clauses of an `if` on one line. -/
theorem inlineClauses {cs : List Clause} (huneven : ∀ c ∈ cs, c.body.stmts.length ≠ 1 → uneven)
    (hcs : ∀ c ∈ cs, DraftsExpr scene c.condition ∧ ∀ s ∈ c.body.stmts, DraftsStmt scene s)
    (word : String) :
    Drafted scene uneven [] (Clause.allNodes cs) (inlineClauses · env word cs) id := by
  induction cs generalizing word with
  | nil => exact .pure (.refl _)
  | cons c cs ih =>
    obtain ⟨condition, body, span⟩ := c
    obtain ⟨⟨hcondition, hbody⟩, hcs⟩ := List.forall_mem_cons.mp hcs
    obtain ⟨huneven, hunevens⟩ := List.forall_mem_cons.mp huneven
    rw [Clause.allNodes, List.append_assoc]
    refine (hcondition _ env henv).bind fun c => (inlineBody henv huneven hbody).bind fun b =>
      (ih hunevens hcs _).last fun rest => ?_
    grind

theorem inlineElse {b : Option Block} (huneven : ∀ a ∈ b, a.stmts.length ≠ 1 → uneven)
    (hb : ∀ a ∈ b, ∀ s ∈ a.stmts, DraftsStmt scene s) :
    Drafted scene uneven [] (Block.nodes? b) (inlineElse · env b) id := by
  cases b with
  | none => exact .pure (.refl _)
  | some b =>
    refine (inlineBody henv (huneven b rfl) (hb b rfl)).last fun l => ?_
    grind

end DraftsStmt

end

/-- **Minifying goes through nodes**: one case for each constructor. -/
theorem inductive_drafts (scene : Scene) :
    Inductive (DraftsExpr scene) (DraftsStmt scene) where
  literal l span cs uneven env henv := .leaf rfl rfl (List.nil_sublist _)
  list es span cs hes uneven env henv := by
    refine ((DraftsExpr.exprs henv hes).last fun ls => ?_).enter rfl rfl
    have := Layout.flatten_sublist_intercalate "," ls
    grind
  map es span cs hes uneven env henv := by
    refine ((DraftsExpr.entries henv hes).last fun ls => ?_).enter rfl rfl
    have := Layout.flatten_sublist_intercalate "," ls
    grind
  identifier x span cs uneven env henv := .leaf rfl rfl (List.nil_sublist _)
  member b x span cs hb uneven env henv := by
    refine ((hb _ env henv).last fun l => ?_).enter rfl rfl
    grind
  index b i span cs hb hi uneven env henv := by
    refine ((hb _ env henv).bind fun l => (hi _ env henv).last fun l' => ?_).enter rfl rfl
    grind
  slice b i j span cs hb hi hj uneven env henv := by
    rw [Expr.nodes, Expr.Form.nodes, List.append_assoc]
    refine ((hb _ env henv).bind fun l => (DraftsExpr.bound henv hi).bind fun l' =>
      (DraftsExpr.bound henv hj).last fun l'' => ?_).enter rfl rfl
    grind
  call c es span cs hc hes uneven env henv := by
    simp only [expr, henv]
    cases hcall : scene.nativeCall? c es with
    | some call => exact .write (Node.shift?_of_nativeCall? hcall) (Scene.demands_of_nativeCall? hcall _) (.refl _)
    | none =>
      have hguard : env.guard.scene = scene := henv
      refine ((hc _ env henv).bind fun l => (DraftsExpr.exprs hguard hes).last fun ls => ?_).enter rfl
        (Scene.demand_call _ _ hcall _)
      have := Layout.flatten_sublist_intercalate "," ls
      grind
  binary op l r span cs hl hr uneven env henv := by
    by_cases hop : op.isShift = true
    · simp only [expr, if_pos hop]
      exact .stop (if_pos hop)
    · simp only [expr, if_neg hop]
      split
      · refine ((hl _ env henv).bind fun a => (hr _ env henv).last fun b => ?_).enter (if_neg hop) rfl
        grind
      · refine ((hl _ env henv).bind fun a => (hr _ env henv).last fun b => ?_).enter (if_neg hop) rfl
        grind
  unary op e span cs he uneven env henv := by
    refine ((he _ env henv).last fun l => ?_).enter rfl rfl
    grind
  function ps b span cs hps hb uneven env henv := by
    refine ((DraftsExpr.params henv hps).bind fun ls =>
      (DraftsStmt.block henv hb).last fun l => ?_).enter rfl (List.append_nil _)
    have := flatten_sublist_head ls
    grind
  paren e span cs he uneven env henv := by
    refine ((he _ env henv).last fun l => ?_).enter rfl rfl
    grind
  directive d span cs uneven env henv := by
    simp only [expr, henv]
    exact .write rfl (List.append_nil _) (.refl _)
  assign op target value span ht hv uneven env henv := by
    refine ((ht _ env henv).bind fun a => (hv _ env henv).last fun b => ?_).enter rfl rfl
    grind
  expr e span he hcallee uneven env henv := by
    obtain ⟨form, span', cs⟩ := e
    cases form with
    | call c args =>
      cases args with
      | nil => exact .alone (hcallee c rfl · env henv) rfl rfl
      | cons => exact (he _ env henv).enter rfl rfl
    | _ => exact (he _ env henv).enter rfl rfl
  return_ value span hv uneven env henv := by
    cases value with
    | none => exact .leaf rfl rfl (List.nil_sublist _)
    | some e =>
      refine ((hv e rfl _ env henv).last fun l => ?_).enter rfl rfl
      grind
  break_ span uneven env henv := .leaf rfl rfl (List.nil_sublist _)
  continue_ span uneven env henv := .leaf rfl rfl (List.nil_sublist _)
  if_ cs last inline span hcs hlast uneven env henv := by
    cases inline with
    | true =>
      refine ((DraftsStmt.inlineClauses henv (fun c hc h => .inr (Node.isUneven_of_clause hc h)) hcs _).bind
        fun l => (DraftsStmt.inlineElse henv (fun b hb h => .inr (Node.isUneven_of_last hb h))
          hlast).last fun l' => ?_).enter rfl rfl
      grind
    | false =>
      refine ((DraftsStmt.blockClauses henv hcs _).bind fun l =>
        (DraftsStmt.blockElse henv hlast).last fun l' => ?_).enter rfl ?_
      · grind
      · simp [Scene.demandIn, Node.lines, Scene.marksIn, Scene.marks]
  while_ c b span hc hb uneven env henv := by
    refine ((hc _ env henv).bind fun l => (DraftsStmt.block henv hb).last fun l' => ?_).enter rfl
      (List.append_nil _)
    grind
  for_ item e b span he hb uneven env henv := by
    refine ((he _ env henv).bind fun l => (DraftsStmt.block henv hb).last fun l' => ?_).enter rfl
      (List.append_nil _)
    grind
  comment t span uneven env henv := .leaf rfl rfl (List.nil_sublist _)
  mark d span uneven env henv := by
    cases d with
    | import_ name path =>
      simp only [line, henv]
      exact .write rfl (List.append_nil _) (.refl _)
    | include_ path =>
      simp only [line, henv]
      exact .write rfl (List.append_nil _) (.refl _)
    | debugger => exact .leaf rfl rfl (List.nil_sublist _)

/-- **Minifying goes through the nodes of statements**, in the order of the text. -/
theorem drafted_stmts (env : Env) (ss : List Stmt) :
    Drafted env.scene False (ss.filterMap env.scene.included?) (Stmt.allNodes ss) (stmts · env ss) id :=
  DraftsStmt.stmts rfl ((inductive_drafts env.scene).stmts ss)

end Minified

/-! ## Line by line -/

namespace Row

/-- What is written on a line, unless it is a comment. -/
def content (r : Row) : Layout := if r.comment.isSome then [] else r.layout

/-- Lines are arranged without dropping what they say. -/
theorem content_sublist_arrange (close : Option Nat) (prev : Option Nat) (rows : List Row) :
    rows.flatMap content <+ arrange close prev rows := by
  induction rows generalizing prev with
  | nil => exact List.nil_sublist _
  | cons r rows ih =>
    rw [arrange, List.flatMap_cons]
    cases hcomment : r.comment with
    | some t =>
      have hnone : r.content = [] := by
        rw [content, hcomment]
        rfl
      rw [hnone]
      dsimp only
      split
      · exact (ih _).trans (List.sublist_append_right ..)
      · exact (ih _).trans (List.sublist_append_right ..)
    | none =>
      have hlayout : r.content = r.layout := by
        rw [content, hcomment]
        rfl
      have := ih (some r.span.stop.line)
      dsimp only
      grind

end Row

/-- A statement on a line of its own.  One that is a comment asks for nothing. -/
theorem Drafts.lined {ε : Type} {scene here : Scene} {sceneOf : ε → Scene} {mode : Mode}
    {stop? : Node → Option WriteError} {uneven : Prop} {s : Stmt} {w : (ε → Write Layout) → Write Layout}
    (h : Drafts scene sceneOf (here.demandIn mode) stop? uneven [] [] s.nodes w id) (indent : Layout) :
    Drafts scene sceneOf (here.demandIn mode) stop? uneven [] [] s.nodes w
      fun l => (Row.ofStmt s (indent ++ l ++ eol)).content := by
  obtain ⟨form, span⟩ := s
  cases form with
  | comment t => exact h.drop rfl _
  | _ =>
    refine h.mono fun l => ?_
    show l <+ indent ++ l ++ eol
    grind

/-! ## Laid out as it was read -/

namespace Verbatim

variable {scene : Scene} {uneven : Prop} {env : Env}

theorem Brackets.join_cons_sublist (p : Placement) (ps : List Placement) {k l : Layout} (h : k <+ l)
    (ls : List Layout) : k ++ join ps ls <+ join (p :: ps) (l :: ls) := by
  cases ls with
  | nil => cases ps <;> grind [join]
  | cons l' ls => grind [join]

/-- What is joined stands between the brackets. -/
theorem Brackets.join_sublist_layout (b : Brackets) (env : Env)
    (plan : Layout × List Placement × Cursor) (ls : List Layout) :
    join plan.2.1 ls <+ b.layout env plan ls := by
  unfold layout
  grind

/-- The brackets of a function may be left out where nothing is between them. -/
theorem join_sublist_head (ps : List Param) (inner : List Comment) (b : Brackets) (env : Env)
    (ls : List Layout) : Brackets.join (b.plan env ps inner).2.1 ls <+
      if ps.isEmpty && inner.isEmpty then [] else b.layout env (b.plan env ps inner) ls := by
  split
  · rename_i hbare
    have hps : ps = [] := List.isEmpty_iff.mp (Bool.and_eq_true_iff.mp hbare).1
    have hplaces : (b.plan env ps inner).2.1 = [] :=
      List.length_eq_zero_iff.mp ((length_places b env ps inner).trans (by rw [hps]; rfl))
    rw [hplaces, Brackets.join.eq_def]
  · exact Brackets.join_sublist_layout ..

/-- Nodes that are laid out as they were read. -/
abbrev Drafted (scene : Scene) (uneven : Prop) {α : Type} (placed : List Nat) (ns : List Node)
    (w : Splicer → Write α) (out : α → Layout) : Prop :=
  Drafts scene Env.scene (scene.demandIn .verbatim) (fun _ => none) uneven [] placed ns w out

/-- An expression is drafted as its nodes demand, in every environment of the scene. -/
def DraftsExpr (scene : Scene) (e : Expr) : Prop :=
  ∀ uneven env, env.scene = scene → Drafted scene uneven [] e.nodes (expr · env e) id

/-- A statement is drafted as its nodes demand, in every environment of the scene. -/
def DraftsStmt (scene : Scene) (s : Stmt) : Prop :=
  ∀ uneven env, env.scene = scene → Drafted scene uneven [] s.nodes (line · env s) id

section

variable (henv : env.scene = scene)
include henv

namespace DraftsExpr

/-- Expressions, each at its place. -/
theorem exprs {es : List Expr} {ps : List Placement} (hlen : ps.length = es.length)
    (hes : ∀ e ∈ es, DraftsExpr scene e) :
    Drafted scene uneven [] (Expr.allNodes es) (exprs · env ps es) (Brackets.join ps) := by
  induction es generalizing ps with
  | nil => cases ps <;> exact .pure (List.nil_sublist _)
  | cons e es ih =>
    obtain ⟨he, hes⟩ := List.forall_mem_cons.mp hes
    cases ps with
    | nil => cases hlen
    | cons p ps =>
      exact (he _ _ ((scene_placement p env).trans henv)).bind fun l =>
        (ih (Nat.succ.inj hlen) hes).last fun ls => Brackets.join_cons_sublist p ps (.refl _) ls

theorem bound {e : Option Expr} (he : ∀ a ∈ e, DraftsExpr scene a) :
    Drafted scene uneven [] (Expr.nodes? e) (boundExpr · env e) id := by
  cases e with
  | none => exact .pure (.refl _)
  | some e => exact he e rfl _ env henv

theorem entries {es : List Entry} {ps : List Placement} (hlen : ps.length = es.length)
    (hes : ∀ a ∈ es, DraftsExpr scene a.key ∧ DraftsExpr scene a.value) :
    Drafted scene uneven [] (Entry.allNodes es) (entries · env ps es) (Brackets.join ps) := by
  induction es generalizing ps with
  | nil => cases ps <;> exact .pure (List.nil_sublist _)
  | cons e es ih =>
    obtain ⟨key, value, span, cs⟩ := e
    obtain ⟨⟨hkey, hvalue⟩, hes⟩ := List.forall_mem_cons.mp hes
    cases ps with
    | nil => cases hlen
    | cons p ps =>
      have hinside : (p.env env).scene = scene := (scene_placement p env).trans henv
      rw [Entry.allNodes, List.append_assoc]
      refine (hkey _ _ hinside).bind fun k => (hvalue _ _ hinside).bind fun v =>
        (ih (Nat.succ.inj hlen) hes).last fun ls => ?_
      exact Brackets.join_cons_sublist p ps (by grind) ls

theorem params {ps : List Param} {places : List Placement} (hlen : places.length = ps.length)
    (hps : ∀ p ∈ ps, ∀ e ∈ p.default, DraftsExpr scene e) :
    Drafted scene uneven [] (Param.allNodes ps) (params · env places ps) (Brackets.join places) := by
  induction ps generalizing uneven places with
  | nil => cases places <;> exact .pure (List.nil_sublist _)
  | cons p ps ih =>
    obtain ⟨name, value, span, cs⟩ := p
    obtain ⟨hp, hrest⟩ := List.forall_mem_cons.mp hps
    cases places with
    | nil => cases hlen
    | cons place places =>
      cases value with
      | none =>
        refine ((ih (Nat.succ.inj hlen) hrest).last fun ls => ?_).enter rfl rfl
        exact Brackets.join_cons_sublist place places (List.nil_sublist _) ls
      | some e =>
        refine ((hp e rfl _ _ ((scene_placement place env).trans henv)).bind fun l =>
          (ih (Nat.succ.inj hlen) hrest).last fun ls => ?_).enter rfl rfl
        exact Brackets.join_cons_sublist place places (by grind) ls

/-- One item between brackets. -/
theorem item {e : Expr} (he : DraftsExpr scene e) (b : Brackets) (inner : List Comment) :
    Drafted scene uneven [] e.nodes
      (expr · ((b.plan env [e] inner).2.1.head?.elim env (·.env env)) e)
      fun l => b.layout env (b.plan env [e] inner) [l] := by
  obtain ⟨p, hp⟩ := List.length_eq_one_iff.mp (length_places b env [e] inner)
  have hsub := fun l => b.join_sublist_layout env (b.plan env [e] inner) [l]
  rw [hp] at hsub ⊢
  refine (he _ _ ((scene_placement p env).trans henv)).mono fun l => ?_
  exact (List.append_nil l ▸ Brackets.join_cons_sublist p [] (.refl l) []).trans (hsub l)

end DraftsExpr

namespace DraftsStmt

/-- Statements row by row; includes among them leave their holes first. -/
theorem rows {ss : List Stmt} (hss : ∀ s ∈ ss, DraftsStmt scene s) :
    Drafted scene uneven (ss.filterMap scene.included?) (Stmt.allNodes ss) (rows · env ss)
      fun rs => rs.flatMap Row.content := by
  induction ss with
  | nil => exact .pure (.refl _)
  | cons s ss ih =>
    obtain ⟨hs, hrest⟩ := List.forall_mem_cons.mp hss
    simp only [Verbatim.rows, henv]
    rcases scene.spliced?_cases s with ⟨path, span, i, t, rfl, hinclude, hi, hspliced⟩ | ⟨hi, hspliced⟩
    · simp only [hspliced, List.filterMap_cons_some hi]
      have hsplice : Drafted scene uneven [i] [.stmt ⟨.directive (.include_ path), span⟩]
          (fun splicer => Scene.splice i (splicer { env with scene := scene.inside t })) id :=
        .splice hinclude rfl rfl
      exact hsplice.bind fun l => (ih hrest).last fun rs => .refl _
    · simp only [hspliced, List.filterMap_cons_none hi]
      exact ((hs _ env henv).lined env.indent).bind fun l => (ih hrest).last fun rs => .refl _

theorem block {b : Block} (hb : ∀ s ∈ b.stmts, DraftsStmt scene s) :
    Drafted scene uneven (b.stmts.filterMap scene.included?) b.nodes (block · env b) id := by
  obtain ⟨ss, span⟩ := b
  have hdeeper : env.deeper.scene = scene := henv
  exact (rows hdeeper hb).last fun rs => Row.content_sublist_arrange ..

/-- The clauses of an `if` with blocks. -/
theorem blockClauses {cs : List Clause}
    (hcs : ∀ c ∈ cs, DraftsExpr scene c.condition ∧ ∀ s ∈ c.body.stmts, DraftsStmt scene s)
    (word : Layout) :
    Drafted scene uneven ((cs.flatMap (·.body.stmts)).filterMap scene.included?) (Clause.allNodes cs)
      (blockClauses · env word cs) id := by
  induction cs generalizing word with
  | nil => exact .pure (.refl _)
  | cons c cs ih =>
    obtain ⟨condition, body, span⟩ := c
    obtain ⟨⟨hcondition, hbody⟩, hcs⟩ := List.forall_mem_cons.mp hcs
    rw [Clause.allNodes, List.append_assoc, List.flatMap_cons, List.filterMap_append]
    refine (hcondition _ env henv).bind fun c => (block henv hbody).bind fun b =>
      (ih hcs _).last fun rest => ?_
    grind

theorem blockElse {b : Option Block} (hb : ∀ a ∈ b, ∀ s ∈ a.stmts, DraftsStmt scene s) :
    Drafted scene uneven ((b.toList.flatMap (·.stmts)).filterMap scene.included?) (Block.nodes? b)
      (blockElse · env b) id := by
  cases b with
  | none => exact .pure (.refl _)
  | some b =>
    rw [Option.toList_some, List.flatMap_singleton]
    refine (block henv (hb b rfl)).last fun l => ?_
    grind

theorem inlineBody {b : Block} (huneven : b.stmts.length ≠ 1 → uneven)
    (hb : ∀ s ∈ b.stmts, DraftsStmt scene s) :
    Drafted scene uneven [] b.nodes (inlineBody · env b) id := by
  obtain ⟨ss, span⟩ := b
  match ss with
  | [] => exact .uneven (huneven (by simp))
  | [s] =>
    rw [Block.nodes, Stmt.allNodes, Stmt.allNodes, List.append_nil]
    exact hb s List.mem_cons_self _ env henv
  | _ :: _ :: _ => exact .uneven (huneven (by simp))

/-- The clauses of an `if` on one line. -/
theorem inlineClauses {cs : List Clause} (huneven : ∀ c ∈ cs, c.body.stmts.length ≠ 1 → uneven)
    (hcs : ∀ c ∈ cs, DraftsExpr scene c.condition ∧ ∀ s ∈ c.body.stmts, DraftsStmt scene s)
    (word : String) :
    Drafted scene uneven [] (Clause.allNodes cs) (inlineClauses · env word cs) id := by
  induction cs generalizing word with
  | nil => exact .pure (.refl _)
  | cons c cs ih =>
    obtain ⟨condition, body, span⟩ := c
    obtain ⟨⟨hcondition, hbody⟩, hcs⟩ := List.forall_mem_cons.mp hcs
    obtain ⟨huneven, hunevens⟩ := List.forall_mem_cons.mp huneven
    rw [Clause.allNodes, List.append_assoc]
    refine (hcondition _ env henv).bind fun c => (inlineBody henv huneven hbody).bind fun b =>
      (ih hunevens hcs _).last fun rest => ?_
    grind

theorem inlineElse {b : Option Block} (huneven : ∀ a ∈ b, a.stmts.length ≠ 1 → uneven)
    (hb : ∀ a ∈ b, ∀ s ∈ a.stmts, DraftsStmt scene s) :
    Drafted scene uneven [] (Block.nodes? b) (inlineElse · env b) id := by
  cases b with
  | none => exact .pure (.refl _)
  | some b =>
    refine (inlineBody henv (huneven b rfl) (hb b rfl)).last fun l => ?_
    grind

end DraftsStmt

end

/-- **Verbatim writing goes through nodes**: one case for each constructor. -/
theorem inductive_drafts (scene : Scene) :
    Inductive (DraftsExpr scene) (DraftsStmt scene) where
  literal l span cs uneven env henv := .leaf rfl rfl (List.nil_sublist _)
  list es span cs hes uneven env henv := ((DraftsExpr.exprs henv (length_places ..) hes).last fun ls =>
    Brackets.join_sublist_layout ..).enter rfl rfl
  map es span cs hes uneven env henv := ((DraftsExpr.entries henv (length_places ..) hes).last fun ls =>
    Brackets.join_sublist_layout ..).enter rfl rfl
  identifier x span cs uneven env henv := .leaf rfl rfl (List.nil_sublist _)
  member b x span cs hb uneven env henv := by
    refine ((hb _ env henv).last fun l => ?_).enter rfl rfl
    grind
  index b i span cs hb hi uneven env henv :=
    ((hb _ env henv).bind fun l => (hi.item henv _ _).last fun l' => .refl _).enter rfl rfl
  slice b i j span cs hb hi hj uneven env henv := by
    simp only [WritesExpr.expr_slice]
    rw [Expr.nodes, Expr.Form.nodes, List.append_assoc]
    refine ((hb _ env henv).bind fun l =>
      (DraftsExpr.bound ((scene_placement _ env).trans henv) hi).bind fun l' =>
        (DraftsExpr.bound ((scene_placement _ env).trans henv) hj).last fun l'' => ?_).enter rfl rfl
    simp only [id_eq, List.nil_append, List.append_assoc]
    have hskip : ∀ u r : Layout, r <+ u ++ r := List.sublist_append_right
    refine List.Sublist.append_left (.trans ?_ ((hskip _ _).trans (hskip _ _))) l
    refine List.Sublist.append_left (.trans ?_ ((hskip _ _).trans (hskip _ _))) l'
    exact List.sublist_append_left ..
  call c es span cs hc hes uneven env henv := by
    simp only [expr, henv]
    cases hcall : scene.nativeCall? c es with
    | some call => exact .write (List.findSome?_eq_none_iff.mpr fun _ _ => rfl) (Scene.demands_of_nativeCall? hcall _) (.refl _)
    | none =>
      refine ((hc _ env henv).bind fun l => (DraftsExpr.exprs henv (length_places ..) hes).last fun ls =>
        ?_).enter rfl (Scene.demand_call _ _ hcall _)
      exact List.Sublist.append_left (Brackets.join_sublist_layout ..) l
  binary op l r span cs hl hr uneven env henv := by
    simp only [WritesExpr.expr_binary]
    refine ((hl _ env henv).bind fun a =>
      (hr _ _ ((scene_operandGap env l r).trans henv)).last fun b => ?_).enter rfl rfl
    grind
  unary op e span cs he uneven env henv := by
    refine ((he _ env henv).last fun l => ?_).enter rfl rfl
    grind
  function ps b span cs hps hb uneven env henv := by
    refine ((DraftsExpr.params henv (length_places ..) hps).bind fun ls =>
      (DraftsStmt.block henv hb).last fun l => ?_).enter rfl (List.append_nil _)
    have := join_sublist_head ps cs.inner ⟨"(", ")", span.start.line, span.start.line⟩ env ls
    grind
  paren e span cs he uneven env henv := ((he.item henv _ _).last fun l => .refl _).enter rfl rfl
  directive d span cs uneven env henv := by
    simp only [expr, henv]
    exact .write rfl (List.append_nil _) (.refl _)
  assign op target value span ht hv uneven env henv := by
    refine ((ht _ env henv).bind fun a => (hv _ env henv).last fun b => ?_).enter rfl rfl
    grind
  expr e span he hcallee uneven env henv := (he _ env henv).enter rfl rfl
  return_ value span hv uneven env henv := by
    cases value with
    | none => exact .leaf rfl rfl (List.nil_sublist _)
    | some e =>
      refine ((hv e rfl _ env henv).last fun l => ?_).enter rfl rfl
      grind
  break_ span uneven env henv := .leaf rfl rfl (List.nil_sublist _)
  continue_ span uneven env henv := .leaf rfl rfl (List.nil_sublist _)
  if_ cs last inline span hcs hlast uneven env henv := by
    cases inline with
    | true =>
      refine ((DraftsStmt.inlineClauses henv (fun c hc h => .inr (Node.isUneven_of_clause hc h)) hcs _).bind
        fun l => (DraftsStmt.inlineElse henv (fun b hb h => .inr (Node.isUneven_of_last hb h))
          hlast).last fun l' => ?_).enter rfl rfl
      grind
    | false =>
      refine ((DraftsStmt.blockClauses henv hcs _).bind fun l =>
        (DraftsStmt.blockElse henv hlast).last fun l' => ?_).enter rfl ?_
      · grind
      · simp [Scene.demandIn, Node.lines, Scene.marksIn, Scene.marks]
  while_ c b span hc hb uneven env henv := by
    refine ((hc _ env henv).bind fun l => (DraftsStmt.block henv hb).last fun l' => ?_).enter rfl
      (List.append_nil _)
    grind
  for_ item e b span he hb uneven env henv := by
    refine ((he _ env henv).bind fun l => (DraftsStmt.block henv hb).last fun l' => ?_).enter rfl
      (List.append_nil _)
    grind
  comment t span uneven env henv := .leaf rfl rfl (List.nil_sublist _)
  mark d span uneven env henv := by
    cases d with
    | import_ name path =>
      simp only [line, henv]
      exact .write rfl (List.append_nil _) (.refl _)
    | include_ path =>
      simp only [line, henv]
      exact .write rfl (List.append_nil _) (.refl _)
    | debugger => exact .leaf rfl rfl (List.nil_sublist _)

/-- **Writing what was read goes through the nodes of statements**, in the order of the text. -/
theorem drafted_rows (env : Env) (ss : List Stmt) :
    Drafted env.scene False (ss.filterMap env.scene.included?) (Stmt.allNodes ss)
      (fun splicer => Row.arrangeAll <$> rows splicer env ss) id :=
  (DraftsStmt.rows rfl ((inductive_drafts env.scene).stmts ss)).map fun _ =>
    Row.content_sublist_arrange ..

end Verbatim

/-! ## Laid out by one rule -/

namespace Reformatted

variable {scene : Scene} {uneven : Prop} {env : Env}

/-- The layouts of some items. -/
def held {α : Type} (items : List α) (ls : List Layout) : Layout := (items.zip ls).flatMap Prod.snd

section Brackets

/-- Items on one line are kept whole. -/
theorem held_sublist_oneLine {α : Type} (b : Brackets) (items : List α) (ls : List Layout) :
    held items ls <+ b.oneLine ls := by
  have hflatten : held items ls <+ ls.flatten := by
    rw [held]
    induction items generalizing ls with
    | nil => exact List.nil_sublist _
    | cons a items ih =>
      cases ls with
      | nil => exact .refl _
      | cons l ls => exact List.Sublist.append_left (ih ls) l
  have := hflatten.trans (Layout.flatten_sublist_intercalate ", " ls)
  unfold Brackets.oneLine
  grind

variable {α : Type} [Item α]

theorem held_sublist_ownItems (env : Env) (items : List α) (ls : List Layout) :
    held items ls <+ (items.zip ls).flatMap fun p => Brackets.ownItem env p.1 p.2 := by
  rw [held]
  induction items.zip ls with
  | nil => exact .refl _
  | cons p ps ih =>
    refine List.Sublist.append ?_ ih
    unfold Brackets.ownItem
    grind

/-- Items between brackets are kept whole. -/
theorem held_sublist_layout (b : Brackets) (env : Env) (items : List α) (inner : List Comment)
    (ls : List Layout) : held items ls <+ b.layout env items inner ls := by
  unfold Brackets.layout
  split
  · rename_i hempty
    rw [List.isEmpty_iff.mp hempty]
    exact List.nil_sublist _
  · split
    · exact held_sublist_oneLine b items ls
    · have := held_sublist_ownItems env.deeper items ls
      grind

/-- Parameters are kept whole. -/
theorem held_sublist_paramsLayout (env : Env) (ps : List Param) (inner : List Comment)
    (ls : List Layout) : held ps ls <+ paramsLayout env ps inner ls := by
  unfold paramsLayout
  split
  · exact held_sublist_layout ..
  · split
    · rename_i hempty
      rw [List.isEmpty_iff.mp hempty]
      exact List.nil_sublist _
    · exact held_sublist_oneLine ..

theorem sublist_ownPart (env : Env) (e : Expr) (l : Layout) : l <+ ownPart env e l := by
  unfold ownPart
  grind

end Brackets

/-- Nodes that are laid out by one rule. -/
abbrev Drafted (scene : Scene) (uneven : Prop) {α : Type} (placed : List Nat) (ns : List Node)
    (w : Splicer → Write α) (out : α → Layout) : Prop :=
  Drafts scene Env.scene (scene.demandIn .reformatted) (fun _ => none) uneven [] placed ns w out

/-- An expression is drafted as its nodes demand, in every environment of the scene. -/
def DraftsExpr (scene : Scene) (e : Expr) : Prop :=
  ∀ uneven env, env.scene = scene → Drafted scene uneven [] e.nodes (expr · env e) id

/-- A statement is drafted as its nodes demand, in every environment of the scene. -/
def DraftsStmt (scene : Scene) (s : Stmt) : Prop :=
  ∀ uneven env, env.scene = scene → Drafted scene uneven [] s.nodes (line · env s) id

section

variable (henv : env.scene = scene)
include henv

namespace DraftsExpr

theorem exprs {es : List Expr} (hes : ∀ e ∈ es, DraftsExpr scene e) :
    Drafted scene uneven [] (Expr.allNodes es) (exprs · env es) (held es) := by
  induction es with
  | nil => exact .pure (.refl _)
  | cons e es ih =>
    obtain ⟨he, hes⟩ := List.forall_mem_cons.mp hes
    exact (he _ env henv).bind fun l => (ih hes).last fun ls => .refl _

/-- An end of a slice, on a line of its own or not. -/
theorem bound {e : Option Expr} (he : ∀ a ∈ e, DraftsExpr scene a) :
    Drafted scene uneven [] (Expr.nodes? e) (bound · env e) id := by
  cases e with
  | none => exact .pure (.refl _)
  | some e => exact he e rfl _ env henv

theorem ownBound {e : Option Expr} (he : ∀ a ∈ e, DraftsExpr scene a) :
    Drafted scene uneven [] (Expr.nodes? e) (Reformatted.bound · env.deeper e)
      (Reformatted.ownBound env e) := by
  cases e with
  | none => exact .pure (.refl _)
  | some e => exact (he e rfl _ env.deeper henv).mono fun l => sublist_ownPart env e l

theorem entries {es : List Entry} (hes : ∀ a ∈ es, DraftsExpr scene a.key ∧ DraftsExpr scene a.value) :
    Drafted scene uneven [] (Entry.allNodes es) (entries · env es) (held es) := by
  induction es with
  | nil => exact .pure (.refl _)
  | cons e es ih =>
    obtain ⟨key, value, span, cs⟩ := e
    obtain ⟨⟨hkey, hvalue⟩, hes⟩ := List.forall_mem_cons.mp hes
    rw [Entry.allNodes, List.append_assoc]
    refine (hkey _ env henv).bind fun k => (hvalue _ env henv).bind fun v => (ih hes).last fun ls => ?_
    exact List.Sublist.append_right (by grind) (held es ls)

theorem params {ps : List Param} (hps : ∀ p ∈ ps, ∀ e ∈ p.default, DraftsExpr scene e) :
    Drafted scene uneven [] (Param.allNodes ps) (params · env ps) (held ps) := by
  induction ps generalizing uneven with
  | nil => exact .pure (.refl _)
  | cons p ps ih =>
    obtain ⟨name, value, span, cs⟩ := p
    obtain ⟨hp, hrest⟩ := List.forall_mem_cons.mp hps
    cases value with
    | none =>
      exact ((ih hrest).last fun ls => List.sublist_append_right _ (held ps ls)).enter rfl rfl
    | some e =>
      refine ((hp e rfl _ env.single henv).bind fun l => (ih hrest).last fun ls => ?_).enter rfl rfl
      exact List.Sublist.append_right (by grind) (held ps ls)

end DraftsExpr

namespace DraftsStmt

/-- Statements row by row; includes among them leave their holes first. -/
theorem rows {ss : List Stmt} (hss : ∀ s ∈ ss, DraftsStmt scene s) :
    Drafted scene uneven (ss.filterMap scene.included?) (Stmt.allNodes ss) (rows · env ss)
      fun rs => rs.flatMap Row.content := by
  induction ss with
  | nil => exact .pure (.refl _)
  | cons s ss ih =>
    obtain ⟨hs, hrest⟩ := List.forall_mem_cons.mp hss
    simp only [Reformatted.rows, henv]
    rcases scene.spliced?_cases s with ⟨path, span, i, t, rfl, hinclude, hi, hspliced⟩ | ⟨hi, hspliced⟩
    · simp only [hspliced, List.filterMap_cons_some hi]
      have hsplice : Drafted scene uneven [i] [.stmt ⟨.directive (.include_ path), span⟩]
          (fun splicer => Scene.splice i (splicer { env with scene := scene.inside t })) id :=
        .splice hinclude rfl rfl
      exact hsplice.bind fun l => (ih hrest).last fun rs => .refl _
    · simp only [hspliced, List.filterMap_cons_none hi]
      exact ((hs _ env henv).lined env.indent).bind fun l => (ih hrest).last fun rs => .refl _

/-- A block; one that stood on one line is one statement. -/
theorem block {b : Block} {isInline : Bool} (huneven : isInline = true → b.stmts.length ≠ 1 → uneven)
    (hb : ∀ s ∈ b.stmts, DraftsStmt scene s) :
    Drafted scene uneven (b.stmts.filterMap scene.included?) b.nodes (block · env isInline b) id := by
  obtain ⟨ss, span⟩ := b
  have hdeeper : env.deeper.scene = scene := henv
  cases isInline with
  | false => exact (rows hdeeper hb).map fun rs => Row.content_sublist_arrange ..
  | true =>
    by_cases hone : ss.length = 1
    · simp only [Reformatted.block, if_pos hone]
      exact (rows hdeeper hb).map fun rs => Row.content_sublist_arrange ..
    · simp only [Reformatted.block, if_neg hone]
      exact .uneven (huneven rfl hone)

/-- The clauses of an `if`, on one line or not. -/
theorem blockClauses {cs : List Clause} {isInline : Bool}
    (huneven : isInline = true → ∀ c ∈ cs, c.body.stmts.length ≠ 1 → uneven)
    (hcs : ∀ c ∈ cs, DraftsExpr scene c.condition ∧ ∀ s ∈ c.body.stmts, DraftsStmt scene s)
    (word : Layout) :
    Drafted scene uneven ((cs.flatMap (·.body.stmts)).filterMap scene.included?) (Clause.allNodes cs)
      (blockClauses · env isInline word cs) id := by
  induction cs generalizing word with
  | nil => exact .pure (.refl _)
  | cons c cs ih =>
    obtain ⟨condition, body, span⟩ := c
    obtain ⟨⟨hcondition, hbody⟩, hcs⟩ := List.forall_mem_cons.mp hcs
    have hunevens := fun hi => (List.forall_mem_cons.mp (huneven hi)).2
    rw [Clause.allNodes, List.append_assoc, List.flatMap_cons, List.filterMap_append]
    refine (hcondition _ env.single henv).bind fun c =>
      (block henv (fun hi => huneven hi _ List.mem_cons_self) hbody).bind fun b =>
        (ih hunevens hcs _).last fun rest => ?_
    grind

theorem blockElse {b : Option Block} {isInline : Bool}
    (huneven : isInline = true → ∀ a ∈ b, a.stmts.length ≠ 1 → uneven)
    (hb : ∀ a ∈ b, ∀ s ∈ a.stmts, DraftsStmt scene s) :
    Drafted scene uneven ((b.toList.flatMap (·.stmts)).filterMap scene.included?) (Block.nodes? b)
      (blockElse · env isInline b) id := by
  cases b with
  | none => exact .pure (.refl _)
  | some b =>
    rw [Option.toList_some, List.flatMap_singleton]
    refine (block henv (fun hi => huneven hi b rfl) (hb b rfl)).last fun l => ?_
    grind

end DraftsStmt

end

/-- **Reformatting goes through nodes**: one case for each constructor. -/
theorem inductive_drafts (scene : Scene) :
    Inductive (DraftsExpr scene) (DraftsStmt scene) where
  literal l span cs uneven env henv := .leaf rfl rfl (List.nil_sublist _)
  list es span cs hes uneven env henv :=
    ((DraftsExpr.exprs ((scene_itemEnv env es).trans henv) hes).last fun ls =>
      held_sublist_layout ..).enter rfl rfl
  map es span cs hes uneven env henv :=
    ((DraftsExpr.entries ((scene_itemEnv env es).trans henv) hes).last fun ls =>
      held_sublist_layout ..).enter rfl rfl
  identifier x span cs uneven env henv := .leaf rfl rfl (List.nil_sublist _)
  member b x span cs hb uneven env henv := by
    refine ((hb _ env henv).last fun l => ?_).enter rfl rfl
    grind
  index b i span cs hb hi uneven env henv := by
    simp only [expr]
    split
    · refine ((hb _ env henv).bind fun l => (hi _ env.single henv).last fun l' => ?_).enter rfl rfl
      grind
    · refine ((hb _ env henv).bind fun l => (hi _ env.deeper henv).last fun l' => ?_).enter rfl rfl
      have := sublist_ownPart env i l'
      grind
  slice b i j span cs hb hi hj uneven env henv := by
    simp only [expr]
    rw [Expr.nodes, Expr.Form.nodes, List.append_assoc]
    split
    · refine ((hb _ env henv).bind fun l => (DraftsExpr.ownBound henv hi).bind fun l' =>
        (DraftsExpr.ownBound henv hj).last fun l'' => ?_).enter rfl rfl
      simp only [id_eq, List.nil_append, List.append_assoc]
      have hskip : ∀ u r : Layout, r <+ u ++ r := List.sublist_append_right
      refine List.Sublist.append_left (.trans ?_ ((hskip _ _).trans (hskip _ _))) l
      refine List.Sublist.append_left (.trans ?_ (((hskip _ _).trans (hskip _ _)).trans (hskip _ _))) _
      exact List.sublist_append_left ..
    · have hsingle : env.single.scene = scene := henv
      refine ((hb _ env henv).bind fun l => (DraftsExpr.bound hsingle hi).bind fun l' =>
        (DraftsExpr.bound hsingle hj).last fun l'' => ?_).enter rfl rfl
      grind
  call c es span cs hc hes uneven env henv := by
    simp only [expr, henv]
    cases hcall : scene.nativeCall? c es with
    | some call => exact .write (List.findSome?_eq_none_iff.mpr fun _ _ => rfl) (Scene.demands_of_nativeCall? hcall _) (.refl _)
    | none =>
      refine ((hc _ env henv).bind fun l =>
        (DraftsExpr.exprs ((scene_itemEnv env es).trans henv) hes).last fun ls => ?_).enter rfl
          (Scene.demand_call _ _ hcall _)
      exact List.Sublist.append_left (held_sublist_layout ..) l
  binary op l r span cs hl hr uneven env henv := by
    simp only [WritesExpr.expr_binary]
    refine ((hl _ env henv).bind fun a =>
      (hr _ _ ((scene_operandGap env l r).trans henv)).last fun b => ?_).enter rfl rfl
    grind
  unary op e span cs he uneven env henv := by
    refine ((he _ env henv).last fun l => ?_).enter rfl rfl
    grind
  function ps b span cs hps hb uneven env henv := by
    have hspread : env.spread.scene = scene := henv
    refine ((DraftsExpr.params ((scene_paramEnv env ps cs.inner).trans henv) hps).bind fun ls =>
      (DraftsStmt.block hspread (absurd · Bool.false_ne_true) hb).last fun l => ?_).enter rfl
        (List.append_nil _)
    have := held_sublist_paramsLayout env ps cs.inner ls
    grind
  paren e span cs he uneven env henv := by
    simp only [expr]
    split
    · refine ((he _ env.deeper henv).last fun l => ?_).enter rfl rfl
      have := sublist_ownPart env e l
      grind
    · split
      · exact (he _ env henv).enter rfl rfl
      · refine ((he _ env henv).last fun l => ?_).enter rfl rfl
        grind
  directive d span cs uneven env henv := by
    simp only [expr, henv]
    exact .write rfl (List.append_nil _) (.refl _)
  assign op target value span ht hv uneven env henv := by
    refine ((ht _ env.single henv).bind fun a => (hv _ env henv).last fun b => ?_).enter rfl rfl
    grind
  expr e span he hcallee uneven env henv := by
    obtain ⟨form, span', cs⟩ := e
    cases form with
    | call c args =>
      cases args with
      | nil => exact .alone (hcallee c rfl · env henv) rfl rfl
      | cons => exact (he _ env henv).enter rfl rfl
    | _ => exact (he _ env henv).enter rfl rfl
  return_ value span hv uneven env henv := by
    cases value with
    | none => exact .leaf rfl rfl (List.nil_sublist _)
    | some e =>
      refine ((hv e rfl _ env henv).last fun l => ?_).enter rfl rfl
      grind
  break_ span uneven env henv := .leaf rfl rfl (List.nil_sublist _)
  continue_ span uneven env henv := .leaf rfl rfl (List.nil_sublist _)
  if_ cs last inline span hcs hlast uneven env henv := by
    refine ((DraftsStmt.blockClauses henv ?_ hcs _).bind fun l =>
      (DraftsStmt.blockElse henv ?_ hlast).last fun l' => ?_).enter rfl ?_
    · rintro rfl c hc h
      exact .inr (Node.isUneven_of_clause hc h)
    · rintro rfl b hb h
      exact .inr (Node.isUneven_of_last hb h)
    · grind
    · simp [Scene.demandIn, Node.lines, Scene.marksIn, Scene.marks]
  while_ c b span hc hb uneven env henv := by
    refine ((hc _ env.single henv).bind fun l =>
      (DraftsStmt.block henv (absurd · Bool.false_ne_true) hb).last fun l' => ?_).enter rfl
        (List.append_nil _)
    grind
  for_ item e b span he hb uneven env henv := by
    refine ((he _ env.single henv).bind fun l =>
      (DraftsStmt.block henv (absurd · Bool.false_ne_true) hb).last fun l' => ?_).enter rfl
        (List.append_nil _)
    grind
  comment t span uneven env henv := .leaf rfl rfl (List.nil_sublist _)
  mark d span uneven env henv := by
    cases d with
    | import_ name path =>
      simp only [line, henv]
      exact .write rfl (List.append_nil _) (.refl _)
    | include_ path =>
      simp only [line, henv]
      exact .write rfl (List.append_nil _) (.refl _)
    | debugger => exact .leaf rfl rfl (List.nil_sublist _)

/-- **Reformatting goes through the nodes of statements**, in the order of the text. -/
theorem drafted_rows (env : Env) (ss : List Stmt) :
    Drafted env.scene False (ss.filterMap env.scene.included?) (Stmt.allNodes ss)
      (fun splicer => Row.arrangeAll <$> rows splicer env ss) id :=
  (DraftsStmt.rows rfl ((inductive_drafts env.scene).stmts ss)).map fun _ =>
    Row.content_sublist_arrange ..

end Reformatted

end ScriptBundler

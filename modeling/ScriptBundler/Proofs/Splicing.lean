import Mathlib.Data.List.Flatten
import Mathlib.Logic.Relation
import ScriptBundler.Proofs.Exploration
import ScriptBundler.Proofs.Nodes
import ScriptBundler.Proofs.Template
import ScriptBundler.Write

/-!
# Proofs/Splicing — what a text has to hold

    nodes of a module ──demand──▸ modules to put in place, pieces to write
                                        │
                       state after writing, pieces of the layout

An include on a line of its own asks for a module, and a directive or a call that is linked asks for a
piece of text.  A module that is put in place asks for what its own nodes ask for.  `Gathers` says that
a stretch of writing has put in place what is asked for, each module once, and nothing that is not asked
for; `Meets` says it of a writer from every state on, and has one rule for each way writers are put
together.
-/

namespace ScriptBundler

open Layout (text eol)
open scoped List

/-! ## Demands -/

/-- Something that the text a node is written into has to hold. -/
inductive Demand where
  /-- The statements of a module. -/
  | module (i : Nat)
  | piece (p : Layout.Piece)

/-- The piece that is demanded, if it is one. -/
def Demand.piece? : Demand → Option Layout.Piece
  | module _ => none
  | piece p => some p

/-- The pieces among some demands. -/
def Demand.pieces (D : List Demand) : Layout := D.filterMap Demand.piece?

@[simp] theorem Demand.pieces_append (D D' : List Demand) :
    Demand.pieces (D ++ D') = Demand.pieces D ++ Demand.pieces D' := List.filterMap_append

@[simp] theorem Demand.pieces_map (l : Layout) : Demand.pieces (l.map .piece) = l := by
  rw [Demand.pieces, List.filterMap_map]
  exact List.filterMap_some

@[simp] theorem Demand.pieces_modules (is : List Nat) : Demand.pieces (is.map .module) = [] := by
  rw [Demand.pieces, List.filterMap_map]
  exact List.filterMap_eq_nil_iff.mpr fun _ _ => rfl

/-- The statements directly in a node that get lines of their own.  Those of an `if` on one line do so
only if it is reformatted. -/
def Node.lines (mode : Mode) : Node → List Stmt
  | .expr ⟨.function _ b, _, _⟩ => b.stmts
  | .stmt ⟨.if_ cs last inline, _⟩ =>
    if inline && mode != .reformatted then []
    else cs.flatMap (·.body.stmts) ++ last.toList.flatMap (·.stmts)
  | .stmt ⟨.while_ _ b, _⟩ => b.stmts
  | .stmt ⟨.for_ _ _ b, _⟩ => b.stmts
  | _ => []

/-- The statements of a script that get lines of their own. -/
def Script.lines (mode : Mode) (s : Script) : List Stmt := s.body ++ s.nodes.flatMap (Node.lines mode)

namespace Scene

/-- The scene in which `m` is written. -/
def inside (scene : Scene) (m : Module) : Scene := { scene with active := some m }

@[simp] theorem settings_inside (scene : Scene) (m : Module) :
    (scene.inside m).settings = scene.settings := rfl

/-- In a bundle, the active module is the linked one. -/
theorem linked?_inside {scene : Scene} {m : Module} (hdev : scene.settings.devMode = false) :
    (scene.inside m).linked? = some m := by
  rw [linked?, settings_inside, hdev]
  rfl

/-- The includes of a module are looked up in its own table. -/
theorem include?_inside {scene : Scene} {m : Module} (hdev : scene.settings.devMode = false)
    (path : String) :
    (scene.inside m).include? path = Module.target? scene.modules m.includes path := by
  rw [include?, linked?_inside hdev]
  rfl

/-- And so are its imports. -/
theorem import?_inside {scene : Scene} {m : Module} (hdev : scene.settings.devMode = false)
    (path : String) :
    (scene.inside m).import? path = (Module.target? scene.modules m.imports path).map Prod.snd := by
  rw [import?, linked?_inside hdev]
  show (Module.target? scene.modules m.imports path >>= fun p => some p.2) = _
  cases Module.target? scene.modules m.imports path <;> rfl

/-- The number of the module that a statement includes. -/
def included? (scene : Scene) (s : Stmt) : Option Nat :=
  match s.form with
  | .directive (.include_ path) => (scene.include? path).map Prod.fst
  | _ => none

/-- An include has the number of the module it stands for. -/
theorem included?_include (scene : Scene) (path : String) (span : Span) :
    scene.included? ⟨.directive (.include_ path), span⟩ = (scene.include? path).map Prod.fst := rfl

/-- How an import is written. -/
def importLine (scene : Scene) (name : Ident) (path : String) : String :=
  match scene.settings.mode with
  | .minified => scene.importText "=" (scene.naming.identifier name.name) path
  | _ => scene.importText " = " name.name path

/-- What is written for a node whose text depends on the module it stands in. -/
def marks (scene : Scene) : Node → Layout
  | .expr ⟨.call c es, _, _⟩ => (scene.nativeCall? c es).elim [] text
  | .expr ⟨.directive d, span, _⟩ => text (scene.value d span.start.line)
  | .stmt ⟨.directive (.import_ name path), _⟩ => text (scene.importLine name path)
  | .stmt ⟨.directive (.include_ path), _⟩ =>
    if (scene.include? path).isNone then text (includeText path) else []
  | _ => []

/-- What a node asks for, apart from the nodes in it. -/
def demand (scene : Scene) (n : Node) : List Demand :=
  ((n.lines scene.settings.mode).filterMap scene.included?).map .module ++ (scene.marks n).map .piece

/-- What nodes demand in a scene. -/
def demands (scene : Scene) (ns : List Node) : List Demand := ns.flatMap scene.demand

/-- What a statement on a line of its own asks for. -/
def lineDemands (scene : Scene) (s : Stmt) : List Demand :=
  (scene.included? s).toList.map .module ++ scene.demands s.nodes

/-- What statements on lines of their own ask for. -/
def allDemands (scene : Scene) (ss : List Stmt) : List Demand := ss.flatMap scene.lineDemands

/-- What module `i` asks for. -/
def wants (scene : Scene) (i : Nat) : List Demand :=
  scene.modules[i]?.elim [] fun m => (scene.inside m).allDemands m.script.body

/-- Module `i` asks for module `j`. -/
def Leads (scene : Scene) (i j : Nat) : Prop := .module j ∈ scene.wants i

/-- What a module asks for is what its statements do. -/
theorem wants_of_getElem? {scene : Scene} {i : Nat} {m : Module} (h : scene.modules[i]? = some m) :
    scene.wants i = (scene.inside m).allDemands m.script.body := by
  rw [wants, h]
  rfl

section Demands

variable (scene : Scene)

@[simp] theorem demands_nil : scene.demands [] = [] := rfl

@[simp] theorem demands_cons (n : Node) (ns : List Node) :
    scene.demands (n :: ns) = scene.demand n ++ scene.demands ns := rfl

@[simp] theorem demands_append (ns ms : List Node) :
    scene.demands (ns ++ ms) = scene.demands ns ++ scene.demands ms := List.flatMap_append

@[simp] theorem allDemands_cons (s : Stmt) (ss : List Stmt) :
    scene.allDemands (s :: ss) = scene.lineDemands s ++ scene.allDemands ss := rfl

/-- The includes on lines, and all nodes. -/
theorem perm_allDemands (ss : List Stmt) : scene.allDemands ss ~
    (ss.filterMap scene.included?).map .module ++ scene.demands (Stmt.allNodes ss) := by
  induction ss with
  | nil => exact .refl _
  | cons s ss ih =>
    rw [allDemands_cons, lineDemands, Stmt.allNodes, demands_append]
    have hhead : ((s :: ss).filterMap scene.included?).map Demand.module =
        (scene.included? s).toList.map .module ++ (ss.filterMap scene.included?).map .module := by
      cases h : scene.included? s <;> simp [h]
    rw [hhead]
    refine (ih.append_left _).trans ?_
    simp only [List.append_assoc]
    exact List.Perm.append_left _ (List.perm_append_comm_assoc ..)

/-- The pieces that statements ask for are what is written for their nodes. -/
theorem perm_pieces_allDemands (ss : List Stmt) :
    Demand.pieces (scene.allDemands ss) ~ (Stmt.allNodes ss).flatMap scene.marks := by
  have hnodes : ∀ ns, Demand.pieces (scene.demands ns) = ns.flatMap scene.marks := by
    intro ns
    induction ns with
    | nil => rfl
    | cons n ns ih =>
      rw [demands_cons, demand, Demand.pieces_append, Demand.pieces_append, Demand.pieces_modules,
        Demand.pieces_map, List.nil_append, ih, List.flatMap_cons]
  refine ((scene.perm_allDemands ss).filterMap Demand.piece?).trans (.of_eq ?_)
  exact (Demand.pieces_append _ _).trans (by rw [Demand.pieces_modules, List.nil_append, hnodes])

end Demands

/-- What is written for the nodes of a module whose text depends on the module. -/
def marksOf (scene : Scene) (m : Module) : Layout := m.script.nodes.flatMap (scene.inside m).marks

end Scene

/-! ## Rooms

A module is written at most once, so how many modules there are bounds how deep includes can be inside
one another. -/

/-- Numbers of modules that were put in place, which leave no more of `size` modules than `n`. -/
structure Room (size n : Nat) (s : List Nat) : Prop where
  nodup : s.Nodup
  lt : ∀ i ∈ s, i < size
  enough : size ≤ n + s.length

namespace Room

variable {size n i : Nat} {s new : List Nat}

/-- At first there is room for all modules. -/
theorem start (size : Nat) : Room size size [] := ⟨List.nodup_nil, by simp, by simp⟩

/-- More modules that were put in place leave less room. -/
theorem append (h : Room size n s) (hnodup : (new ++ s).Nodup) (hlt : ∀ i ∈ new, i < size) :
    Room size n (new ++ s) := by
  refine ⟨hnodup, fun i hi => (List.mem_append.mp hi).elim (hlt i) (h.lt i), ?_⟩
  have := h.enough
  rw [List.length_append]
  omega

/-- Putting a module in place takes its room. -/
theorem cons (h : Room size (n + 1) s) (hi : i < size) (hnew : i ∉ s) : Room size n (i :: s) := by
  refine ⟨List.nodup_cons.mpr ⟨hnew, h.nodup⟩, List.forall_mem_cons.mpr ⟨hi, h.lt⟩, ?_⟩
  have := h.enough
  rw [List.length_cons]
  omega

/-- Where no room is left, all modules were put in place. -/
theorem mem_of_zero (h : Room size 0 s) (hi : i < size) : i ∈ s := by
  by_contra hnew
  have hsub : (i :: s) ⊆ List.range size := fun j hj => List.mem_range.mpr <|
    (List.mem_cons.mp hj).elim (fun h => h ▸ hi) (h.lt j)
  have hlength := (List.subperm_of_subset (List.nodup_cons.mpr ⟨hnew, h.nodup⟩) hsub).length_le
  have := h.enough
  simp only [List.length_cons, List.length_range] at hlength
  omega

end Room

/-! ## A stretch of writing -/

/-- From modules `s` in place on, `new` were put in place, and `l` was written, as `D` asks for.  `Body`
says how the statements of a module are written. -/
structure Gathers (scene : Scene) (Body : Nat → Layout → Prop) (D : List Demand) (s new : List Nat)
    (l : Layout) : Prop where
  nodup : (new ++ s).Nodup
  lt : ∀ i ∈ new, i < scene.modules.length
  arrives : ∀ i, .module i ∈ D → i ∈ new ++ s
  closed : ∀ i ∈ new, ∀ j, scene.Leads i j → j ∈ new ++ s
  reached : ∀ i ∈ new, ∃ t, .module t ∈ D ∧ Relation.ReflTransGen scene.Leads t i
  pieces : (Demand.pieces D ++ new.flatMap fun i => Demand.pieces (scene.wants i)) <+~ l
  bodies : ∀ i ∈ new, ∃ k, Body i k ∧ k <+ l

namespace Gathers

variable {scene : Scene} {Body : Nat → Layout → Prop} {D D' : List Demand} {s new new' : List Nat}
  {l l' : Layout}

/-- Pieces are gathered as they are. -/
theorem mark (hs : s.Nodup) (l : Layout) : Gathers scene Body (l.map .piece) s [] l where
  nodup := hs
  lt := by simp
  arrives := by simp
  closed := by simp
  reached := by simp
  pieces := by simpa using List.Subperm.refl l
  bodies := by simp

/-- A longer layout gathers as much. -/
theorem mono (h : Gathers scene Body D s new l) (hl : l <+ l') : Gathers scene Body D s new l' where
  nodup := h.nodup
  lt := h.lt
  arrives := h.arrives
  closed := h.closed
  reached := h.reached
  pieces := h.pieces.trans hl.subperm
  bodies i hi := by
    obtain ⟨k, hk, hkl⟩ := h.bodies i hi
    exact ⟨k, hk, hkl.trans hl⟩

/-- The order of demands does not matter. -/
theorem perm (h : Gathers scene Body D s new l) (hD : D ~ D') : Gathers scene Body D' s new l where
  nodup := h.nodup
  lt := h.lt
  arrives i hi := h.arrives i (hD.mem_iff.mpr hi)
  closed := h.closed
  reached i hi := by
    obtain ⟨t, ht, hreach⟩ := h.reached i hi
    exact ⟨t, hD.mem_iff.mp ht, hreach⟩
  pieces := ((hD.filterMap _).symm.append_right _).subperm.trans h.pieces
  bodies := h.bodies

/-- One stretch after another. -/
theorem append (h : Gathers scene Body D s new l) (h' : Gathers scene Body D' (new ++ s) new' l') :
    Gathers scene Body (D ++ D') s (new' ++ new) (l ++ l') := by
  have hassoc : new' ++ new ++ s = new' ++ (new ++ s) := List.append_assoc ..
  have hold : ∀ {i}, i ∈ new ++ s → i ∈ new' ++ (new ++ s) := List.mem_append_right _
  refine ⟨hassoc ▸ h'.nodup, fun i hi => (List.mem_append.mp hi).elim (h'.lt i) (h.lt i),
    fun i hi => ?_, fun i hi j hj => ?_, fun i hi => ?_, ?_, fun i hi => ?_⟩
  · rw [hassoc]
    exact (List.mem_append.mp hi).elim (fun hi => hold (h.arrives i hi)) (h'.arrives i)
  · rw [hassoc]
    exact (List.mem_append.mp hi).elim (fun hi => h'.closed i hi j hj)
      fun hi => hold (h.closed i hi j hj)
  · rcases List.mem_append.mp hi with hi | hi
    · obtain ⟨t, ht, hreach⟩ := h'.reached i hi
      exact ⟨t, List.mem_append_right _ ht, hreach⟩
    · obtain ⟨t, ht, hreach⟩ := h.reached i hi
      exact ⟨t, List.mem_append_left _ ht, hreach⟩
  · refine List.Subperm.trans (List.Perm.subperm ?_) (h.pieces.append h'.pieces)
    refine List.perm_iff_count.mpr fun p => ?_
    simp only [Demand.pieces_append, List.flatMap_append, List.count_append]
    omega
  · rcases List.mem_append.mp hi with hi | hi
    · obtain ⟨k, hk, hkl⟩ := h'.bodies i hi
      exact ⟨k, hk, hkl.trans (List.sublist_append_right ..)⟩
    · obtain ⟨k, hk, hkl⟩ := h.bodies i hi
      exact ⟨k, hk, hkl.trans (List.sublist_append_left ..)⟩

/-- A module that is there already. -/
theorem present {i : Nat} (hs : s.Nodup) (hi : i ∈ s) : Gathers scene Body [.module i] s [] [] where
  nodup := hs
  lt := by simp
  arrives j hj := by
    cases List.mem_singleton.mp hj
    exact hi
  closed := by simp
  reached := by simp
  pieces := .refl _
  bodies := by simp

/-- A module that is put in place, and what it asks for after it. -/
theorem enter {i : Nat} (h : Gathers scene Body (scene.wants i) (i :: s) new l)
    (hi : i < scene.modules.length) (hbody : Body i l) :
    Gathers scene Body [.module i] s (new ++ [i]) l := by
  have hassoc : new ++ [i] ++ s = new ++ i :: s := List.append_cons .. |>.symm
  refine ⟨hassoc ▸ h.nodup, fun j hj => ?_, fun j hj => ?_, fun j hj k hk => ?_, fun j hj => ?_, ?_,
    fun j hj => ?_⟩
  · rcases List.mem_append.mp hj with hj | hj
    · exact h.lt j hj
    · exact List.mem_singleton.mp hj ▸ hi
  · cases List.mem_singleton.mp hj
    simp
  · rw [hassoc]
    rcases List.mem_append.mp hj with hj | hj
    · exact h.closed j hj k hk
    · exact h.arrives k (List.mem_singleton.mp hj ▸ hk)
  · refine ⟨i, List.mem_singleton_self _, ?_⟩
    rcases List.mem_append.mp hj with hj | hj
    · obtain ⟨t, ht, hreach⟩ := h.reached j hj
      exact .head ht hreach
    · exact List.mem_singleton.mp hj ▸ .refl
  · refine List.Subperm.trans (List.Perm.subperm ?_) h.pieces
    have hnone : Demand.pieces [.module i] = [] := rfl
    rw [hnone, List.nil_append, List.flatMap_append, List.flatMap_singleton]
    exact List.perm_append_comm
  · rcases List.mem_append.mp hj with hj | hj
    · exact h.bodies j hj
    · exact ⟨l, List.mem_singleton.mp hj ▸ hbody, .refl _⟩

/-- **From nothing on, a module is put in place exactly if it is asked for**, by what is written or by a
module that is put in place. -/
theorem mem_iff (h : Gathers scene Body D [] new l) {j : Nat} :
    j ∈ new ↔ ∃ t, .module t ∈ D ∧ Relation.ReflTransGen scene.Leads t j := by
  refine ⟨h.reached j, ?_⟩
  rintro ⟨t, ht, hreach⟩
  induction hreach with
  | refl => simpa using h.arrives t ht
  | tail _ hleads ih => simpa using h.closed _ ih _ hleads

end Gathers

/-! ## Writers -/

/-- From every state on that leaves no more than `n` modules to put in place, `w` meets what `D` asks
for.  The layout that `out` makes of its result holds `pre` as well, which was written before. -/
def Meets (scene : Scene) (Body : Nat → Layout → Prop) (n : Nat) {α : Type} (pre : Layout)
    (D : List Demand) (w : Write α) (out : α → Layout) : Prop :=
  ∀ s, Room scene.modules.length n s → Ends (w s) (fun p => ∃ new rest, p.2 = new ++ s ∧
    Gathers scene Body D s new rest ∧ pre ++ rest <+ out p.1) fun _ => True

/-- `w`, which writes the statements of module `i`, meets what they ask for. -/
def Fills (scene : Scene) (Body : Nat → Layout → Prop) (n i : Nat) (w : Write Layout) : Prop :=
  ∀ s, i ∉ s → Room scene.modules.length n s → Ends (w (i :: s)) (fun p => ∃ new, p.2 = new ++ i :: s ∧
    Gathers scene Body (scene.wants i) (i :: s) new p.1 ∧ Body i p.1) fun _ => True

namespace Meets

variable {scene : Scene} {Body : Nat → Layout → Prop} {n : Nat} {α β : Type} {pre : Layout}
  {D D' : List Demand} {w : Write α} {out : α → Layout} {out' : β → Layout}

protected theorem throw (e : WriteError) : Meets scene Body n pre D (throw e) out := fun _ _ => trivial

/-- Pieces that are written where they are asked for. -/
theorem mark {a : α} {l : Layout} (h : pre ++ l <+ out a) :
    Meets scene Body n pre (l.map .piece) (pure a) out :=
  fun _ hs => ⟨[], l, rfl, .mark hs.nodup l, h⟩

protected theorem pure {a : α} (h : pre <+ out a) : Meets scene Body n pre [] (pure a) out :=
  mark ((List.append_nil pre).symm ▸ h) (l := [])

/-- The order of demands does not matter. -/
theorem perm (h : Meets scene Body n pre D w out) (hD : D ~ D') : Meets scene Body n pre D' w out := by
  intro s hs
  refine (h s hs).mono (fun p hp => ?_) fun _ => id
  obtain ⟨new, rest, hnew, hgathers, hsub⟩ := hp
  exact ⟨new, rest, hnew, hgathers.perm hD, hsub⟩

theorem of_eq (h : Meets scene Body n pre D w out) (hD : D' = D) : Meets scene Body n pre D' w out :=
  hD ▸ h

/-- One writer after another. -/
theorem bind {k : α → Write β} (h : Meets scene Body n [] D w out)
    (hk : ∀ a, Meets scene Body n (pre ++ out a) D' (k a) out') :
    Meets scene Body n pre (D ++ D') (w >>= k) out' := by
  intro s hs
  refine Ends.bind (h s hs) fun p hp => ?_
  obtain ⟨new, rest, hnew, hgathers, hsub⟩ := hp
  have hroom : Room scene.modules.length n p.2 := hnew ▸ hs.append hgathers.nodup hgathers.lt
  refine (hk p.1 p.2 hroom).mono (fun q hq => ?_) fun _ => id
  obtain ⟨new', rest', hnew', hgathers', hsub'⟩ := hq
  refine ⟨new' ++ new, rest ++ rest', ?_, hgathers.append (hnew ▸ hgathers'), ?_⟩
  · rw [hnew', hnew, List.append_assoc]
  · rw [← List.append_assoc]
    exact ((hsub.append_left pre).append_right rest').trans hsub'

theorem mono {out'' : α → Layout} (h : Meets scene Body n pre D w out) (hout : ∀ a, out a <+ out'' a) :
    Meets scene Body n pre D w out'' := by
  intro s hs
  refine (h s hs).mono (fun p hp => ?_) fun _ => id
  obtain ⟨new, rest, hnew, hgathers, hsub⟩ := hp
  exact ⟨new, rest, hnew, hgathers, hsub.trans (hout p.1)⟩

/-- Where nothing is asked for, what is written may be left out. -/
theorem drop (h : Meets scene Body n [] [] w out) (out' : α → Layout) :
    Meets scene Body n [] [] w out' := by
  intro s hs
  refine (h s hs).mono (fun p hp => ?_) fun _ => id
  obtain ⟨new, rest, hnew, hgathers, -⟩ := hp
  have hnone : new = [] := List.eq_nil_iff_forall_not_mem.mpr fun i hi => by
    obtain ⟨t, ht, -⟩ := hgathers.reached i hi
    cases ht
  exact ⟨[], [], by rw [hnew, hnone], .mark hs.nodup [], List.nil_sublist _⟩

/-- The last thing that is written. -/
theorem last (h : Meets scene Body n [] D w out) {f : α → β} (hf : ∀ a, pre ++ out a <+ out' (f a)) :
    Meets scene Body n pre D (w >>= fun a => pure (f a)) out' :=
  (h.bind fun a => Meets.pure (hf a)).of_eq (List.append_nil D).symm

/-- What is put in place of an include. -/
protected theorem splice {i : Nat} {w : Write Layout} (hi : i < scene.modules.length)
    (h : Fills scene Body n i w) : Meets scene Body n [] [.module i] (Scene.splice i w) id := by
  intro s hs
  by_cases hmem : i ∈ s
  · rw [Scene.splice_eq, if_pos hmem]
    exact ⟨[], [], rfl, .present hs.nodup hmem, .refl _⟩
  · rw [Scene.splice_eq, if_neg hmem]
    refine (h s hmem hs).mono (fun p hp => ?_) fun _ => id
    obtain ⟨new, hnew, hgathers, hbody⟩ := hp
    exact ⟨new ++ [i], p.1, by rw [hnew, List.append_cons], hgathers.enter hi hbody, .refl _⟩

end Meets

namespace Fills

variable {scene : Scene} {Body : Nat → Layout → Prop} {n i : Nat} {w : Write Layout}

/-- Where no module is left, none is put in place. -/
theorem zero (hi : i < scene.modules.length) : Fills scene Body 0 i w :=
  fun _ hnew hs => absurd (hs.mem_of_zero hi) hnew

/-- With more room a module may be put in place. -/
theorem succ (hi : i < scene.modules.length) (h : Meets scene Body n [] (scene.wants i) w id)
    (hbody : ∀ s p, Room scene.modules.length n s → w s = .ok p → Body i p.1) :
    Fills scene Body (n + 1) i w := by
  intro s hnew hs
  have hroom := hs.cons hi hnew
  have hends := h (i :: s) hroom
  cases hw : w (i :: s) with
  | error e => trivial
  | ok p =>
    rw [hw] at hends
    obtain ⟨new, rest, hp, hgathers, hsub⟩ := hends
    exact ⟨new, hp, hgathers.mono hsub, hbody _ p hroom hw⟩

end Fills

end ScriptBundler

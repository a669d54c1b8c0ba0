import ScriptBundler.Proofs.Lifetime
import ScriptBundler.Proofs.Walk

/-!
# Proofs/Exploration — which modules a walk finds, and in which order

A walk goes from an entry along imports and includes.  `Graph.Exploring` is what holds of the graph
while the modules on a stack are still open: every other module in it has all its edges, and no cycle
can be reached from it.  So a walk that ends has found the modules the entry leads to, each once and
depth first (`Visits`), and one that fails has found a cycle.
-/

namespace ScriptBundler

/-- Ends with a value that has `P`, or fails for a reason that has `Q`. -/
def Ends {ε α : Type} (x : Except ε α) (P : α → Prop) (Q : ε → Prop) : Prop :=
  match x with
  | .ok a => P a
  | .error e => Q e

namespace Ends

variable {ε α β : Type} {x : Except ε α} {P P' : α → Prop} {Q Q' : ε → Prop}

theorem mono (h : Ends x P Q) (hP : ∀ a, P a → P' a) (hQ : ∀ e, Q e → Q' e) : Ends x P' Q' := by
  cases x with
  | ok a => exact hP a h
  | error e => exact hQ e h

/-- One step after another. -/
theorem bind {R : β → Prop} {f : α → Except ε β} (h : Ends x P Q)
    (hf : ∀ a, P a → Ends (f a) R Q) : Ends (x >>= f) R Q := by
  cases x with
  | ok a => exact hf a h
  | error e => exact h

/-- Item by item. -/
theorem mapM {as : List β} {f : β → Except ε α} (h : ∀ a ∈ as, Ends (f a) P Q) :
    Ends (as.mapM f) (fun bs => ∀ b ∈ bs, P b) Q := by
  induction as with
  | nil =>
    intro b hb
    cases hb
  | cons a as ih =>
    rw [List.mapM_cons]
    refine (h a List.mem_cons_self).bind fun b hb => ?_
    refine (ih fun a ha => h a (List.mem_cons_of_mem _ ha)).bind fun bs hbs => ?_
    exact List.forall_mem_cons.mpr ⟨hb, hbs⟩

end Ends

/-! ## Depth first -/

/-- Going through `todo` depth first takes what was seen from one list to another: what was seen is
left out, and what is new is followed by all it leads to. -/
inductive Visits {α : Type} (next : α → List α) : List α → List α → List α → Prop where
  | done (seen : List α) : Visits next seen [] seen
  | skip {seen seen' todo : List α} {a : α} : a ∈ seen → Visits next seen todo seen' →
      Visits next seen (a :: todo) seen'
  | enter {seen seen₁ seen' todo : List α} {a : α} : a ∉ seen →
      Visits next (seen ++ [a]) (next a) seen₁ → Visits next seen₁ todo seen' →
      Visits next seen (a :: todo) seen'

namespace Visits

variable {α : Type} {next : α → List α} {seen seen₁ seen' todo todo' : List α} {a b : α}

/-- Places one after the others. -/
theorem append (h : Visits next seen todo seen₁) (h' : Visits next seen₁ todo' seen') :
    Visits next seen (todo ++ todo') seen' := by
  induction h with
  | done => exact h'
  | skip ha _ ih => exact .skip ha (ih h')
  | enter ha hinner _ _ ih => exact .enter ha hinner (ih h')

/-- What was seen stays first. -/
theorem isPrefix (h : Visits next seen todo seen') : seen <+: seen' := by
  induction h with
  | done seen => exact List.prefix_refl seen
  | skip _ _ ih => exact ih
  | enter _ _ _ ih₁ ih₂ => exact (List.prefix_append _ _).trans (ih₁.trans ih₂)

theorem mem_of_mem (h : Visits next seen todo seen') (ha : a ∈ seen) : a ∈ seen' := h.isPrefix.subset ha

/-- All places to visit are seen. -/
theorem mem_of_todo (h : Visits next seen todo seen') (ha : a ∈ todo) : a ∈ seen' := by
  induction h with
  | done => cases ha
  | skip hb h ih =>
    rcases List.mem_cons.mp ha with rfl | ha
    · exact h.mem_of_mem hb
    · exact ih ha
  | enter _ h₁ h₂ _ ih =>
    rcases List.mem_cons.mp ha with rfl | ha
    · exact h₂.mem_of_mem (h₁.mem_of_mem (by simp))
    · exact ih ha

/-- All that a new element leads to is seen as well. -/
theorem mem_of_next (h : Visits next seen todo seen') (ha : a ∈ seen') (hnew : a ∉ seen)
    (hb : b ∈ next a) : b ∈ seen' := by
  induction h with
  | done => exact absurd ha hnew
  | skip _ _ ih => exact ih ha hnew
  | @enter seen seen₁ seen' todo c _ h₁ h₂ ih₁ ih₂ =>
    by_cases ha₁ : a ∈ seen₁
    · by_cases hac : a = c
      · subst hac
        exact h₂.mem_of_mem (h₁.mem_of_todo hb)
      · exact h₂.mem_of_mem (ih₁ ha₁ (by simp [hnew, hac]))
    · exact ih₂ ha ha₁

/-- What is seen and new is reached from what was to do. -/
theorem reached (h : Visits next seen todo seen') (ha : a ∈ seen') :
    a ∈ seen ∨ ∃ b ∈ todo, Relation.ReflTransGen (fun b c => c ∈ next b) b a := by
  induction h with
  | done => exact .inl ha
  | skip _ _ ih =>
    rcases ih ha with ha | ⟨b, hb, hreach⟩
    · exact .inl ha
    · exact .inr ⟨b, List.mem_cons_of_mem _ hb, hreach⟩
  | @enter seen seen₁ seen' todo c _ h₁ _ ih₁ ih₂ =>
    rcases ih₂ ha with ha | ⟨b, hb, hreach⟩
    · rcases ih₁ ha with ha | ⟨b, hb, hreach⟩
      · rcases List.mem_append.mp ha with ha | ha
        · exact .inl ha
        · exact .inr ⟨c, List.mem_cons_self, List.mem_singleton.mp ha ▸ .refl⟩
      · exact .inr ⟨c, List.mem_cons_self, .head hb hreach⟩
    · exact .inr ⟨b, List.mem_cons_of_mem _ hb, hreach⟩

/-- A visit from one element sees it first. -/
theorem head?_eq (h : Visits next [] [a] seen') : seen'.head? = some a := by
  cases h with
  | skip hmem => cases hmem
  | enter _ hinner hdone =>
    cases hdone
    obtain ⟨rest, rfl⟩ := hinner.isPrefix
    rfl

/-- **A visit from one element sees exactly what it leads to.** -/
theorem mem_iff (h : Visits next [] [a] seen') :
    b ∈ seen' ↔ Relation.ReflTransGen (fun b c => c ∈ next b) a b := by
  constructor
  · intro hb
    obtain hb | ⟨c, hc, hreach⟩ := h.reached hb
    · cases hb
    · exact List.mem_singleton.mp hc ▸ hreach
  · intro hreach
    induction hreach with
    | refl => exact h.mem_of_todo List.mem_cons_self
    | tail _ hnext ih => exact h.mem_of_next ih List.not_mem_nil hnext

end Visits

/-! ## What leads where -/

namespace Library

variable {files : Files} {lib : Library} {path : String}

/-- The modules that the imports and includes of a module lead to, in the order they are written. -/
def targets (lib : Library) (path : String) : List String :=
  (lib.resource? path).elim [] fun r =>
    (Graph.references r.script).filterMap fun ref => lib.resolved? path ref.1.path

/-- The module at `path` imports or includes the one at `target`. -/
def Cites (lib : Library) (path target : String) : Prop := target ∈ lib.targets path

/-- Imports and includes lead from one module to the other, directly or not. -/
def Reaches (lib : Library) : String → String → Prop := Relation.ReflTransGen lib.Cites

/-- Every module stands under its own path. -/
def Keyed (lib : Library) : Prop := ∀ {path r}, lib.resource? path = some r → r.path = path

/-- What the modules refer to is held. -/
def Closed (lib : Library) : Prop :=
  ∀ {path r}, lib.resource? path = some r → ∀ ref ∈ lib.references r.script,
    ∃ target, lib.resolved? path ref.1.path = some target ∧ (lib.held? (target, ref.2)).isSome

/-- A library that was loaded has every module under its own path. -/
theorem Reached.keyed (h : lib.Reached files) : lib.Keyed := by
  obtain ⟨made, hhistory⟩ := h.history
  exact hhistory.sound.path_of_resource

/-- A first load that ends well is a run in which nothing is left in flight. -/
theorem exists_underway_of_load {entry : String} {nativeImports : Bool}
    (h : Library.load files { nativeImports } entry = (.ok path, lib)) : path = files.resolve "" entry ∧
      ∃ t, t.library = lib ∧ t.failure = none ∧ t.inFlight = [] ∧
        Loading.Underway files { nativeImports } entry t := by
  obtain ⟨t, ht, heq⟩ := exists_completes (.empty files nativeImports) entry
  obtain ⟨hpath, rfl⟩ := Prod.mk.inj (h.symm.trans heq)
  have halive : t.failure = none := by
    cases hfailure : t.failure with
    | none => rfl
    | some e => simp [Loading.result, hfailure, Except.map] at hpath
  refine ⟨?_, t, rfl, halive, ht.inFlight halive,
    (Loading.underway_start (.empty files nativeImports) entry).run ht.1⟩
  simpa [Loading.result, halive, Except.map] using hpath

/-- A first load that ends well leaves a library that is closed. -/
theorem closed_of_load {entry : String} {nativeImports : Bool}
    (h : Library.load files { nativeImports } entry = (.ok path, lib)) :
    lib.Sound files ∧ lib.Closed ∧ ∃ r, lib.resource? path = some r := by
  obtain ⟨hpath, t, rfl, halive, hflight, hrun⟩ := exists_underway_of_load h
  rw [hpath]
  have hready : ∀ {k}, t.library.states.lookup k ≠ none → (t.library.held? k).isSome := fun hk =>
    (hrun.sound.ready_iff _).mp (hrun.ready hflight halive hk (by simp))
  refine ⟨hrun.sound, fun hr ref href => ?_, Option.isSome_iff_exists.mp ?_⟩
  · obtain ⟨target, htarget, hne⟩ := hrun.sound.followed_of_resource hr href
    exact ⟨target, htarget, hready hne⟩
  · simpa [held?] using hready hrun.entered

end Library

namespace Graph

variable {lib : Library} {g g' : Graph} {stack rest : List String} {r : Resource}

/-- The references of a script are its imports and includes. -/
theorem mem_references {s : Script} {ref : Reference × Kind} : ref ∈ references s ↔
    (ref.1 ∈ s.mentions.imports ∧ ref.2 = .import_) ∨
      (ref.1 ∈ s.mentions.includes ∧ ref.2 = .include_) := by
  obtain ⟨reference, kind⟩ := ref
  simp only [references, List.mem_mergeSort, List.mem_append, List.mem_map, Prod.mk.injEq]
  constructor
  · rintro (⟨_, h, rfl, rfl⟩ | ⟨_, h, rfl, rfl⟩)
    · exact .inl ⟨h, rfl⟩
    · exact .inr ⟨h, rfl⟩
  · rintro (⟨h, rfl⟩ | ⟨h, rfl⟩)
    · exact .inl ⟨_, h, rfl, rfl⟩
    · exact .inr ⟨_, h, rfl, rfl⟩

/-- What a module cites. -/
theorem cites_iff {path target : String} : lib.Cites path target ↔
    ∃ r, lib.resource? path = some r ∧ ∃ ref ∈ r.script.mentions.imports ++ r.script.mentions.includes,
      lib.resolved? path ref.path = some target := by
  rw [Library.Cites, Library.targets]
  cases hr : lib.resource? path with
  | none => simp
  | some r =>
    simp only [Option.elim_some, List.mem_filterMap, Option.some.injEq, exists_eq_left', List.mem_append]
    constructor
    · rintro ⟨ref, href, hpath⟩
      exact ⟨ref.1, (mem_references.mp href).imp And.left And.left, hpath⟩
    · rintro ⟨ref, href | href, hpath⟩
      · exact ⟨(ref, .import_), mem_references.mpr (.inl ⟨href, rfl⟩), hpath⟩
      · exact ⟨(ref, .include_), mem_references.mpr (.inr ⟨href, rfl⟩), hpath⟩

/-- In a closed library every import and include leads to a module. -/
theorem exists_target (hlib : lib.Closed) (hr : lib.resource? r.path = some r)
    {ref : Reference × Kind} (href : ref ∈ references r.script) :
    ∃ path child, lib.resolved? r.path ref.1.path = some path ∧ lib.resource? path = some child := by
  have hmem : (ref.1, Form.module) ∈ lib.references r.script := by
    simp only [Library.references, List.mem_append, List.mem_map, Prod.mk.injEq, and_true]
    refine .inl ⟨ref.1, .inl ?_, rfl⟩
    exact (mem_references.mp href).imp And.left And.left
  obtain ⟨path, hpath, hheld⟩ := hlib hr _ hmem
  obtain ⟨child, hchild⟩ := Option.isSome_iff_exists.mp (Option.isSome_map ▸ hheld)
  exact ⟨path, child, hpath, hchild⟩

theorem cites_of_reference (hr : lib.resource? r.path = some r) {ref : Reference × Kind}
    (href : ref ∈ references r.script) {path : String}
    (hpath : lib.resolved? r.path ref.1.path = some path) : lib.Cites r.path path := by
  rw [Library.Cites, Library.targets, hr]
  exact List.mem_filterMap.mpr ⟨ref, href, hpath⟩

/-! ## Paths and edges -/

/-- The paths of the modules, by number. -/
def paths (g : Graph) : List String := g.nodes.map (·.path)

/-- Whether a module is one that is imported. -/
def Kind.isImport : Kind → Bool
  | .import_ => true
  | .main | .include_ => false

/-- The edges of a module: those of its imports, or those of its includes. -/
def Node.edges (n : Node) (isImport : Bool) : List (String × Nat) :=
  if isImport then n.imports else n.includes

theorem getElem?_paths {k : Nat} {n : Node} {path : String} (h : g.nodes[k]? = some n)
    (hpath : n.path = path) : g.paths[k]? = some path := by
  rw [paths, List.getElem?_map, h, Option.map_some, hpath]

/-- A path stands for one number. -/
theorem getElem?_paths_inj {j k : Nat} {path : String} (hnodup : g.paths.Nodup)
    (hj : g.paths[j]? = some path) (hk : g.paths[k]? = some path) : j = k :=
  (List.getElem?_inj (List.getElem?_eq_some_iff.mp hj).1 hnodup).mp (hj.trans hk.symm)

/-- A path that is not found is none of the graph. -/
theorem find?_eq_none {path : String} (h : g.find? path = none) : path ∉ g.paths := by
  intro hmem
  obtain ⟨n, hn, rfl⟩ := List.mem_map.mp hmem
  simpa using List.findIdx?_eq_none_iff.mp h n hn

/-- A path that is found is that of a module. -/
theorem find?_eq_some {path : String} {j : Nat} (h : g.find? path = some j) :
    ∃ n, g.nodes[j]? = some n ∧ n.path = path := by
  obtain ⟨hj, hpath, -⟩ := List.findIdx?_eq_some_iff_getElem.mp h
  exact ⟨_, List.getElem?_eq_getElem hj, by simpa using hpath⟩

theorem getElem?_push (g : Graph) (n : Node) : (g.push n).nodes[g.size]? = some n := by
  simp [size]

/-- What noting a reference does to the modules. -/
theorem getElem?_connect (g : Graph) (i : Nat) (kind : Kind) (reference : String) (j k : Nat) :
    (g.connect i kind reference j).nodes[k]? = (g.nodes[k]?).map fun n => { n with
      imports := n.imports ++ if i = k ∧ kind.isImport then [(reference, j)] else []
      includes := n.includes ++ if i = k ∧ !kind.isImport then [(reference, j)] else []
      imported := n.imported || decide (j = k ∧ kind.isImport) } := by
  cases kind with
  | import_ =>
    simp only [connect, nodes_modify, List.getElem?_modify, Kind.isImport, Option.map_eq_map,
      Option.map_map]
    refine Option.map_congr fun n _ => ?_
    by_cases hi : i = k <;> by_cases hj : j = k <;> simp [hi, hj]
  | main | include_ =>
    simp only [connect, nodes_modify, List.getElem?_modify, Kind.isImport, Option.map_eq_map]
    refine Option.map_congr fun n _ => ?_
    by_cases hi : i = k <;> simp [hi]

/-- The modules of `g` are in `g'` under their numbers, with the edges they had and maybe more. -/
def Grows (g g' : Graph) : Prop :=
  ∀ (k : Nat) (n : Node), g.nodes[k]? = some n →
    ∃ n' : Node, g'.nodes[k]? = some n' ∧ n'.path = n.path ∧ ∀ b, n.edges b ⊆ n'.edges b

/-- Growing goes on. -/
theorem Grows.trans {g₁ : Graph} (h : Grows g g₁) (h' : Grows g₁ g') : Grows g g' := by
  intro k n hn
  obtain ⟨n₁, hn₁, hpath₁, hedges₁⟩ := h k n hn
  obtain ⟨n', hn', hpath', hedges'⟩ := h' k n₁ hn₁
  exact ⟨n', hn', hpath'.trans hpath₁, fun b => List.Subset.trans (hedges₁ b) (hedges' b)⟩

theorem Grows.refl (g : Graph) : Grows g g := fun _ n hn => ⟨n, hn, rfl, fun _ => List.Subset.refl _⟩

/-- A new module makes a graph grow. -/
theorem Grows.push (g : Graph) (n : Node) : Grows g (g.push n) := by
  intro k m hm
  refine ⟨m, ?_, rfl, fun _ => List.Subset.refl _⟩
  rw [nodes_push, List.getElem?_append_left (List.getElem?_eq_some_iff.mp hm).1, hm]

/-- An edge leads to the module that its reference stands for. -/
def Meant (lib : Library) (g : Graph) (path : String) (e : String × Nat) : Prop :=
  ∃ m : Node, g.nodes[e.2]? = some m ∧ lib.resolved? path e.1 = some m.path ∧ lib.Cites path m.path

/-- What an edge means stays as the graph grows. -/
theorem Meant.grows {path : String} {e : String × Nat} (h : Meant lib g path e) (hg : Grows g g') :
    Meant lib g' path e := by
  obtain ⟨m, hm, hpath, hcites⟩ := h
  obtain ⟨m', hm', hpath', -⟩ := hg _ m hm
  exact ⟨m', hm', hpath'.symm ▸ hpath, hpath'.symm ▸ hcites⟩

/-- `g'` has the modules of `g`, and the edges that are added are meant. -/
def Retouches (lib : Library) (g g' : Graph) : Prop :=
  ∃ f : Nat → Node → Node, (∀ k, g'.nodes[k]? = (g.nodes[k]?).map (f k)) ∧
    ∀ (k : Nat) (n : Node), g.nodes[k]? = some n → (f k n).path = n.path ∧ (f k n).script = n.script ∧
      ∀ b, n.edges b ⊆ (f k n).edges b ∧
        ∀ e ∈ (f k n).edges b, e ∈ n.edges b ∨ Meant lib g n.path e

/-- A retouched graph has grown. -/
theorem Retouches.grows (h : Retouches lib g g') : Grows g g' := by
  obtain ⟨f, hf, hkeep⟩ := h
  intro k n hn
  obtain ⟨hpath, -, hedges⟩ := hkeep k n hn
  exact ⟨f k n, by rw [hf, hn]; rfl, hpath, fun b => (hedges b).1⟩

theorem Retouches.paths (h : Retouches lib g g') : g'.paths = g.paths := by
  obtain ⟨f, hf, hkeep⟩ := h
  refine List.ext_getElem? fun k => ?_
  rw [Graph.paths, Graph.paths, List.getElem?_map, List.getElem?_map, hf]
  cases hn : g.nodes[k]? with
  | none => rfl
  | some n => exact congrArg some (hkeep k n hn).1

/-- What noting a reference adds is meant, if the reference stands for that module. -/
theorem Retouches.connect {i j : Nat} {kind : Kind} {reference path : String} {n m : Node}
    (hi : g.nodes[i]? = some n) (hj : g.nodes[j]? = some m) (hm : m.path = path)
    (hpath : lib.resolved? n.path reference = some path) (hcites : lib.Cites n.path path) :
    Retouches lib g (g.connect i kind reference j) := by
  refine ⟨_, getElem?_connect g i kind reference j, fun k n' hn' => ⟨rfl, rfl, fun b => ?_⟩⟩
  have hnew : ∀ p : Bool, ∀ e ∈ (if i = k ∧ p then [(reference, j)] else []), Meant lib g n'.path e := by
    intro p e he
    split at he
    · rename_i hik
      obtain rfl : n = n' := Option.some.inj (hi.symm.trans (hik.1 ▸ hn'))
      exact List.mem_singleton.mp he ▸ ⟨m, hj, hm.symm ▸ hpath, hm.symm ▸ hcites⟩
    · cases he
  cases b with
  | true =>
    exact ⟨List.subset_append_left _ _, fun e he => (List.mem_append.mp he).imp_right (hnew _ e)⟩
  | false =>
    exact ⟨List.subset_append_left _ _, fun e he => (List.mem_append.mp he).imp_right (hnew _ e)⟩

/-- What a module reads besides modules does not matter. -/
theorem Retouches.note (i : Nat) (injections natives : List (String × String)) :
    Retouches lib g (g.modify i fun n => { n with injections, natives }) := by
  refine ⟨fun k n => if i = k then { n with injections, natives } else n, fun k => ?_, fun k n _ => ?_⟩
  · rw [nodes_modify, List.getElem?_modify]
    rfl
  · dsimp only
    split
    · exact ⟨rfl, rfl, fun b => ⟨List.Subset.refl _, fun e he => .inl he⟩⟩
    · exact ⟨rfl, rfl, fun b => ⟨List.Subset.refl _, fun e he => .inl he⟩⟩

/-! ## The walk -/

end Graph

/-- No cycle can be reached from the module at `path`. -/
def Library.Grounded (lib : Library) (path : String) : Prop := Acc (fun q p => lib.Cites p q) path

/-- Where no cycle can be reached, none is. -/
theorem Library.Grounded.acyclic {lib : Library} {path : String} (h : lib.Grounded path) :
    ∀ q, lib.Reaches path q → ¬ Relation.TransGen lib.Cites q q := by
  induction h with
  | intro p _ ih =>
    intro q hreach hcycle
    rcases Relation.ReflTransGen.cases_head hreach with rfl | ⟨p', hcites, hreach⟩
    · obtain ⟨p', hcites, hback⟩ := Relation.TransGen.head'_iff.mp hcycle
      exact ih p' hcites p hback hcycle
    · exact ih p' hcites q hreach hcycle

namespace Graph

variable {lib : Library} {g g' : Graph} {stack rest : List String} {r : Resource}

/-- **The invariant of a walk**: the modules on the stack are open, and all others have all their
edges and lead to no cycle. -/
structure Exploring (lib : Library) (stack : List String) (g : Graph) : Prop where
  nodup : g.paths.Nodup
  fromFile : ∀ n ∈ g.nodes, ∃ r, lib.resource? n.path = some r ∧ n.script = r.script
  mem_paths : ∀ p ∈ stack, p ∈ g.paths
  stack_nodup : stack.Nodup
  /-- Each module on the stack was reached from the one below it. -/
  chain : stack.IsChain fun p q => lib.Cites q p
  meant : ∀ n ∈ g.nodes, ∀ b, ∀ e ∈ n.edges b, Meant lib g n.path e
  linked : ∀ n ∈ g.nodes, n.path ∉ stack → ∀ ref ∈ references n.script,
    ref.1.path ∈ (n.edges ref.2.isImport).map Prod.fst
  grounded : ∀ p ∈ g.paths, p ∉ stack → lib.Grounded p

namespace Exploring

/-- Retouching a graph keeps what is known of it. -/
theorem retouch (h : Exploring lib stack g) (h' : Retouches lib g g') : Exploring lib stack g' := by
  have hpaths := h'.paths
  have hgrows := h'.grows
  obtain ⟨f, hf, hkeep⟩ := h'
  -- A module of `g'` is one of `g` with its changes.
  have hnode : ∀ n' ∈ g'.nodes, ∃ k n, g.nodes[k]? = some n ∧ n ∈ g.nodes ∧ f k n = n' := by
    intro n' hn'
    obtain ⟨k, hk⟩ := List.mem_iff_getElem?.mp hn'
    rw [hf] at hk
    obtain ⟨n, hn, rfl⟩ := Option.map_eq_some_iff.mp hk
    exact ⟨k, n, hn, List.mem_of_getElem? hn, rfl⟩
  refine ⟨hpaths ▸ h.nodup, fun n' hn' => ?_, fun p hp => hpaths ▸ h.mem_paths p hp, h.stack_nodup,
    h.chain, fun n' hn' b e he => ?_, fun n' hn' hopen ref href => ?_, fun p hp => ?_⟩
  · obtain ⟨k, n, hn, hmem, rfl⟩ := hnode n' hn'
    rw [(hkeep k n hn).1, (hkeep k n hn).2.1]
    exact h.fromFile n hmem
  · obtain ⟨k, n, hn, hmem, rfl⟩ := hnode n' hn'
    rw [(hkeep k n hn).1]
    rcases ((hkeep k n hn).2.2 b).2 e he with he | he
    · exact (h.meant n hmem b e he).grows hgrows
    · exact he.grows hgrows
  · obtain ⟨k, n, hn, hmem, rfl⟩ := hnode n' hn'
    rw [(hkeep k n hn).1] at hopen
    rw [(hkeep k n hn).2.1] at href
    exact List.map_subset _ ((hkeep k n hn).2.2 _).1 (h.linked n hmem hopen ref href)
  · rw [hpaths] at hp
    exact h.grounded p hp

/-- A module that is new is put on the stack. -/
theorem push {child : Resource} {path : String} {kind : Kind} (h : Exploring lib (r.path :: rest) g)
    (hnew : path ∉ g.paths) (hchild : lib.resource? path = some child) (hpath : child.path = path)
    (hcites : lib.Cites r.path path) :
    Exploring lib (path :: r.path :: rest) (g.push (.ofResource child kind)) := by
  have hpaths : (g.push (.ofResource child kind)).paths = g.paths ++ [path] := by
    rw [paths, nodes_push, List.map_append, ← hpath]
    rfl
  have hstack : path ∉ r.path :: rest := fun hmem => hnew (h.mem_paths _ hmem)
  -- A module that is not open is one of `g`.
  have hnode : ∀ {n}, n ∈ (g.push (.ofResource child kind)).nodes → n.path ≠ path → n ∈ g.nodes := by
    intro n hn hne
    rw [nodes_push] at hn
    rcases List.mem_append.mp hn with hn | hn
    · exact hn
    · exact absurd (List.mem_singleton.mp hn ▸ hpath) hne
  refine ⟨?_, fun n hn => ?_, fun p hp => ?_, List.nodup_cons.mpr ⟨hstack, h.stack_nodup⟩,
    List.isChain_cons_cons.mpr ⟨hcites, h.chain⟩, fun n hn b e he => ?_, fun n hn hopen ref href => ?_,
    fun p hp hopen => ?_⟩
  · rw [hpaths, List.nodup_append]
    refine ⟨h.nodup, List.nodup_singleton _, fun p hp q hq heq => ?_⟩
    rw [← List.mem_singleton.mp hq, ← heq] at hnew
    exact hnew hp
  · rw [nodes_push] at hn
    rcases List.mem_append.mp hn with hn | hn
    · exact h.fromFile n hn
    · rw [List.mem_singleton.mp hn]
      exact ⟨child, by rwa [← hpath] at hchild, rfl⟩
  · rw [hpaths, List.mem_append, List.mem_singleton]
    rcases List.mem_cons.mp hp with rfl | hp
    · exact .inr rfl
    · exact .inl (h.mem_paths p hp)
  · rw [nodes_push] at hn
    rcases List.mem_append.mp hn with hn | hn
    · exact (h.meant n hn b e he).grows (.push g _)
    · rw [List.mem_singleton.mp hn] at he
      cases b <;> cases he
  · have hmem := hnode hn fun heq => hopen (heq ▸ List.mem_cons_self)
    exact h.linked n hmem (fun hmem => hopen (List.mem_cons_of_mem _ hmem)) ref href
  · rw [hpaths, List.mem_append, List.mem_singleton] at hp
    rcases hp with hp | rfl
    · exact h.grounded p hp fun hmem => hopen (List.mem_cons_of_mem _ hmem)
    · exact absurd List.mem_cons_self hopen

/-- A module that has all its edges, and leads to no cycle, is taken off the stack. -/
theorem pop {path : String} (h : Exploring lib (path :: rest) g)
    (hlinked : ∀ n ∈ g.nodes, n.path = path → ∀ ref ∈ references n.script,
      ref.1.path ∈ (n.edges ref.2.isImport).map Prod.fst)
    (hgrounded : ∀ q, lib.Cites path q → lib.Grounded q) : Exploring lib rest g := by
  refine ⟨h.nodup, h.fromFile, fun p hp => h.mem_paths p (List.mem_cons_of_mem _ hp),
    (List.nodup_cons.mp h.stack_nodup).2, List.IsChain.of_cons h.chain, h.meant, fun n hn hopen ref href => ?_,
    fun p hp hopen => ?_⟩
  · by_cases hpath : n.path = path
    · exact hlinked n hn hpath ref href
    · exact h.linked n hn (by simp [hpath, hopen]) ref href
  · by_cases hpath : p = path
    · exact hpath ▸ Acc.intro _ hgrounded
    · exact h.grounded p hp (by simp [hpath, hopen])

/-- The module on top of the stack is reached from all below it. -/
theorem reaches_top {path : String} (h : Exploring lib (path :: rest) g) {p : String}
    (hp : p ∈ path :: rest) : lib.Reaches p path := by
  have hchain := h.chain
  clear h
  induction rest generalizing path with
  | nil =>
    rw [List.mem_singleton.mp hp]
    exact .refl
  | cons q rest ih =>
    rcases List.mem_cons.mp hp with rfl | hp
    · exact .refl
    · obtain ⟨hcites, hchain⟩ := List.isChain_cons_cons.mp hchain
      exact (ih hp hchain).tail hcites

/-- There are no more open modules than files. -/
theorem length_stack (h : Exploring lib stack g) : stack.length ≤ lib.modules.length := by
  have hsub : stack ⊆ lib.modules.map Prod.fst := by
    intro p hp
    obtain ⟨n, hn, rfl⟩ := List.mem_map.mp (h.mem_paths p hp)
    obtain ⟨r, hr, -⟩ := h.fromFile n hn
    exact List.mem_map_of_mem (mem_of_lookup hr)
  simpa using (List.subperm_of_subset h.stack_nodup hsub).length_le

end Exploring

/-- A failure that names a reference which closes a cycle, reached from all of `stack`. -/
def Circular (lib : Library) (stack : List String) (e : BuildError) : Prop :=
  ∃ source target span, e = { target := source, range := some span, cause := .circular source target } ∧
    lib.Cites source target ∧ lib.Reaches target source ∧ ∀ p ∈ stack, lib.Reaches p source

/-- What a walk that is in `path :: rest` ends with: what `path` leads to is found depth first, and
`path` is no longer open. -/
def Explores (lib : Library) (rest : List String) (path : String) (g g' : Graph) : Prop :=
  Exploring lib rest g' ∧ Grows g g' ∧ Visits lib.targets g.paths (lib.targets path) g'.paths

/-- Walks end like this as long as the bound `n` and the stack make up for the files there are.  One
that fails has met a cycle, unless something is missing. -/
def Walks (lib : Library) (n : Nat) : Prop :=
  ∀ {stack : List String} {i : Nat} {r : Resource} {g : Graph} {m : Node},
    Exploring lib (r.path :: stack) g → g.nodes[i]? = some m → m.path = r.path →
    lib.resource? r.path = some r → lib.modules.length + 1 ≤ n + stack.length →
    Ends (walk lib n (r.path :: stack) i r g) (Explores lib stack r.path g)
      fun e => lib.Closed → Circular lib (r.path :: stack) e

/-- What following a reference ends with: what it stands for is found depth first and leads to no
cycle, and module `i` has the edge. -/
def Follows (lib : Library) (stack : List String) (path : String) (i : Nat) (ref : Reference × Kind)
    (g g' : Graph) : Prop :=
  ∃ target, lib.resolved? path ref.1.path = some target ∧ Exploring lib stack g' ∧ Grows g g' ∧
    Visits lib.targets g.paths [target] g'.paths ∧ lib.Grounded target ∧
    ∃ m : Node, g'.nodes[i]? = some m ∧ ref.1.path ∈ (m.edges ref.2.isImport).map Prod.fst

/-- Noting a reference adds its edge. -/
theorem mem_edges_connect {i : Nat} {m : Node} (hi : g.nodes[i]? = some m) (kind : Kind)
    (reference : String) (j : Nat) : ∃ m' : Node, (g.connect i kind reference j).nodes[i]? = some m' ∧
      reference ∈ (m'.edges kind.isImport).map Prod.fst := by
  refine ⟨_, by rw [getElem?_connect, hi]; rfl, ?_⟩
  cases kind <;> simp [Node.edges, Kind.isImport]

/-- A reference leads somewhere, unless something is missing. -/
theorem target_ends (hr : lib.resource? r.path = some r) {ref : Reference × Kind}
    (href : ref ∈ references r.script) {Q : BuildError → Prop} :
    Ends (target lib r.path ref.1) (fun path => lib.resolved? r.path ref.1.path = some path)
      fun e => lib.Closed → Q e := by
  rw [target]
  cases hpath : lib.resolved? r.path ref.1.path with
  | some path => rfl
  | none =>
    intro hlib
    obtain ⟨_, -, hsome, -⟩ := exists_target hlib hr href
    cases hpath.symm.trans hsome

/-- What a reference leads to is held, unless something is missing. -/
theorem resource_ends (hr : lib.resource? r.path = some r) {ref : Reference × Kind}
    (href : ref ∈ references r.script) {path : String}
    (hpath : lib.resolved? r.path ref.1.path = some path) {Q : BuildError → Prop} :
    Ends (resource lib path) (fun child => lib.resource? path = some child)
      fun e => lib.Closed → Q e := by
  rw [resource]
  cases hchild : lib.resource? path with
  | some child => rfl
  | none =>
    intro hlib
    obtain ⟨_, _, hsome, hheld⟩ := exists_target hlib hr href
    rw [← Option.some.inj (hpath.symm.trans hsome), hchild] at hheld
    cases hheld

/-- Every text that is injected is there, unless something is missing. -/
theorem injection_ends (hr : lib.resource? r.path = some r) {ref : Reference}
    (href : ref ∈ r.script.mentions.injects) {Q : BuildError → Prop} :
    Ends (injection lib r.path ref) (fun _ => True) fun e => lib.Closed → Q e := by
  have hheld : lib.Closed → ∃ path text, lib.resolved? r.path ref.path = some path ∧
      lib.text? path = some text := by
    intro hlib
    obtain ⟨path, hpath, hheld⟩ := hlib hr (ref, .text) (List.mem_append_right _ (List.mem_map_of_mem href))
    obtain ⟨text, htext⟩ := Option.isSome_iff_exists.mp (Option.isSome_map ▸ hheld)
    exact ⟨path, text, hpath, htext⟩
  rw [injection, target]
  cases hpath : lib.resolved? r.path ref.path with
  | none =>
    intro hlib
    obtain ⟨_, _, hsome, -⟩ := hheld hlib
    cases hpath.symm.trans hsome
  | some path =>
    refine Ends.bind (P := fun p => p = path) rfl fun p hp => ?_
    subst hp
    cases htext : lib.text? p with
    | some text => exact trivial
    | none =>
      intro hlib
      obtain ⟨_, _, hsome, hthere⟩ := hheld hlib
      rw [← Option.some.inj (hpath.symm.trans hsome), htext] at hthere
      cases hthere

/-- A reference that stands for a module which was met before. -/
theorem follow_met {i j : Nat} {m : Node} {ref : Reference × Kind} {path : String}
    (h : Exploring lib (r.path :: rest) g) (hi : g.nodes[i]? = some m) (hm : m.path = r.path)
    (hpath : lib.resolved? r.path ref.1.path = some path) (hcites : lib.Cites r.path path)
    (hj : g.find? path = some j) (hstack : path ∉ r.path :: rest) :
    Follows lib (r.path :: rest) r.path i ref g (g.connect i ref.2 ref.1.path j) := by
  obtain ⟨m', hm', hpath'⟩ := find?_eq_some hj
  have hmem : path ∈ g.paths := hpath' ▸ List.mem_map_of_mem (List.mem_of_getElem? hm')
  have hretouch : Retouches lib g (g.connect i ref.2 ref.1.path j) :=
    .connect hi hm' hpath' (hm.symm ▸ hpath) (hm.symm ▸ hcites)
  exact ⟨path, hpath, h.retouch hretouch, hretouch.grows, hretouch.paths.symm ▸ .skip hmem (.done _),
    h.grounded path hmem hstack, mem_edges_connect hi _ _ _⟩

/-- A reference that stands for a module which is new, and was walked from. -/
theorem follow_new {i : Nat} {m : Node} {ref : Reference × Kind} {child : Resource} {g₁ : Graph}
    (hi : g.nodes[i]? = some m) (hm : m.path = r.path)
    (hpath : lib.resolved? r.path ref.1.path = some child.path) (hcites : lib.Cites r.path child.path)
    (hnew : child.path ∉ g.paths)
    (hpush : Exploring lib (child.path :: r.path :: rest) (g.push (.ofResource child ref.2)))
    (h : Explores lib (r.path :: rest) child.path (g.push (.ofResource child ref.2)) g₁) :
    Follows lib (r.path :: rest) r.path i ref g (g₁.connect i ref.2 ref.1.path g.size) := by
  obtain ⟨hexploring, hgrows, hvisits⟩ := h
  have hlast := getElem?_push g (.ofResource child ref.2)
  have hgrows' : Grows g g₁ := (Grows.push g _).trans hgrows
  obtain ⟨m₁, hm₁, hmpath, -⟩ := hgrows' i m hi
  obtain ⟨m₂, hm₂, hmpath₂, -⟩ := hgrows _ _ hlast
  have hretouch : Retouches lib g₁ (g₁.connect i ref.2 ref.1.path g.size) :=
    .connect hm₁ hm₂ hmpath₂ (by rw [hmpath, hm]; exact hpath) (by rw [hmpath, hm]; exact hcites)
  have hpaths : (g.push (.ofResource child ref.2)).paths = g.paths ++ [child.path] := by
    rw [paths, nodes_push, List.map_append]
    rfl
  rw [hpaths] at hvisits
  have hstack : child.path ∉ r.path :: rest := (List.nodup_cons.mp hpush.stack_nodup).1
  have hmem : child.path ∈ g₁.paths := hvisits.mem_of_mem (by simp)
  exact ⟨child.path, hpath, hexploring.retouch hretouch, hgrows'.trans hretouch.grows,
    hretouch.paths.symm ▸ .enter hnew hvisits (.done _), hexploring.grounded _ hmem hstack,
    mem_edges_connect hm₁ _ _ _⟩

/-- Following one reference. -/
theorem follow_ends {n i : Nat} {m : Node} {ref : Reference × Kind} (hkeyed : lib.Keyed)
    (hwalk : Walks lib n) (h : Exploring lib (r.path :: rest) g) (hi : g.nodes[i]? = some m)
    (hm : m.path = r.path) (hr : lib.resource? r.path = some r) (href : ref ∈ references r.script)
    (hn : lib.modules.length ≤ n + rest.length) :
    Ends (follow lib n (r.path :: rest) i r g ref) (Follows lib (r.path :: rest) r.path i ref g)
      fun e => lib.Closed → Circular lib (r.path :: rest) e := by
  refine (target_ends hr href).bind fun path hpath => ?_
  have hcites := cites_of_reference hr href hpath
  cases hfind : g.find? path with
  | some j =>
    dsimp only
    by_cases hstack : path ∈ r.path :: rest
    · rw [if_pos hstack]
      exact fun _ => ⟨r.path, path, _, rfl, hcites, h.reaches_top hstack, fun _ => h.reaches_top⟩
    · rw [if_neg hstack]
      exact follow_met h hi hm hpath hcites hfind hstack
  | none =>
    refine (resource_ends hr href hpath).bind fun child hchild => ?_
    obtain rfl := hkeyed hchild
    have hnew := find?_eq_none hfind
    have hpush : Exploring lib (child.path :: r.path :: rest) (g.push (.ofResource child ref.2)) :=
      h.push hnew hchild rfl hcites
    have hrun := hwalk hpush (getElem?_push g _) rfl hchild (by simp only [List.length_cons]; omega)
    refine Ends.bind (hrun.mono (fun _ h => h) fun e he hlib => ?_) fun g₁ hg₁ => ?_
    · obtain ⟨source, target, span, rfl, hedge, hback, hall⟩ := he hlib
      exact ⟨source, target, span, rfl, hedge, hback, fun p hp => hall p (List.mem_cons_of_mem _ hp)⟩
    · exact follow_new hi hm hpath hcites hnew hpush hg₁

/-- What following some references ends with. -/
def FollowsAll (lib : Library) (stack : List String) (path : String) (i : Nat)
    (refs : List (Reference × Kind)) (g g' : Graph) : Prop :=
  Exploring lib stack g' ∧ Grows g g' ∧
    Visits lib.targets g.paths (refs.filterMap fun ref => lib.resolved? path ref.1.path) g'.paths ∧
    ∀ ref ∈ refs, (∀ target, lib.resolved? path ref.1.path = some target → lib.Grounded target) ∧
      ∃ m : Node, g'.nodes[i]? = some m ∧ ref.1.path ∈ (m.edges ref.2.isImport).map Prod.fst

theorem FollowsAll.cons {path : String} {i : Nat} {ref : Reference × Kind}
    {refs : List (Reference × Kind)} {g₁ : Graph} (h : Follows lib stack path i ref g g₁)
    (h' : FollowsAll lib stack path i refs g₁ g') :
    FollowsAll lib stack path i (ref :: refs) g g' := by
  obtain ⟨target, htarget, -, hgrows, hvisits, hgrounded, m, hm, hedge⟩ := h
  obtain ⟨hexploring', hgrows', hvisits', hrefs⟩ := h'
  refine ⟨hexploring', hgrows.trans hgrows', ?_, fun ref' href' => ?_⟩
  · simp only [List.filterMap_cons, htarget]
    exact hvisits.append hvisits'
  · rcases List.mem_cons.mp href' with rfl | href'
    · obtain ⟨m', hm', -, hedges⟩ := hgrows' i m hm
      exact ⟨fun _ h => Option.some.inj (htarget.symm.trans h) ▸ hgrounded,
        m', hm', List.map_subset _ (hedges _) hedge⟩
    · exact hrefs ref' href'

/-- The references of a module are followed one by one. -/
theorem foldlM_follow {n i : Nat} {refs : List (Reference × Kind)} {m : Node} (hkeyed : lib.Keyed)
    (hwalk : Walks lib n) (hsub : refs ⊆ references r.script) (h : Exploring lib (r.path :: rest) g)
    (hi : g.nodes[i]? = some m) (hm : m.path = r.path) (hr : lib.resource? r.path = some r)
    (hn : lib.modules.length ≤ n + rest.length) :
    Ends (refs.foldlM (follow lib n (r.path :: rest) i r) g)
      (FollowsAll lib (r.path :: rest) r.path i refs g)
      fun e => lib.Closed → Circular lib (r.path :: rest) e := by
  induction refs generalizing g m with
  | nil => exact ⟨h, .refl g, .done _, fun _ href => absurd href List.not_mem_nil⟩
  | cons ref refs ih =>
    have href : ref ∈ references r.script := hsub List.mem_cons_self
    rw [List.foldlM_cons]
    refine (follow_ends hkeyed hwalk h hi hm hr href hn).bind fun g₁ hg₁ => ?_
    obtain ⟨_, -, hexploring, hgrows, -⟩ := id hg₁
    obtain ⟨m₁, hm₁, hmpath, -⟩ := hgrows i m hi
    exact (ih (fun _ hmem => hsub (List.mem_cons_of_mem _ hmem)) hexploring hm₁
      (hmpath.trans hm)).mono (fun _ => FollowsAll.cons hg₁) fun _ he => he

/-- A module whose references were followed is closed. -/
theorem FollowsAll.pop {i : Nat} {m : Node} (h : FollowsAll lib (r.path :: rest) r.path i
    (references r.script) g g') (hi : g.nodes[i]? = some m) (hm : m.path = r.path)
    (hr : lib.resource? r.path = some r) : Exploring lib rest g' := by
  obtain ⟨hexploring, hgrows, -, hrefs⟩ := h
  refine hexploring.pop (fun n hn hpath ref href => ?_) fun q hq => ?_
  · -- The module is number `i`, since paths are met once.
    obtain ⟨k, hk⟩ := List.mem_iff_getElem?.mp hn
    obtain ⟨m', hm', hmpath, -⟩ := hgrows i m hi
    have hki : k = i :=
      getElem?_paths_inj hexploring.nodup (getElem?_paths hk hpath) (getElem?_paths hm' (hmpath.trans hm))
    obtain ⟨r', hr', hscript⟩ := hexploring.fromFile n hn
    rw [hpath, hr] at hr'
    rw [hscript, ← Option.some.inj hr'] at href
    obtain ⟨-, m'', hm'', hedge⟩ := hrefs ref href
    rw [hki, hm''] at hk
    exact Option.some.inj hk ▸ hedge
  · rw [Library.Cites, Library.targets, hr] at hq
    obtain ⟨ref, href, hpath⟩ := List.mem_filterMap.mp hq
    exact (hrefs ref href).1 q hpath

/-- **A walk ends with the modules found depth first, or with a cycle.**  The induction is on the
bound, which the modules that are open cannot use up. -/
theorem walk_ends (hkeyed : lib.Keyed) (n : Nat) : Walks lib n := by
  induction n with
  | zero =>
    intro stack i r g m h _ _ _ hn
    have hlength := h.length_stack
    rw [List.length_cons] at hlength
    omega
  | succ n ih =>
    intro stack i r g m h hi hm hr hn
    rw [walk_succ]
    refine (foldlM_follow hkeyed ih (List.Subset.refl _) h hi hm hr (by omega)).bind fun g₁ hg₁ => ?_
    refine (Ends.mapM fun ref href => injection_ends hr href).bind fun injections _ => ?_
    have hpop := hg₁.pop hi hm hr
    obtain ⟨-, hgrows, hvisits, -⟩ := hg₁
    have hnote : Retouches lib g₁ _ :=
      .note i injections (r.script.mentions.natives.filterMap (native? lib r.path))
    refine ⟨hpop.retouch hnote, hgrows.trans hnote.grows, ?_⟩
    rw [Library.targets, hr]
    exact hnote.paths.symm ▸ hvisits

/-! ## The graph of an entry -/

/-- In a closed library, what a module leads to is held. -/
theorem resource_of_reaches (hkeyed : lib.Keyed) (hlib : lib.Closed) {path q : String} (hr : lib.resource? path = some r)
    (hreach : lib.Reaches path q) : ∃ r', lib.resource? q = some r' := by
  induction hreach with
  | refl => exact ⟨r, hr⟩
  | tail _ hcites ih =>
    obtain ⟨r', hr'⟩ := ih
    rw [Library.Cites, Library.targets, hr'] at hcites
    obtain ⟨ref, href, hpath⟩ := List.mem_filterMap.mp hcites
    obtain rfl := hkeyed hr'
    obtain ⟨path', child, hpath', hchild⟩ := exists_target hlib hr' href
    exact ⟨child, Option.some.inj (hpath.symm.trans hpath') ▸ hchild⟩

/-- The graph holds the modules that the one at `path` leads to, each once and depth first, and the
edges that their references stand for. -/
structure Spans (lib : Library) (path : String) (g : Graph) : Prop where
  visits : Visits lib.targets [] [path] g.paths
  mem_iff : ∀ q, q ∈ g.paths ↔ lib.Reaches path q
  nodup : g.paths.Nodup
  find?_iff : ∀ q j, g.find? q = some j ↔ g.paths[j]? = some q
  linked : ∀ n ∈ g.nodes, ∃ r, lib.resource? n.path = some r ∧ n.script = r.script ∧
    ∀ ref ∈ references r.script, ∃ q j, lib.resolved? n.path ref.1.path = some q ∧
      (if ref.2 = .import_ then n.imports else n.includes).lookup ref.1.path = some j ∧
      g.find? q = some j

/-- **A path is found exactly under its number**. -/
theorem Exploring.find?_iff (h : Exploring lib stack g) (q : String) (j : Nat) :
    g.find? q = some j ↔ g.paths[j]? = some q := by
  constructor
  · intro hj
    obtain ⟨n, hn, hpath⟩ := find?_eq_some hj
    exact getElem?_paths hn hpath
  · intro hj
    cases hfind : g.find? q with
    | none => exact absurd (List.mem_of_getElem? hj) (find?_eq_none hfind)
    | some k =>
      obtain ⟨n, hn, hpath⟩ := find?_eq_some hfind
      rw [getElem?_paths_inj h.nodup (getElem?_paths hn hpath) hj]

/-- A graph whose walk has ended. -/
theorem Exploring.spans {path : String} (h : Exploring lib [] g)
    (hvisits : Visits lib.targets [] [path] g.paths) : Spans lib path g := by
  refine ⟨hvisits, fun q => hvisits.mem_iff, h.nodup, h.find?_iff, fun n hn => ?_⟩
  obtain ⟨r, hr, hscript⟩ := h.fromFile n hn
  refine ⟨r, hr, hscript, fun ref href => ?_⟩
  have hedge := h.linked n hn List.not_mem_nil ref (hscript ▸ href)
  have hkind : (if ref.2 = .import_ then n.imports else n.includes) = n.edges ref.2.isImport := by
    cases ref.2 <;> rfl
  -- The first edge of the reference is meant, like every edge.
  obtain ⟨j, hj, hfound⟩ := exists_lookup hedge
  obtain ⟨m, hm, hpath, -⟩ := h.meant n hn ref.2.isImport (ref.1.path, j) hfound
  exact ⟨m.path, j, hpath, hkind ▸ hj, (h.find?_iff _ _).mpr (getElem?_paths hm rfl)⟩

/-- A walk from an entry starts with the entry open. -/
theorem exploring_single (hr : lib.resource? r.path = some r) : Exploring lib [r.path] (single r) where
  nodup := List.nodup_singleton _
  fromFile n hn := by
    rw [List.mem_singleton.mp hn]
    exact ⟨r, hr, rfl⟩
  mem_paths p hp := hp
  stack_nodup := List.nodup_singleton _
  chain := .singleton _
  meant n hn b e he := by
    rw [List.mem_singleton.mp hn] at he
    cases b <;> cases he
  linked n hn hopen := absurd (List.mem_singleton.mp hn ▸ List.mem_cons_self) hopen
  grounded p hp hopen := absurd hp hopen

/-- **Resolving ends with the graph of the entry, or with a cycle.** -/
theorem resolve_ends (hkeyed : lib.Keyed) {path : String} (hr : lib.resource? path = some r) :
    Ends (resolve lib path)
      (fun g => Exploring lib [] g ∧ Visits lib.targets [] [path] g.paths ∧ lib.Grounded path)
      fun e => lib.Closed → Circular lib [path] e := by
  obtain rfl := hkeyed hr
  have hresource : resource lib r.path = .ok r := by rw [resource, hr]
  refine Ends.bind (P := fun c => c = r) (by rw [hresource]; rfl) fun c hc => ?_
  subst hc
  refine (walk_ends hkeyed _ (exploring_single hr) rfl rfl hr (by simp)).mono (fun g hg => ?_)
    fun _ he => he
  obtain ⟨hexploring, -, hvisits⟩ := hg
  have hall : Visits lib.targets [] [c.path] g.paths := .enter List.not_mem_nil hvisits (.done _)
  exact ⟨hexploring, hall, hexploring.grounded _ (hall.mem_of_todo List.mem_cons_self) List.not_mem_nil⟩

/-- The references of a script are its imports and includes, in the order of their places. -/
theorem references_sorted (s : Script) :
    (references s).Perm (s.mentions.imports.map (·, Kind.import_) ++
      s.mentions.includes.map (·, Kind.include_)) ∧
    (references s).Pairwise fun a b => isBefore a b := by
  refine ⟨List.mergeSort_perm _ _, List.pairwise_mergeSort (fun a b c hab hbc => ?_) (fun a b => ?_) _⟩
  · simp only [isBefore, Bool.or_eq_true, Bool.and_eq_true, decide_eq_true_eq, beq_iff_eq] at *
    omega
  · simp only [isBefore, Bool.or_eq_true, Bool.and_eq_true, decide_eq_true_eq, beq_iff_eq]
    omega

/-- **Resolving finds exactly the modules an entry leads to, or a cycle among them.**  After a first
load that ended well it ends well iff no cycle can be reached; nothing is ever missing. -/
theorem resolve_explores {files : Files} {nativeImports : Bool} {entry path : String} {lib : Library}
    (h : Library.load files { nativeImports } entry = (.ok path, lib)) :
    (∀ q, lib.Reaches path q → ∃ r, lib.resource? q = some r ∧
      files.content? (q, .module) = some (.module r) ∧
      lib.targets q = (references r.script).map (fun ref => files.resolve q ref.1.path) ∧
      (references r.script).Perm (r.script.mentions.imports.map (·, Kind.import_) ++
        r.script.mentions.includes.map (·, Kind.include_)) ∧
      (references r.script).Pairwise fun a b => isBefore a b) ∧
    ((∃ g, resolve lib path = .ok g) ↔
      ∀ q, lib.Reaches path q → ¬ Relation.TransGen lib.Cites q q) ∧
    (∀ g, resolve lib path = .ok g → Spans lib path g) ∧
    ∀ e, resolve lib path = .error e → ∃ source target span,
      e = { target := source, range := some span, cause := .circular source target } ∧
      lib.Reaches path source ∧ lib.Cites source target ∧ lib.Reaches target source := by
  obtain ⟨hsound, hlib, r, hr⟩ := Library.closed_of_load h
  have hkeyed : lib.Keyed := hsound.path_of_resource
  have hends := resolve_ends hkeyed hr
  refine ⟨fun q hq => ?_, ⟨?_, fun hacyclic => ?_⟩, fun g hg => ?_, fun e he => ?_⟩
  · obtain ⟨r', hr'⟩ := resource_of_reaches hkeyed hlib hr hq
    refine ⟨r', hr', hsound.content (by rw [Library.held?, hr']; rfl), ?_, references_sorted _⟩
    rw [Library.targets, hr', ← List.filterMap_eq_map]
    refine List.filterMap_congr fun ref href => ?_
    obtain rfl := hkeyed hr'
    obtain ⟨target, -, htarget, -⟩ := exists_target hlib hr' href
    rw [htarget, hsound.consistent _ _ _ htarget]
    rfl
  · rintro ⟨g, hg⟩
    rw [hg] at hends
    exact hends.2.2.acyclic
  · cases hg : resolve lib path with
    | ok g => exact ⟨g, rfl⟩
    | error e =>
      rw [hg] at hends
      obtain ⟨source, target, span, -, hcites, hback, hall⟩ := hends hlib
      exact absurd (Relation.TransGen.head' hcites hback) (hacyclic source (hall _ List.mem_cons_self))
  · rw [hg] at hends
    exact hends.1.spans hends.2.1
  · rw [he] at hends
    obtain ⟨source, target, span, heq, hcites, hback, hall⟩ := hends hlib
    exact ⟨source, target, span, heq, hall _ List.mem_cons_self, hcites, hback⟩

/-- Two files that include each other, and one that both imports and includes the first. -/
def roundabout : Files where
  texts := [("a.src", "#import b from \"b\"\n#include \"b\""), ("b.src", "#include \"c\""),
    ("c.src", "#include \"b\"")]

/-- Whether every import and include leads to a path that comes later in the order of texts. -/
def ascends (lib : Library) : Bool :=
  lib.modules.all fun entry =>
    (entry.2.script.mentions.imports ++ entry.2.script.mentions.includes).all fun ref =>
      (lib.resolved? entry.1 ref.path).all fun target => entry.1 < target

theorem acyclic_of_ascends (h : ascends lib) (q : String) : ¬ Relation.TransGen lib.Cites q q := by
  have hlt : ∀ {p q}, lib.Cites p q → p < q := by
    intro p q hcites
    obtain ⟨r, hr, ref, href, hpath⟩ := cites_iff.mp hcites
    have hmem : (p, r) ∈ lib.modules := mem_of_lookup hr
    simpa [hpath] using List.all_eq_true.mp (List.all_eq_true.mp h _ hmem) ref href
  have htrans : ∀ {p q}, Relation.TransGen lib.Cites p q → p < q := by
    intro p q hpath
    induction hpath with
    | single hcites => exact hlt hcites
    | tail _ hcites ih => exact String.lt_trans ih (hlt hcites)
  exact fun hcycle => String.lt_irrefl q (htrans hcycle)

/-- Files whose references ascend are resolved, and two that include each other are not. -/
theorem resolve_explores_load :
    (∃ lib g, Library.load Loading.diamond {} "a.src" = (.ok "a.src", lib) ∧
      resolve lib "a.src" = .ok g ∧ Spans lib "a.src" g) ∧
    ∃ lib source target span, Library.load roundabout {} "a.src" = (.ok "a.src", lib) ∧
      resolve lib "a.src" =
        .error { target := source, range := some span, cause := .circular source target } := by
  -- What a load answers can be evaluated; the library it leaves is given by the load.
  have hload : ∀ {x : Except BuildError String × Library},
      x.1.toOption = some "a.src" → x = (.ok "a.src", x.2) := by
    rintro ⟨_ | path, lib⟩ hx
    · cases hx
    · exact congrArg (fun p => (Except.ok p, lib)) (Option.some.inj hx)
  have hdiamond := hload (x := Library.load Loading.diamond {} "a.src") (by decide +kernel)
  have hroundabout := hload (x := Library.load roundabout {} "a.src") (by decide +kernel)
  constructor
  · have hascends : ascends (Library.load Loading.diamond {} "a.src").2 := by decide +kernel
    obtain ⟨-, hok, hspans, -⟩ := resolve_explores hdiamond
    obtain ⟨g, hg⟩ := hok.mpr fun q _ => acyclic_of_ascends hascends q
    exact ⟨_, g, hdiamond, hg, hspans g hg⟩
  · obtain ⟨-, hok, -, herror⟩ := resolve_explores hroundabout
    have hcites : ∀ {p q}, (((Library.load roundabout {} "a.src").2.resource? p).any fun r =>
        (r.script.mentions.imports ++ r.script.mentions.includes).any fun ref =>
          (Library.load roundabout {} "a.src").2.resolved? p ref.path = some q) →
        (Library.load roundabout {} "a.src").2.Cites p q := by
      intro p q hany
      obtain ⟨r, hr, hrefs⟩ := (Option.any_eq_true _ _).mp hany
      obtain ⟨ref, href, hpath⟩ := List.any_eq_true.mp hrefs
      exact cites_iff.mpr ⟨r, hr, ref, href, of_decide_eq_true hpath⟩
    have hab : (Library.load roundabout {} "a.src").2.Cites "a.src" "b.src" := hcites (by decide +kernel)
    have hbc : (Library.load roundabout {} "a.src").2.Cites "b.src" "c.src" := hcites (by decide +kernel)
    have hcb : (Library.load roundabout {} "a.src").2.Cites "c.src" "b.src" := hcites (by decide +kernel)
    cases hg : resolve (Library.load roundabout {} "a.src").2 "a.src" with
    | ok g => exact absurd (.head hbc (.single hcb)) (hok.mp ⟨g, hg⟩ "b.src" (.single hab))
    | error e =>
      obtain ⟨source, target, span, rfl, -⟩ := herror e hg
      exact ⟨_, source, target, span, hroundabout, hg⟩

end Graph

end ScriptBundler

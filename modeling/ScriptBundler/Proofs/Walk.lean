import ScriptBundler.Graph
import ScriptBundler.Proofs.Loading

/-!
# Proofs/Walk — what a walk does to a graph

A walk changes a graph by three steps only: it adds the module of a file that is loaded, it notes
what a reference stands for, and it notes what is injected into a module.  So what these steps keep,
a walk keeps (`Graph.walk_preserves`).
-/

namespace ScriptBundler

theorem Except.toOption_eq_some {ε α : Type} {x : Except ε α} {a : α} (h : x.toOption = some a) :
    x = .ok a := by
  cases x with
  | error e => cases h
  | ok b => exact congrArg _ (Option.some.inj h)

/-- A step that succeeds, after one that does. -/
theorem Except.bind_eq_ok {ε α β : Type} {x : Except ε α} {f : α → Except ε β} {b : β} :
    x >>= f = .ok b ↔ ∃ a, x = .ok a ∧ f a = .ok b := by
  cases x with
  | ok a => exact ⟨fun h => ⟨a, rfl, h⟩, fun ⟨_, ha, h⟩ => Except.ok.inj ha ▸ h⟩
  | error e =>
    constructor
    · intro h
      cases h
    · rintro ⟨_, ha, _⟩
      cases ha

/-- What every step keeps, a run keeps. -/
theorem foldlM_preserves_of_mem {ε α β : Type} {P : β → Prop} {f : β → α → Except ε β} :
    ∀ {as : List α} {b b' : β}, (∀ b a b', a ∈ as → P b → f b a = .ok b' → P b') → P b →
      as.foldlM f b = .ok b' → P b'
  | [], b, b', _, hb, h => Except.ok.inj h ▸ hb
  | a :: as, b, b', hstep, hb, h => by
    rw [List.foldlM_cons, Except.bind_eq_ok] at h
    obtain ⟨c, hc, h⟩ := h
    exact foldlM_preserves_of_mem (fun b a b' ha => hstep b a b' (List.mem_cons_of_mem _ ha))
      (hstep b a c List.mem_cons_self hb hc) h

/-- What each step preserves, all of them do. -/
theorem foldlM_preserves {ε α β : Type} {P : β → Prop} {f : β → α → Except ε β}
    (hstep : ∀ b a b', P b → f b a = .ok b' → P b') {as : List α} {b b' : β} (hb : P b)
    (h : as.foldlM f b = .ok b') : P b' :=
  foldlM_preserves_of_mem (fun b a b' _ => hstep b a b') hb h

namespace Graph

variable {lib : Library} {g g' : Graph}

@[simp] theorem nodes_push (g : Graph) (n : Node) : (g.push n).nodes = g.nodes ++ [n] := rfl

@[simp] theorem nodes_modify (g : Graph) (i : Nat) (f : Node → Node) :
    (g.modify i f).nodes = g.nodes.modify i f := by
  cases i <;> rfl

/-! ## One reference -/

/-- Follows one reference of module `i`, whose script is that of `r`. -/
def follow (lib : Library) (n : Nat) (stack : List String) (i : Nat) (r : Resource) (g : Graph)
    (ref : Reference × Kind) : Except BuildError Graph := do
  let path ← target lib r.path ref.1
  match g.find? path with
  | some j =>
    if path ∈ stack then
      throw { target := r.path, range := ref.1.span, cause := .circular r.path path }
    return g.connect i ref.2 ref.1.path j
  | none =>
    let child ← resource lib path
    let g' ← walk lib n (path :: stack) g.size child (g.push (.ofResource child ref.2))
    return g'.connect i ref.2 ref.1.path g.size

/-- A walk follows the references one by one, and then notes what is injected. -/
theorem walk_succ (n : Nat) (stack : List String) (i : Nat) (r : Resource) (g : Graph) :
    walk lib (n + 1) stack i r g = (do
      let g ← (references r.script).foldlM (follow lib n stack i r) g
      let injections ← r.script.mentions.injects.mapM (injection lib r.path)
      let natives := r.script.mentions.natives.filterMap (native? lib r.path)
      return g.modify i fun n => { n with injections, natives }) := rfl

/-- A reference that is found is resolved. -/
theorem target_eq_ok {base path : String} {reference : Reference}
    (h : target lib base reference = .ok path) : lib.resolved? base reference.path = some path := by
  unfold target at h
  split at h
  · rename_i found hfound
    rw [hfound, Except.ok.inj h]
  · cases h

/-- A module that is found is held. -/
theorem resource_eq_ok {path : String} {r : Resource} (h : resource lib path = .ok r) :
    lib.resource? path = some r := by
  unfold resource at h
  split at h
  · rename_i found hfound
    rw [hfound, Except.ok.inj h]
  · cases h

/-- A reference that can be followed leads to a module that was met, or to a new one that is entered. -/
theorem follow_eq_ok {n i : Nat} {stack : List String} {r : Resource} {ref : Reference × Kind}
    (h : follow lib n stack i r g ref = .ok g') :
    ∃ path, lib.resolved? r.path ref.1.path = some path ∧
      ((∃ j, g.find? path = some j ∧ path ∉ stack ∧ g' = g.connect i ref.2 ref.1.path j) ∨
        (g.find? path = none ∧ ∃ child h, lib.resource? path = some child ∧
          walk lib n (path :: stack) g.size child (g.push (.ofResource child ref.2)) = .ok h ∧
          g' = h.connect i ref.2 ref.1.path g.size)) := by
  obtain ⟨path, hpath, h⟩ := Except.bind_eq_ok.mp h
  refine ⟨path, target_eq_ok hpath, ?_⟩
  split at h
  · rename_i j hj
    by_cases hstack : path ∈ stack
    · rw [if_pos hstack] at h
      cases h
    · rw [if_neg hstack] at h
      exact .inl ⟨j, hj, hstack, (Except.ok.inj h).symm⟩
  · rename_i hnone
    obtain ⟨child, hchild, h⟩ := Except.bind_eq_ok.mp h
    obtain ⟨h', hwalk, h⟩ := Except.bind_eq_ok.mp h
    exact .inr ⟨hnone, child, h', resource_eq_ok hchild, hwalk, (Except.ok.inj h).symm⟩

/-- What adding a module, noting a reference and noting injections keep, a walk keeps. -/
theorem walk_preserves {P : Graph → Prop}
    (hpush : ∀ g path child kind, P g → lib.resource? path = some child →
      P (g.push (.ofResource child kind)))
    (hconnect : ∀ (g : Graph) i kind reference j, P g → P (g.connect i kind reference j))
    (hnote : ∀ (g : Graph) i injections natives, P g →
      P (g.modify i fun n => { n with injections, natives })) :
    ∀ {n : Nat} {stack : List String} {i : Nat} {r : Resource} {g g' : Graph},
      P g → walk lib n stack i r g = .ok g' → P g'
  | 0, _, _, _, g, g', hg, h => Except.ok.inj h ▸ hg
  | n + 1, stack, i, r, g, g', hg, h => by
    rw [walk_succ] at h
    obtain ⟨g₁, hfold, h⟩ := Except.bind_eq_ok.mp h
    obtain ⟨injections, -, h⟩ := Except.bind_eq_ok.mp h
    rw [← Except.ok.inj h]
    refine hnote g₁ i _ _ (foldlM_preserves (fun g ref g' hg hfollow => ?_) hg hfold)
    obtain ⟨path, -, ⟨j, -, -, rfl⟩ | ⟨-, child, g₂, hchild, hwalk, rfl⟩⟩ := follow_eq_ok hfollow
    · exact hconnect g i _ _ j hg
    · exact hconnect g₂ i _ _ _
        (walk_preserves hpush hconnect hnote (hpush g path child _ hg hchild) hwalk)

/-! ## The modules of a graph are files that are loaded -/

/-- A module of a graph is that of a file that is loaded. -/
def Node.FromFile (lib : Library) (n : Node) : Prop :=
  ∃ path r, lib.resource? path = some r ∧ n.path = r.path ∧ n.script = r.script

/-- A change that leaves paths and scripts keeps what modules are. -/
theorem fromFile_modify {i : Nat} {f : Node → Node} (hf : ∀ n, (f n).path = n.path ∧
    (f n).script = n.script) (hg : ∀ n ∈ g.nodes, n.FromFile lib) :
    ∀ n ∈ (g.modify i f).nodes, n.FromFile lib := by
  intro n hn
  rw [nodes_modify] at hn
  obtain ⟨j, hj⟩ := List.mem_iff_getElem?.mp hn
  rw [List.getElem?_modify, Option.map_eq_map, Option.map_eq_some_iff] at hj
  obtain ⟨m, hm, rfl⟩ := hj
  obtain ⟨path, r, hr, hpath, hscript⟩ := hg m (List.mem_of_getElem? hm)
  split
  · exact ⟨path, r, hr, (hf m).1.trans hpath, (hf m).2.trans hscript⟩
  · exact ⟨path, r, hr, hpath, hscript⟩

/-- **Every module of a graph is that of a file that is loaded.** -/
theorem fromFile_of_resolve {entry : String} (h : resolve lib entry = .ok g) :
    ∀ n ∈ g.nodes, n.FromFile lib := by
  obtain ⟨r, hr, h⟩ := Except.bind_eq_ok.mp h
  refine walk_preserves (P := fun g => ∀ n ∈ g.nodes, n.FromFile lib)
    (fun g path child kind hg hchild n hn => ?_) (fun g i kind reference j hg => ?_)
    (fun g i _ _ hg => ?_) (fun n hn => ?_) h
  · rw [nodes_push] at hn
    rcases List.mem_append.mp hn with hn | hn
    · exact hg n hn
    · rw [List.mem_singleton.mp hn]
      exact ⟨path, child, hchild, rfl, rfl⟩
  · cases kind with
    | import_ => exact fromFile_modify (fun _ => ⟨rfl, rfl⟩) (fromFile_modify (fun _ => ⟨rfl, rfl⟩) hg)
    | main | include_ => exact fromFile_modify (fun _ => ⟨rfl, rfl⟩) hg
  · exact fromFile_modify (fun _ => ⟨rfl, rfl⟩) hg
  · rw [List.mem_singleton.mp hn]
    exact ⟨entry, r, resource_eq_ok hr, rfl, rfl⟩

end Graph

end ScriptBundler

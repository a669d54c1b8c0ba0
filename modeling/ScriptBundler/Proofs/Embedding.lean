import ScriptBundler.Proofs.Inclusion
import ScriptBundler.Proofs.Ledger
import ScriptBundler.Proofs.Linking

/-!
# Proofs/Embedding — the modules that are put in place of includes

The text of a module of a graph holds the modules that includes lead to from it, each once, as far as the
includes stand on lines of their own (`Graph.inlined_iff`).  The reformatter gives every statement a
line, so there these are all includes (`Script.mem_lines`); elsewhere an include that is the statement of
an `if` on one line leaves nothing behind.
-/

namespace ScriptBundler

open scoped List

/-! ## Reformatting gives every statement a line -/

/-- The statements among `ns` are among `ss`, or get a line in a node of `ns` when reformatted. -/
def Lined (ns : List Node) (ss : List Stmt) : Prop :=
  ∀ s, .stmt s ∈ ns → s ∈ ss ∨ s ∈ ns.flatMap (Node.lines .reformatted)

namespace Lined

variable {ns ns' : List Node} {ss ss' : List Stmt}

protected theorem nil : Lined [] [] := fun _ h => absurd h List.not_mem_nil

/-- Statements of two lists of nodes. -/
theorem append (h : Lined ns ss) (h' : Lined ns' ss') : Lined (ns ++ ns') (ss ++ ss') := by
  intro s hs
  rw [List.flatMap_append, List.mem_append, List.mem_append]
  rcases List.mem_append.mp hs with hs | hs
  · exact (h s hs).imp .inl .inl
  · exact (h' s hs).imp .inr .inr

/-- The statements of a node that is none itself get their lines in it. -/
theorem node {n : Node} (h : Lined ns ss) (hn : ∀ s, n ≠ .stmt s) (hss : ss ⊆ n.lines .reformatted) :
    Lined (n :: ns) [] := by
  intro s hs
  rw [List.flatMap_cons, List.mem_append]
  rcases List.mem_cons.mp hs with hs | hs
  · exact absurd hs.symm (hn s)
  · exact .inr ((h s hs).imp (@hss s) id)

/-- An expression with the statements in it. -/
theorem expr {e : Expr.Form} {span : Span} {cs : Comments} (h : Lined e.nodes ss)
    (hss : ss ⊆ Node.lines .reformatted (.expr ⟨e, span, cs⟩)) : Lined (Expr.nodes ⟨e, span, cs⟩) [] :=
  h.node nofun hss

/-- The statements of a statement get their lines in it. -/
theorem stmt {form : Stmt.Form} {span : Span} (h : Lined form.nodes ss)
    (hss : ss ⊆ Node.lines .reformatted (.stmt ⟨form, span⟩)) :
    Lined (Stmt.nodes ⟨form, span⟩) [⟨form, span⟩] := by
  intro s hs
  rw [Stmt.nodes, List.flatMap_cons, List.mem_append]
  rcases List.mem_cons.mp hs with hs | hs
  · exact .inl (List.mem_singleton.mpr (Node.stmt.inj hs))
  · exact .inr ((h s hs).imp (@hss s) id)

/-- Expressions one after another. -/
theorem exprs {es : List Expr} (h : ∀ e ∈ es, Lined e.nodes []) : Lined (Expr.allNodes es) [] := by
  induction es with
  | nil => exact .nil
  | cons e es ih =>
    obtain ⟨he, hes⟩ := List.forall_mem_cons.mp h
    exact he.append (ih hes)

theorem expr? {e : Option Expr} (h : ∀ a ∈ e, Lined a.nodes []) : Lined (Expr.nodes? e) [] := by
  cases e with
  | none => exact .nil
  | some e => exact h e rfl

theorem entries {es : List Entry} (h : ∀ a ∈ es, Lined a.key.nodes [] ∧ Lined a.value.nodes []) :
    Lined (Entry.allNodes es) [] := by
  induction es with
  | nil => exact .nil
  | cons e es ih =>
    obtain ⟨key, value, span, cs⟩ := e
    obtain ⟨⟨hkey, hvalue⟩, hes⟩ := List.forall_mem_cons.mp h
    exact (hkey.append hvalue).append (ih hes)

/-- Parameters one after another. -/
theorem params {ps : List Param} (h : ∀ p ∈ ps, ∀ e ∈ p.default, Lined e.nodes []) :
    Lined (Param.allNodes ps) [] := by
  induction ps with
  | nil => exact .nil
  | cons p ps ih =>
    obtain ⟨name, value, span, cs⟩ := p
    obtain ⟨hp, hps⟩ := List.forall_mem_cons.mp h
    exact ((expr? hp).append (ih hps)).node nofun (List.nil_subset _)

/-- Statements one after another. -/
theorem stmts {ts : List Stmt} (h : ∀ s ∈ ts, Lined s.nodes [s]) : Lined (Stmt.allNodes ts) ts := by
  induction ts with
  | nil => exact .nil
  | cons t ts ih =>
    obtain ⟨ht, hts⟩ := List.forall_mem_cons.mp h
    exact ht.append (ih hts)

theorem block {b : Block} (h : ∀ s ∈ b.stmts, Lined s.nodes [s]) : Lined b.nodes b.stmts := by
  obtain ⟨ts, span⟩ := b
  exact stmts h

/-- Branches one after another. -/
theorem clauses {cs : List Clause}
    (h : ∀ c ∈ cs, Lined c.condition.nodes [] ∧ ∀ s ∈ c.body.stmts, Lined s.nodes [s]) :
    Lined (Clause.allNodes cs) (cs.flatMap (·.body.stmts)) := by
  induction cs with
  | nil => exact .nil
  | cons c cs ih =>
    obtain ⟨condition, body, span⟩ := c
    obtain ⟨⟨hcondition, hbody⟩, hcs⟩ := List.forall_mem_cons.mp h
    exact (hcondition.append (block hbody)).append (ih hcs)

theorem block? {b : Option Block} (h : ∀ a ∈ b, ∀ s ∈ a.stmts, Lined s.nodes [s]) :
    Lined (Block.nodes? b) (b.toList.flatMap (·.stmts)) := by
  cases b with
  | none => exact .nil
  | some b =>
    rw [Option.toList_some, List.flatMap_singleton]
    exact block (h b rfl)

end Lined

/-- **Every statement has a line**: one case for each constructor. -/
theorem inductive_lined : Inductive (fun e => Lined e.nodes []) (fun s => Lined s.nodes [s]) where
  literal l span cs := .expr .nil (List.nil_subset _)
  list es span cs hes := .expr (.exprs hes) (List.nil_subset _)
  map es span cs hes := .expr (.entries hes) (List.nil_subset _)
  identifier x span cs := .expr .nil (List.nil_subset _)
  member b x span cs hb := .expr hb (List.nil_subset _)
  index b i span cs hb hi := .expr (hb.append hi) (List.nil_subset _)
  slice b i j span cs hb hi hj := .expr ((hb.append (.expr? hi)).append (.expr? hj)) (List.nil_subset _)
  call c es span cs hc hes := .expr (hc.append (.exprs hes)) (List.nil_subset _)
  binary op l r span cs hl hr := .expr (hl.append hr) (List.nil_subset _)
  unary op e span cs he := .expr he (List.nil_subset _)
  function ps b span cs hps hb := .expr ((Lined.params hps).append (.block hb)) (List.Subset.refl _)
  paren e span cs he := .expr he (List.nil_subset _)
  directive d span cs := .expr .nil (List.nil_subset _)
  assign op target value span ht hv := .stmt (ht.append hv) (List.nil_subset _)
  expr e span he _ := .stmt he (List.nil_subset _)
  return_ value span hv := .stmt (.expr? hv) (List.nil_subset _)
  break_ span := .stmt .nil (List.nil_subset _)
  continue_ span := .stmt .nil (List.nil_subset _)
  if_ cs last inline span hcs hlast :=
    .stmt ((Lined.clauses hcs).append (.block? hlast)) (by simp [Node.lines])
  while_ c b span hc hb := .stmt (hc.append (.block hb)) (List.Subset.refl _)
  for_ item e b span he hb := .stmt (he.append (.block hb)) (List.Subset.refl _)
  comment t span := .stmt .nil (List.nil_subset _)
  mark d span := .stmt .nil (List.nil_subset _)

/-- In reformatted text every statement has a line of its own. -/
theorem Script.mem_lines {script : Script} {s : Stmt} (h : .stmt s ∈ script.nodes) :
    s ∈ script.lines .reformatted :=
  List.mem_append.mpr (Lined.stmts (inductive_lined.stmts script.body) s h)

/-! ## What a module asks for -/

namespace Scene

variable {scene : Scene} {m : Module}

/-- Which modules statements ask for. -/
theorem mem_allDemands {ss : List Stmt} {j : Nat} : .module j ∈ scene.allDemands ss ↔
    ∃ s ∈ ss ++ (Stmt.allNodes ss).flatMap (Node.lines scene.settings.mode),
      scene.included? s = some j := by
  rw [(scene.perm_allDemands ss).mem_iff]
  simp only [demands, demand, List.mem_append, List.mem_map, List.mem_filterMap, List.mem_flatMap,
    Demand.module.injEq, exists_eq_right, reduceCtorEq, and_false, exists_false, or_false]
  constructor
  · rintro (⟨s, hs, hj⟩ | ⟨n, hn, s, hs, hj⟩)
    · exact ⟨s, .inl hs, hj⟩
    · exact ⟨s, .inr ⟨n, hn, hs⟩, hj⟩
  · rintro ⟨s, hs | ⟨n, hn, hs⟩, hj⟩
    · exact .inl ⟨s, hs, hj⟩
    · exact .inr ⟨n, hn, s, hs, hj⟩

/-- A module leads to those that its lines include. -/
theorem leads_iff {i j : Nat} : scene.Leads i j ↔ ∃ m, scene.modules[i]? = some m ∧
    ∃ s ∈ m.script.lines scene.settings.mode, (scene.inside m).included? s = some j := by
  cases hi : scene.modules[i]? with
  | none => simp [Leads, wants, hi]
  | some m =>
    rw [Leads, wants_of_getElem? hi, mem_allDemands]
    simp [Script.lines, Script.nodes]

/-- What an include of a module stands for. -/
theorem included?_eq_some (hdev : scene.settings.devMode = false) {s : Stmt} {j : Nat} :
    (scene.inside m).included? s = some j ↔ ∃ path, s.form = .directive (.include_ path) ∧
      m.includes.lookup path = some j ∧ j < scene.modules.length := by
  obtain ⟨form, span⟩ := s
  constructor
  · intro h
    cases form with
    | directive d =>
      cases d with
      | include_ path =>
        obtain ⟨p, hp, rfl⟩ := Option.map_eq_some_iff.mp h
        obtain ⟨hlookup, hget⟩ := Module.target?_eq_some.mp (include?_inside hdev path ▸ hp)
        exact ⟨path, rfl, hlookup, (List.getElem?_eq_some_iff.mp hget).1⟩
      | _ => cases h
    | _ => cases h
  · rintro ⟨path, hform, hlookup, hj⟩
    obtain rfl : form = _ := hform
    have htarget : Module.target? scene.modules m.includes path = some (j, scene.modules[j]) :=
      Module.target?_eq_some.mpr ⟨hlookup, List.getElem?_eq_getElem hj⟩
    rw [included?_include, include?_inside hdev, htarget]
    rfl

end Scene

/-- A mention of an include is made by a statement. -/
theorem exists_stmt_of_include {node : Node} {mention : Mention} {path : String}
    (h : mention ∈ node.mentions) (hpath : mention.include? = some path) :
    ∃ s, node = .stmt s ∧ s.form = .directive (.include_ path) := by
  unfold Node.mentions at h
  split at h
  · rw [List.mem_singleton.mp h] at hpath
    cases hpath
  · rename_i d _ _
    cases d with
    | inject =>
      rw [List.mem_singleton.mp h] at hpath
      cases hpath
    | _ => cases h
  · rw [List.mem_singleton.mp h] at hpath
    cases hpath
  · rw [List.mem_singleton.mp h] at hpath
    cases hpath
  · rename_i d span
    cases d with
    | import_ name path' =>
      rcases List.mem_cons.mp h with rfl | h
      · cases hpath
      · rw [List.mem_singleton.mp h] at hpath
        cases hpath
    | include_ path' =>
      rw [List.mem_singleton.mp h] at hpath
      cases hpath
      exact ⟨_, rfl, rfl⟩
    | debugger => cases h
  · cases h

/-! ## Includes of a graph -/

namespace Graph

variable {lib : Library} {g g' : Graph}

/-- An include of module `a` stands for module `b`. -/
def Includes (g : Graph) (a b : Nat) : Prop :=
  ∃ n, g.nodes[a]? = some n ∧ ∃ reference, (reference, b) ∈ n.includes

/-- An include of module `a` that stands on a line of its own stands for module `b`. -/
def Inlines (g : Graph) (mode : Mode) (a b : Nat) : Prop :=
  ∃ n, g.nodes[a]? = some n ∧ ∃ reference, (reference, b) ∈ n.includes ∧
    ∃ s ∈ n.script.lines mode, s.form = .directive (.include_ reference)

/-- What the includes of modules are noted for is written in their scripts. -/
def Cited (g : Graph) : Prop :=
  ∀ n ∈ g.nodes, ∀ e ∈ n.includes, e.1 ∈ n.script.mentions.includes.map Reference.path

/-- The modules of `g` are in `g'` under their numbers, with their scripts. -/
def Keeps (g g' : Graph) : Prop :=
  ∀ (k : Nat) (n : Node), g.nodes[k]? = some n → ∃ n' : Node, g'.nodes[k]? = some n' ∧ n'.script = n.script

theorem Keeps.trans {g₁ : Graph} (h : Keeps g g₁) (h' : Keeps g₁ g') : Keeps g g' := by
  intro k n hn
  obtain ⟨n₁, hn₁, hscript₁⟩ := h k n hn
  obtain ⟨n', hn', hscript'⟩ := h' k n₁ hn₁
  exact ⟨n', hn', hscript'.trans hscript₁⟩

/-- A new edge keeps what was there. -/
theorem Keeps.connect (g : Graph) (i : Nat) (kind : Kind) (reference : String) (j : Nat) :
    Keeps g (g.connect i kind reference j) := by
  intro k n hn
  have hget := getElem?_connect g i kind reference j k
  rw [hn] at hget
  exact ⟨_, hget, rfl⟩

/-- A new module keeps what was there. -/
theorem Keeps.push (g : Graph) (n : Node) : Keeps g (g.push n) := by
  intro k m hm
  refine ⟨m, ?_, rfl⟩
  rw [nodes_push, List.getElem?_append_left (List.getElem?_eq_some_iff.mp hm).1, hm]

/-- What is injected and loaded is noted beside the script and the includes. -/
theorem exists_note (g : Graph) (i : Nat) (injections natives : List (String × String)) (k : Nat) :
    ∃ f : Node → Node, (g.modify i fun n => { n with injections, natives }).nodes[k]? = g.nodes[k]?.map f ∧
      ∀ n, (f n).script = n.script ∧ (f n).includes = n.includes := by
  refine ⟨fun n => if i = k then { n with injections, natives } else n, ?_, fun n => ?_⟩
  · rw [nodes_modify, List.getElem?_modify]
    rfl
  · dsimp only
    split <;> exact ⟨rfl, rfl⟩

theorem Keeps.note (g : Graph) (i : Nat) (injections natives : List (String × String)) :
    Keeps g (g.modify i fun n => { n with injections, natives }) := by
  intro k n hn
  obtain ⟨f, hget, hf⟩ := exists_note g i injections natives k
  rw [hn] at hget
  exact ⟨f n, hget, (hf n).1⟩

namespace Cited

/-- A new module has no includes yet. -/
theorem push (h : Cited g) (child : Resource) (kind : Kind) :
    Cited (g.push (.ofResource child kind)) := by
  intro n hn e he
  rw [nodes_push] at hn
  rcases List.mem_append.mp hn with hn | hn
  · exact h n hn e he
  · rw [List.mem_singleton.mp hn] at he
    cases he

/-- Noting a reference that is written in the script of module `i`. -/
theorem connect {i : Nat} {m : Node} (h : Cited g) (hi : g.nodes[i]? = some m) {ref : Reference × Kind}
    (href : ref ∈ references m.script) (j : Nat) : Cited (g.connect i ref.2 ref.1.path j) := by
  intro n hn e he
  obtain ⟨k, hk⟩ := List.mem_iff_getElem?.mp hn
  rw [getElem?_connect] at hk
  obtain ⟨n₀, hn₀, rfl⟩ := Option.map_eq_some_iff.mp hk
  rcases List.mem_append.mp he with he | hadded
  · exact h n₀ (List.mem_of_getElem? hn₀) e he
  · split at hadded
    · rename_i hik
      obtain rfl : m = n₀ := Option.some.inj (hi.symm.trans (hik.1 ▸ hn₀))
      rw [List.mem_singleton.mp hadded]
      have hkind := hik.2
      rcases mem_references.mp href with ⟨-, himport⟩ | ⟨hinclude, -⟩
      · rw [himport] at hkind
        cases hkind
      · exact List.mem_map_of_mem hinclude
    · cases hadded

theorem note (h : Cited g) (i : Nat) (injections natives : List (String × String)) :
    Cited (g.modify i fun n => { n with injections, natives }) := by
  intro n hn e he
  obtain ⟨k, hk⟩ := List.mem_iff_getElem?.mp hn
  obtain ⟨f, hget, hf⟩ := exists_note g i injections natives k
  obtain ⟨n₀, hn₀, rfl⟩ := Option.map_eq_some_iff.mp (hget ▸ hk)
  rw [(hf n₀).2] at he
  rw [(hf n₀).1]
  exact h n₀ (List.mem_of_getElem? hn₀) e he

end Cited

/-- A walk notes what is written.  The induction is on the bound; module `i` keeps its script while
others are walked from. -/
theorem walk_cited : ∀ {n : Nat} {stack : List String} {i : Nat} {r : Resource} {g g' : Graph} {m : Node},
    Cited g → g.nodes[i]? = some m → m.script = r.script → walk lib n stack i r g = .ok g' →
      Cited g' ∧ Keeps g g'
  | 0, _, _, _, g, g', _, hg, _, _, h => by
    obtain rfl := Except.ok.inj h
    exact ⟨hg, fun k n hn => ⟨n, hn, rfl⟩⟩
  | n + 1, stack, i, r, g, g', m, hg, hi, hm, h => by
    rw [walk_succ] at h
    obtain ⟨g₁, hfold, h⟩ := Except.bind_eq_ok.mp h
    obtain ⟨injections, -, h⟩ := Except.bind_eq_ok.mp h
    rw [← Except.ok.inj h]
    have hrun : Cited g₁ ∧ Keeps g g₁ := by
      refine foldlM_preserves_of_mem (P := fun g' => Cited g' ∧ Keeps g g')
        (fun g₂ ref g₃ href hg₂ hfollow => ?_) ⟨hg, fun k n hn => ⟨n, hn, rfl⟩⟩ hfold
      obtain ⟨hcited, hkeeps⟩ := hg₂
      obtain ⟨m₂, hi₂, hm₂⟩ := hkeeps i m hi
      obtain ⟨path, -, ⟨j, -, -, rfl⟩ | ⟨-, child, g₄, -, hwalk, rfl⟩⟩ := follow_eq_ok hfollow
      · exact ⟨hcited.connect hi₂ (by rwa [hm₂, hm]) j, hkeeps.trans (.connect _ _ _ _ _)⟩
      · obtain ⟨hcited₄, hkeeps₄⟩ := walk_cited (hcited.push child ref.2) (getElem?_push g₂ _) rfl hwalk
        have hkeeps' : Keeps g g₄ := (hkeeps.trans (.push _ _)).trans hkeeps₄
        obtain ⟨m₄, hi₄, hm₄⟩ := hkeeps' i m hi
        exact ⟨hcited₄.connect hi₄ (by rwa [hm₄, hm]) _, hkeeps'.trans (.connect _ _ _ _ _)⟩
    exact ⟨hrun.1.note i _ _, hrun.2.trans (.note _ _ _ _)⟩

/-- Includes that were followed are written in the scripts. -/
theorem cited_of_resolve {entry : String} (h : resolve lib entry = .ok g) : Cited g := by
  obtain ⟨r, -, h⟩ := Except.bind_eq_ok.mp h
  have hstart : Cited (single r) := by
    intro n hn e he
    rw [List.mem_singleton.mp hn] at he
    cases he
  exact (walk_cited hstart rfl rfl h).1

/-- In a graph that was resolved, a reference stands for one module. -/
theorem lookup_includes {entry : String} (hkeyed : lib.Keyed) (h : resolve lib entry = .ok g) {n : Node}
    (hn : n ∈ g.nodes) {reference : String} {j : Nat} :
    n.includes.lookup reference = some j ↔ (reference, j) ∈ n.includes := by
  obtain ⟨hexploring, -, -⟩ := exploring_of_resolve hkeyed h
  refine ⟨mem_of_lookup, fun hj => ?_⟩
  obtain ⟨k, hk, hfound⟩ := exists_lookup (List.mem_map_of_mem hj)
  -- Both lead to the module at one path.
  obtain ⟨m, hm, hpath, -⟩ := hexploring.meant n hn false _ hj
  obtain ⟨m', hm', hpath', -⟩ := hexploring.meant n hn false _ hfound
  have hsame : m'.path = m.path := Option.some.inj (hpath'.symm.trans hpath)
  exact hk.trans (congrArg some
    (getElem?_paths_inj hexploring.nodup (getElem?_paths hm' hsame) (getElem?_paths hm rfl)))

/-- Modules of a graph that was resolved ask for the modules that their includes on lines stand for. -/
theorem leads_iff {entry : String} (hkeyed : lib.Keyed) (h : resolve lib entry = .ok g) {n : Naming}
    (hdev : n.settings.devMode = false) {a b : Nat} :
    Scene.Leads { naming := n, modules := g.modules } a b ↔ g.Inlines n.settings.mode a b := by
  have hscene : ({ naming := n, modules := g.modules } : Scene).settings.devMode = false := hdev
  rw [Scene.leads_iff, Inlines]
  constructor
  · rintro ⟨m, hm, s, hs, hj⟩
    obtain ⟨node, hnode, rfl⟩ := Option.map_eq_some_iff.mp (List.getElem?_map .. ▸ hm)
    obtain ⟨path, hform, hlookup, -⟩ := (Scene.included?_eq_some hscene).mp hj
    exact ⟨node, hnode, path, (lookup_includes hkeyed h (List.mem_of_getElem? hnode)).mp hlookup, s, hs, hform⟩
  · rintro ⟨node, hnode, path, hedge, s, hs, hform⟩
    obtain ⟨hexploring, -, -⟩ := exploring_of_resolve hkeyed h
    obtain ⟨t, ht, -⟩ := hexploring.meant node (List.mem_of_getElem? hnode) false _ hedge
    refine ⟨node.toModule, by rw [modules, List.getElem?_map, hnode]; rfl, s, hs,
      (Scene.included?_eq_some hscene).mpr ⟨path, hform, ?_, ?_⟩⟩
    · exact (lookup_includes hkeyed h (List.mem_of_getElem? hnode)).mpr hedge
    · rw [modules, List.length_map]
      exact (List.getElem?_eq_some_iff.mp ht).1

/-- When reformatted, all includes of a graph stand on lines. -/
theorem inlines_reformatted {files : Files} {entry : String} (hlib : lib.Reached files)
    (h : resolve lib entry = .ok g) {a b : Nat} : g.Inlines .reformatted a b ↔ g.Includes a b := by
  constructor
  · rintro ⟨n, hn, reference, hedge, -⟩
    exact ⟨n, hn, reference, hedge⟩
  · rintro ⟨n, hn, reference, hedge⟩
    have hmem := List.mem_of_getElem? hn
    obtain ⟨source, hparse⟩ := parsed_of_resolve hlib h n.toModule (List.mem_map_of_mem hmem)
    have hpath := cited_of_resolve h n hmem _ hedge
    rw [(Source.paths_of_parse hparse).2.1] at hpath
    obtain ⟨mention, hmention, hinclude⟩ := List.mem_filterMap.mp hpath
    obtain ⟨node, hnode, hmention⟩ := List.mem_flatMap.mp hmention
    obtain ⟨s, rfl, hform⟩ := exists_stmt_of_include hmention hinclude
    exact ⟨n, hn, reference, hedge, s, Script.mem_lines hnode, hform⟩

/-- **The modules put into the text of a module** of a graph, as an entry or registered, are those that
includes on lines of their own lead to from it, each once, with all its statements.  When reformatted
these are all includes. -/
theorem inlined_iff {files : Files} {entry : String} (hlib : lib.Reached files)
    (hg : resolve lib entry = .ok g) {n : Naming} (hdev : n.settings.devMode = false) {i : Nat} {m : Module}
    (hm : g.modules[i]? = some m) {w : Write Layout}
    (hw : Scene.IsChunk { naming := n, modules := g.modules } m w) {l : Layout} {inlined : List Nat}
    (hrun : w [] = .ok (l, inlined)) :
    (∀ j, j ∈ inlined ↔ Relation.TransGen (g.Inlines n.settings.mode) i j) ∧ inlined.Nodup ∧
      (∀ j ∈ inlined, ∃ k, Scene.Puts { naming := n, modules := g.modules } j k ∧ k <+ l) ∧
      (n.settings.mode = .reformatted → ∀ j, j ∈ inlined ↔ Relation.TransGen g.Includes i j) := by
  have hgathers := hw.gathers hrun
  have hleads : Scene.Leads { naming := n, modules := g.modules } = g.Inlines n.settings.mode :=
    funext fun a => funext fun b => propext (leads_iff hlib.keyed hg hdev)
  have hmem : ∀ j, j ∈ inlined ↔ Relation.TransGen (g.Inlines n.settings.mode) i j := by
    intro j
    rw [hgathers.mem_iff, ← hleads, Relation.TransGen.head'_iff, ← Scene.wants_of_getElem? hm]
    rfl
  refine ⟨hmem, by simpa using hgathers.nodup, hgathers.bodies, fun hmode j => ?_⟩
  have hincludes : g.Inlines n.settings.mode = g.Includes := by
    rw [hmode]
    exact funext fun a => funext fun b => propext (inlines_reformatted hlib hg)
  rw [hmem, hincludes]

/-- An include on a line of its own, of a file that includes another on the line of an `if`. -/
def oneLined : Files where
  texts := [("a.src", "#include \"b\""), ("b.src", "if x then #include \"c\""), ("c.src", "y=1")]

theorem inlined_iff_oneLined : ∃ g l,
    resolve (Library.load oneLined {} "a.src").2 "a.src" = .ok g ∧ g.size = 3 ∧
    Scene.script ⟨Bundle.naming {} id g none, g.modules, g.entry.toModule⟩ g.entry.script [] =
      .ok (l, [1]) ∧
    Relation.TransGen (g.Inlines .verbatim) 0 1 ∧ ¬ Relation.TransGen (g.Inlines .verbatim) 0 2 := by
  have hsome : ((resolve (Library.load oneLined {} "a.src").2 "a.src").toOption.bind fun g =>
      (Scene.script ⟨Bundle.naming {} id g none, g.modules, g.entry.toModule⟩ g.entry.script
        []).toOption.map fun p => (g.size, p.2)) = some (3, [1]) := by decide +kernel
  obtain ⟨g, hresolve, hsome⟩ := Option.bind_eq_some_iff.mp hsome
  obtain ⟨⟨l, inlined⟩, hscript, hpair⟩ := Option.map_eq_some_iff.mp hsome
  obtain ⟨hsize, rfl⟩ := Prod.mk.inj hpair
  have hresolve := Except.toOption_eq_some hresolve
  have hscript := Except.toOption_eq_some hscript
  have hsettings := Bundle.settings_naming {} id g none
  have hdev : (Bundle.naming {} id g none).settings.devMode = false := by rw [hsettings]
  obtain ⟨hmem, -⟩ := inlined_iff (.load "a.src" (.empty false)) hresolve hdev (i := 0) rfl
    (.inl rfl) hscript
  rw [hsettings] at hmem
  exact ⟨g, l, hresolve, hsize, hscript, (hmem 1).mp (by decide), fun h =>
    absurd ((hmem 2).mpr h) (by decide)⟩

end Graph

end ScriptBundler

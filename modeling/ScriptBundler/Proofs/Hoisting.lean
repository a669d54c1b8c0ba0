import ScriptBundler.Proofs.Twins

/-!
# Proofs/Hoisting — writing constants once is sound

Constants that recur can be written once, in lines in front of an output.  The rest of the output is
then one template with the output that has all constants where they occur: each gap is filled by a
slot that one of the lines defines as the same constant.  What is given to a call, and what parameters
have by default, has no gaps.
-/

namespace ScriptBundler

open Layout (text intercalate Alike)

/-! ## Nodes of proper trees -/

/-- A node as it is read from a text. -/
def Node.Proper (S : Stock) : Node → Prop
  | .expr e => e.Proper S
  | .param p => p.Proper S
  | .stmt s => s.Proper S

section Nodes

variable {S : Stock}

/-- The nodes of proper expressions are proper. -/
theorem Expr.proper_allNodes {es : List Expr}
    (hes : ∀ e ∈ es, e.Proper S → ∀ n ∈ e.nodes, n.Proper S) (h : Expr.AllProper S es) :
    ∀ n ∈ Expr.allNodes es, n.Proper S := by
  induction es with
  | nil => simp [Expr.allNodes]
  | cons e es ih =>
    obtain ⟨he, hes⟩ := List.forall_mem_cons.mp hes
    exact List.forall_mem_append.mpr ⟨he h.1, ih hes h.2⟩

theorem Expr.proper_nodes? {e : Option Expr}
    (he : ∀ a ∈ e, a.Proper S → ∀ n ∈ a.nodes, n.Proper S) (h : Expr.Proper? S e) :
    ∀ n ∈ Expr.nodes? e, n.Proper S := by
  cases e with
  | none => simp [Expr.nodes?]
  | some e => exact he e rfl h

/-- The nodes of proper statements are proper. -/
theorem Stmt.proper_allNodes {ss : List Stmt}
    (hss : ∀ s ∈ ss, s.Proper S → ∀ n ∈ s.nodes, n.Proper S) (h : Stmt.AllProper S ss) :
    ∀ n ∈ Stmt.allNodes ss, n.Proper S := by
  induction ss with
  | nil => simp [Stmt.allNodes]
  | cons s ss ih =>
    obtain ⟨hs, hss⟩ := List.forall_mem_cons.mp hss
    exact List.forall_mem_append.mpr ⟨hs h.1, ih hss h.2.2⟩

/-- The nodes of a proper block are proper. -/
theorem Block.proper_nodes {b : Block}
    (hb : ∀ s ∈ b.stmts, s.Proper S → ∀ n ∈ s.nodes, n.Proper S) (h : b.Proper S) :
    ∀ n ∈ b.nodes, n.Proper S := by
  obtain ⟨ss, span⟩ := b
  exact Stmt.proper_allNodes hb h

theorem Entry.proper_allNodes {es : List Entry}
    (hes : ∀ a ∈ es, (a.key.Proper S → ∀ n ∈ a.key.nodes, n.Proper S) ∧
      (a.value.Proper S → ∀ n ∈ a.value.nodes, n.Proper S))
    (h : Entry.AllProper S es) : ∀ n ∈ Entry.allNodes es, n.Proper S := by
  induction es with
  | nil => simp [Entry.allNodes]
  | cons e es ih =>
    obtain ⟨key, value, span, cs⟩ := e
    obtain ⟨⟨hkey, hvalue⟩, hes⟩ := List.forall_mem_cons.mp hes
    obtain ⟨⟨hkey', hvalue', -⟩, hrest⟩ := h
    exact List.forall_mem_append.mpr
      ⟨List.forall_mem_append.mpr ⟨hkey hkey', hvalue hvalue'⟩, ih hes hrest⟩

theorem Param.proper_allNodes {ps : List Param}
    (hps : ∀ p ∈ ps, ∀ e ∈ p.default, e.Proper S → ∀ n ∈ e.nodes, n.Proper S)
    (h : Param.AllProper S ps) : ∀ n ∈ Param.allNodes ps, n.Proper S := by
  induction ps with
  | nil => simp [Param.allNodes]
  | cons p ps ih =>
    obtain ⟨name, value, span, cs⟩ := p
    obtain ⟨hvalue, hps⟩ := List.forall_mem_cons.mp hps
    exact List.forall_mem_cons.mpr ⟨h.1, List.forall_mem_append.mpr
      ⟨Expr.proper_nodes? hvalue h.1.2.1, ih hps h.2⟩⟩

/-- The nodes of proper branches are proper. -/
theorem Clause.proper_allNodes {cs : List Clause}
    (hcs : ∀ c ∈ cs, (c.condition.Proper S → ∀ n ∈ c.condition.nodes, n.Proper S) ∧
      ∀ s ∈ c.body.stmts, s.Proper S → ∀ n ∈ s.nodes, n.Proper S)
    (h : Clause.AllProper S cs) : ∀ n ∈ Clause.allNodes cs, n.Proper S := by
  induction cs with
  | nil => simp [Clause.allNodes]
  | cons c cs ih =>
    obtain ⟨condition, body, span⟩ := c
    obtain ⟨⟨hcondition, hbody⟩, hcs⟩ := List.forall_mem_cons.mp hcs
    exact List.forall_mem_append.mpr ⟨List.forall_mem_append.mpr
      ⟨hcondition h.1.1, Block.proper_nodes hbody h.1.2⟩, ih hcs h.2⟩

theorem Block.proper_nodes? {b : Option Block}
    (hb : ∀ a ∈ b, ∀ s ∈ a.stmts, s.Proper S → ∀ n ∈ s.nodes, n.Proper S) (h : Block.Proper? S b) :
    ∀ n ∈ Block.nodes? b, n.Proper S := by
  cases b with
  | none => simp [Block.nodes?]
  | some b => exact Block.proper_nodes (hb b rfl) h

/-- **Every node of a proper tree is proper.** -/
theorem inductive_proper (S : Stock) :
    Inductive (fun e => e.Proper S → ∀ n ∈ e.nodes, n.Proper S)
      fun s => s.Proper S → ∀ n ∈ s.nodes, n.Proper S where
  literal l span cs h := by simpa [Expr.nodes, Expr.Form.nodes, Node.Proper] using h
  list es span cs hes h := List.forall_mem_cons.mpr ⟨h, Expr.proper_allNodes hes h.1⟩
  map es span cs hes h := List.forall_mem_cons.mpr ⟨h, Entry.proper_allNodes hes h.1⟩
  identifier x span cs h := by simpa [Expr.nodes, Expr.Form.nodes, Node.Proper] using h
  member b x span cs hb h := List.forall_mem_cons.mpr ⟨h, hb h.1.1⟩
  index b i span cs hb hi h := List.forall_mem_cons.mpr
    ⟨h, List.forall_mem_append.mpr ⟨hb h.1.1, hi h.1.2.2.1⟩⟩
  slice b i j span cs hb hi hj h := List.forall_mem_cons.mpr
    ⟨h, List.forall_mem_append.mpr ⟨List.forall_mem_append.mpr ⟨hb h.1.1,
      Expr.proper_nodes? hi h.1.2.2.1⟩, Expr.proper_nodes? hj h.1.2.2.2⟩⟩
  call c es span cs hc hes h := List.forall_mem_cons.mpr
    ⟨h, List.forall_mem_append.mpr ⟨hc h.1.1, Expr.proper_allNodes hes h.1.2.2⟩⟩
  binary op l r span cs hl hr h := List.forall_mem_cons.mpr
    ⟨h, List.forall_mem_append.mpr ⟨hl h.1.2.1, hr h.1.2.2.2.1⟩⟩
  unary op e span cs he h := List.forall_mem_cons.mpr ⟨h, he h.1.1⟩
  function ps b span cs hps hb h := List.forall_mem_cons.mpr
    ⟨h, List.forall_mem_append.mpr ⟨Param.proper_allNodes hps h.1.1, Block.proper_nodes hb h.1.2⟩⟩
  paren e span cs he h := List.forall_mem_cons.mpr ⟨h, he h.1⟩
  directive d span cs h := by simpa [Expr.nodes, Expr.Form.nodes, Node.Proper] using h
  assign op target value span ht hv h := List.forall_mem_cons.mpr
    ⟨h, List.forall_mem_append.mpr ⟨ht h.1, hv h.2.2⟩⟩
  expr e span he _ h := List.forall_mem_cons.mpr ⟨h, he h⟩
  return_ value span hv h := List.forall_mem_cons.mpr ⟨h, Expr.proper_nodes? hv h⟩
  break_ span h := by simpa [Stmt.nodes, Stmt.Form.nodes, Node.Proper] using h
  continue_ span h := by simpa [Stmt.nodes, Stmt.Form.nodes, Node.Proper] using h
  if_ cs last inline span hcs hlast h := List.forall_mem_cons.mpr
    ⟨h, List.forall_mem_append.mpr
      ⟨Clause.proper_allNodes hcs h.2.1, Block.proper_nodes? hlast h.2.2.1⟩⟩
  while_ c b span hc hb h := List.forall_mem_cons.mpr
    ⟨h, List.forall_mem_append.mpr ⟨hc h.1, Block.proper_nodes hb h.2⟩⟩
  for_ item e b span he hb h := List.forall_mem_cons.mpr
    ⟨h, List.forall_mem_append.mpr ⟨he h.2.1, Block.proper_nodes hb h.2.2⟩⟩
  comment t span h := by simpa [Stmt.nodes, Stmt.Form.nodes, Node.Proper] using h
  mark d span h := by simpa [Stmt.nodes, Stmt.Form.nodes, Node.Proper] using h

end Nodes

/-- What is read from a text is proper. -/
theorem Source.allProper_of_parse {source : Source} {script : Script} (h : source.parse = .ok script) :
    Stmt.AllProper .valid script.body :=
  (readFrom_of_parse (S := .valid) h (fun _ _ hv => hv) (fun _ _ => trivial) fun _ => trivial).proper

section Texts

variable {n n' : Naming} (hsolid : ∀ slot l, n.Gap slot l → Template.Solid slot ∧ Template.Solid l.raw)

include hsolid

end Texts

namespace Graph

/-- The parts of an output behind the constants that are written once. -/
def parts (g : Graph) (settings : Settings) (n : Naming) (runtime : Option Script) :
    Except BuildError (List String) := do
  let header ← runtime.toList.mapM fun s => Bundle.part runtimeSource.name (Scene.standalone n s)
  let bodies ← (Bundle.registered settings g).mapM fun m =>
    Bundle.part m.path (Scene.registration n g.modules (n.moduleId m.path) m)
  let entry ← Bundle.part g.entry.path (Scene.entry n g.modules g.entry.toModule)
  return header ++ bodies ++ [entry]

theorem preamble_of_not_hoists {n : Naming} (h : n.settings.hoists = false) :
    Bundle.preamble n = "" := by
  rw [Bundle.preamble, Naming.hoisted, h]
  rfl

/-- **An output is the constants that are written once, and the other parts behind them.** -/
theorem bundle_eq {g : Graph} (settings : Settings) (relocate : String → String)
    {runtime : Option Script}
    (hruntime : Bundle.runtime (Bundle.registered settings g) = .ok runtime) :
    g.bundle settings relocate =
      (fun ps => Bundle.joinParts (Bundle.separator settings.mode)
        [Bundle.preamble (Bundle.naming settings relocate g runtime),
          Bundle.joinParts (Bundle.separator settings.mode) ps]) <$>
        g.parts settings (Bundle.naming settings relocate g runtime) runtime := by
  have hlead : (if settings.devMode then "" else
      Bundle.preamble (Bundle.naming settings relocate g runtime)) =
      Bundle.preamble (Bundle.naming settings relocate g runtime) := by
    split
    · rename_i hdev
      refine (preamble_of_not_hoists ?_).symm
      rw [Bundle.naming, Naming.settings_enter]
      simp [Naming.ofSettings, Settings.hoists, hdev]
    · rfl
  have hpure : (Except.ok runtime : Except BuildError (Option Script)) = pure runtime := rfl
  simp only [Graph.bundle, parts, hruntime, hpure, pure_bind, hlead, map_bind, map_pure,
    List.cons_append, ← Bundle.joinParts_cons]

section Namings

variable {g : Graph} {runtime : Option Script}
  (hall : ∀ s ∈ runtime.toList ++ g.modules.map (·.script), ∃ source : Source, source.parse = .ok s)

include hall

/-- The constants that are counted were read from a text. -/
theorem proper_pool (settings : Settings) (relocate : String → String) :
    ∀ e ∈ (Bundle.naming settings relocate g runtime).literals.entries, e.literal.Proper .valid := by
  intro e he
  have hmem := Naming.literal_mem_enter settings relocate _ _ _ e he
  obtain ⟨s, hs, hl⟩ := List.mem_flatMap.mp hmem
  obtain ⟨source, hparse⟩ := hall s (List.mem_append_right _ hs)
  have hread := Source.readFrom_of_parse (S := .valid) hparse (fun _ _ hv => hv) (fun _ _ => trivial)
    fun _ => trivial
  exact hread.record.literals _ hl

end Namings

end Graph

end ScriptBundler

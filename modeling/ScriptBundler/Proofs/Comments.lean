import Mathlib.Algebra.BigOperators.Group.Multiset.Basic
import Mathlib.Tactic.Abel
import ScriptBundler.Proofs.Nodes
import ScriptBundler.Proofs.Proper

/-!
# Proofs/Comments — the comments of a tree

A comment is a statement of its own or stands in one of the lists beside a node.  What a tree has of them is
its load: the comments, and the lists they are in.  Loads add up, and a load is kept if it is made of given
comments, each of them once, with every list in their order (`Kept`).
-/

namespace ScriptBundler

variable {cs ds : List Comment}

/-! ## The comments of a tree -/

/-- All comments beside a node. -/
def Comments.all (cs : Comments) : List Comment := cs.leading ++ cs.trailing ++ cs.inner

/-- The comments beside the entries of a map, which are no nodes of their own. -/
def Expr.Form.inlaid : Expr.Form → List Comments
  | .map es => es.map Entry.comments
  | _ => []

/-- The comments that are attached at a node. -/
def Node.attached : Node → List Comments
  | .expr e => e.comments :: e.form.inlaid
  | .param p => [p.comments]
  | .stmt _ => []

/-- The comment that a node is, or those that are attached at it. -/
def Node.comments : Node → List Comment
  | .stmt ⟨.comment text, span⟩ => [⟨text, span⟩]
  | n => n.attached.flatMap Comments.all

/-- All that is attached anywhere in a script. -/
def Script.attached (script : Script) : List Comments := script.nodes.flatMap Node.attached

/-- All comments of a script: the statements that are comments, and those that are attached. -/
def Script.comments (script : Script) : List Comment := script.nodes.flatMap Node.comments

/-! ## Loads -/

/-- Comments, and the lists that some of them are in. -/
abbrev Load : Type := Multiset Comment × Multiset Comments

namespace Load

/-- The load of nodes. -/
def ofNodes (ns : List Node) : Load := (↑(ns.flatMap Node.comments), ↑(ns.flatMap Node.attached))

@[simp] theorem ofNodes_nil : ofNodes [] = 0 := rfl

@[simp] theorem ofNodes_append (ns ms : List Node) : ofNodes (ns ++ ms) = ofNodes ns + ofNodes ms := by
  simp [ofNodes]

/-- The load of what stands beside one node. -/
def beside (cs : Comments) : Load := (↑cs.all, {cs})

/-- Comments that are in no list yet. -/
def loose (cs : List Comment) : Load := (↑cs, 0)

@[simp] theorem loose_nil : loose [] = 0 := rfl

theorem ofNodes_cons (n : Node) (ns : List Node) : ofNodes (n :: ns) = ofNodes [n] + ofNodes ns :=
  ofNodes_append [n] ns

theorem ofNodes_param (p : Param) : ofNodes [.param p] = beside p.comments := by
  simp [ofNodes, Node.comments, Node.attached, beside]

/-- The statement that is a comment aside, statements have no comments of their own. -/
theorem ofNodes_stmt {a : Stmt} (h : a.isComment = false) : ofNodes [.stmt a] = 0 := by
  obtain ⟨form, span⟩ := a
  cases form with
  | comment text => cases h
  | _ => rfl

/-- Comments beside several nodes. -/
theorem sum_beside (css : List Comments) :
    (css.map beside).sum = (↑(css.flatMap Comments.all), ↑css) := by
  induction css with
  | nil => rfl
  | cons cs css ih =>
    rw [List.map_cons, List.sum_cons, ih]
    simp [beside, ← Multiset.cons_coe]

/-- An expression carries the comments beside it and those laid in. -/
theorem ofNodes_expr (e : Expr) :
    ofNodes [.expr e] = beside e.comments + (e.form.inlaid.map beside).sum := by
  rw [sum_beside]
  simp [ofNodes, Node.comments, Node.attached, beside, ← Multiset.cons_coe]

end Load

/-- Items whose load is told apart into what stands beside them and what is in their parts. -/
class Bearer (α : Type) [Item α] [Content α] where
  inside : α → Load
  span_withComments : ∀ (a : α) (cs : Comments), Item.span (Item.withComments a cs) = Item.span a
  inside_withComments : ∀ (a : α) (cs : Comments), inside (Item.withComments a cs) = inside a

instance : Bearer Expr where
  inside e := (e.form.inlaid.map Load.beside).sum + .ofNodes e.form.nodes
  span_withComments _ _ := rfl
  inside_withComments _ _ := rfl

instance : Bearer Entry where
  inside e := .ofNodes e.key.nodes + .ofNodes e.value.nodes
  span_withComments _ _ := rfl
  inside_withComments _ _ := rfl

instance : Bearer Param where
  inside p := .ofNodes (Expr.nodes? p.default)
  span_withComments _ _ := rfl
  inside_withComments _ _ := rfl

/-- The load of an item. -/
def load {α : Type} [Item α] [Content α] [Bearer α] (a : α) : Load :=
  .beside (Item.comments a) + Bearer.inside a

namespace Load

/-- What an expression carries is what its nodes do. -/
theorem ofNodes_nodes (e : Expr) : ofNodes e.nodes = load e := by
  obtain ⟨form, span, cs⟩ := e
  rw [Expr.nodes, ofNodes_cons, ofNodes_expr, add_assoc]
  rfl

/-- Expressions carry what each of them does. -/
theorem ofNodes_exprs (es : List Expr) : ofNodes (Expr.allNodes es) = (es.map load).sum := by
  induction es with
  | nil => rfl
  | cons e es ih => simp [Expr.allNodes, ofNodes_nodes, ih]

/-- Entries of a map carry what each of them does. -/
theorem ofNodes_entries (es : List Entry) :
    ((Expr.Form.map es).inlaid.map beside).sum + ofNodes (Entry.allNodes es) = (es.map load).sum := by
  induction es with
  | nil => rfl
  | cons e es ih =>
    obtain ⟨key, value, span, cs⟩ := e
    rw [List.map_cons, List.sum_cons, ← ih]
    simp only [Expr.Form.inlaid, List.map_cons, List.sum_cons, Entry.allNodes, ofNodes_append]
    show _ = beside cs + (ofNodes key.nodes + ofNodes value.nodes) + _
    abel

/-- Parameters carry what each of them does. -/
theorem ofNodes_params (ps : List Param) : ofNodes (Param.allNodes ps) = (ps.map load).sum := by
  induction ps with
  | nil => rfl
  | cons p ps ih =>
    obtain ⟨name, value, span, cs⟩ := p
    rw [Param.allNodes, List.cons_append, ofNodes_cons, ofNodes_append, ofNodes_param, ih, List.map_cons,
      List.sum_cons, ← add_assoc]
    rfl

end Load

/-! ## Loads and what was passed over -/

/-- The lists of `cs` are in the order of `ds`. -/
structure Comments.Among (ds : List Comment) (cs : Comments) : Prop where
  leading : cs.leading.Sublist ds
  trailing : cs.trailing.Sublist ds
  inner : cs.inner.Sublist ds

theorem Comments.Among.mono {cs : Comments} {es : List Comment} (h : cs.Among ds) (hsub : ds.Sublist es) :
    cs.Among es :=
  ⟨h.leading.trans hsub, h.trailing.trans hsub, h.inner.trans hsub⟩

/-- The load `l` is made of the comments `ds`. -/
structure Kept (ds : List Comment) (l : Load) : Prop where
  comments : l.1 = ↑ds
  order : ∀ cs ∈ l.2, cs.Among ds

namespace Kept

variable {l m : Load} {es : List Comment}

theorem nil : Kept [] 0 := ⟨rfl, by simp⟩

/-- **Loads of what stands side by side add up.** -/
theorem add (h : Kept ds l) (h' : Kept es m) : Kept (ds ++ es) (l + m) where
  comments := by
    rw [Prod.fst_add, h.comments, h'.comments, Multiset.coe_add]
  order cs hcs := by
    rcases Multiset.mem_add.mp hcs with hcs | hcs
    · exact (h.order cs hcs).mono (List.sublist_append_left ..)
    · exact (h'.order cs hcs).mono (List.sublist_append_right ..)

/-- Comments that are left over are kept. -/
theorem loose (cs : List Comment) : Kept cs (.loose cs) := ⟨rfl, by simp [Load.loose]⟩

/-- Comments that are left over behind one part go to the next. -/
theorem pass (h : Kept ds (l + .loose cs)) (hcs : cs.Sublist ds) (h' : Kept (cs ++ es) m) :
    Kept (ds ++ es) (l + m) where
  comments := by
    have hds : l.1 + ↑cs = (↑ds : Multiset Comment) := h.comments
    rw [Prod.fst_add, h'.comments, ← Multiset.coe_add, ← Multiset.coe_add, ← hds, add_assoc]
  order cs' hcs' := by
    rcases Multiset.mem_add.mp hcs' with hcs' | hcs'
    · exact (h.order cs' (Multiset.mem_add.mpr (.inl hcs'))).mono (List.sublist_append_left ..)
    · exact (h'.order cs' hcs').mono (hcs.append (List.Sublist.refl es))

/-- Comments that are in no list yet are put beside a node. -/
theorem beside {c : Comments} (h : Kept ds (l + .loose c.all)) (hc : c.Among ds) :
    Kept ds (.beside c + l) where
  comments := by
    rw [← h.comments]
    exact add_comm ..
  order cs hcs := by
    rcases Multiset.mem_add.mp hcs with hcs | hcs
    · rw [Multiset.mem_singleton.mp hcs]
      exact hc
    · exact h.order cs (Multiset.mem_add.mpr (.inl hcs))

/-- No comments are put beside a node. -/
theorem bare (h : Kept ds l) : Kept ds (.beside {} + l) :=
  beside (by rw [Comments.all]; simpa using h) ⟨List.nil_sublist _, List.nil_sublist _, List.nil_sublist _⟩

/-- Comments that are left over between brackets go to the brackets. -/
theorem enclose (h : Kept ds (l + .loose cs)) (hcs : cs.Sublist ds) :
    Kept ds (.beside { inner := cs } + l) :=
  beside h ⟨List.nil_sublist _, List.nil_sublist _, hcs⟩

variable {α : Type} [Item α] [Content α] [Bearer α] {a : α}

/-- The comments beside an item are among those that are kept. -/
theorem own (h : Kept ds (load a)) : (Item.comments a).Among ds :=
  h.order _ (Multiset.mem_add.mpr (.inl (Multiset.mem_singleton_self _)))

/-- Other comments beside an item. -/
theorem withComments (h : Kept ds (load a)) {cs : Comments} (hsub : ds.Sublist es)
    (hall : (↑cs.all : Multiset Comment) + ↑ds = ↑(Item.comments a).all + ↑es) (hcs : cs.Among es) :
    Kept es (load (Item.withComments a cs)) where
  comments := by
    rw [load, Content.comments_withComments, Bearer.inside_withComments]
    have hds : ↑(Item.comments a).all + (Bearer.inside a).1 = (↑ds : Multiset Comment) := h.comments
    refine (add_right_inj (↑(Item.comments a).all : Multiset Comment)).mp ?_
    rw [← hall, ← hds]
    show _ + (↑cs.all + (Bearer.inside a).1) = _
    abel
  order ds' hds' := by
    rw [load, Content.comments_withComments, Bearer.inside_withComments] at hds'
    rcases Multiset.mem_add.mp hds' with hds' | hds'
    · rw [Multiset.mem_singleton.mp hds']
      exact hcs
    · exact (h.order ds' (Multiset.mem_add.mpr (.inr hds'))).mono hsub

/-- Comments put before an item are kept. -/
theorem lead (h : Kept ds (load a)) (hlead : (Item.comments a).leading = []) (cs : List Comment) :
    Kept (cs ++ ds) (load (Item.lead a cs)) := by
  have hsub : ds.Sublist (cs ++ ds) := List.sublist_append_right ..
  refine h.withComments hsub ?_ ⟨?_, h.own.trailing.trans hsub, h.own.inner.trans hsub⟩
  · simp only [Comments.all, ← Multiset.coe_add]
    abel
  · rw [hlead, List.append_nil]
    exact List.sublist_append_left ..

/-- Comments put behind an item are kept. -/
theorem trail (h : Kept ds (load a)) (cs : List Comment) : Kept (ds ++ cs) (load (Item.trail a cs)) := by
  have hsub : ds.Sublist (ds ++ cs) := List.sublist_append_left ..
  refine h.withComments hsub ?_ ⟨h.own.leading.trans hsub, ?_, h.own.inner.trans hsub⟩
  · simp only [Comments.all, ← Multiset.coe_add]
    abel
  · exact h.own.trailing.append (List.Sublist.refl cs)

end Kept

/-- What an item takes of the comments behind it stands on its last line. -/
theorem Kept.takeTrailing {α : Type} [Item α] [Content α] [Bearer α] {a b : α} {after rest : List Comment}
    (hb : Item.takeTrailing a after = (b, rest)) (h : Kept ds (load a)) :
    ∃ es, after = es ++ rest ∧ Kept (ds ++ es) (load b) ∧
      ∀ c ∈ es, c.span.start.line = (Item.span a).stop.line := by
  revert hb
  fun_cases Item.takeTrailing a after with
  | case1 | case3 =>
    rintro ⟨⟩
    exact ⟨[], rfl, by rwa [List.append_nil], by simp⟩
  | case2 c cs hline =>
    rintro ⟨⟩
    exact ⟨[c], rfl, h.trail [c], by simpa using hline⟩

end ScriptBundler

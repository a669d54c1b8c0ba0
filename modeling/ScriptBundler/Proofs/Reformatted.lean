import ScriptBundler.Proofs.Induction
import ScriptBundler.Proofs.Nodes
import ScriptBundler.Proofs.Standalone

/-!
# Proofs/Reformatted — what reformatted text is read as

Reformatting chooses all line breaks anew, puts a comma behind the last of several items that get a line
each, spreads every `if` over lines and drops parentheses around operands that group by themselves.  The
commas and line breaks stand where they have no meaning, and an operand that groups by itself binds
tightest, so what is read is the tree with those parentheses gone.

A call that is a statement and has no arguments loses its parentheses, and with them the comments that
stand between them.  All other comments are written once: what is said in the text and what is `lost` make
up what the tree says (`Tells`).
-/

namespace ScriptBundler

open Token (Kind)
open Layout
open Reader (isTarget isLayout)

/-- What reformatted text leaves of a tree. -/
def Style.reformatted : Style where
  unary op e := if op = .neg then e.negate else .unary op e
  paren e e' := if e.isAtomic && e.comments.isEmpty then e'.form else .paren e'
  callAlone := id
  inline _ := false

namespace Reformatted

/-! ## Comments that are lost -/

/-- What stands between the parentheses of a call that is a statement and has no arguments. -/
def dropped : Node → Multiset String
  | .stmt ⟨.expr ⟨.call _ [], _, cs⟩, _⟩ => texts cs.inner
  | _ => 0

/-- What the comments say that are not written for some nodes. -/
def lost (ns : List Node) : Multiset String := (ns.map dropped).sum

@[simp] theorem lost_append (ns ms : List Node) : lost (ns ++ ms) = lost ns + lost ms := by
  rw [lost, List.map_append, List.sum_append]
  rfl

/-- What a node drops comes before what the others lose. -/
theorem lost_cons (n : Node) (ns : List Node) : lost (n :: ns) = dropped n + lost ns :=
  List.sum_cons

@[simp] theorem lost_expr (form : Expr.Form) (span : Span) (cs : Comments) :
    lost (Expr.nodes ⟨form, span, cs⟩) = lost form.nodes := by
  rw [Expr.nodes, lost_cons]
  exact zero_add _

/-- A statement that drops nothing loses what is in it. -/
theorem lost_stmt {form : Stmt.Form} {span : Span} (h : dropped (.stmt ⟨form, span⟩) = 0) :
    lost (Stmt.nodes ⟨form, span⟩) = lost form.nodes := by
  rw [Stmt.nodes, lost_cons, h, zero_add]

/-- Expressions lose what each of them does. -/
theorem lost_exprs (es : List Expr) :
    lost (Expr.allNodes es) = (es.map fun e => lost e.nodes).sum := by
  induction es with
  | nil => rfl
  | cons e es ih => rw [Expr.allNodes, lost_append, ih, List.map_cons, List.sum_cons]

/-- Entries of a map lose what each of them does. -/
theorem lost_entries (es : List Entry) :
    lost (Entry.allNodes es) = (es.map fun e => lost e.key.nodes + lost e.value.nodes).sum := by
  induction es with
  | nil => rfl
  | cons e es ih =>
    obtain ⟨key, value, span, cs⟩ := e
    rw [Entry.allNodes, lost_append, lost_append, ih, List.map_cons, List.sum_cons]

theorem lost_params (ps : List Param) :
    lost (Param.allNodes ps) = (ps.map fun p => lost (Expr.nodes? p.default)).sum := by
  induction ps with
  | nil => rfl
  | cons p ps ih =>
    obtain ⟨name, value, span, cs⟩ := p
    rw [Param.allNodes, List.cons_append, lost_cons, lost_append, ih, List.map_cons, List.sum_cons]
    exact zero_add _

/-- Statements lose what each of them does. -/
theorem lost_stmts (ss : List Stmt) :
    lost (Stmt.allNodes ss) = (ss.map fun s => lost s.nodes).sum := by
  induction ss with
  | nil => rfl
  | cons s ss ih => rw [Stmt.allNodes, lost_append, ih, List.map_cons, List.sum_cons]

/-- `P` holds of what is said, which together with what is `gone` is `m`. -/
def Tells (heard : Prop) (gone m : Multiset String) (P : Multiset String → Prop) : Prop :=
  ∃ k, (heard → k + gone = m) ∧ P k

namespace Tells

variable {heard : Prop} {gone gone' m m' : Multiset String} {P Q R : Multiset String → Prop}

/-- Where nothing is gone. -/
theorem all (h : P m) : Tells heard 0 m P := ⟨m, fun _ => add_zero m, h⟩

theorem mono (h : Tells heard gone m P) (hPQ : ∀ k, P k → Q k) : Tells heard gone m Q := by
  obtain ⟨k, hk, hP⟩ := h
  exact ⟨k, hk, hPQ k hP⟩

/-- Two parts of a text. -/
theorem both (h : Tells heard gone m P) (h' : Tells heard gone' m' Q)
    (hR : ∀ k k', P k → Q k' → R (k + k')) : Tells heard (gone + gone') (m + m') R := by
  obtain ⟨k, hk, hP⟩ := h
  obtain ⟨k', hk', hQ⟩ := h'
  exact ⟨k + k', fun h => by rw [add_add_add_comm, hk h, hk' h], hR k k' hP hQ⟩

theorem recount (h : Tells heard gone m P) (hgone : gone' = gone) (hm : m' = m) :
    Tells heard gone' m' P := hgone ▸ hm ▸ h

end Tells

/-! ## Comments on lines of their own -/

theorem indent_spells (env : Env) : Spells env.indent [] Any Any Any Any := Spells.indent _ _

/-- **Comments, each on a line of its own.** -/
theorem ownLines_spells (env : Env) {cs : List Comment} (hcs : Audible cs) :
    ∃ gap, Gap gap ∧ said gap = texts cs ∧ Spells (env.ownLines cs) gap Any Any Any Any := by
  induction cs with
  | nil => exact ⟨[], .nil, rfl, .nil⟩
  | cons c cs ih =>
    obtain ⟨hc, hcs⟩ := List.forall_mem_cons.mp hcs
    obtain ⟨gap, hgap, hsaid, hspells⟩ := ih hcs
    have hline : Spells (env.indent ++ Layout.comment c.text ++ eol) [.comment c.text, .newline] Any Any
        Any Any := ((indent_spells env).append (Spells.comment hc)).append .eol
    have hfirst : Gap [.comment c.text, .newline] := by simp [Gap, isLayout]
    refine ⟨_, hfirst.append hgap, ?_, hline.append hspells⟩
    rw [said_append, hsaid]
    exact (texts_append [c] cs).symm

/-- Comments below a line, and the end of the last one's line. -/
theorem nextLines_spells (env : Env) {cs : List Comment} (hcs : Audible cs) :
    ∃ gap, Gap gap ∧ said gap = texts cs ∧
      Spells (cs.flatMap env.nextLine ++ eol) gap Any Any Any Break := by
  induction cs with
  | nil => exact ⟨[.newline], .newline, rfl, .eol⟩
  | cons c cs ih =>
    obtain ⟨hc, hcs⟩ := List.forall_mem_cons.mp hcs
    obtain ⟨gap, hgap, hsaid, hspells⟩ := ih hcs
    have hline : Spells (env.nextLine c) [.newline, .comment c.text] Any Solid EndsLine Break :=
      (Spells.eol.append (indent_spells env)).append (Spells.comment hc)
    have hfirst : Gap [.newline, .comment c.text] := by simp [Gap, isLayout]
    refine ⟨_, hfirst.append hgap, ?_, ?_⟩
    · rw [said_append, hsaid]
      exact (texts_append [c] cs).symm
    · rw [List.flatMap_cons, List.append_assoc]
      exact hline.append hspells

/-- **Comments behind something**, and the end of the last one's line. -/
theorem behind_spells (env : Env) (line : Nat) {cs : List Comment} (hcs : Audible cs) :
    ∃ gap, Gap gap ∧ said gap = texts cs ∧ Spells (env.behind line cs ++ eol) gap Solid Any Any Pause := by
  cases cs with
  | nil => exact ⟨[.newline], .newline, rfl, Spells.eol.mono⟩
  | cons c cs =>
    obtain ⟨hc, hmore⟩ := List.forall_mem_cons.mp hcs
    by_cases hline : c.span.start.line = line
    · obtain ⟨gap, hgap, hsaid, hspells⟩ := nextLines_spells env hmore
      have hfirst : Gap [.comment c.text] := by simp [Gap, isLayout]
      refine ⟨_, hfirst.append hgap, ?_, ?_⟩
      · rw [said_append, hsaid]
        exact (texts_append [c] cs).symm
      · rw [Env.behind, if_pos (by simpa using hline), List.append_assoc]
        exact (Spells.trailing hc).append hspells
    · obtain ⟨gap, hgap, hsaid, hspells⟩ := nextLines_spells env hcs
      refine ⟨gap, hgap, hsaid, ?_⟩
      rw [Env.behind, if_neg (by simpa using hline), ← List.flatMap_cons]
      exact hspells.mono

/-! ## Items inside brackets -/

section Items

variable {α : Type} [Item α] [Content α] {A : α → List Kind → Prop} {heard : Prop}
  {gone : α → Multiset String} {image : α → α}

/-- An item without comments beside it says what is inside. -/
theorem remarks_of_isEmpty {a : α} (h : (Item.comments a).isEmpty = true) :
    Content.remarks a = Content.inside a := by
  simp only [Comments.isEmpty, Bool.and_eq_true, List.isEmpty_iff] at h
  rw [Content.remarks, Comments.around, h.1.1, h.1.2, texts_nil, zero_add, add_zero]

/-- `l` is the item `a`, without the comments beside it. -/
def Keeps (A : α → List Kind → Prop) (heard : Prop) (gone : α → Multiset String) (image : α → α) (a : α)
    (l : Layout) : Prop :=
  Clear a ∧ Tells heard (gone a) (Content.inside a) fun m => Entity A heard m (image a) l

/-- **The comments beside an item**, which `l` is between. -/
theorem Keeps.beside (env : Env) {a : α} {l : Layout} (ha : Keeps A heard gone image a l) :
    ∃ gap ks gap', Gap gap ∧ A (image a) ks ∧ Gap gap' ∧
      (heard → said gap + said ks + said gap' + gone a = Content.remarks a) ∧
      Spells (env.ownLines (Item.comments a).leading ++ env.indent) gap Any Any Any Any ∧
      Spells l ks Any Solid EndsOperand OpensOperand ∧
      Spells (env.behind (Item.span a).stop.line (Item.comments a).trailing ++ eol) gap' Solid Any Any
        Pause := by
  obtain ⟨⟨hleading, htrailing⟩, m, hm, ks, hl, hA, hks⟩ := ha
  obtain ⟨gap, hgap, hsaid, hbefore⟩ := ownLines_spells env hleading
  obtain ⟨gap', hgap', hsaid', hbehind⟩ := behind_spells env (Item.span a).stop.line htrailing
  have hlead := hbefore.append (indent_spells env)
  rw [List.append_nil] at hlead
  refine ⟨gap, ks, gap', hgap, hA, hgap', fun h => ?_, hlead, hl, hbehind⟩
  rw [hsaid, hsaid', hks h, add_right_comm, add_assoc _ m, hm h]
  rfl

/-- **An item on a line of its own**, with the comma behind it. -/
theorem ownItem_spells (env : Env) {a : α} {l : Layout} (ha : Keeps A heard gone image a l) :
    ∃ gap ks gap', Gap gap ∧ A (image a) ks ∧ Gap gap' ∧
      (heard → said gap + said ks + said gap' + gone a = Content.remarks a) ∧
      Spells (Brackets.ownItem env a l) (gap ++ (ks ++ .symbol .comma :: gap')) Any Any Any Any := by
  obtain ⟨gap, ks, gap', hgap, hA, hgap', hsaid, hlead, hl, hbehind⟩ := ha.beside env
  have hspells := hlead.append (hl.append ((Spells.closing (s := .comma) rfl).append hbehind))
  refine ⟨gap, ks, gap', hgap, hA, hgap', hsaid, ?_⟩
  simp only [Brackets.ownItem, List.append_assoc, List.singleton_append] at hspells ⊢
  exact hspells.mono

/-- **Items on lines of their own.** -/
theorem ownItems_spells (env : Env) {as : List α} {ls : List Layout}
    (h : List.Forall₂ (Keeps A heard gone image) as ls) (has : as ≠ []) :
    ∃ gap ks, Gap gap ∧ Separated A (as.map image) ks ∧
      (heard → said (gap ++ ks) + (as.map gone).sum = (as.map Content.remarks).sum) ∧
      Spells ((as.zip ls).flatMap fun p => Brackets.ownItem env p.1 p.2) (gap ++ ks) Any Any Any Any := by
  induction h with
  | nil => exact absurd rfl has
  | @cons a l as ls ha hmore ih =>
    obtain ⟨gap, ks, gap', hgap, hA, hgap', hsaid, hitem⟩ := ownItem_spells env ha
    cases hmore with
    | nil =>
      refine ⟨gap, ks ++ ([] ++ .symbol .comma :: gap'), hgap, .lastComma hA Gap.nil hgap',
        fun h => ?_, by simpa using hitem⟩
      simp only [List.map_cons, List.map_nil, List.sum_cons, List.sum_nil, ← hsaid h, said_append,
        said_nil, said_cons_symbol]
      abel
    | @cons a' l' as ls ha' hmore =>
      obtain ⟨gap'', ks', hgap'', hks', hsaid', hspells⟩ := ih (by simp)
      refine ⟨gap, ks ++ ([] ++ .symbol .comma :: ((gap' ++ gap'') ++ ks')), hgap,
        .cons hA Gap.nil (hgap'.append hgap'') (by simp) hks', fun h => ?_, ?_⟩
      · rw [List.map_cons (f := gone), List.map_cons (f := Content.remarks), List.sum_cons, List.sum_cons,
          ← hsaid h, ← hsaid' h]
        simp only [said_append, said_nil, said_cons_symbol]
        abel
      · have hall := hitem.append hspells
        simp only [List.append_assoc, List.cons_append, List.nil_append] at hall ⊢
        exact hall

/-- What is written between a bracket and the items on its line. -/
theorem pad_spells {pad : String} (hpad : pad = "" ∨ pad = " ") :
    Spells (text pad) [] Solid Solid Any Any ∧ Spells (text pad) [] Any Any EndsOperand EndsOperand := by
  rcases hpad with rfl | rfl
  · exact ⟨.nil, .nil⟩
  · exact ⟨Spells.blank.mono, Spells.blank.mono⟩

/-- What is kept and what is gone of items without comments beside them. -/
theorem sum_kept {as : List α} {ls : List Layout} (h : List.Forall₂ (Keeps A heard gone image) as ls)
    (hnone : hasComments as = false) (hheard : heard) :
    (as.map fun a => Content.inside a - gone a).sum + (as.map gone).sum =
      (as.map Content.remarks).sum := by
  induction h with
  | nil => rfl
  | @cons a l as ls ha _ ih =>
    rw [hasComments, List.any_cons, Bool.or_eq_false_iff, Bool.not_eq_false'] at hnone
    obtain ⟨-, m, hm, -⟩ := ha
    rw [List.map_cons, List.map_cons, List.map_cons, List.sum_cons, List.sum_cons, List.sum_cons,
      add_add_add_comm, ih hnone.2, remarks_of_isEmpty hnone.1, ← hm hheard, add_tsub_cancel_right]

/-- Brackets and what is between them, all on one line. -/
theorem oneLine_inner (b : Brackets) (hpad : b.pad = "" ∨ b.pad = " ") {as : List α} {ls : List Layout}
    (h : List.Forall₂ (Keeps A heard gone image) as ls) (hnone : hasComments as = false) :
    ∃ l, Tells heard (as.map gone).sum (as.map Content.remarks).sum
        (fun m => Inner A heard m (as.map image) l) ∧
      ∀ out, (b.oneLine ls).foldl write out =
        (text b.opening ++ l ++ text b.closing).foldl write out := by
  obtain ⟨hbefore, hafter⟩ := pad_spells hpad
  have hitems : List.Forall₂ (fun a => Entity A heard (Content.inside a - gone a) (image a)) as ls :=
    h.imp fun a l ha => by
      obtain ⟨-, m, hm, hl⟩ := ha
      exact hl.recount fun h => by rw [← hm h, add_tsub_cancel_right]
  have hcomma : Spells (text ", ") [.symbol .comma] Any Solid Any EndsOperand :=
    (Spells.closing (s := .comma) rfl).concat .blank
  obtain ⟨gap, ks, hgap, hks, hspells, hsaid⟩ := Inner.intercalate_images hcomma hitems
  refine ⟨text b.pad ++ intercalate ", " ls ++ text b.pad,
    ⟨_, sum_kept h hnone, gap, ks, hgap, hks, ?_, hsaid⟩, fun out => ?_⟩
  · simpa using (hbefore.append hspells).append hafter
  · simp only [Brackets.oneLine, List.foldl_append, foldl_text_append]

/-- **Brackets and what is between them**, up to how their text is cut into pieces. -/
theorem layout_inner (b : Brackets) (hpad : b.pad = "" ∨ b.pad = " ") (env : Env) {as : List α}
    {ls : List Layout} (h : List.Forall₂ (Keeps A heard gone image) as ls) {inner : List Comment}
    (hinner : Audible inner) :
    ∃ l, Tells heard (as.map gone).sum
        ((if as.isEmpty then texts inner else 0) + (as.map Content.remarks).sum)
        (fun m => Inner A heard m (as.map image) l) ∧
      ∀ out, (b.layout env as inner ls).foldl write out =
        (text b.opening ++ l ++ text b.closing).foldl write out := by
  unfold Brackets.layout
  split
  · rename_i hnone
    obtain rfl : as = [] := by simpa using hnone
    refine ⟨if inner.isEmpty then [] else eol ++ env.deeper.ownLines inner ++ env.indent,
      .all ?_, fun out => rfl⟩
    cases hcs : inner.isEmpty with
    | true =>
      obtain rfl : inner = [] := by simpa using hcs
      exact .nil
    | false =>
      obtain ⟨gap, hgap, hsaid, hlines⟩ := ownLines_spells env.deeper hinner
      have hspells := (Spells.eol.append hlines).append (indent_spells env)
      refine ⟨_, [], Gap.newline.append hgap, .nil, hspells.mono, fun _ => ?_⟩
      rw [said_append, said_append, hsaid]
      show (0 : Multiset String) + texts inner + 0 = texts inner + 0
      rw [zero_add]
  · rename_i hsome
    have has : as ≠ [] := by simpa using hsome
    rw [zero_add]
    split
    · rename_i hfits
      rw [Bool.and_eq_true, Bool.not_eq_true'] at hfits
      exact oneLine_inner b hpad h hfits.1
    · obtain ⟨gap, ks, hgap, hks, hsaid, hspells⟩ := ownItems_spells env.deeper h has
      have hall := (Spells.eol.append hspells).append (indent_spells env)
      refine ⟨eol ++ (as.zip ls).flatMap (fun p => Brackets.ownItem env.deeper p.1 p.2) ++ env.indent,
        ⟨_, hsaid, [.newline] ++ gap, ks, Gap.newline.append hgap, hks, ?_, fun _ => ?_⟩,
        fun out => by simp⟩
      · simp only [List.append_nil, ← List.append_assoc] at hall ⊢
        exact hall.mono
      · rw [List.append_assoc, said_append]
        exact zero_add _

end Items

/-! ## Operands on lines of their own -/

variable {heard : Prop} {st : Style}

/-- `l` is an operand, without the comments beside it. -/
abbrev KeepsOperand (heard : Prop) (st : Style) : Expr → Layout → Prop :=
  Keeps (Phrase 0) heard (fun e => lost e.nodes) (Expr.image st)

/-- `l` is an end of a slice, if it is there. -/
def KeepsEnd (heard : Prop) (st : Style) (e : Option Expr) (l : Layout) : Prop :=
  match e with
  | none => l = []
  | some e => KeepsOperand heard st e l

/-- **An end of a slice on lines of its own**, before what is no operand. -/
theorem ownBound_bound (env : Env) {e : Option Expr} {l r : Layout} (he : KeepsEnd heard st e l)
    {after : List Kind} (hafter : Gap after) (hr : Spells r after Any Any EndsOperand Any) :
    Tells heard (lost (Expr.nodes? e)) (Expr.remarks? e + said after) fun m =>
      Bound heard m (Expr.image? st e) (eol ++ ownBound env e l ++ r) := by
  cases e with
  | none =>
    have hspells : Spells (eol ++ [] ++ r) ([.newline] ++ after) Solid Any EndsOperand Any :=
      (Spells.eol.append hr).mono
    exact .all ⟨_, Gap.newline.append hafter, hspells, fun _ => said_append _ _⟩
  | some e =>
    have he : KeepsOperand heard st e l := he
    obtain ⟨gap, ks, gap', hgap, hphrase, hgap', hsaid, hlead, hl, hbehind⟩ := he.beside env.deeper
    have hspells := ((Spells.eol.append hlead).append (hl.append hbehind)).append hr
    refine ⟨said gap + said ks + said gap' + said after, fun h => ?_,
      [.newline] ++ gap ++ (ks ++ gap') ++ after, ⟨[.newline] ++ gap, ks, gap' ++ after, by simp,
        Gap.newline.append hgap, hphrase, hgap'.append hafter⟩, ?_, fun _ => ?_⟩
    · rw [Expr.remarks?_some, ← hsaid h, add_right_comm]
      rfl
    · simp only [ownBound, ownPart, Option.elim_some, List.append_assoc] at hspells ⊢
      exact hspells.mono
    · simp only [said_append, add_assoc]
      exact zero_add _

/-- An end of a slice that stays on its line. -/
theorem bound_of_keepsEnd {e : Option Expr} {l : Layout} (h : KeepsEnd heard st e l)
    (hnone : e.any (!·.comments.isEmpty) = false) :
    Tells heard (lost (Expr.nodes? e)) (Expr.remarks? e) fun m =>
      Bound heard m (Expr.image? st e) l := by
  cases e with
  | none =>
    subst h
    exact .all .none
  | some e =>
    rw [Option.any_some, Bool.not_eq_false'] at hnone
    rw [Expr.remarks?_some, remarks_of_isEmpty (a := e) hnone]
    exact h.2.mono fun _ hl => Operand.bound hl

/-! ## Operators -/

/-- **An operator and what goes before its right operand.** -/
theorem joiner (env : Env) (op : BinaryOp) (left : Expr) {right : Expr}
    (hright : Audible right.comments.leading) :
    Joiner heard (texts right.comments.leading) op
      (text (" " ++ op.spelling) ++ (operandGap env left right).1) := by
  unfold operandGap
  split
  · rename_i hnone
    rw [List.isEmpty_iff.mp hnone]
    exact ⟨[], .nil, ((Spells.binaryOp op).append Spells.blank).mono, fun _ => rfl⟩
  · obtain ⟨gap, hgap, hsaid, hbehind⟩ := behind_spells env.deeper left.span.stop.line hright
    have hspells := (Spells.binaryOp op).append (hbehind.append (indent_spells env.deeper))
    rw [List.append_nil] at hspells
    exact ⟨gap, hgap, hspells.mono, fun _ => hsaid⟩

/-! ## Expressions -/

/-- What is written for `scene` is the image under `st` of what it is written for. -/
structure Fits (S : Stock) (heard : Prop) (scene : Scene) (st : Style) : Prop
    extends scene.FitsLines S heard st where
  paren : ∀ e e', st.paren e e' =
    if e.comments.isEmpty && (e.isAtomic && !scene.settings.keepRedundantParens) then e'.form
    else .paren e'
  callAlone : st.callAlone = id
  inline : ∀ inline, st.inline inline = false

variable {S : Stock} {splicer : Splicer} {env : Env}

@[simp] theorem scene_itemEnv {α : Type} [Item α] (env : Env) (as : List α) :
    (Brackets.itemEnv env as).scene = env.scene := by
  unfold Brackets.itemEnv
  split <;> rfl

@[simp] theorem scene_paramEnv (env : Env) (ps : List Param) (inner : List Comment) :
    (paramEnv env ps inner).scene = env.scene := by
  unfold paramEnv
  split
  · exact scene_itemEnv env ps
  · rfl

@[simp] theorem scene_operandGap (env : Env) (left right : Expr) :
    (operandGap env left right).2.scene = env.scene := by
  unfold operandGap
  split <;> rfl

/-- `l` is `e`, which binds as tight as level `k`. -/
def KeepsExpr (heard : Prop) (st : Style) (k : Nat) (e : Expr) (l : Layout) : Prop :=
  Tells heard (lost e.nodes) e.inside fun m => Operand heard m k (e.image st) l

/-- `e` is written as its image. -/
def WritesExpr (S : Stock) (heard : Prop) (st : Style) (splicer : Splicer) (e : Expr) : Prop :=
  ∀ env, Fits S heard env.scene st → e.Proper S →
    (expr splicer env e).Gives False (KeepsExpr heard st e.level e)

/-- `s` is written as its image. -/
def WritesStmt (S : Stock) (heard : Prop) (st : Style) (splicer : Splicer) (s : Stmt) : Prop :=
  ∀ env, Fits S heard env.scene st → s.Proper S →
    (line splicer env s).Gives False (s.OnLine st heard fun s => lost s.nodes)

namespace WritesExpr

/-- Where any operand may stand. -/
theorem loose {e : Expr} (h : WritesExpr S heard st splicer e) (hfits : Fits S heard env.scene st)
    (hproper : e.Proper S) {k : Nat} (hk : k ≤ e.level) :
    (expr splicer env e).Gives False (KeepsExpr heard st k e) :=
  (h env hfits hproper).mono fun _ hl => hl.mono fun _ hl => Operand.loosen hl e.level_le hk

/-- An item, without the comments beside it. -/
theorem item {e : Expr} (h : WritesExpr S heard st splicer e) (hfits : Fits S heard env.scene st)
    (hproper : e.Proper S) : (expr splicer env e).Gives False (KeepsOperand heard st e) :=
  (h.loose hfits hproper (Nat.zero_le _)).mono fun _ hl => ⟨hfits.clear hproper, hl⟩

/-- Expressions one after another. -/
theorem exprs : ∀ {es : List Expr}, (∀ e ∈ es, WritesExpr S heard st splicer e) →
    Fits S heard env.scene st → Expr.AllProper S es →
    (exprs splicer env es).Gives False (List.Forall₂ (KeepsOperand heard st) es)
  | [], _, _, _ => .pure .nil
  | _ :: _, h, hfits, ⟨he, hes⟩ => by
    obtain ⟨hfirst, h⟩ := List.forall_mem_cons.mp h
    exact (hfirst.item hfits he).bind fun _ hl =>
      (exprs h hfits hes).bind fun _ hls => .pure (.cons hl hls)

/-- Entries of a map one after another. -/
theorem entries : ∀ {es : List Entry},
    (∀ a ∈ es, WritesExpr S heard st splicer a.key ∧ WritesExpr S heard st splicer a.value) →
    Fits S heard env.scene st → Entry.AllProper S es →
    (entries splicer env es).Gives False (List.Forall₂
      (Keeps EntryPhrase heard (fun e => lost e.key.nodes + lost e.value.nodes) (Entry.image st)) es)
  | [], _, _, _ => .pure .nil
  | ⟨key, value, _, cs⟩ :: es, h, hfits, ⟨⟨hkey, hvalue, hcs⟩, hes⟩ => by
    obtain ⟨⟨hk, hv⟩, h⟩ := List.forall_mem_cons.mp h
    refine (hk.loose hfits hkey (Nat.zero_le _)).bind fun _ hk =>
      (hv.loose hfits hvalue (Nat.zero_le _)).bind fun _ hv =>
        (entries h hfits hes).bind fun _ hls => .pure (.cons ⟨?_, ?_⟩ hls)
    · exact hfits.clear (a := Entry.mk key value _ cs) ⟨hkey, hvalue, hcs⟩
    · exact hk.both hv fun _ _ hk hv =>
        Entity.entry ((Spells.closing (s := .colon) rfl).concat .blank).mono hk hv

/-- Parameters one after another. -/
theorem params : ∀ {ps : List Param}, (∀ p ∈ ps, ∀ e ∈ p.default, WritesExpr S heard st splicer e) →
    Fits S heard env.scene st → Param.AllProper S ps →
    (params splicer env ps).Gives False (List.Forall₂
      (Keeps ParamPhrase heard (fun p => lost (Expr.nodes? p.default)) (Param.image st)) ps)
  | [], _, _, _ => .pure .nil
  | ⟨x, none, _, cs⟩ :: _, h, hfits, ⟨⟨hx, hvalue, hcs⟩, hps⟩ => by
    refine (params (List.forall_mem_cons.mp h).2 hfits hps).bind fun _ hls =>
      .pure (.cons ⟨hfits.clear (a := Param.mk x none _ cs) ⟨hx, hvalue, hcs⟩, .all ?_⟩ hls)
    rw [Param.image, hfits.name]
    exact Entity.param (hfits.valid _ hx)
  | ⟨x, some e, _, cs⟩ :: _, h, hfits, ⟨⟨hx, he, hcs⟩, hps⟩ => by
    obtain ⟨hvalue, h⟩ := List.forall_mem_cons.mp h
    have hinside : Fits S heard env.single.scene st := hfits
    refine ((hvalue e rfl).loose hinside he (Nat.zero_le _)).bind fun _ hv =>
      (params h hfits hps).bind fun _ hls => .pure (.cons ⟨?_, ?_⟩ hls)
    · exact hfits.clear (a := Param.mk x (some e) _ cs) ⟨hx, he, hcs⟩
    · rw [Param.image, hfits.name, hfits.guard]
      exact hv.mono fun _ hv => Entity.paramWith (Spells.default (hfits.valid _ hx)) hv

/-- An end of a slice. -/
theorem bound {e : Option Expr} (h : ∀ a ∈ e, WritesExpr S heard st splicer a)
    (hfits : Fits S heard env.scene st) (hproper : Expr.Proper? S e) :
    (bound splicer env e).Gives False (KeepsEnd heard st e) := by
  cases e with
  | none => exact .pure rfl
  | some e => exact (h e rfl).item hfits hproper

/-- What is kept of an element is kept of what it is taken from and of its index. -/
theorem keepsExpr_index {b i : Expr} {span : Span} {cs : Comments} {l l' : Layout}
    (hb : KeepsExpr heard st 11 b l)
    (hi : Tells heard (lost i.nodes) (Content.remarks i) fun m =>
      Bound heard m (some (i.image st)) l') :
    KeepsExpr heard st 11 ⟨.index b i, span, cs⟩ (l ++ (text "[" ++ l' ++ text "]")) := by
  obtain ⟨iform, ispan, ics⟩ := i
  refine (hb.both hi fun _ _ hb hi => Operand.index hb hi).recount ?_ rfl
  rw [lost_expr, Expr.Form.nodes, lost_append]

theorem index {b i : Expr} (hb : WritesExpr S heard st splicer b) (hi : WritesExpr S heard st splicer i)
    (span : Span) (cs : Comments) : WritesExpr S heard st splicer ⟨.index b i, span, cs⟩ := by
  rintro env hfits ⟨⟨hb', hlevel, hi', hinner⟩, hcs⟩
  have hbase := hb.loose hfits hb' hlevel
  rw [expr]
  split
  · rename_i hnone
    rw [Bool.and_eq_true] at hnone
    have hinside : Fits S heard env.single.scene st := hfits
    refine hbase.bind fun l hl => (hi.loose hinside hi' (Nat.zero_le _)).bind fun k hk => .pure ?_
    rw [List.append_assoc, List.append_assoc, ← List.append_assoc (text "[")]
    exact keepsExpr_index hl <| remarks_of_isEmpty (a := i) hnone.1 ▸ hk.mono fun _ hk => hk.bound
  · have hinside : Fits S heard env.deeper.scene st := hfits
    refine hbase.bind fun l hl => (hi.item hinside hi').bind fun k hk => .pure ?_
    have hbound := ownBound_bound (e := some i) env hk .nil (indent_spells env).mono
    rw [said_nil, add_zero, Expr.remarks?_some] at hbound
    have hlayout : l ++ text "[" ++ eol ++ ownPart env i k ++ env.deeper.ownLines cs.inner ++ env.indent ++
        text "]" = l ++ (text "[" ++ (eol ++ ownBound env (some i) k ++ env.indent) ++ text "]") := by
      simp [ownBound, hinner, Env.ownLines]
    rw [hlayout]
    exact keepsExpr_index hl hbound

/-- What is kept of a slice is kept of what it is taken from and of its ends. -/
theorem keepsExpr_slice {b : Expr} {i j : Option Expr} (span : Span) {cs : Comments} {l l' l'' : Layout}
    (hb : KeepsExpr heard st 11 b l)
    (hi : Tells heard (lost (Expr.nodes? i)) (Expr.remarks? i) fun m =>
      Bound heard m (Expr.image? st i) l')
    (hj : Tells heard (lost (Expr.nodes? j)) (Expr.remarks? j + texts cs.inner) fun m =>
      Bound heard m (Expr.image? st j) l'') :
    KeepsExpr heard st 11 ⟨.slice b i j, span, cs⟩
      (l ++ (text "[" ++ l' ++ text ":" ++ l'' ++ text "]")) := by
  have hends := hi.both hj (R := fun m => ∀ k, Operand heard k 11 (b.image st) l →
    Operand heard (k + m) 11 (Expr.Form.slice (b.image st) (Expr.image? st i) (Expr.image? st j)).node
      (l ++ (text "[" ++ l' ++ text ":" ++ l'' ++ text "]"))) fun _ _ hi hj _ hb => hb.slice hi hj
  refine (hb.both hends fun k _ hb h => h k hb).recount ?_ ?_
  · rw [lost_expr, Expr.Form.nodes, lost_append, lost_append, add_assoc]
  · rw [Expr.inside, Expr.Form.remarks]
    abel

/-- A slice of an operand. -/
theorem slice {b : Expr} {i j : Option Expr} (hb : WritesExpr S heard st splicer b)
    (hi : ∀ e ∈ i, WritesExpr S heard st splicer e) (hj : ∀ e ∈ j, WritesExpr S heard st splicer e)
    (span : Span) (cs : Comments) : WritesExpr S heard st splicer ⟨.slice b i j, span, cs⟩ := by
  rintro env hfits ⟨⟨hb', hlevel, hi', hj'⟩, hcs⟩
  have hbase := hb.loose hfits hb' hlevel
  rw [expr]
  split
  · have hinside : Fits S heard env.deeper.scene st := hfits
    obtain ⟨gap, hgap, hsaid, hlines⟩ := ownLines_spells env.deeper (hfits.audible hcs).2.2
    refine hbase.bind fun l hl => (bound hi hinside hi').bind fun k hk =>
      (bound hj hinside hj').bind fun k' hk' => .pure ?_
    have hfirst := ownBound_bound env hk .nil (indent_spells env.deeper).mono
    have hsecond := ownBound_bound env hk' (hgap.append .nil) (hlines.append (indent_spells env)).mono
    rw [said_nil, add_zero] at hfirst
    rw [List.append_nil, hsaid] at hsecond
    have hkept := keepsExpr_slice span hl hfirst hsecond
    simp only [List.append_assoc] at hkept ⊢
    exact hkept
  · rename_i hnone
    simp only [spreadsSlice, Bool.or_eq_true, not_or, Bool.not_eq_true, Bool.not_eq_false',
      List.isEmpty_iff] at hnone
    obtain ⟨⟨hnoi, hnoj⟩, hinner⟩ := hnone
    have hinside : Fits S heard env.single.scene st := hfits
    refine hbase.bind fun l hl => (bound hi hinside hi').bind fun k hk =>
      (bound hj hinside hj').bind fun k' hk' => .pure ?_
    have hnone : Expr.remarks? j + texts cs.inner = Expr.remarks? j := by
      rw [hinner, texts_nil, add_zero]
    have hkept := keepsExpr_slice span hl (bound_of_keepsEnd hk hnoi)
      ((bound_of_keepsEnd hk' hnoj).recount rfl hnone)
    simp only [List.append_assoc] at hkept ⊢
    exact hkept

/-- What is written for two operands and the operator between them. -/
theorem expr_binary (op : BinaryOp) (l r : Expr) (span : Span) (cs : Comments) :
    expr splicer env ⟨.binary op l r, span, cs⟩ = (do
      let a ← expr splicer env l
      let b ← expr splicer (operandGap env l r).2 r
      return a ++ (text (" " ++ op.spelling) ++ (operandGap env l r).1) ++ b) := by
  rw [expr]
  simp only [List.append_assoc]
  rfl

/-- Two operands. -/
theorem binary {op : BinaryOp} {l r : Expr} (hl : WritesExpr S heard st splicer l)
    (hr : WritesExpr S heard st splicer r) (span : Span) (cs : Comments) :
    WritesExpr S heard st splicer ⟨.binary op l r, span, cs⟩ := by
  rintro env hfits ⟨⟨⟨-, -, hbelow⟩, hleft, hleftLevel, hright, hrightLevel⟩, -⟩
  have hinside : Fits S heard (operandGap env l r).2.scene st := (scene_operandGap env l r).symm ▸ hfits
  have hjoin : Joiner heard _ op _ := joiner env op l (hfits.clear (a := r) hright).1
  have himage : Expr.image st ⟨.binary op l r, span, cs⟩ =
      (Expr.Form.binary op (l.image st) (r.image st)).node :=
    congrArg (fun f => (f op (l.image st) (r.image st)).node) hfits.binary
  -- comments after an operator stand above its right operand, where there are any
  have hinner : Expr.inside ⟨.binary op l r, span, cs⟩ =
      l.inside + (r.inside + texts r.comments.leading) := by
    rw [Expr.inside, Expr.Form.remarks, add_assoc, add_comm r.inside]
    congr 2
    split
    · rfl
    · rename_i hnot
      rw [not_imp_comm.mp hbelow hnot, texts_nil]
  rw [expr_binary]
  refine (hl.loose hfits hleft hleftLevel).bind fun a ha =>
    (hr.loose hinside hright hrightLevel).bind fun b hb => .pure ?_
  obtain ⟨k, hk, ha⟩ := ha
  obtain ⟨k', hk', hb⟩ := hb
  refine ⟨k + texts r.comments.leading + k', fun h => ?_, himage ▸ ha.binary hjoin hb⟩
  rw [hinner, lost_expr, Expr.Form.nodes, lost_append, ← hk h, ← hk' h]
  abel

/-- **Parentheses**, or what is between them if it groups by itself. -/
theorem paren {e : Expr} (he : WritesExpr S heard st splicer e) (span : Span) (cs : Comments) :
    WritesExpr S heard st splicer ⟨.paren e, span, cs⟩ := by
  rintro env hfits ⟨he', -⟩
  have hinner : Expr.inside ⟨.paren e, span, cs⟩ = Content.remarks e := by
    obtain ⟨form, espan, ecs⟩ := e
    rfl
  have hgone : lost (Expr.nodes ⟨.paren e, span, cs⟩) = lost e.nodes := lost_expr ..
  suffices h : (expr splicer env ⟨.paren e, span, cs⟩).Gives False fun l =>
      Tells heard (lost e.nodes) (Content.remarks e) fun m =>
        Operand heard m 11 (st.paren e (e.image st)).node l from
    h.mono fun _ hl => hl.recount hgone hinner
  rw [hfits.paren, expr]
  cases hcomments : e.comments.isEmpty with
  | false =>
    have hinside : Fits S heard env.deeper.scene st := hfits
    refine (he.item hinside he').bind fun l hl => .pure ?_
    have hbound := ownBound_bound (e := some e) env hl .nil (indent_spells env).mono
    rw [said_nil, add_zero, Expr.remarks?_some] at hbound
    exact hbound.mono fun _ hl => (Operand.paren hl).of_eq (by simp [ownBound])
  | true =>
    rw [remarks_of_isEmpty (a := e) hcomments]
    cases hdropped : e.isAtomic && !env.scene.settings.keepRedundantParens with
    | true =>
      have hlevel : e.level = 11 := Expr.level_of_isAtomic (Bool.and_eq_true_iff.mp hdropped).1
      have hnode : (e.image st).form.node = e.image st := by
        obtain ⟨form, espan, ecs⟩ := e
        rfl
      refine (he.loose hfits he' hlevel.ge).mono fun l hl => ?_
      rw [Bool.true_and, if_pos rfl, hnode]
      exact hl
    | false =>
      exact (he.loose hfits he' (Nat.zero_le _)).bind fun l hl =>
        .pure (hl.mono fun _ hl => .paren hl.bound)

end WritesExpr

/-! ## Statements -/

/-- A statement that is written as its image. -/
theorem Tells.onLine {s : Stmt} {l : Layout} (hcomment : s.isComment = false)
    (hdebugger : s.isDebugger = false)
    (h : Tells heard (lost s.nodes) s.remarks fun m => Written heard m (s.image st) l) :
    s.OnLine st heard (fun s => lost s.nodes) l := by
  obtain ⟨m, hm, hl⟩ := h
  exact .written hcomment hdebugger hm hl

namespace WritesStmt

/-- Statements row by row. -/
theorem rows : ∀ {ss : List Stmt}, (∀ s ∈ ss, WritesStmt S heard st splicer s) →
    Fits S heard env.scene st → Stmt.AllProper S ss →
    (rows splicer env ss).Gives False (RowsFor st heard (fun s => lost s.nodes) env.indent ss)
  | [], _, _, _ => .pure .nil
  | s :: ss, h, hfits, ⟨hs, _, hss⟩ => by
    obtain ⟨hline, h⟩ := List.forall_mem_cons.mp h
    rw [Reformatted.rows, hfits.spliced?]
    exact (hline env hfits hs).bind fun l hl => (rows h hfits hss).bind fun rs hrs =>
      .pure (.cons ⟨l, rfl, hl⟩ hrs)

/-- A block; one that stood on one line is one statement. -/
theorem block {b : Block} (h : ∀ s ∈ b.stmts, WritesStmt S heard st splicer s)
    (hfits : Fits S heard env.scene st) (hproper : b.Proper S) (isInline : Bool)
    (hone : isInline = true → b.stmts.length = 1) :
    (block splicer env isInline b).Gives False fun l =>
      Tells heard (lost b.nodes) b.remarks fun m => Body heard m (b.image st).stmts l := by
  obtain ⟨ss, span⟩ := b
  have hinside : Fits S heard env.deeper.scene st := hfits
  have hbody : ∀ close prev, (Row.arrange close prev <$> Reformatted.rows splicer env.deeper ss).Gives
      False fun l => Tells heard (lost (Stmt.allNodes ss)) (Stmt.allRemarks ss) fun m =>
        Body heard m (Block.image st ⟨ss, span⟩).stmts l := fun close prev =>
    (rows h hinside hproper).map fun rs hrs => by
      obtain ⟨ks, hks, hsaid⟩ := (laidOut (indent_spells _) hfits.lines ss rs hproper hrs).1 prev
      exact ⟨said ks, lost_stmts ss ▸ hsaid, ks, _, inferInstance, hks, fun _ => rfl⟩
  cases isInline with
  | false => exact hbody (some span.stop.line) (some span.start.line)
  | true =>
    have hlength : ss.length = 1 := hone rfl
    rw [Reformatted.block, if_neg (by decide), if_pos hlength]
    exact hbody none none

/-- The statements of a block, on lines of their own. -/
theorem linesBlock {b : Block} (h : ∀ s ∈ b.stmts, WritesStmt S heard st splicer s)
    (hfits : Fits S heard env.scene st) (hproper : b.Proper S) :
    (Reformatted.block splicer env false b).Gives False fun l =>
      Tells heard (lost b.nodes) b.remarks fun m => Body heard m (b.image st).stmts l :=
  block h hfits hproper false fun hinline => absurd hinline Bool.false_ne_true

/-- **An `if`, clause by clause.** -/
theorem blockClauses (hfits : Fits S heard env.scene st) {isInline : Bool} :
    ∀ {cs : List Clause} {last : Option Block} {c : Expr} {b : Block} {span : Span} (word : Layout),
      (∀ d ∈ Clause.mk c b span :: cs, WritesExpr S heard st splicer d.condition ∧
        (∀ s ∈ d.body.stmts, WritesStmt S heard st splicer s) ∧
        (isInline = true → d.body.stmts.length = 1)) →
      (∀ b ∈ last, (∀ s ∈ b.stmts, WritesStmt S heard st splicer s) ∧
        (isInline = true → b.stmts.length = 1)) →
      Clause.AllProper S (⟨c, b, span⟩ :: cs) → Block.Proper? S last →
      (blockClauses splicer env isInline word (⟨c, b, span⟩ :: cs)).Gives False fun l =>
        (blockElse splicer env isInline last).Gives False fun l' =>
          ∃ k r, l ++ l' = word ++ k ++ text " then" ++ r ∧ KeepsExpr heard st 0 c k ∧
            Tells heard (lost b.nodes + (lost (Clause.allNodes cs) + lost (Block.nodes? last)))
              (b.remarks + (Clause.allRemarks cs + Block.remarks? last)) fun m =>
                Branching heard m (c.image st) (Clause.images st (⟨c, b, span⟩ :: cs))
                  (Block.image? st last) r
  | [], none, c, ⟨_, _⟩, _, word, hcs, _, ⟨⟨hc, hb⟩, _⟩, _ => by
    obtain ⟨hcond, hbody, hone⟩ := hcs _ (List.mem_singleton_self _)
    have hinside : Fits S heard env.single.scene st := hfits
    refine (hcond.loose hinside hc (Nat.zero_le _)).bind fun l hl =>
      (block hbody hfits hb _ hone).bind fun l' hl' => ?_
    refine .pure (.pure ⟨l, eol ++ l', by simp, hl, ?_⟩)
    exact (hl'.mono fun _ hl' => .last hl').recount (add_zero _) (add_zero _)
  | [], some ⟨_, _⟩, c, ⟨_, _⟩, _, word, hcs, hlast, ⟨⟨hc, hb⟩, _⟩, hb' => by
    obtain ⟨hcond, hbody, hone⟩ := hcs _ (List.mem_singleton_self _)
    have hinside : Fits S heard env.single.scene st := hfits
    refine (hcond.loose hinside hc (Nat.zero_le _)).bind fun l hl =>
      (block hbody hfits hb _ hone).bind fun l' hl' => ?_
    refine .pure ((block (hlast _ rfl).1 hfits hb' _ (hlast _ rfl).2).bind fun l'' hl'' => ?_)
    refine .pure ⟨l, eol ++ l' ++ (env.indent ++ text "else" ++ eol ++ l''), by simp, hl, ?_⟩
    refine (hl'.both hl'' fun _ _ hl' hl'' => .else_ (indent_spells env) hl' hl'').recount ?_ ?_
    · exact congrArg _ (zero_add _)
    · exact congrArg _ (zero_add _)
  | ⟨d, b', span⟩ :: cs, last, c, ⟨_, _⟩, _, word, hcs, hlast, ⟨⟨hc, hb⟩, hmore⟩, hb' => by
    obtain ⟨⟨hcond, hbody, hone⟩, hcs⟩ := List.forall_mem_cons.mp hcs
    have hinside : Fits S heard env.single.scene st := hfits
    refine (hcond.loose hinside hc (Nat.zero_le _)).bind fun l hl =>
      (block hbody hfits hb _ hone).bind fun l' hl' => ?_
    refine (blockClauses hfits (env.indent ++ text "else if ") hcs hlast hmore hb').bind fun k hk =>
      .pure (hk.mono ?_)
    rintro k' ⟨i, r, hr, he, hbranch⟩
    refine ⟨l, eol ++ l' ++ (env.indent ++ text "else if " ++ i ++ text " then" ++ r), by simp [hr], hl,
      ?_⟩
    obtain ⟨n, hn, hl'⟩ := hl'
    obtain ⟨n', hn', he⟩ := he
    obtain ⟨n'', hn'', hbranch⟩ := hbranch
    refine ⟨_, fun h => ?_, .elseIf (indent_spells env) hl' he hbranch⟩
    have hsaid : Clause.allRemarks (⟨d, b', span⟩ :: cs) + Block.remarks? last =
        d.inside + (b'.remarks + (Clause.allRemarks cs + Block.remarks? last)) := by
      rw [Clause.allRemarks, add_assoc, add_assoc]
    rw [hsaid, ← hn h, ← hn' h, ← hn'' h, Clause.allNodes, lost_append, lost_append]
    abel

end WritesStmt

/-! ## All nodes -/

/-- The parameters of a function. -/
theorem params_of_keeps (env : Env) {ps : List Param} {ls : List Layout} {inner : List Comment}
    (hinner : Audible inner) (h : List.Forall₂
      (Keeps ParamPhrase heard (fun p => lost (Expr.nodes? p.default)) (Param.image st)) ps ls) :
    Tells heard (lost (Param.allNodes ps)) ((if ps.isEmpty then texts inner else 0) + Param.allRemarks ps)
      fun m => Params heard m (Param.images st ps) (paramsLayout env ps inner ls) := by
  rw [Param.images_eq_map, Param.allRemarks_eq_sum, lost_params]
  cases hspreads : spreadsParams ps inner with
  | true =>
    obtain ⟨k, hk, hfold⟩ := layout_inner Brackets.params (.inl rfl) env h hinner
    rw [paramsLayout, hspreads, if_pos rfl]
    exact hk.mono fun _ hk => (Params.some hk).of_foldl hfold
  | false =>
    rw [paramsLayout, hspreads, if_neg Bool.false_ne_true]
    rw [spreadsParams, Bool.or_eq_false_iff, Bool.not_eq_false', List.isEmpty_iff] at hspreads
    obtain ⟨hnone, rfl⟩ := hspreads
    rw [texts_nil, ite_self, zero_add]
    split
    · rename_i hempty
      obtain rfl : ps = [] := by simpa using hempty
      exact .all .none
    · obtain ⟨k, hk, hfold⟩ := oneLine_inner Brackets.params (.inl rfl) h hnone
      exact hk.mono fun _ hk => (Params.some hk).of_foldl hfold

/-- A function. -/
theorem WritesExpr.function {ps : List Param} {b : Block}
    (hps : ∀ p ∈ ps, ∀ e ∈ p.default, WritesExpr S heard st splicer e)
    (hb : ∀ s ∈ b.stmts, WritesStmt S heard st splicer s) (span : Span) (cs : Comments) :
    WritesExpr S heard st splicer ⟨.function ps b, span, cs⟩ := by
  rintro env hfits ⟨⟨hps', hb'⟩, hcs⟩
  obtain ⟨ss, bspan⟩ := b
  have hinside : Fits S heard (paramEnv env ps cs.inner).scene st :=
    (scene_paramEnv env ps cs.inner).symm ▸ hfits
  have hspread : Fits S heard env.spread.scene st := hfits
  refine (WritesExpr.params hps hinside hps').bind fun ls hls =>
    (WritesStmt.linesBlock hb hspread hb').bind fun l hl => .pure ?_
  have hparams := params_of_keeps env (hfits.audible hcs).2.2 hls
  refine (hparams.both hl fun _ _ hk hl => Operand.function (indent_spells env) hk hl).recount ?_ rfl
  rw [lost_expr, Expr.Form.nodes, lost_append]

/-- A body that stood on one line is one statement. -/
theorem length_of_onOneLine {Q : Stmt → Prop} : ∀ {cs : List Clause} {last : Option Block},
    OnOneLine Q cs last →
      (∀ c ∈ cs, c.body.stmts.length = 1) ∧ ∀ b ∈ last, b.stmts.length = 1
  | [], _, h => h.elim
  | [c], none, h => by
    obtain ⟨s, hs, -⟩ := h
    exact ⟨by simp [hs], by simp⟩
  | [c], some b, ⟨⟨s, hs, _⟩, t, ht, _⟩ => ⟨by simp [hs], by simp [ht]⟩
  | c :: d :: cs, last, ⟨⟨s, hs, _⟩, hmore⟩ => by
    obtain ⟨hcs, hlast⟩ := length_of_onOneLine hmore
    exact ⟨List.forall_mem_cons.mpr ⟨by simp [hs], hcs⟩, hlast⟩

/-- An `if` of either shape, with its blocks on lines of their own. -/
theorem WritesStmt.if_ {cs : List Clause} {last : Option Block} (inline : Bool) (span : Span)
    (hcs : ∀ c ∈ cs, WritesExpr S heard st splicer c.condition ∧
      ∀ s ∈ c.body.stmts, WritesStmt S heard st splicer s)
    (hlast : ∀ b ∈ last, ∀ s ∈ b.stmts, WritesStmt S heard st splicer s) :
    WritesStmt S heard st splicer ⟨.if_ cs last inline, span⟩ := by
  rintro env hfits ⟨hne, hcs', hlast', hone⟩
  have himage : Stmt.image st ⟨.if_ cs last inline, span⟩ =
      (Stmt.Form.if_ (Clause.images st cs) (Block.image? st last) false).node := by
    rw [Stmt.image, Stmt.Form.image, hfits.inline]
  cases cs with
  | nil => exact absurd rfl hne
  | cons c cs =>
    obtain ⟨c, b, _⟩ := c
    refine (blockClauses hfits (text "if ") (fun d hd => ⟨(hcs d hd).1, (hcs d hd).2,
      fun h => (length_of_onOneLine (hone h)).1 d hd⟩) (fun b hb => ⟨hlast b hb,
        fun h => (length_of_onOneLine (hone h)).2 b hb⟩) hcs' hlast').bind fun l hl =>
      hl.bind fun l' hl' => .pure (Tells.onLine rfl rfl ?_)
    obtain ⟨k, r, hr, he, hbranch⟩ := hl'
    rw [hr, himage]
    refine (he.both hbranch fun _ _ he hbranch => Branching.written (indent_spells env) he hbranch).recount
      ?_ ?_
    · rw [lost_stmt rfl, Stmt.Form.nodes, Clause.allNodes, lost_append, lost_append, lost_append]
      simp only [add_assoc]
    · rw [Stmt.remarks, Stmt.Form.remarks, Clause.allRemarks]
      simp only [add_assoc]

/-- A call without arguments is written as what it calls. -/
theorem WritesStmt.expr {e : Expr} (he : WritesExpr S heard st splicer e)
    (hcallee : ∀ c ∈ e.loneCallee?, WritesExpr S heard st splicer c) (span : Span) :
    WritesStmt S heard st splicer ⟨.expr e, span⟩ := by
  intro env hfits h
  obtain ⟨form, span', cs⟩ := e
  have hwhole := he.loose hfits h (Nat.zero_le _)
  have hkept {l : Layout} (hdropped : dropped (.stmt ⟨.expr ⟨form, span', cs⟩, span⟩) = 0)
      (himage : Stmt.image st ⟨.expr ⟨form, span', cs⟩, span⟩ =
        (Stmt.Form.expr (Expr.image st ⟨form, span', cs⟩)).node)
      (hl : KeepsExpr heard st 0 ⟨form, span', cs⟩ l) :
      Stmt.OnLine st heard (fun s => lost s.nodes) ⟨.expr ⟨form, span', cs⟩, span⟩ l := by
    refine Tells.onLine rfl rfl ?_
    rw [himage, lost_stmt hdropped]
    exact hl.mono fun _ hl => Written.expr hl
  cases form with
  | call c args =>
    cases args with
    | nil =>
      refine ((hcallee c rfl).loose hfits h.1.1 (Nat.zero_le _)).mono fun l hl => Tells.onLine rfl rfl ?_
      have himage : Stmt.image st ⟨.expr ⟨.call c [], span', cs⟩, span⟩ =
          (Stmt.Form.expr (st.callAlone (c.image st))).node := rfl
      rw [himage, hfits.callAlone]
      obtain ⟨m, hm, hl⟩ := hl
      refine ⟨m, fun h => ?_, Written.expr hl⟩
      show m + lost (Stmt.nodes _) = c.inside + texts cs.inner + 0
      rw [Stmt.nodes, lost_cons, Stmt.Form.nodes, lost_expr, Expr.Form.nodes, lost_append, ← hm h]
      show m + (texts cs.inner + (lost c.nodes + 0)) = m + lost c.nodes + texts cs.inner + 0
      abel
    | cons => exact hwhole.mono fun l hl => hkept rfl rfl hl
  | _ => exact hwhole.mono fun l hl => hkept rfl rfl hl

/-- **Every node is written as its image.** -/
theorem inductive_writes (S : Stock) (heard : Prop) (st : Style) (splicer : Splicer) :
    Inductive (WritesExpr S heard st splicer) (WritesStmt S heard st splicer) where
  literal l span cs := fun env hfits h => .pure <| (Tells.all (hfits.operand_literal h.1)).recount
    (lost_expr ..) rfl
  list es span cs hes := by
    rintro env hfits ⟨hes', hcs⟩
    have hinside : Fits S heard (Brackets.itemEnv env es).scene st := (scene_itemEnv env es).symm ▸ hfits
    refine (WritesExpr.exprs hes hinside hes').bind fun ls hls => .pure ?_
    obtain ⟨l, hinner, hl⟩ := layout_inner Brackets.list (.inl rfl) env hls (hfits.audible hcs).2.2
    refine (hinner.mono fun _ hinner => ?_).recount ?_ ?_
    · rw [Expr.image, Expr.Form.image, Expr.images_eq_map]
      exact (Operand.list hinner).of_foldl hl
    · rw [lost_expr, Expr.Form.nodes, lost_exprs]
    · rw [Expr.inside, Expr.Form.remarks, Expr.allRemarks_eq_sum]
  map es span cs hes := by
    rintro env hfits ⟨hes', hcs⟩
    have hinside : Fits S heard (Brackets.itemEnv env es).scene st := (scene_itemEnv env es).symm ▸ hfits
    refine (WritesExpr.entries hes hinside hes').bind fun ls hls => .pure ?_
    obtain ⟨l, hinner, hl⟩ := layout_inner Brackets.map (.inr rfl) env hls (hfits.audible hcs).2.2
    refine (hinner.mono fun _ hinner => ?_).recount ?_ ?_
    · rw [Expr.image, Expr.Form.image, Entry.images_eq_map]
      exact (Operand.map hinner).of_foldl hl
    · rw [lost_expr, Expr.Form.nodes, lost_entries]
    · rw [Expr.inside, Expr.Form.remarks, Entry.allRemarks_eq_sum]
  identifier x span cs := fun env hfits h => .pure <| (Tells.all (hfits.operand_identifier h.1)).recount
    (lost_expr ..) rfl
  member b x span cs hb := by
    rintro env hfits ⟨⟨hb', hlevel, hx⟩, -⟩
    refine (hb.loose hfits hb' hlevel).bind fun l hl => .pure ?_
    exact (hl.mono fun _ hl => Operand.member hl (hfits.valid _ hx)).recount (lost_expr ..) rfl
  index b i span cs hb hi := hb.index hi span cs
  slice b i j span cs hb hi hj := hb.slice hi hj span cs
  call c es span cs hc hes := by
    rintro env hfits ⟨⟨hc', hlevel, hes'⟩, hcs⟩
    have hinside : Fits S heard (Brackets.itemEnv env es).scene st := (scene_itemEnv env es).symm ▸ hfits
    rw [expr, hfits.nativeCall]
    refine (hc.loose hfits hc' hlevel).bind fun l hl =>
      (WritesExpr.exprs hes hinside hes').bind fun ls hls => .pure ?_
    obtain ⟨k, hinner, hk⟩ := layout_inner Brackets.args (.inl rfl) env hls (hfits.audible hcs).2.2
    refine (hl.both hinner fun _ _ hl hinner => ?_).recount ?_ ?_
    · rw [Expr.image, Expr.Form.image, Expr.images_eq_map, hfits.guard]
      refine (Operand.call hl hinner).of_foldl fun out => ?_
      rw [List.foldl_append, List.foldl_append, hk]
      rfl
    · rw [lost_expr, Expr.Form.nodes, lost_append, lost_exprs]
    · rw [Expr.inside, Expr.Form.remarks, Expr.allRemarks_eq_sum, add_assoc]
  binary op l r span cs hl hr := hl.binary hr span cs
  unary op e span cs he := by
    rintro env hfits ⟨⟨he', hlevel, hneg⟩, -⟩
    refine (he.loose hfits he' hlevel).bind fun l hl => .pure ?_
    exact (hl.mono fun _ hl => hfits.operand_unary hneg hl).recount (lost_expr ..) rfl
  function ps b span cs hps hb := .function hps hb span cs
  paren e span cs he := he.paren span cs
  directive d span cs := fun env hfits h => .pure <| (Tells.all (hfits.operand_directive h.1 _)).recount
    (lost_expr ..) rfl
  assign op target value span ht hv := by
    rintro env hfits ⟨ht', htarget, hv'⟩
    have hinside : Fits S heard env.single.scene st := hfits
    refine (ht.loose hinside ht' (Nat.zero_le _)).bind fun l hl =>
      (hv.loose hfits hv' (Nat.zero_le _)).bind fun l' hl' => .pure (Tells.onLine rfl rfl ?_)
    refine (hl.both hl' fun _ _ hl hl' =>
      Written.assign op (Spells.assignOp op) hl (isTarget_image st htarget) hl').recount ?_ rfl
    rw [lost_stmt rfl, Stmt.Form.nodes, lost_append]
  expr e span he hcallee := .expr he hcallee span
  return_ value span hv := fun env hfits h => by
    cases value with
    | none => exact .pure (Tells.onLine rfl rfl ((Tells.all .return_none).recount (lost_stmt rfl) rfl))
    | some e =>
      exact ((hv e rfl).loose hfits h (Nat.zero_le _)).bind fun l hl => .pure <| Tells.onLine rfl rfl <|
        (hl.mono fun _ hl => Written.return_some hl).recount (lost_stmt rfl) rfl
  break_ span := fun env hfits h =>
    .pure (Tells.onLine rfl rfl ((Tells.all .break_).recount (lost_stmt rfl) rfl))
  continue_ span := fun env hfits h =>
    .pure (Tells.onLine rfl rfl ((Tells.all .continue_).recount (lost_stmt rfl) rfl))
  if_ cs last inline span hcs hlast := .if_ inline span hcs hlast
  while_ c b span hc hb := by
    rintro env hfits ⟨hc', hb'⟩
    obtain ⟨ss, bspan⟩ := b
    have hinside : Fits S heard env.single.scene st := hfits
    refine (hc.loose hinside hc' (Nat.zero_le _)).bind fun l hl =>
      (WritesStmt.linesBlock hb hfits hb').bind fun l' hl' => .pure (Tells.onLine rfl rfl ?_)
    refine (hl.both hl' fun _ _ hl hl' => Written.while_ (indent_spells env) hl hl').recount ?_ rfl
    rw [lost_stmt rfl, Stmt.Form.nodes, lost_append]
  for_ item e b span he hb := by
    rintro env hfits ⟨hx, he', hb'⟩
    obtain ⟨ss, bspan⟩ := b
    have hinside : Fits S heard env.single.scene st := hfits
    refine (he.loose hinside he' (Nat.zero_le _)).bind fun l hl =>
      (WritesStmt.linesBlock hb hfits hb').bind fun l' hl' => .pure (Tells.onLine rfl rfl ?_)
    have himage : Stmt.image st ⟨.for_ item e ⟨ss, bspan⟩, span⟩ =
        (Stmt.Form.for_ ⟨item.name, default⟩ (e.image st) (Block.image st ⟨ss, bspan⟩)).node := by
      rw [Stmt.image, Stmt.Form.image, hfits.name]
      rfl
    rw [himage]
    refine (hl.both hl' fun _ _ hl hl' =>
      Written.for_ (indent_spells env) (Spells.forHead (hfits.valid _ hx)) hl hl').recount ?_ rfl
    rw [lost_stmt rfl, Stmt.Form.nodes, lost_append]
  comment t span := fun env hfits h => .pure (.comment t rfl (lost_stmt rfl) (hfits.valid _ h) rfl)
  mark d span := fun env hfits h => by
    have hline := hfits.onLine_mark h span " = " (fun s => lost s.nodes) (lost_stmt rfl)
    cases d <;> exact .pure hline

/-- **A reformatted script is read as its image**, and what it says is what the tree says but for what is
lost. -/
theorem script_gives {scene : Scene} {s : Script} (hfits : Fits S heard scene st)
    (hproper : Stmt.AllProper S s.body) :
    (script scene s).Gives False fun l => ∃ ks, Document (Stmt.images st s.body) l ks ∧
      (heard → said ks + lost s.nodes = Stmt.allRemarks s.body) := by
  refine (WritesStmt.rows ((inductive_writes S heard st _).stmts s.body) hfits hproper).map
    fun _ hrows => ?_
  rw [Script.nodes, lost_stmts]
  exact document_arrangeAll (indent_spells { scene }) hfits.lines hproper hrows

/-- Reformatted text, with parentheses as `paren` leaves them. -/
theorem fits_withParen {source : Source} (script : Script) {settings : Settings} (heard : Prop)
    {paren : Expr → Expr → Expr.Form} (hparen : ∀ e e', paren e e' =
      if e.comments.isEmpty && (e.isAtomic && !settings.keepRedundantParens) then e'.form else .paren e')
    (hdirectives : source.KeepsDirectives settings) :
    Fits source.stock heard (source.scene script settings) { Style.reformatted with paren } where
  toFits := hdirectives.fits rfl
  name := rfl
  literal := rfl
  guard := rfl
  binary := rfl
  unary := fun _ _ hop => if_neg hop
  minus := fun _ _ => rfl
  lines := .inl ⟨fun _ _ _ _ => rfl, rfl⟩
  debugger := fun s hs hdebugger => .inl ⟨by
    rw [Source.settings_scene]
    exact hdirectives.devMode_of_isDebugger hs hdebugger, fun _ _ _ _ => rfl, rfl⟩
  paren := fun e e' => by
    rw [Source.settings_scene]
    exact hparen e e'
  callAlone := rfl
  inline := fun _ => rfl

/-- A script on its own fits the style, if parentheses can go. -/
theorem fits_reformatted {source : Source} (script : Script) {settings : Settings}
    (hparens : settings.keepRedundantParens = false) (hdirectives : source.KeepsDirectives settings) :
    Fits source.stock False (source.scene script settings) .reformatted :=
  fits_withParen script False (fun e e' => by
    rw [hparens, Bool.not_false, Bool.and_true, Bool.and_comm]) hdirectives

end Reformatted

/-- The reformatted output of a script by itself is what is written for its tree. -/
theorem Source.exists_bundle_reformatted {source : Source} {script : Script} {settings : Settings}
    {P : Layout → Prop} (hparse : source.parse = .ok script) (hmode : settings.mode = .reformatted)
    (hw : (Reformatted.script (source.scene script settings) script).Gives False P) :
    ∃ l, P l ∧ source.bundle settings = .ok l.join := by
  have hhoists : settings.hoists = false := by simp [Settings.hoists, hmode]
  have hscript : (source.scene script settings).script script =
      Reformatted.script (source.scene script settings) script := by
    unfold Scene.script
    rw [settings_scene, hmode]
  exact exists_bundle hparse hhoists (hscript ▸ hw)

/-- **Reformatting keeps the program.**  The text is read as the tree it was written from, with every
`if` spread over lines, no parentheses around operands that group by themselves, a minus before a number
that is thereby bare as its sign, and no parentheses after calls that are statements and have no
arguments. -/
theorem Source.parse_bundle_reformatted {source : Source} {script : Script} {settings : Settings}
    (hparse : source.parse = .ok script) (hmode : settings.mode = .reformatted)
    (hparens : settings.keepRedundantParens = false) (hdirectives : source.KeepsDirectives settings) :
    ∃ t, source.bundle settings = .ok t ∧ ∀ name,
      (Source.mk name t).NestsTooDeep ∨ ∃ script', (Source.mk name t).parse = .ok script' ∧
        script'.body.map Stmt.bare = Stmt.images .reformatted script.body := by
  have hwritten := Reformatted.script_gives (s := script)
    (Reformatted.fits_reformatted script hparens hdirectives) (readFrom_stock hparse).proper
  obtain ⟨l, ⟨ks, hdocument, -⟩, hbundle⟩ := exists_bundle_reformatted hparse hmode hwritten
  exact ⟨l.join, hbundle, hdocument.parse⟩

/-- An `if` on one line, a minus before a number in parentheses, and parentheses that can go. -/
def Source.inlined : Source where
  name := "main"
  text := "if a then f() else x=-(5)*[(b),//c\n-(2^c)]"

theorem Source.parse_bundle_reformatted_inlined :
    ∃ script t, inlined.parse = .ok script ∧ inlined.bundle { mode := .reformatted } = .ok t ∧
      t = "if a then\n\tf\nelse\n\tx = -5 * [\n\t\tb, //c\n\t\t-(2 ^ c),\n\t]\nend if" ∧
      ∀ name, ∃ script', (Source.mk name t).parse = .ok script' ∧
        script'.body.map Stmt.bare = Stmt.images .reformatted script.body := by
  have hsome : inlined.parse.toOption.isSome = true := by decide +kernel
  have houtput : (inlined.bundle { mode := .reformatted }).toOption =
      some "if a then\n\tf\nelse\n\tx = -5 * [\n\t\tb, //c\n\t\t-(2 ^ c),\n\t]\nend if" := by
    decide +kernel
  obtain ⟨script, hscript⟩ := Option.isSome_iff_exists.mp hsome
  have hparse := Except.toOption_eq_some hscript
  have hmode : ({ mode := .reformatted } : Settings).mode = .reformatted := rfl
  obtain ⟨t, ht, hkept⟩ := parse_bundle_reformatted hparse hmode rfl (.inr (by decide +kernel))
  obtain rfl := Except.ok.inj (ht.symm.trans (Except.toOption_eq_some houtput))
  exact ⟨script, _, hparse, ht, rfl, fun name =>
    (hkept name).resolve_left (not_nestsTooDeep (by decide +kernel) name)⟩

/-- **Reformatting loses the comments between the parentheses of calls that are statements and have no
arguments, and no others.**  It makes none up either. -/
theorem Source.spoken_bundle_reformatted {source : Source} {script : Script} {settings : Settings}
    (hparse : source.parse = .ok script) (hmode : settings.mode = .reformatted)
    (hdirectives : source.KeepsDirectives settings) :
    ∃ t, source.bundle settings = .ok t ∧ ∀ name,
      spoken (Source.mk name t).scan.tokens + Reformatted.lost script.nodes =
        spoken source.scan.tokens := by
  have hread := readFrom_stock hparse
  have hwritten := Reformatted.script_gives (s := script)
    (Reformatted.fits_withParen script True (fun _ _ => rfl) hdirectives) hread.proper
  obtain ⟨l, ⟨ks, hdocument, hsaid⟩, hbundle⟩ := exists_bundle_reformatted hparse hmode hwritten
  refine ⟨l.join, hbundle, fun name => ?_⟩
  rw [hdocument.spoken name, hsaid trivial, hread.remarks]

theorem Source.spoken_bundle_reformatted_call :
    ∃ script, (Source.mk "main" "f( // c\n)\nx=[1,//a\n(g( // b\n))]").parse = .ok script ∧
      Reformatted.lost script.nodes = {" c"} ∧
      ∃ t, (Source.mk "main" "f( // c\n)\nx=[1,//a\n(g( // b\n))]").bundle
          { mode := .reformatted } = .ok t ∧
        ∀ name, spoken (Source.mk name t).scan.tokens + Reformatted.lost script.nodes =
          spoken (Source.mk "main" "f( // c\n)\nx=[1,//a\n(g( // b\n))]").scan.tokens := by
  have hlost : (Source.mk "main" "f( // c\n)\nx=[1,//a\n(g( // b\n))]").parse.toOption.map
      (fun script => Reformatted.lost script.nodes) = some {" c"} := by decide +kernel
  cases hparse : (Source.mk "main" "f( // c\n)\nx=[1,//a\n(g( // b\n))]").parse with
  | error report => simp [hparse, Except.toOption] at hlost
  | ok script =>
    rw [hparse] at hlost
    exact ⟨script, rfl, Option.some.inj hlost,
      spoken_bundle_reformatted hparse rfl (.inr (by decide +kernel))⟩

end ScriptBundler

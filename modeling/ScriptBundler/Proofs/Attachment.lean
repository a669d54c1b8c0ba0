import ScriptBundler.Proofs.Comments
import ScriptBundler.Proofs.Soundness

/-!
# Proofs/Attachment — every comment is attached once

Comments are picked up wherever a line goes on, and go to the item before them, to the item after them or
to the brackets around them.  Without a fault, the load of what is derived is made of the comments among
its tokens.

The one place where the order is not plain is behind a comma.  A comment there goes to the item before the
comma if it stands on that item's last line, and is put before the comments that stand in front of the
comma; but if there are any, the comma is on a later line (`Within.lt_of_comma`).
-/

namespace ScriptBundler

open Token (Kind)
open Reader (comment? single inlineElse mkBinary)

variable {S : Stock} {clean : Prop} {ts us : List Token} {ps : List Posting} {cs ds : List Comment}

/-! ## Nodes -/

/-- A node that is no map, with comments between its brackets. -/
theorem Kept.enclosed {form : Expr.Form} {span : Span} (hform : form.inlaid = [])
    (h : Kept ds (.ofNodes form.nodes + .loose cs)) (hcs : cs.Sublist ds) :
    Kept ds (load (⟨form, span, { inner := cs }⟩ : Expr)) := by
  have hinside : Bearer.inside (⟨form, span, { inner := cs }⟩ : Expr) = .ofNodes form.nodes := by
    show (form.inlaid.map Load.beside).sum + _ = _
    rw [hform, List.map_nil, List.sum_nil, zero_add]
  rw [load, hinside]
  exact h.enclose hcs

/-- A node that is no map, with no comments beside it. -/
theorem Kept.node {form : Expr.Form} {span : Span} (hform : form.inlaid = [])
    (h : Kept ds (.ofNodes form.nodes)) : Kept ds (load (⟨form, span, {}⟩ : Expr)) :=
  enclosed hform (by rwa [Load.loose_nil, add_zero]) (List.nil_sublist _)

/-- What an expression keeps, its nodes do. -/
theorem Kept.nodes {e : Expr} (h : Kept ds (load e)) : Kept ds (.ofNodes e.nodes) := by
  rwa [Load.ofNodes_nodes]

/-- Two operands keep what each of them does. -/
theorem Kept.binary {l r : Expr} (op : BinaryOp) (hl : Kept ds (load l)) (hr : Kept cs (load r)) :
    Kept (ds ++ cs) (load (mkBinary op l r)) := by
  refine node rfl ?_
  rw [Expr.Form.nodes, Load.ofNodes_append]
  exact hl.nodes.add hr.nodes

/-- A node without parts, read from tokens that are no comments. -/
theorem Kept.leaf {form : Expr.Form} {span : Span} (hinlaid : form.inlaid = []) (hnodes : form.nodes = [])
    (h : noted ts = []) : Kept (noted ts) (load (⟨form, span, {}⟩ : Expr)) := by
  rw [h]
  exact .node hinlaid (by rw [hnodes]; exact .nil)

/-- A statement that is no comment has the comments of its parts. -/
theorem Kept.stmt {form : Stmt.Form} {span : Span} (h : Kept ds (.ofNodes form.nodes))
    (hcomment : Stmt.isComment ⟨form, span⟩ = false) :
    Kept ds (.ofNodes (Stmt.nodes ⟨form, span⟩)) := by
  rwa [Stmt.nodes, Load.ofNodes_cons, Load.ofNodes_stmt hcomment, zero_add]

/-- The load of clauses and a last block. -/
def Load.ofClauses (r : List Clause × Option Block) : Load :=
  .ofNodes (Clause.allNodes r.1) + .ofNodes (Block.nodes? r.2)

theorem Load.ofNodes_single (a : Stmt) : ofNodes (single a).nodes = ofNodes a.nodes := by
  rw [single, Block.nodes, Stmt.allNodes, Stmt.allNodes, List.append_nil]

/-- What an `else` on one line adds has the comments of the statement after it. -/
theorem Load.ofClauses_inlineElse (chained : Bool) (a : Stmt) :
    ofClauses (inlineElse chained a) = ofNodes a.nodes := by
  unfold inlineElse
  split
  · rename_i cs last hform
    obtain ⟨form, span⟩ := a
    obtain rfl : form = .if_ cs last true := hform
    rw [Stmt.nodes, ofNodes_cons, ofNodes_stmt rfl, zero_add, Stmt.Form.nodes, ofNodes_append]
    rfl
  · exact (zero_add _).trans (ofNodes_single a)

/-- A clause before others. -/
theorem Kept.clause {r : List Clause × Option Block} {c : Expr} {b : Block} {span : Span}
    {bs es : List Comment} (hc : Kept ds (load c)) (hb : Kept bs (.ofNodes b.nodes))
    (hr : Kept es (.ofClauses r)) :
    Kept (ds ++ (bs ++ es)) (.ofClauses (⟨c, b, span⟩ :: r.1, r.2)) := by
  have hall := hc.nodes.add (hb.add hr)
  rw [Load.ofClauses, Clause.allNodes, Load.ofNodes_append, Load.ofNodes_append]
  rw [Load.ofClauses] at hall
  simpa only [add_assoc] using hall

/-- A call, with comments between its brackets. -/
theorem Kept.call {callee : Expr} {args : List Expr} {span : Span} {inner : List Comment}
    (hcallee : Kept ds (load callee)) (hargs : Kept cs ((args.map load).sum + .loose inner))
    (hinner : inner.Sublist cs) : Kept (ds ++ cs) (load (⟨.call callee args, span, { inner }⟩ : Expr)) := by
  refine enclosed rfl ?_ (hinner.trans (List.sublist_append_right ..))
  rw [Expr.Form.nodes, Load.ofNodes_append, Load.ofNodes_exprs, add_assoc]
  exact hcallee.nodes.add hargs

/-- An entry of a map, with comments before and behind its colon. -/
theorem Kept.entry {key value : Expr} {span : Span} (hk : Kept ds (load key)) (hv : Kept cs (load value))
    (before after : List Comment) :
    Kept (ds ++ (before ++ (after ++ cs)))
      (load (⟨key, value, span, { trailing := before ++ after }⟩ : Entry)) := by
  have hparts := hk.nodes.add ((Kept.loose (before ++ after)).add hv.nodes)
  rw [add_comm (Load.loose _), ← add_assoc] at hparts
  have hall : Comments.all { trailing := before ++ after } = before ++ after := List.append_nil _
  rw [← List.append_assoc before]
  refine .beside ?_ ⟨List.nil_sublist _, ?_, List.nil_sublist _⟩
  · show Kept _ (_ + .loose (Comments.all { trailing := before ++ after }))
    rw [hall]
    exact hparts
  · exact (List.sublist_append_left ..).trans (List.sublist_append_right ..)

/-- An `if` on one line keeps what its parts do. -/
theorem Kept.mkInline {start : Span} {e : Expr} {a : Stmt} {r : List Clause × Option Block}
    {bs es : List Comment} (he : Kept ds (load e)) (ha : Kept bs (.ofNodes a.nodes))
    (hr : Kept es (.ofClauses r)) :
    Kept (ds ++ (bs ++ es)) (.ofNodes (mkInline start e a r).nodes) := by
  refine stmt ?_ rfl
  rw [Stmt.Form.nodes, Load.ofNodes_append]
  exact he.clause (by rw [Load.ofNodes_single]; exact ha) hr

/-! ## Items between brackets -/

/-- The item `a` stands for `ts`, comments and all. -/
structure Carries {α : Type} [Item α] [Content α] [Bearer α] (ts : List Token) (a : α) : Prop where
  kept : Kept (noted ts) (load a)
  leading : (Item.comments a).leading = []
  within : Within ts (Item.span a)

/-- Where there are comments between an item and its comma, none behind the comma stands on the item's
last line. -/
theorem Within.lt_of_comma {as bs es : List Token} {comma : Token} {span : Span} {c d : Comment}
    (hlaid : Laid S (as ++ (bs ++ (comma :: es)))) (hspan : Within as span)
    (hcomma : comma.kind = .symbol .comma) (hc : c ∈ noted bs) (hd : d ∈ noted es) :
    span.stop.line < d.span.start.line := by
  obtain ⟨t, ht, htext, -⟩ := exists_comment_of_mem_noted hc
  obtain ⟨u, hu, -, hspan'⟩ := exists_comment_of_mem_noted hd
  obtain ⟨-, hright, hleft⟩ := List.pairwise_append.mp hlaid.ordered
  obtain ⟨-, hrest, hgap⟩ := List.pairwise_append.mp hright
  have hstop : span.stop.line ≤ t.span.start.line :=
    hspan.upper _ fun v hv => (hleft v hv t (List.mem_append_left _ ht)).line
  have hline := (hlaid.upright t (List.mem_append_right _ (List.mem_append_left _ ht))).comment _ htext
  have hbelow : t.span.stop.line < comma.span.start.line := by
    rcases (hgap t ht comma (List.mem_cons_self ..)).comment _ htext with h | h | h
    · rw [hcomma] at h
      cases h
    · rw [hcomma] at h
      cases h
    · exact h
  have hupright := (hlaid.upright comma (by simp)).line
  have hafter := ((List.pairwise_cons.mp hrest).1 u hu).line
  rw [← hspan']
  omega

section Items

variable {α : Type} [Item α] [Content α] [Bearer α] {pending : List Comment} {qs : List (Piece α)}
  {r : List α × List Comment}

/-- What an item takes of the comments behind its comma, and what it leaves. -/
theorem Carries.passed {q a : α} {gs hs : List Token} {c : Token} {rest : List Comment} (hq : Carries ts q)
    (hlaid : Laid S (ts ++ (gs ++ (c :: (hs ++ us))))) (hc : c.kind = .symbol .comma)
    (htake : Item.takeTrailing (Item.lead q pending) (noted hs) = (a, rest)) :
    Kept (pending ++ noted (ts ++ (gs ++ (c :: hs)))) (load (Item.trail a (noted gs)) + .loose rest) ∧
      rest.Sublist (pending ++ noted (ts ++ (gs ++ (c :: hs)))) := by
  obtain ⟨fs, hfs, hkept, hlines⟩ := (hq.kept.lead hq.leading pending).takeTrailing htake
  -- Comments are taken from one side of the comma only.
  have hsides : noted gs ++ fs = fs ++ noted gs := by
    rcases List.eq_nil_or_concat fs with rfl | ⟨fs', d, rfl⟩
    · simp
    rcases List.eq_nil_or_concat (noted gs) with hgs | ⟨before, e, hgs⟩
    · simp [hgs]
    have hlaid' : Laid S (ts ++ (gs ++ (c :: hs))) := hlaid.sublist (by simp)
    have hlt := hq.within.lt_of_comma hlaid' hc (c := e) (d := d) (by simp [hgs]) (by simp [hfs])
    have heq := hlines d (by simp)
    rw [Item.lead, Bearer.span_withComments] at heq
    omega
  have hall : pending ++ noted (ts ++ (gs ++ (c :: hs))) =
      pending ++ noted ts ++ fs ++ noted gs ++ rest := by
    rw [noted_append, noted_append, noted_cons hc rfl, hfs, ← List.append_assoc (noted gs), hsides]
    simp only [List.append_assoc]
  rw [hall]
  exact ⟨(hkept.trail _).add (.loose rest), List.sublist_append_right ..⟩

/-- Items up to a bracket keep the comments among their tokens. -/
theorem Listed.kept (h : Listed pending ts qs r) (hlaid : Laid S ts)
    (hqs : ∀ q ∈ qs, Carries q.tokens q.value) :
    Kept (pending ++ noted ts) ((r.1.map load).sum + .loose r.2) ∧ r.2.Sublist (pending ++ noted ts) := by
  induction h with
  | nil =>
    rw [noted_nil, List.append_nil, List.map_nil, List.sum_nil, zero_add]
    exact ⟨.loose _, List.Sublist.refl _⟩
  | last _ hcomma =>
    have hq := hqs _ (List.mem_singleton_self _)
    refine ⟨?_, List.nil_sublist _⟩
    rw [List.map_singleton, List.sum_singleton, Load.loose_nil, add_zero, noted_append, noted_append,
      noted_append, hcomma.noted rfl, List.nil_append, ← List.append_assoc]
    exact (hq.kept.lead hq.leading _).trail _
  | cons _ hcomma _ htake _ ih =>
    obtain ⟨hq, hqs⟩ := List.forall_mem_cons.mp hqs
    obtain ⟨hrest, hinner⟩ := ih hlaid.right.right.tail.right hqs
    obtain ⟨hkept, hsub⟩ := hq.passed hlaid hcomma htake
    have hall := hkept.pass hsub hrest
    have hinner' := hinner.trans (hsub.append (.refl (noted _)))
    simp only [noted_append, noted_cons hcomma rfl, List.append_assoc] at hall hinner' ⊢
    rw [List.map_cons, List.sum_cons, add_assoc]
    exact ⟨hall, hinner'⟩

/-- What is enclosed keeps the comments among its tokens. -/
theorem Enclosed.kept {close : Symbol} (h : Enclosed close ts qs r) (hlaid : Laid S ts)
    (hqs : ∀ q ∈ qs, Carries q.tokens q.value) :
    Kept (noted ts) ((r.1.map load).sum + .loose r.2) ∧ r.2.Sublist (noted ts) := by
  obtain ⟨-, hlisted, hc⟩ := h
  rw [noted_append, noted_append, noted_cons hc rfl, noted_nil, List.append_nil]
  exact hlisted.kept hlaid.right.left hqs

end Items

section Parts

variable {pending : List Comment}

/-- Parameters keep the comments among their tokens. -/
theorem Parameters.kept {qs : List (Piece Param)} {r : List Param × List Comment} (h : Parameters ts qs r)
    (hlaid : Laid S ts) (hqs : ∀ q ∈ qs, Carries q.tokens q.value) :
    Kept (noted ts) ((r.1.map load).sum + .loose r.2) ∧ r.2.Sublist (noted ts) := by
  cases h with
  | none => exact ⟨.nil, List.nil_sublist _⟩
  | some ho henclosed =>
    rw [noted_cons ho rfl]
    exact henclosed.kept hlaid.tail hqs

/-- The load of an end of a slice. -/
def load? (e : Option Expr) : Load := .ofNodes (Expr.nodes? e)

/-- An end of a slice keeps the comments around it. -/
theorem SliceEnd.kept {q : Option (Piece Expr)} {r : Option Expr × List Comment}
    (h : SliceEnd pending ts q r) (hq : ∀ p ∈ q, Carries p.tokens p.value) :
    Kept (pending ++ noted ts) (load? r.1 + .loose r.2) ∧ r.2.Sublist (pending ++ noted ts) ∧
      (r.1 ≠ none → r.2 = []) := by
  obtain ⟨-, -⟩ := h
  cases q with
  | none =>
    rw [noted_append, noted_append, ← List.append_assoc]
    refine ⟨?_, List.Sublist.refl _, fun hne => absurd rfl hne⟩
    show Kept _ (0 + _)
    rw [zero_add]
    exact .loose _
  | some p =>
    rename_i gs hs
    have hp := hq p rfl
    have hkept := (hp.kept.lead hp.leading (pending ++ noted gs)).trail (noted hs)
    rw [← Load.ofNodes_nodes] at hkept
    refine ⟨?_, List.nil_sublist _, fun _ => rfl⟩
    simpa [Reader.around, load?, Expr.nodes?] using hkept

/-- Arguments keep the comments among their tokens. -/
theorem Arguments.kept {qs : List (Piece Expr)} {args : List Expr} (h : Arguments pending ts qs args)
    (hqs : ∀ q ∈ qs, Carries q.tokens q.value) : Kept (pending ++ noted ts) (args.map load).sum := by
  induction h with
  | last =>
    have hq := hqs _ (List.mem_singleton_self _)
    rw [List.map_singleton, List.sum_singleton]
    exact hq.kept.lead hq.leading _
  | cons hcomma _ htake _ ih =>
    obtain ⟨hq, hqs⟩ := List.forall_mem_cons.mp hqs
    obtain ⟨fs, hfs, hkept, -⟩ := (hq.kept.lead hq.leading _).takeTrailing htake
    have hall := hkept.add (ih hqs)
    rw [noted_append, noted_cons hcomma rfl, noted_append, hfs, List.map_cons, List.sum_cons]
    simpa using hall

end Parts

/-! ## Trees -/

/-- The load of a part. -/
def Part.load : Part → Load
  | .expr e => ScriptBundler.load e
  | .entry e => ScriptBundler.load e
  | .param p => ScriptBundler.load p
  | .stmt a => .ofNodes a.nodes
  | .arms _ r => .ofClauses r
  | .clauses r => .ofClauses r
  | .lines ss => .ofNodes (Stmt.allNodes ss)

namespace Derives

theorem carries {e : Expr} (h : Derives clean ts ps (.expr e)) (hkept : Kept (noted ts) (load e)) :
    Carries ts e := ⟨hkept, h.comments_eq.1, h.within⟩

theorem carries_entry {e : Entry} (h : Derives clean ts ps (.entry e)) (hkept : Kept (noted ts) (load e)) :
    Carries ts e := ⟨hkept, by cases h; rfl, h.within⟩

theorem carries_param {p : Param} (h : Derives clean ts ps (.param p)) (hkept : Kept (noted ts) (load p)) :
    Carries ts p := ⟨hkept, by cases h <;> rfl, h.within⟩

/-- **What is derived without a fault keeps every comment.** -/
theorem kept {x : Part} (hclean : clean) (h : Derives clean ts ps x) (hlaid : Laid S ts) :
    Kept (noted ts) x.load := by
  induction h with
  | literal ht => exact .leaf rfl rfl (noted_cons ht (Literal.remark?_kind _) _)
  | negated ho ht => exact .leaf rfl rfl ((noted_cons ho rfl _).trans (noted_cons ht rfl _))
  | identifier ht => exact .leaf rfl rfl (noted_cons ht rfl _)
  | directive hhash hn hd hsemi =>
    refine .leaf rfl rfl ?_
    rw [noted_cons hhash rfl, noted_cons hn rfl, noted_append, hd.noted, hsemi.noted rfl]
    rfl
  | paren ho _ he _ hc ih =>
    have he := he.carries (ih hlaid.tail.right.left)
    rw [noted_cons ho rfl, noted_append, noted_append, noted_append, noted_cons hc rfl, noted_nil,
      List.append_nil, ← List.append_assoc]
    exact .node rfl ((he.kept.lead he.leading _).trail _).nodes
  | list ho hqs henclosed ih =>
    obtain ⟨hkept, hinner⟩ := henclosed.kept hlaid.tail fun q hq =>
      (hqs q hq).carries (ih q hq (hlaid.tail.sublist (henclosed.sublist q hq)))
    rw [noted_cons ho rfl]
    refine .enclosed rfl ?_ hinner
    rwa [Expr.Form.nodes, Load.ofNodes_exprs]
  | map ho hqs henclosed ih =>
    obtain ⟨hkept, hinner⟩ := henclosed.kept hlaid.tail fun q hq =>
      (hqs q hq).carries_entry (ih q hq (hlaid.tail.sublist (henclosed.sublist q hq)))
    rw [noted_cons ho rfl]
    rw [← Load.ofNodes_entries] at hkept
    exact hkept.enclose hinner
  | function ho hqs hparams _ he hw ihs ih =>
    obtain ⟨hkept, hinner⟩ := hparams.kept hlaid.tail.left fun q hq =>
      (hqs q hq).carries_param (ihs q hq (hlaid.tail.left.sublist (hparams.sublist q hq)))
    rw [noted_cons ho rfl, noted_append, noted_append, noted_cons he rfl, noted_cons hw rfl, noted_nil,
      List.append_nil]
    refine .enclosed rfl ?_ (hinner.trans (List.sublist_append_left ..))
    rw [Expr.Form.nodes, Load.ofNodes_append, Load.ofNodes_params, add_assoc, add_comm (Load.ofNodes _),
      ← add_assoc]
    exact hkept.add (ih hlaid.tail.right.left)
  | member _ _ hdot hf ih =>
    rw [noted_append, noted_cons hdot rfl, noted_cons hf rfl, noted_nil, List.append_nil]
    exact .node rfl (ih hlaid.left).nodes
  | index _ _ ho hq hi hc ihb ihi =>
    obtain ⟨hkept, -, hloose⟩ := hi.kept fun q hq' => by
      obtain rfl := Option.some.inj hq'
      exact hq.carries (ihi (hlaid.right.tail.left.sublist (hi.sublist _ rfl)))
    rw [hloose (by simp), Load.loose_nil, add_zero, List.nil_append] at hkept
    rw [noted_append, noted_cons ho rfl, noted_append, noted_cons hc rfl, noted_nil, List.append_nil]
    refine .node rfl ?_
    rw [Expr.Form.nodes, Load.ofNodes_append]
    exact (ihb hlaid.left).nodes.add hkept
  | slice _ _ ho hp hi hc hp' hj hd ihb ihi ihj =>
    obtain ⟨hstart, hloose, -⟩ := hi.kept fun q hq =>
      (hp q hq).carries (ihi q hq (hlaid.right.tail.left.sublist (hi.sublist q hq)))
    obtain ⟨hstop, hinner, -⟩ := hj.kept fun q hq =>
      (hp' q hq).carries (ihj q hq (hlaid.right.tail.right.tail.left.sublist (hj.sublist q hq)))
    have hends := (ihb hlaid.left).nodes.add (hstart.pass hloose hstop)
    rw [noted_append, noted_cons ho rfl, noted_append, noted_cons hc rfl, noted_append, noted_cons hd rfl,
      noted_nil, List.append_nil]
    refine .enclosed rfl ?_ ((hinner.trans (hloose.append (List.Sublist.refl _))).trans
      (List.sublist_append_right ..))
    rw [Expr.Form.nodes, Load.ofNodes_append, Load.ofNodes_append]
    simpa only [load?, add_assoc, List.nil_append] using hends
  | call _ _ ho hqs henclosed ihb ihs =>
    obtain ⟨hkept, hinner⟩ := henclosed.kept hlaid.right.tail fun q hq =>
      (hqs q hq).carries (ihs q hq (hlaid.right.tail.sublist (henclosed.sublist q hq)))
    rw [noted_append, noted_cons ho rfl]
    exact .call (ihb hlaid.left) hkept hinner
  | command _ _ hqs hargs _ ihe ihs =>
    have hkept := hargs.kept fun q hq =>
      (hqs q hq).carries (ihs q hq (hlaid.right.sublist (hargs.sublist q hq)))
    rw [noted_append]
    refine .stmt (Kept.call (ihe hlaid.left) ?_ (List.nil_sublist _)).nodes rfl
    rwa [Load.loose_nil, add_zero]
  | binary _ _ ho _ hr _ ihl ihr =>
    have hr := hr.carries (ihr hlaid.right.tail.right)
    rw [noted_append, noted_cons ho (BinaryOp.remark?_token _), noted_append]
    exact (ihl hlaid.left).binary _ (hr.kept.lead hr.leading _)
  | unary ho _ _ _ ih =>
    rw [noted_cons ho (UnaryOp.remark?_token _)]
    exact .node rfl (ih hlaid.tail).nodes
  | entry _ _ hc _ _ ihk ihv =>
    rw [noted_append, noted_append, noted_cons hc rfl, noted_append]
    exact .entry (ihk hlaid.left) (ihv hlaid.right.right.tail.right) _ _
  | param hi =>
    rw [noted_cons hi rfl]
    exact .bare .nil
  | default hi ho _ ih =>
    rw [noted_cons hi rfl, noted_cons ho rfl]
    exact .bare (ih hlaid.tail.tail).nodes
  | simple _ ih => exact .stmt (ih hlaid).nodes rfl
  | assign _ _ ho _ ihe ihv =>
    rw [noted_append, noted_cons rfl (remark?_of_assignOp? ho)]
    refine .stmt ?_ rfl
    rw [Stmt.Form.nodes, Load.ofNodes_append]
    exact (ihe hlaid.left).nodes.add (ihv hlaid.right.tail).nodes
  | leave hw | break_ hw | continue_ hw =>
    rw [noted_cons hw rfl]
    exact .stmt .nil rfl
  | return_ hw _ ih =>
    rw [noted_cons hw rfl]
    exact .stmt (ih hlaid.tail).nodes rfl
  | while_ hw _ _ he hz ihc ihb =>
    rw [noted_cons hw rfl, noted_append, noted_append, noted_cons he rfl, noted_cons hz rfl, noted_nil,
      List.append_nil]
    refine .stmt ?_ rfl
    rw [Stmt.Form.nodes, Load.ofNodes_append]
    exact (ihc hlaid.tail.left).nodes.add (ihb hlaid.tail.right.left)
  | for_ hw hi hn _ _ he hz ihc ihb =>
    rw [noted_cons hw rfl, noted_cons hi rfl, noted_cons hn rfl, noted_append, noted_append,
      noted_cons he rfl, noted_cons hz rfl, noted_nil, List.append_nil]
    refine .stmt ?_ rfl
    rw [Stmt.Form.nodes, Load.ofNodes_append]
    exact (ihc hlaid.tail.tail.tail.left).nodes.add (ihb hlaid.tail.tail.tail.right.left)
  | if_ hw _ ih =>
    rw [noted_cons hw rfl]
    refine .stmt ?_ rfl
    rw [Stmt.Form.nodes, Load.ofNodes_append]
    exact ih hlaid.tail
  | inline hw _ hn _ ihc iha =>
    rw [noted_cons hw rfl, noted_append, noted_cons hn rfl, ← List.append_nil (_ ++ _), List.append_assoc]
    exact .mkInline (ihc hlaid.tail.left) (iha hlaid.tail.right.tail) (r := ([], none)) .nil
  | inlineElse hw _ hn _ _ ho _ ihc iha ihb =>
    rw [noted_cons hw rfl, noted_append, noted_cons hn rfl, noted_append, noted_cons ho rfl]
    refine .mkInline (ihc hlaid.tail.left) (iha hlaid.tail.right.tail.left) ?_
    rw [Load.ofClauses_inlineElse]
    exact ihb hlaid.tail.right.tail.right.tail
  | mark hhash hn hd hsemi =>
    rw [noted_cons hhash rfl, noted_cons hn rfl, noted_append, hd.noted, hsemi.noted rfl]
    exact .stmt .nil rfl
  | arm _ hn _ _ ihc ihb ihr =>
    rw [noted_append, noted_cons hn rfl, noted_append]
    exact (ihc hlaid.left).clause (ihb hlaid.right.tail.left) (ihr hlaid.right.tail.right)
  | closed he hw =>
    rw [noted_cons he rfl, noted_cons hw rfl]
    exact .nil
  | else_ ho _ he hw ih =>
    rw [noted_cons ho rfl, noted_append, noted_cons he rfl, noted_cons hw rfl, noted_nil, List.append_nil]
    exact Kept.nil.add (ih hlaid.tail.left)
  | elseIf ho hw _ ih =>
    rw [noted_cons ho rfl, noted_cons hw rfl]
    exact ih hlaid.tail.tail
  | done hgs =>
    rw [hgs.noted]
    exact .nil
  | comment hgs ht _ ih =>
    rw [noted_append, hgs.noted, List.nil_append, noted_comment ht]
    exact (Kept.loose [_]).add (ih hlaid.right.tail)
  | line hgs _ _ iha ihs =>
    rw [noted_append, hgs.noted, List.nil_append, noted_append]
    show Kept _ (.ofNodes (Stmt.nodes _ ++ _))
    rw [Load.ofNodes_append]
    exact (iha hlaid.right.left).add (ihs hlaid.right.right)
  | lost hno => exact absurd hclean hno

end Derives

/-! ## Scripts -/

namespace Source

variable {source : Source} {script : Script}

/-- **Every comment of a text is kept once** by the nodes of its script. -/
theorem kept_of_parse (h : source.parse = .ok script) :
    Kept (noted source.scan.tokens) (.ofNodes script.nodes) := by
  obtain ⟨ts, e, qs, htokens, heof, hgoesOn, hlines, -⟩ := derives_of_parse h
  have hlaid : Laid { token := fun _ => True } ts :=
    laid_of_parse h (fun _ _ _ => trivial) (fun _ _ => trivial) htokens hgoesOn
  rw [htokens, noted_append, noted_cons heof rfl, noted_nil, List.append_nil]
  exact hlines.kept trivial hlaid

/-- **No comment is lost, and none is there twice.**  The comments of a script that was read, whether they
are statements or attached to a node, are the comment tokens of the text with their places; and each list
of comments beside a node is in the order of the text. -/
theorem comments_perm_tokens (hparse : source.parse = .ok script) :
    script.comments.Perm (source.scan.tokens.filterMap comment?) ∧
    (∀ cs ∈ script.attached,
      cs.leading.Sublist (source.scan.tokens.filterMap comment?) ∧
      cs.trailing.Sublist (source.scan.tokens.filterMap comment?) ∧
      cs.inner.Sublist (source.scan.tokens.filterMap comment?)) ∧
    (source.scan.tokens.filterMap comment?).Pairwise fun c d => c.span.stop.offset ≤ d.span.start.offset := by
  have hkept := kept_of_parse hparse
  refine ⟨Multiset.coe_eq_coe.mp hkept.comments, fun cs hcs => ?_, ?_⟩
  · obtain ⟨hleading, htrailing, hinner⟩ := hkept.order cs (Multiset.mem_coe.mpr hcs)
    exact ⟨hleading, htrailing, hinner⟩
  · refine List.Pairwise.filterMap comment? (fun t u htu c hc d hd => ?_) (before_scanFrom ..)
    rw [← (of_comment? hc).2, ← (of_comment? hd).2]
    exact htu.offset

/-- Comments at most of the places where they may stand. -/
def commented : Source where
  name := "main"
  text := "// a\nx = [ // b\n1 // c\n, // d\n2, // e\n// f\n] // g\ny = \x7b// h\n\"k\" // i\n: // j\n3" ++
    "\x7d +// k\nz[// l\n: // m\n]\nf 1, // n\n(// o\n2 // p\n), function(a, // q\nb)\n// r\nend function"

theorem comments_perm_tokens_commented : ∃ script, commented.parse = .ok script ∧
    (script.comments.map Comment.text).Perm
      [" a", " b", " c", " d", " e", " f", " g", " h", " i", " j", " k", " l", " m", " n", " o", " p", " q",
        " r"] := by
  have htexts : (commented.scan.tokens.filterMap comment?).map Comment.text =
      [" a", " b", " c", " d", " e", " f", " g", " h", " i", " j", " k", " l", " m", " n", " o", " p", " q",
        " r"] := by decide +kernel
  have hparse : commented.parse.toOption.isSome = true := by decide +kernel
  cases h : commented.parse with
  | error report => simp [h, Except.toOption] at hparse
  | ok script => exact ⟨script, rfl, htexts ▸ (comments_perm_tokens h).1.map Comment.text⟩

end Source

end ScriptBundler

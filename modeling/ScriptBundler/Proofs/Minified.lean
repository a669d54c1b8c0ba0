import ScriptBundler.Proofs.Induction
import ScriptBundler.Proofs.Standalone

/-!
# Proofs/Minified — what minified text is read as

Minified text has no comments, calls stand for the bitwise operators, and a call without arguments that
is a statement is written without its parentheses.  Beyond that it is read as the tree it was written
from: the operators bind as before, since the tree was read from a text.

The argument goes node by node (`Inductive`).  A node is written from its parts by one of the lemmas of
`Proofs/Writing`, and a line break ends every statement.
-/

namespace ScriptBundler

open Token (Kind)
open Layout
open Reader (isTarget)

/-- What minified text leaves of a tree. -/
def Style.minified : Style where
  binary op l r :=
    match op with
    | .bitOr => .call (Expr.Form.identifier "bitOr").node [l, r]
    | .bitAnd => .call (Expr.Form.identifier "bitAnd").node [l, r]
    | _ => .binary op l r
  callAlone := id
  cons s s' _ ss' := if s.isComment then ss' else s' :: ss'

namespace Minified

/-- What is written in `env` is the image under `st` of what it is written for. -/
structure Fits (S : Stock) (fails : Prop) (env : Env) (st : Style) : Prop
    extends env.scene.Fits S st where
  isName : ∀ x, S.token (.identifier x) → IsName (st.name x)
  name : ∀ x, S.token (.identifier x) → env.scene.naming.identifier x = st.name x
  literal : ∀ l : Literal, l.Proper S →
    Operand True 0 (Expr.Form.literal l).level (st.literal l).node (env.literal l)
  argument : ∀ l : Literal, l.Proper S →
    Operand True 0 (Expr.Form.literal l).level (st.argument l).node (env.guard.literal l)
  shift : ∀ op : BinaryOp, op.isShift = true → S.token op.token → fails
  binary : st.binary = Style.minified.binary
  unary : ∀ op e, op ≠ .neg → st.unary op e = .unary op e
  minus : ∀ e : Expr, e.form.isUnsigned = false → st.unary .neg (e.image st) = (e.image st).negate
  guardMinus : ∀ e : Expr, e.form.isUnsigned = false →
    st.unary .neg (e.image st.guard) = (e.image st.guard).negate
  paren : ∀ e, st.paren e = .paren
  callAlone : st.callAlone = id
  inline : st.inline = id
  debugger : st.debugger = .directive .debugger
  cons : ∀ s s' ss ss', Stmt.Proper S s →
    st.cons s s' ss ss' = if isSilent env.scene s then ss' else s' :: ss'
  onLine : ∀ s, Stmt.Proper S s → s.isComment = false → S.inline s → isSilent env.scene s = false

namespace Fits

variable {S : Stock} {fails : Prop} {env : Env} {st : Style}

/-- Arguments fit the style of arguments. -/
theorem guard (h : Fits S fails env st) : Fits S fails env.guard st.guard where
  valid := h.valid
  directive := h.directive
  include_ := h.include_
  import_ := h.import_
  nativeCall := h.nativeCall
  isName := h.isName
  name := h.name
  literal := h.argument
  argument := h.argument
  shift := h.shift
  binary := h.binary
  unary := h.unary
  minus := h.guardMinus
  guardMinus := h.guardMinus
  paren := h.paren
  callAlone := h.callAlone
  inline := h.inline
  debugger := h.debugger
  cons := h.cons
  onLine := h.onLine

theorem identifier (h : Fits S fails env st) {x : String} (hx : S.token (.identifier x)) :
    env.name x = text (st.name x) := congrArg text (h.name x hx)

end Fits

/-! ## Expressions -/

variable {S : Stock} {fails : Prop} {splicer : Splicer} {env : Env} {st : Style}

/-- `e` is written as its image. -/
def WritesExpr (S : Stock) (fails : Prop) (splicer : Splicer) (e : Expr) : Prop :=
  ∀ env st, Fits S fails env st → e.Proper S →
    (expr splicer env e).Gives fails (Operand True 0 e.level (e.image st))

/-- `s` is written as its image, if it is written at all. -/
def WritesStmt (S : Stock) (fails : Prop) (splicer : Splicer) (s : Stmt) : Prop :=
  ∀ env st, Fits S fails env st → s.Proper S →
    (line splicer env s).Gives fails fun l =>
      isSilent env.scene s = false → Written True 0 (s.image st) l

namespace WritesExpr

/-- Where any operand may stand. -/
theorem loose {e : Expr} (h : WritesExpr S fails splicer e) (hfits : Fits S fails env st)
    (hproper : e.Proper S) {k : Nat} (hk : k ≤ e.level) :
    (expr splicer env e).Gives fails (Operand True 0 k (e.image st)) :=
  (h env st hfits hproper).mono fun _ hl => hl.loosen e.level_le hk

/-- Expressions one after another. -/
theorem exprs : ∀ {es : List Expr}, (∀ e ∈ es, WritesExpr S fails splicer e) →
    Fits S fails env st → Expr.AllProper S es →
    (exprs splicer env es).Gives fails (List.Forall₂ (Operand True 0 0) (Expr.images st es))
  | [], _, _, _ => .pure .nil
  | _ :: _, h, hfits, ⟨he, hes⟩ =>
    (((List.forall_mem_cons.mp h).1).loose hfits he (Nat.zero_le _)).bind fun _ hl =>
      (exprs (List.forall_mem_cons.mp h).2 hfits hes).bind fun _ hls => .pure (.cons hl hls)

/-- An end of a slice. -/
theorem bound {e : Option Expr} (h : ∀ a ∈ e, WritesExpr S fails splicer a)
    (hfits : Fits S fails env st) (hproper : Expr.Proper? S e) :
    (bound splicer env e).Gives fails (Bound True 0 (Expr.image? st e)) := by
  cases e with
  | none => exact .pure .none
  | some e => exact ((h e rfl).loose hfits hproper (Nat.zero_le _)).mono fun _ hl => hl.bound

/-- Entries of a map one after another. -/
theorem entries : ∀ {es : List Entry},
    (∀ a ∈ es, WritesExpr S fails splicer a.key ∧ WritesExpr S fails splicer a.value) →
    Fits S fails env st → Entry.AllProper S es →
    (entries splicer env es).Gives fails
      (List.Forall₂ (Entity EntryPhrase True 0) (Entry.images st es))
  | [], _, _, _ => .pure .nil
  | ⟨_, _, _, _⟩ :: _, h, hfits, ⟨⟨hkey, hvalue, _⟩, hes⟩ => by
    obtain ⟨⟨hk, hv⟩, h⟩ := List.forall_mem_cons.mp h
    refine (hk.loose hfits hkey (Nat.zero_le _)).bind fun _ hk =>
      (hv.loose hfits hvalue (Nat.zero_le _)).bind fun _ hv =>
        (entries h hfits hes).bind fun _ hls => .pure (.cons ?_ hls)
    exact Entity.entry (Spells.closing (s := .colon) rfl) hk hv

/-- Parameters one after another. -/
theorem params : ∀ {ps : List Param}, (∀ p ∈ ps, ∀ e ∈ p.default, WritesExpr S fails splicer e) →
    Fits S fails env st → Param.AllProper S ps →
    (params splicer env ps).Gives fails
      (List.Forall₂ (Entity ParamPhrase True 0) (Param.images st ps))
  | [], _, _, _ => .pure .nil
  | ⟨x, none, _, _⟩ :: _, h, hfits, ⟨⟨hx, _⟩, hps⟩ => by
    refine (params (List.forall_mem_cons.mp h).2 hfits hps).bind fun _ hls => .pure (.cons ?_ hls)
    rw [hfits.identifier hx]
    exact Entity.param (hfits.isName _ hx)
  | ⟨x, some e, _, _⟩ :: _, h, hfits, ⟨⟨hx, he, _⟩, hps⟩ => by
    obtain ⟨hvalue, h⟩ := List.forall_mem_cons.mp h
    refine ((hvalue e rfl).loose hfits.guard he (Nat.zero_le _)).bind fun _ hv =>
      (params h hfits hps).bind fun _ hls => .pure (.cons ?_ hls)
    rw [hfits.identifier hx]
    have hassign := (Spells.name (hfits.isName _ hx)).append (Spells.operator (s := .assign) nofun)
    exact Entity.paramWith hassign.mono hv

theorem infixOp_symbol {op : BinaryOp} {s : Symbol} (h : op.token = .symbol s) :
    infixOp op = s.spelling := by
  unfold infixOp BinaryOp.isWord BinaryOp.spelling
  rw [h]
  rfl

theorem infixOp_keyword {op : BinaryOp} {w : Keyword} (h : op.token = .keyword w) :
    infixOp op = " " ++ w.spelling ++ " " := by
  unfold infixOp BinaryOp.isWord BinaryOp.spelling
  rw [h]
  rfl

/-- An operator without blanks joins, unless it is a word. -/
theorem joiner (op : BinaryOp) : Joiner True 0 op (text (infixOp op)) := by
  refine ⟨[], Gap.nil, ?_, fun _ => rfl⟩
  cases hop : op.token with
  | symbol s =>
    have hs : s ≠ .dot := by
      rintro rfl
      cases op <;> cases hop
    rw [infixOp_symbol hop]
    exact (Spells.operator hs).mono
  | keyword w =>
    rw [infixOp_keyword hop]
    exact ((Spells.blank.concat (Spells.keyword w)).concat .blank).mono
  | _ => cases op <;> cases hop

/-- The call that stands for a bitwise operator. -/
theorem bitwise {call : String} (hcall : IsName call) {a b : Expr} {l l' : Layout}
    (ha : Operand True 0 0 a l) (hb : Operand True 0 0 b l') :
    Operand True 0 11 (Expr.Form.call (Expr.Form.identifier call).node [a, b]).node
      (text (call ++ "(") ++ l ++ text "," ++ l' ++ text ")") := by
  have hargs := Inner.intercalate (Spells.closing (s := .comma) rfl) (.cons ha (.cons hb .nil))
  refine ((Operand.identifier hcall).call hargs).of_foldl fun out => ?_
  simp only [List.foldl_append, foldl_text_append, intercalate, List.intersperse, List.flatten_cons,
    List.flatten_nil, List.foldl_nil]
  rfl

/-- Two operands, or the call that stands for a bitwise operator. -/
theorem binary {op : BinaryOp} {l r : Expr} (hl : WritesExpr S fails splicer l)
    (hr : WritesExpr S fails splicer r) (span : Span) (cs : Comments) :
    WritesExpr S fails splicer ⟨.binary op l r, span, cs⟩ := by
  rintro env st hfits ⟨⟨⟨htoken, -⟩, hleft, hleftLevel, hright, hrightLevel⟩, -⟩
  have himage : Expr.image st ⟨.binary op l r, span, cs⟩ =
      (Style.minified.binary op (l.image st) (r.image st)).node :=
    congrArg (fun f => (f op (l.image st) (r.image st)).node) hfits.binary
  rw [himage, expr]
  split
  · exact .throw (hfits.shift op ‹_› htoken) _
  · have hcall : ∀ call : String, IsName call → (do
        return text (call ++ "(") ++ (← expr splicer env l) ++ text "," ++ (← expr splicer env r) ++
          text ")" : Write Layout).Gives fails (Operand True 0 op.level
            (Expr.Form.call (Expr.Form.identifier call).node [l.image st, r.image st]).node) :=
      fun call hname => (hl.loose hfits hleft (Nat.zero_le _)).bind fun _ ha =>
        (hr.loose hfits hright (Nat.zero_le _)).bind fun _ hb =>
          .pure ((bitwise hname ha hb).loosen (le_refl 11) (Expr.Form.level_le (.binary op l r)))
    have hplain : (do return (← expr splicer env l) ++ text (infixOp op) ++ (← expr splicer env r) :
        Write Layout).Gives fails
          (Operand True 0 op.level (Expr.Form.binary op (l.image st) (r.image st)).node) :=
      (hl.loose hfits hleft hleftLevel).bind fun _ ha =>
        (hr.loose hfits hright hrightLevel).bind fun _ hb => .pure (ha.binary (joiner op) hb)
    cases op with
    | bitOr => exact hcall "bitOr" (by decide)
    | bitAnd => exact hcall "bitAnd" (by decide)
    | _ => exact hplain

end WritesExpr

/-! ## Statements one below the other -/

/-- `l` are the statements `ss`, each with the end of its line. -/
def Lined (ss : List Stmt) (l : Layout) : Prop :=
  (ss = [] ∧ l = []) ∨ ∃ ks, Paragraph ss l ks ∧ said ks = 0

namespace Lined

variable {s : Stmt} {ss : List Stmt} {l l' : Layout}

theorem below (h : Lined ss l) : ∃ ks, Below EndsLine ss l ks ∧ said ks = 0 := by
  rcases h with ⟨rfl, rfl⟩ | ⟨ks, hks, hm⟩
  · exact ⟨_, Below.nil 0, rfl⟩
  · exact ⟨_, hks.below 0, by rw [said_append, said_newlines, hm, add_zero]⟩

theorem body (h : Lined ss l) : Body True 0 ss l := by
  obtain ⟨ks, hks, hm⟩ := h.below
  exact ⟨ks, EndsLine, inferInstance, hks, fun _ => hm⟩

theorem document (h : Lined ss l) : ∃ ks, Document ss l ks ∧ said ks = 0 := by
  rcases h with ⟨rfl, rfl⟩ | ⟨ks, hks, hm⟩
  · exact ⟨[], .nil, rfl⟩
  · obtain ⟨body, hbody, hsaid⟩ := hks.document
    exact ⟨body, hbody, hsaid.trans hm⟩

/-- One more line in front. -/
theorem cons (hs : Written True 0 s l) (h : Lined ss l') : Lined (s :: ss) (l ++ eol ++ l') := by
  obtain ⟨ks, hks, hm⟩ := h.below
  obtain ⟨ls, hls, hsentence, hm'⟩ := hs
  exact .inr ⟨_, .stmt .nil hls hsentence hks, by rw [said_append, hm' trivial, hm, add_zero]⟩

end Lined

namespace WritesStmt

/-- Statements one after another. -/
theorem stmts : ∀ {ss : List Stmt}, (∀ s ∈ ss, WritesStmt S fails splicer s) →
    Fits S fails env st → Stmt.AllProper S ss →
    (stmts splicer env ss).Gives fails (Lined (Stmt.images st ss))
  | [], _, _, _ => .pure (.inl ⟨rfl, rfl⟩)
  | s :: ss, h, hfits, ⟨hs, _, hss⟩ => by
    obtain ⟨hline, h⟩ := List.forall_mem_cons.mp h
    rw [Minified.stmts, hfits.spliced?, Stmt.images, hfits.cons s _ _ _ hs]
    by_cases hsilent : isSilent env.scene s = true
    · rw [if_pos hsilent]
      refine Write.Gives.bind ((hline env st hfits hs).map (R := (· = [])) fun _ _ =>
        if_pos hsilent) fun l hl => (stmts h hfits hss).bind fun _ hl' => .pure ?_
      rwa [hl]
    · rw [if_neg hsilent]
      refine Write.Gives.bind ((hline env st hfits hs).map (R := fun l =>
        ∃ k, l = k ++ eol ∧ Written True 0 (s.image st) k) fun k hk =>
          ⟨k, if_neg hsilent, hk (Bool.eq_false_of_not_eq_true hsilent)⟩) fun l hl =>
        (stmts h hfits hss).bind fun _ hl' => .pure ?_
      obtain ⟨k, rfl, hk⟩ := hl
      exact hl'.cons hk

/-- The statements of a block. -/
theorem block {b : Block} (h : ∀ s ∈ b.stmts, WritesStmt S fails splicer s)
    (hfits : Fits S fails env st) (hproper : b.Proper S) :
    (block splicer env b).Gives fails (Body True 0 (b.image st).stmts) := by
  obtain ⟨ss, span⟩ := b
  exact (stmts h hfits hproper).mono fun _ hl => hl.body

/-- The body of an `if` on one line. -/
theorem inlineBody {b : Block} (h : ∀ s ∈ b.stmts, WritesStmt S fails splicer s)
    (hfits : Fits S fails env st) (hproper : b.Proper S) {Q : Stmt → Prop} (hone : b.IsOne Q)
    (hQ : ∀ s, Q s → S.inline s) :
    ∃ s, Q s ∧ b.image st = ⟨[s.image st], default⟩ ∧
      (inlineBody splicer env b).Gives fails (Written True 0 (s.image st)) := by
  obtain ⟨ss, span⟩ := b
  obtain ⟨s, rfl, hcomment, hs⟩ := hone
  have hline : s.Proper S := hproper.1
  have hsilent := hfits.onLine s hline hcomment (hQ s hs)
  refine ⟨s, hs, ?_, ((h s (by simp)) env st hfits hline).mono fun _ hl => hl hsilent⟩
  rw [Block.image, Stmt.images, hfits.cons s _ _ _ hline, hsilent]
  rfl

/-- **An `if` on one line**, clause by clause. -/
theorem inlineClauses (hfits : Fits S fails env st) :
    ∀ {cs : List Clause} {last : Option Block} (word : String),
      (∀ c ∈ cs, WritesExpr S fails splicer c.condition ∧
        ∀ s ∈ c.body.stmts, WritesStmt S fails splicer s) →
      (∀ b ∈ last, ∀ s ∈ b.stmts, WritesStmt S fails splicer s) →
      Clause.AllProper S cs → Block.Proper? S last → OnOneLine S.inline cs last →
      (inlineClauses splicer env word cs).Gives fails fun l =>
        (inlineElse splicer env last).Gives fails fun l' =>
          ∃ r, l ++ l' = text word ++ r ∧
            Inline True 0 (Clause.images st cs) (Block.image? st last) r
  | [⟨c, b, _⟩], none, word, hcs, _, ⟨⟨hc, hb⟩, _⟩, _, hone => by
    obtain ⟨hcond, hbody⟩ := hcs _ (List.mem_singleton_self _)
    obtain ⟨s, -, himage, hs⟩ := inlineBody hbody hfits hb hone fun _ h => h
    refine (hcond.loose hfits hc (Nat.zero_le _)).bind fun l hl => hs.bind fun l' hl' => ?_
    refine .pure (.pure ⟨l ++ text " then " ++ l', by simp, ?_⟩)
    rw [Clause.images, himage]
    exact Inline.alone hl hl'
  | [⟨c, b, _⟩], some b', word, hcs, hlast, ⟨⟨hc, hb⟩, _⟩, hb', ⟨hone, hone'⟩ => by
    obtain ⟨hcond, hbody⟩ := hcs _ (List.mem_singleton_self _)
    obtain ⟨s, ⟨-, hopen⟩, himage, hs⟩ := inlineBody hbody hfits hb hone fun _ h => h.1
    obtain ⟨t, ⟨-, hinline⟩, himage', ht⟩ := inlineBody (hlast _ rfl) hfits hb' hone' fun _ h => h.1
    have hdebugger : st.debugger.node.isInline = false := by rw [hfits.debugger]; rfl
    refine (hcond.loose hfits hc (Nat.zero_le _)).bind fun l hl => hs.bind fun l' hl' => ?_
    refine .pure (ht.bind fun l'' hl'' => .pure
      ⟨l ++ text " then " ++ l' ++ (text " else " ++ l''), by simp, ?_⟩)
    rw [Clause.images, himage, Block.image?, himage']
    exact Inline.else_ hl hl' (isOpen_image hfits.inline hdebugger s ▸ hopen) hl''
      (isInline_image hfits.inline hdebugger t ▸ hinline)
  | ⟨c, b, _⟩ :: d :: cs, last, word, hcs, hlast, ⟨⟨hc, hb⟩, hmore⟩, hb', ⟨hone, hones⟩ => by
    obtain ⟨⟨hcond, hbody⟩, hcs⟩ := List.forall_mem_cons.mp hcs
    obtain ⟨s, ⟨-, hopen⟩, himage, hs⟩ := inlineBody hbody hfits hb hone fun _ h => h.1
    have hdebugger : st.debugger.node.isInline = false := by rw [hfits.debugger]; rfl
    refine (hcond.loose hfits hc (Nat.zero_le _)).bind fun l hl => hs.bind fun l' hl' => ?_
    refine (inlineClauses hfits " else if " hcs hlast hmore hb' hones).bind fun k hk =>
      .pure (hk.mono ?_)
    rintro k' ⟨r, hr, hinline⟩
    refine ⟨l ++ text " then " ++ l' ++ (text " else if " ++ r), by simp [← hr], ?_⟩
    rw [Clause.images, himage]
    exact Inline.chain hl hl' (isOpen_image hfits.inline hdebugger s ▸ hopen) hinline

/-- **An `if` with blocks**, clause by clause. -/
theorem blockClauses (hfits : Fits S fails env st) :
    ∀ {cs : List Clause} {last : Option Block} (word : String), cs ≠ [] →
      (∀ c ∈ cs, WritesExpr S fails splicer c.condition ∧
        ∀ s ∈ c.body.stmts, WritesStmt S fails splicer s) →
      (∀ b ∈ last, ∀ s ∈ b.stmts, WritesStmt S fails splicer s) →
      Clause.AllProper S cs → Block.Proper? S last →
      (blockClauses splicer env word cs).Gives fails fun l =>
        (blockElse splicer env last).Gives fails fun l' =>
          ∃ e k r, l ++ l' = text word ++ k ++ text " then" ++ r ∧ Operand True 0 0 e k ∧
            Branching True 0 e (Clause.images st cs) (Block.image? st last) r
  | [], _, _, hne, _, _, _, _ => absurd rfl hne
  | [⟨c, ⟨_, _⟩, _⟩], none, word, _, hcs, _, ⟨⟨hc, hb⟩, _⟩, _ => by
    obtain ⟨hcond, hbody⟩ := hcs _ (List.mem_singleton_self _)
    refine (hcond.loose hfits hc (Nat.zero_le _)).bind fun l hl =>
      (block hbody hfits hb).bind fun l' hl' => ?_
    exact .pure (.pure ⟨_, l, eol ++ l', by simp, hl, .last hl'⟩)
  | [⟨c, ⟨_, _⟩, _⟩], some ⟨_, _⟩, word, _, hcs, hlast, ⟨⟨hc, hb⟩, _⟩, hb' => by
    obtain ⟨hcond, hbody⟩ := hcs _ (List.mem_singleton_self _)
    refine (hcond.loose hfits hc (Nat.zero_le _)).bind fun l hl =>
      (block hbody hfits hb).bind fun l' hl' => ?_
    refine .pure ((block (hlast _ rfl) hfits hb').bind fun l'' hl'' => ?_)
    exact .pure ⟨_, l, eol ++ l' ++ ([] ++ text "else" ++ eol ++ l''), by simp, hl,
      .else_ .nil hl' hl''⟩
  | ⟨c, ⟨_, _⟩, _⟩ :: d :: cs, last, word, _, hcs, hlast, ⟨⟨hc, hb⟩, hmore⟩, hb' => by
    obtain ⟨⟨hcond, hbody⟩, hcs⟩ := List.forall_mem_cons.mp hcs
    refine (hcond.loose hfits hc (Nat.zero_le _)).bind fun l hl =>
      (block hbody hfits hb).bind fun l' hl' => ?_
    refine (blockClauses hfits "else if " (by simp) hcs hlast hmore hb').bind fun k hk =>
      .pure (hk.mono ?_)
    rintro k' ⟨e, i, r, hr, he, hbranch⟩
    exact ⟨_, l, eol ++ l' ++ ([] ++ text "else if " ++ i ++ text " then" ++ r), by simp [hr], hl,
      .elseIf .nil hl' he hbranch⟩

end WritesStmt

/-! ## Node by node -/

/-- A function. -/
theorem WritesExpr.function {ps : List Param} {b : Block}
    (hps : ∀ p ∈ ps, ∀ e ∈ p.default, WritesExpr S fails splicer e)
    (hb : ∀ s ∈ b.stmts, WritesStmt S fails splicer s) (span : Span) (cs : Comments) :
    WritesExpr S fails splicer ⟨.function ps b, span, cs⟩ := by
  rintro env st hfits ⟨⟨hps', hb'⟩, -⟩
  obtain ⟨ss, bspan⟩ := b
  refine (WritesExpr.params hps hfits hps').bind fun ls hls =>
    (WritesStmt.block hb hfits hb').bind fun l hl => .pure ?_
  have hparams : Params True 0 (Param.images st ps)
      (if ls.isEmpty then [] else text "(" ++ intercalate "," ls ++ text ")") := by
    cases ls with
    | nil =>
      rw [List.forall₂_nil_right_iff.mp hls]
      exact .none
    | cons => exact .some (.intercalate (Spells.closing (s := .comma) rfl) hls)
  exact (Operand.function (i := []) .nil hparams hl).of_eq (by simp)

/-- An `if` of either shape. -/
theorem WritesStmt.if_ {cs : List Clause} {last : Option Block} (inline : Bool) (span : Span)
    (hcs : ∀ c ∈ cs, WritesExpr S fails splicer c.condition ∧
      ∀ s ∈ c.body.stmts, WritesStmt S fails splicer s)
    (hlast : ∀ b ∈ last, ∀ s ∈ b.stmts, WritesStmt S fails splicer s) :
    WritesStmt S fails splicer ⟨.if_ cs last inline, span⟩ := by
  rintro env st hfits ⟨hne, hcs', hlast', hone⟩
  have himage : Stmt.image st ⟨.if_ cs last inline, span⟩ =
      (Stmt.Form.if_ (Clause.images st cs) (Block.image? st last) inline).node := by
    rw [Stmt.image, Stmt.Form.image, hfits.inline]
    rfl
  rw [himage]
  cases inline with
  | true =>
    refine (inlineClauses hfits "if " hcs hlast hcs' hlast' (hone rfl)).bind fun l hl =>
      hl.bind fun l' hl' => .pure fun _ => ?_
    obtain ⟨r, hr, hinline⟩ := hl'
    rw [hr]
    exact hinline.written
  | false =>
    refine (blockClauses hfits "if " hne hcs hlast hcs' hlast').bind fun l hl =>
      hl.bind fun l' hl' => .pure fun _ => ?_
    obtain ⟨e, k, r, hr, he, hbranch⟩ := hl'
    rw [hr]
    exact (Branching.written (i := []) .nil he hbranch).of_eq (by simp)

/-- A call without arguments is written as what it calls. -/
theorem WritesStmt.expr {e : Expr} (he : WritesExpr S fails splicer e)
    (hcallee : ∀ c ∈ e.loneCallee?, WritesExpr S fails splicer c) (span : Span) :
    WritesStmt S fails splicer ⟨.expr e, span⟩ := by
  intro env st hfits h
  obtain ⟨form, span', cs⟩ := e
  have hwhole := he.loose hfits h (Nat.zero_le _)
  cases form with
  | call c args =>
    cases args with
    | nil =>
      refine ((hcallee c rfl).loose hfits h.1.1 (Nat.zero_le _)).mono fun l hl _ => ?_
      have himage : Stmt.image st ⟨.expr ⟨.call c [], span', cs⟩, span⟩ =
          (Stmt.Form.expr (st.callAlone (c.image st))).node := rfl
      rw [himage, hfits.callAlone]
      exact .expr hl
    | cons => exact hwhole.mono fun l hl _ => .expr hl
  | _ => exact hwhole.mono fun l hl _ => .expr hl

/-- **Every node is written as its image.** -/
theorem inductive_writes (S : Stock) (fails : Prop) (splicer : Splicer) :
    Inductive (WritesExpr S fails splicer) (WritesStmt S fails splicer) where
  literal l span cs := fun env st hfits h => .pure (hfits.literal l h.1)
  list es span cs hes := fun env st hfits h =>
    (WritesExpr.exprs hes hfits h.1).bind fun ls hls =>
      .pure (.list (.intercalate (Spells.closing (s := .comma) rfl) hls))
  map es span cs hes := fun env st hfits h =>
    (WritesExpr.entries hes hfits h.1).bind fun ls hls =>
      .pure (.map (.intercalate (Spells.closing (s := .comma) rfl) hls))
  identifier x span cs := fun env st hfits h => by
    rw [expr, hfits.identifier h.1]
    exact .pure (.identifier (hfits.isName x h.1))
  member b x span cs hb := fun env st hfits ⟨⟨hb', hlevel, hx⟩, _⟩ =>
    (hb.loose hfits hb' hlevel).bind fun l hl => .pure (hl.member (hfits.valid _ hx))
  index b i span cs hb hi := fun env st hfits ⟨⟨hb', hlevel, hi', _⟩, _⟩ =>
    (hb.loose hfits hb' hlevel).bind fun l hl =>
      (hi.loose hfits hi' (Nat.zero_le _)).bind fun l' hl' => 
        .pure ((hl.index hl'.bound).of_eq (by simp))
  slice b i j span cs hb hi hj := fun env st hfits ⟨⟨hb', hlevel, hi', hj'⟩, _⟩ =>
    (hb.loose hfits hb' hlevel).bind fun l hl =>
      (WritesExpr.bound hi hfits hi').bind fun l' hl' =>
        (WritesExpr.bound hj hfits hj').bind fun l'' hl'' => 
          .pure ((hl.slice hl' hl'').of_eq (by simp))
  call c es span cs hc hes := fun env st hfits ⟨⟨hc', hlevel, hes'⟩, _⟩ => by
    rw [expr, hfits.nativeCall]
    refine (hc.loose hfits hc' hlevel).bind fun l hl =>
      (WritesExpr.exprs hes hfits.guard hes').bind fun ls hls => .pure ?_
    exact (hl.call (.intercalate (Spells.closing (s := .comma) rfl) hls)).of_eq (by simp; rfl)
  binary op l r span cs hl hr := hl.binary hr span cs
  unary op e span cs he := fun env st hfits ⟨⟨he', hlevel, hneg⟩, _⟩ => by
    refine (he.loose hfits he' hlevel).bind fun l hl => .pure ?_
    have himage : st.unary op (e.image st) =
        if op = .neg then (e.image st).negate else .unary op (e.image st) := by
      split
      · subst op
        exact hfits.minus e (hneg rfl)
      · exact hfits.unary op _ ‹_›
    have hnode : Expr.image st ⟨.unary op e, span, cs⟩ = (st.unary op (e.image st)).node := rfl
    rw [hnode, himage]
    exact hl.unary
  function ps b span cs hps hb := .function hps hb span cs
  paren e span cs he := fun env st hfits h => by
    refine (he.loose hfits h.1 (Nat.zero_le _)).bind fun l hl => .pure ?_
    have hnode : Expr.image st ⟨.paren e, span, cs⟩ = (st.paren e (e.image st)).node := rfl
    rw [hnode, hfits.paren]
    exact .paren hl.bound
  directive d span cs := fun env st hfits h => .pure (hfits.directive d _ h.1)
  assign op target value span ht hv := fun env st hfits ⟨ht', htarget, hv'⟩ =>
    (ht.loose hfits ht' (Nat.zero_le _)).bind fun l hl =>
      (hv.loose hfits hv' (Nat.zero_le _)).bind fun l' hl' => .pure fun _ =>
        .assign op (Spells.operator op.symbol_ne_dot).mono hl (isTarget_image st htarget) hl'
  expr e span he hcallee := .expr he hcallee span
  return_ value span hv := fun env st hfits h => by
    cases value with
    | none => exact .pure fun _ => .return_none
    | some e =>
      exact ((hv e rfl).loose hfits h (Nat.zero_le _)).bind fun l hl => .pure fun _ => .return_some hl
  break_ span := fun env st hfits h => .pure fun _ => .break_
  continue_ span := fun env st hfits h => .pure fun _ => .continue_
  if_ cs last inline span hcs hlast := .if_ inline span hcs hlast
  while_ c b span hc hb := fun env st hfits ⟨hc', hb'⟩ => by
    obtain ⟨ss, bspan⟩ := b
    refine (hc.loose hfits hc' (Nat.zero_le _)).bind fun l hl =>
      (WritesStmt.block hb hfits hb').bind fun l' hl' => .pure fun _ => ?_
    exact (Written.while_ (i := []) .nil hl hl').of_eq (by simp)
  for_ item e b span he hb := fun env st hfits ⟨hx, he', hb'⟩ => by
    obtain ⟨ss, bspan⟩ := b
    refine (he.loose hfits he' (Nat.zero_le _)).bind fun l hl =>
      (WritesStmt.block hb hfits hb').bind fun l' hl' => .pure fun _ => ?_
    rw [hfits.identifier hx]
    have hhead := (((Spells.keyword .for_).concat .blank).append
      (Spells.name (hfits.isName _ hx))).append
        ((Spells.blank.concat (Spells.keyword .in_)).concat .blank)
    exact (Written.for_ (i := []) .nil hhead.mono hl hl').of_eq (by simp; rfl)
  comment t span := fun env st hfits h => .pure nofun
  mark d span := fun env st hfits h => by
    cases d with
    | import_ x path =>
      refine .pure fun _ => ?_
      rw [Scene.importText, hfits.import_, hfits.name _ h.2]
      exact .import_ (hfits.isName _ h.2) path
    | include_ path =>
      refine .pure fun _ => ?_
      rw [hfits.include_]
      exact .include_ path
    | debugger =>
      refine .pure fun hsilent => ?_
      have hdev : env.scene.settings.devMode = true := by simpa [isSilent] using hsilent
      rw [if_pos hdev]
      show Written True 0 st.debugger.node _
      rw [hfits.debugger]
      exact .debugger

/-- **A minified script is read as its image**, and has no comments. -/
theorem script_gives {scene : Scene} {s : Script} (hfits : Fits S fails { scene } st)
    (hproper : Stmt.AllProper S s.body) :
    (script scene s).Gives fails fun l =>
      ∃ ks, Document (Stmt.images st s.body) l ks ∧ said ks = 0 :=
  (WritesStmt.stmts ((inductive_writes S fails _).stmts s.body) hfits hproper).mono
    fun _ hl => hl.document

/-! ## The round trip -/

/-- In development only comments are silent. -/
theorem isSilent_eq {scene : Scene} {s : Stmt}
    (h : s.isDebugger = true → scene.settings.devMode = true) : isSilent scene s = s.isComment := by
  obtain ⟨form, span⟩ := s
  cases form with
  | directive d =>
    cases d with
    | debugger => simpa [isSilent, Stmt.isComment] using h rfl
    | _ => rfl
  | _ => rfl

/-- A script on its own fits the style, if names and constants stay. -/
theorem fits_minified {source : Source} (script : Script) {settings : Settings}
    (hhoists : settings.hoists = false) (hrenames : settings.renames = false)
    (hdirectives : source.KeepsDirectives settings)
    (hshift : ∀ t ∈ source.scan.tokens, ∀ op ∈ [BinaryOp.shiftLeft, .shiftRight, .shiftRightZero],
      t.kind ≠ op.token) :
    Fits source.stock False { scene := source.scene script settings } .minified := by
  have hsettings : (source.naming script settings).settings = settings := Source.settings_scene
  have hliteral : ∀ l : Literal, l.Proper source.stock →
      Operand True 0 (Expr.Form.literal l).level (Expr.Form.literal l).node (text l.raw) :=
    fun l hl => .literal (fun _ => Source.valid_stock) hl
  have hminus : ∀ e : Expr, e.form.isUnsigned = false →
      .unary .neg (e.image .minified) = (e.image .minified).negate := fun e he =>
    (Expr.negate_of_not_isUnsigned (isUnsigned_image rfl (fun _ _ => rfl)
      (fun op _ _ => by cases op <;> rfl) (fun _ _ => rfl) (fun _ _ => rfl) he)).symm
  have hsilent : ∀ s : Stmt, s.Proper source.stock →
      isSilent (source.scene script settings) s = s.isComment := fun s hs =>
    isSilent_eq fun h => Source.settings_scene.symm ▸ hdirectives.devMode_of_isDebugger hs h
  exact {
    toFits := hdirectives.fits rfl
    isName := fun x hx => Source.valid_stock hx
    name := fun x _ => Naming.identifier_of_not_renames _ (hsettings.symm ▸ hrenames) x
    literal := fun l hl => by
      rw [Env.literal, Naming.slot?_of_not_hoists _ (hsettings.symm ▸ hhoists)]
      exact hliteral l hl
    argument := hliteral
    shift := fun op hop ⟨_, t, ht, hkind⟩ =>
      hshift t ht op (by revert hop; cases op <;> decide) hkind
    binary := rfl
    unary := fun _ _ _ => rfl
    minus := hminus
    guardMinus := hminus
    paren := fun _ => rfl
    callAlone := rfl
    inline := rfl
    debugger := rfl
    cons := fun s _ _ _ hs => by rw [hsilent s hs]; rfl
    onLine := fun s hs hcomment _ => (hsilent s hs).trans hcomment }

end Minified

/-- **Minifying keeps the program.**  The text has no comments, and it is read as the tree it was
written from, with calls for bitwise operators and no parentheses after calls that are statements and
have no arguments. -/
theorem Source.parse_bundle_minified {source : Source} {script : Script} {settings : Settings}
    (hparse : source.parse = .ok script) (hmode : settings.mode = .minified)
    (hhoisting : settings.disableLiteralHoisting = true) (hobfuscate : settings.obfuscate = false)
    (hdirectives : source.KeepsDirectives settings)
    (hshift : ∀ t ∈ source.scan.tokens, ∀ op ∈ [BinaryOp.shiftLeft, .shiftRight, .shiftRightZero],
      t.kind ≠ op.token) :
    ∃ t, source.bundle settings = .ok t ∧ ∀ name, spoken (Source.mk name t).scan.tokens = 0 ∧
      ((Source.mk name t).NestsTooDeep ∨ ∃ script', (Source.mk name t).parse = .ok script' ∧
        script'.body.map Stmt.bare = Stmt.images .minified script.body) := by
  have hhoists : settings.hoists = false := by simp [Settings.hoists, hhoisting]
  have hrenames : settings.renames = false := by simp [Settings.renames, hobfuscate]
  have hfits := Minified.fits_minified script hhoists hrenames hdirectives hshift
  have hwritten := Minified.script_gives (s := script) hfits (readFrom_stock hparse).proper
  have hscript : (source.scene script settings).script script =
      Minified.script (source.scene script settings) script := by
    unfold Scene.script
    rw [settings_scene, hmode]
  obtain ⟨l, ⟨ks, hdocument, hsaid⟩, hbundle⟩ := exists_bundle hparse hhoists (hscript ▸ hwritten)
  exact ⟨l.join, hbundle, fun name =>
    ⟨(hdocument.spoken name).trans hsaid, hdocument.parse name⟩⟩

/-- A bitwise operator, a comment, and a call that is a statement. -/
def Source.bitwise : Source where
  name := "main"
  text := "a=b|-1//c\nf()"

theorem Source.parse_bundle_minified_bitwise :
    ∃ script t, bitwise.parse = .ok script ∧
      bitwise.bundle { mode := .minified, disableLiteralHoisting := true } = .ok t ∧
      t = "a=bitOr(b,-1)\nf" ∧
      ∀ name, spoken (Source.mk name t).scan.tokens = 0 ∧
        ∃ script', (Source.mk name t).parse = .ok script' ∧
          script'.body.map Stmt.bare = Stmt.images .minified script.body := by
  have hsome : bitwise.parse.toOption.isSome = true := by decide +kernel
  have houtput : (bitwise.bundle { mode := .minified, disableLiteralHoisting := true }).toOption =
      some "a=bitOr(b,-1)\nf" := by decide +kernel
  obtain ⟨script, hscript⟩ := Option.isSome_iff_exists.mp hsome
  have hparse := Except.toOption_eq_some hscript
  have hmode : ({ mode := .minified, disableLiteralHoisting := true } : Settings).mode = .minified := rfl
  obtain ⟨t, ht, hkept⟩ := parse_bundle_minified hparse hmode rfl rfl (.inr (by decide +kernel))
    (by decide +kernel)
  obtain rfl := Except.ok.inj (ht.symm.trans (Except.toOption_eq_some houtput))
  exact ⟨script, _, hparse, ht, rfl, fun name => (hkept name).imp_right fun h =>
    h.resolve_left (not_nestsTooDeep (by decide +kernel) name)⟩

end ScriptBundler

import ScriptBundler.Proofs.Postings
import ScriptBundler.Proofs.Proper

/-!
# Proofs/Derivation — which tokens a tree stands for

    x ^ // c        ◂ tokens `x`, `^`, comment, line break, `2`
    2               ◂ a power whose right operand is led by the comment

`Derives clean ts ps x` says that the part `x` of a tree stands for the tokens `ts`, with the places that
the reader gives to it, and that the reader puts `ps` on record on its way.  There is one rule for each
production of the grammar.  If `clean` does not hold, lines that could not be read may stand among those
of a block.

What is to be known of every tree that is read follows by induction over these rules, without a look at
the reader.
-/

namespace ScriptBundler

open Token (Kind)
open Reader (isLayout isSeparator comment? around single isTarget assignOp? mkBinary mkUnary)

/-! ## Between the parts -/

/-- Line breaks and comments where a line goes on. -/
def IsGap (ts : List Token) : Prop := ∀ t ∈ ts, isLayout t.kind = true

/-- What stands between statements. -/
def IsBreak (ts : List Token) : Prop := ∀ t ∈ ts, isSeparator t.kind = true

/-- A token that may be left out. -/
def IsAtMost (k : Kind) (t : Option Token) : Prop := ∀ u ∈ t, u.kind = k

/-- The comments among tokens. -/
def noted (ts : List Token) : List Comment := ts.filterMap comment?

/-- Where the last of the tokens stands. -/
def lastSpan (ts : List Token) : Span := (ts.getLast?.map Token.span).getD (.point .first)

/-- An item with the tokens it stands for and what they put on record. -/
structure Piece (α : Type) where
  tokens : List Token
  postings : List Posting
  value : α

/-- Items with commas between them.  `pending` are the comments before the first one; what is left over
is yielded. -/
inductive Listed {α : Type} [Item α] :
    List Comment → List Token → List (Piece α) → List α × List Comment → Prop
  | nil : Listed pending [] [] ([], pending)
  | last : IsGap gs → IsAtMost (.symbol .comma) c → IsGap hs →
      Listed pending (q.tokens ++ (gs ++ (c.toList ++ hs))) [q]
        ([Item.trail (Item.lead q.value pending) (noted gs ++ noted hs)], [])
  | cons : IsGap gs → c.kind = .symbol .comma → IsGap hs →
      Item.takeTrailing (Item.lead q.value pending) (noted hs) = (a, rest) →
      Listed rest ts (r :: qs) (as, held) →
      Listed pending (q.tokens ++ (gs ++ (c :: (hs ++ ts)))) (q :: r :: qs)
        (Item.trail a (noted gs) :: as, held)

/-- Items up to a closing bracket, and the bracket. -/
inductive Enclosed {α : Type} [Item α] (close : Symbol) :
    List Token → List (Piece α) → List α × List Comment → Prop
  | mk : IsGap gs → Listed (noted gs) ts qs r → c.kind = .symbol close →
      Enclosed close (gs ++ (ts ++ [c])) qs r

/-- The parameters of a function, which may be left out. -/
inductive Parameters : List Token → List (Piece Param) → List Param × List Comment → Prop
  | none : Parameters [] [] ([], [])
  | some : o.kind = .symbol .openParen → Enclosed .closeParen ts qs r → Parameters (o :: ts) qs r

/-- An end of a slice, which may be left out, with the comments before and behind it.  `loose` are those
left over before it. -/
inductive SliceEnd : List Comment → List Token → Option (Piece Expr) → Option Expr × List Comment → Prop
  | mk : IsGap gs → IsGap hs →
      SliceEnd loose (gs ++ (q.toList.flatMap Piece.tokens ++ hs)) q
        (around (q.map Piece.value) (loose ++ noted gs) (noted hs))

/-- The arguments of a call without parentheses. -/
inductive Arguments : List Comment → List Token → List (Piece Expr) → List Expr → Prop
  | last : Arguments pending q.tokens [q] [Item.lead q.value pending]
  | cons : c.kind = .symbol .comma → IsGap gs →
      Item.takeTrailing (Item.lead q.value pending) (noted gs) = (a, rest) →
      Arguments rest ts qs as →
      Arguments pending (q.tokens ++ (c :: (gs ++ ts))) (q :: qs) (a :: as)

section Sublists

variable {α : Type} [Item α] {pending : List Comment} {ts : List Token}

theorem Piece.sublist {α : Type} {qs : List (Piece α)} (h : (qs.flatMap Piece.tokens).Sublist ts) :
    ∀ q ∈ qs, q.tokens.Sublist ts :=
  fun _ hq => (List.sublist_flatten_of_mem (List.mem_map_of_mem hq)).trans h

/-- Items stand for some of the tokens, in order. -/
theorem Listed.flatMap_sublist {qs : List (Piece α)} {r : List α × List Comment}
    (h : Listed pending ts qs r) : (qs.flatMap Piece.tokens).Sublist ts := by
  induction h with
  | nil => exact .slnil
  | last => simp
  | cons _ _ _ _ _ ih =>
    rw [List.flatMap_cons]
    exact .append (.refl _) (((ih.trans (List.sublist_append_right ..)).cons _).trans
      (List.sublist_append_right ..))

theorem Enclosed.flatMap_sublist {close : Symbol} {qs : List (Piece α)} {r : List α × List Comment}
    (h : Enclosed close ts qs r) : (qs.flatMap Piece.tokens).Sublist ts := by
  obtain ⟨-, hlisted, -⟩ := h
  exact (hlisted.flatMap_sublist.trans (List.sublist_append_left ..)).trans
    (List.sublist_append_right ..)

/-- Parameters stand for some of the tokens, in order. -/
theorem Parameters.flatMap_sublist {qs : List (Piece Param)} {r : List Param × List Comment}
    (h : Parameters ts qs r) : (qs.flatMap Piece.tokens).Sublist ts := by
  cases h with
  | none => exact .slnil
  | some _ henclosed => exact henclosed.flatMap_sublist.cons _

theorem SliceEnd.sublist {q : Option (Piece Expr)} {r : Option Expr × List Comment}
    (h : SliceEnd pending ts q r) : ∀ p ∈ q, p.tokens.Sublist ts := by
  obtain ⟨-, -⟩ := h
  rintro p rfl
  simp

/-- Arguments stand for some of the tokens, in order. -/
theorem Arguments.flatMap_sublist {qs : List (Piece Expr)} {args : List Expr}
    (h : Arguments pending ts qs args) : (qs.flatMap Piece.tokens).Sublist ts := by
  induction h with
  | last => simp
  | cons _ _ _ _ ih =>
    rw [List.flatMap_cons]
    exact .append (.refl _) ((ih.trans (List.sublist_append_right ..)).cons _)

theorem Enclosed.sublist {close : Symbol} {qs : List (Piece α)} {r : List α × List Comment}
    (h : Enclosed close ts qs r) : ∀ q ∈ qs, q.tokens.Sublist ts := Piece.sublist h.flatMap_sublist

theorem Parameters.sublist {qs : List (Piece Param)} {r : List Param × List Comment}
    (h : Parameters ts qs r) : ∀ q ∈ qs, q.tokens.Sublist ts := Piece.sublist h.flatMap_sublist

theorem Arguments.sublist {qs : List (Piece Expr)} {args : List Expr} (h : Arguments pending ts qs args) :
    ∀ q ∈ qs, q.tokens.Sublist ts := Piece.sublist h.flatMap_sublist

end Sublists

/-- What follows the name of a directive that stands for a value. -/
inductive ValueDirective.Follows : String → List Token → ValueDirective → Prop
  | envar : t.kind = .identifier x → Follows "envar" [t] (.envar x)
  | inject : t.kind = .string raw path → Follows "inject" [t] (.inject path)
  | line : Follows "line" [] .line
  | filename : Follows "filename" [] .filename

/-- What follows the name of a directive that is a statement. -/
inductive Directive.Follows : String → List Token → Directive → Prop
  | import_ : i.kind = .identifier x → f.kind = .identifier "from" → t.kind = .string raw path →
      Follows "import" [i, f, t] (.import_ ⟨x, i.span⟩ path)
  | include_ : t.kind = .string raw path → Follows "include" [t] (.include_ path)
  | debugger : Follows "debugger" [] .debugger

/-- The token of a constant without a sign. -/
def Literal.kind : Literal → Kind
  | number raw value _ => .number raw value
  | string raw value => .string raw value
  | bool true => .keyword .true
  | bool false => .keyword .false
  | null => .keyword .null

/-- A call with what it puts on record after its arguments. -/
def callPostings (callee : Expr) (args : List Expr) : List Posting :=
  (nativeTarget? callee args).toList.map .native

/-- An `if` on one line whose first clause guards `body`. -/
def mkInline (start : Span) (condition : Expr) (body : Stmt) (r : List Clause × Option Block) : Stmt :=
  let clause : Clause := ⟨condition, single body, start.merge (single body).span⟩
  let stop := match r.2 with
    | some block => block.span
    | none => ((clause :: r.1).getLast?.map Clause.span).getD start
  ⟨.if_ (clause :: r.1) r.2 true, start.merge stop⟩

/-! ## The rules -/

/-- What tokens may stand for. -/
inductive Part where
  | expr (e : Expr)
  | entry (e : Entry)
  | param (p : Param)
  | stmt (s : Stmt)
  /-- The clauses of an `if` with blocks, from a condition that belongs to a word at `start` on. -/
  | arms (start : Span) (r : List Clause × Option Block)
  /-- What follows a clause of an `if` with blocks. -/
  | clauses (r : List Clause × Option Block)
  /-- The statements of a block. -/
  | lines (ss : List Stmt)

/-- The part stands for the tokens, which put the postings on record. -/
inductive Derives (clean : Prop) : List Token → List Posting → Part → Prop
  | literal : t.kind = l.kind → 11 ≤ (Expr.Form.literal l).level →
      Derives clean [t] [.literal l] (.expr ⟨.literal l, t.span, {}⟩)
  | negated : o.kind = .symbol .minus → t.kind = .number raw value →
      Derives clean [o, t] [.literal (.number raw value true)]
        (.expr ⟨.literal (.number raw value true), o.span.merge t.span, {}⟩)
  | identifier : t.kind = .identifier x →
      Derives clean [t] [.mention (.name x)] (.expr ⟨.identifier x, t.span, {}⟩)
  | paren : o.kind = .symbol .openParen → IsGap gs → Derives clean ts ps (.expr e) → IsGap hs →
      c.kind = .symbol .closeParen →
      Derives clean (o :: (gs ++ (ts ++ (hs ++ [c])))) ps
        (.expr ⟨.paren (Item.trail (Item.lead e (noted gs)) (noted hs)), o.span.merge c.span, {}⟩)
  | list : o.kind = .symbol .openBracket →
      (∀ q ∈ qs, Derives clean q.tokens q.postings (.expr q.value)) →
      Enclosed .closeBracket ts qs (es, held) →
      Derives clean (o :: ts) (qs.flatMap Piece.postings)
        (.expr ⟨.list es, o.span.merge (lastSpan ts), { inner := held }⟩)
  | map : o.kind = .symbol .openBrace →
      (∀ q ∈ qs, Derives clean q.tokens q.postings (.entry q.value)) →
      Enclosed .closeBrace ts qs (es, held) →
      Derives clean (o :: ts) (qs.flatMap Piece.postings)
        (.expr ⟨.map es, o.span.merge (lastSpan ts), { inner := held }⟩)
  | function : o.kind = .keyword .function →
      (∀ q ∈ qs, Derives clean q.tokens q.postings (.param q.value)) →
      Parameters ts qs (params, held) → Derives clean us ps (.lines ss) →
      e.kind = .keyword .end_ → w.kind = .keyword .function →
      Derives clean (o :: (ts ++ (us ++ [e, w]))) (.enter :: (qs.flatMap Piece.postings ++ ps ++ [.leave]))
        (.expr ⟨.function params ⟨ss, (lastSpan (o :: ts)).merge e.span⟩, o.span.merge w.span,
          { inner := held }⟩)
  | directive : h.kind = .symbol .hash → n.kind = .identifier name → ValueDirective.Follows name ts d →
      IsAtMost (.symbol .semicolon) semi →
      Derives clean (h :: n :: (ts ++ semi.toList)) d.postings
        (.expr ⟨.directive d, h.span.merge (lastSpan (h :: n :: (ts ++ semi.toList))), {}⟩)
  | member : Derives clean ts ps (.expr b) → 11 ≤ b.level → d.kind = .symbol .dot →
      f.kind = .identifier x →
      Derives clean (ts ++ [d, f]) ps (.expr ⟨.member b ⟨x, f.span⟩, b.span.merge f.span, {}⟩)
  | index : Derives clean ts ps (.expr b) → 11 ≤ b.level → o.kind = .symbol .openBracket →
      Derives clean q.tokens q.postings (.expr q.value) → SliceEnd [] us (some q) (some i, loose) →
      c.kind = .symbol .closeBracket →
      Derives clean (ts ++ (o :: (us ++ [c]))) (ps ++ q.postings)
        (.expr ⟨.index b i, b.span.merge c.span, {}⟩)
  | slice : Derives clean ts ps (.expr b) → 11 ≤ b.level → o.kind = .symbol .openBracket →
      (∀ q ∈ p, Derives clean q.tokens q.postings (.expr q.value)) → SliceEnd [] us p (i, loose) →
      c.kind = .symbol .colon →
      (∀ q ∈ p', Derives clean q.tokens q.postings (.expr q.value)) → SliceEnd loose vs p' (j, held) →
      d.kind = .symbol .closeBracket →
      Derives clean (ts ++ (o :: (us ++ (c :: (vs ++ [d])))))
        (ps ++ (p.toList.flatMap Piece.postings ++ p'.toList.flatMap Piece.postings))
        (.expr ⟨.slice b i j, b.span.merge d.span, { inner := held }⟩)
  | call : Derives clean ts ps (.expr b) → 11 ≤ b.level → o.kind = .symbol .openParen →
      (∀ q ∈ qs, Derives clean q.tokens q.postings (.expr q.value)) →
      Enclosed .closeParen us qs (args, held) →
      Derives clean (ts ++ (o :: us)) (ps ++ (qs.flatMap Piece.postings ++ callPostings b args))
        (.expr ⟨.call b args, b.span.merge (lastSpan us), { inner := held }⟩)
  | binary : Derives clean ts ps (.expr l) → op.leftLevel ≤ l.level → o.kind = op.token → IsGap gs →
      Derives clean us qs (.expr r) → op.rightLevel ≤ r.level →
      Derives clean (ts ++ (o :: (gs ++ us))) (ps ++ qs) (.expr (mkBinary op l (Item.lead r (noted gs))))
  | unary : o.kind = op.token → Derives clean ts ps (.expr e) → op.level ≤ e.level →
      (op = .neg → e.form.isUnsigned = false) →
      Derives clean (o :: ts) ps (.expr (mkUnary op o.span e))
  | entry : Derives clean ts ps (.expr k) → IsGap gs → c.kind = .symbol .colon → IsGap hs →
      Derives clean us qs (.expr v) →
      Derives clean (ts ++ (gs ++ (c :: (hs ++ us)))) (ps ++ qs)
        (.entry ⟨k, v, k.span.merge v.span, { trailing := noted gs ++ noted hs }⟩)
  | param : i.kind = .identifier x →
      Derives clean [i] [.mention (.name x)] (.param ⟨⟨x, i.span⟩, none, i.span, {}⟩)
  | default : i.kind = .identifier x → o.kind = .symbol .assign → Derives clean ts ps (.expr v) →
      Derives clean (i :: o :: ts) (.mention (.name x) :: ps)
        (.param ⟨⟨x, i.span⟩, some v, i.span.merge v.span, {}⟩)
  | simple : Derives clean ts ps (.expr e) → Derives clean ts ps (.stmt ⟨.expr e, e.span⟩)
  | assign : Derives clean ts ps (.expr e) → isTarget e = true → assignOp? o.kind = some op →
      Derives clean us qs (.expr v) →
      Derives clean (ts ++ (o :: us)) (ps ++ qs) (.stmt ⟨.assign op e v, e.span.merge v.span⟩)
  | command : Derives clean ts ps (.expr e) → isTarget e = true →
      (∀ q ∈ qs, Derives clean q.tokens q.postings (.expr q.value)) → Arguments [] us qs args →
      span = e.span.merge ((args.getLast?.map Expr.span).getD e.span) →
      Derives clean (ts ++ us) (ps ++ (qs.flatMap Piece.postings ++ callPostings e args))
        (.stmt ⟨.expr ⟨.call e args, span, {}⟩, span⟩)
  | leave : w.kind = .keyword .return_ → Derives clean [w] [] (.stmt ⟨.return_ none, w.span⟩)
  | return_ : w.kind = .keyword .return_ → Derives clean ts ps (.expr v) →
      Derives clean (w :: ts) ps (.stmt ⟨.return_ (some v), w.span.merge v.span⟩)
  | break_ : w.kind = .keyword .break_ → Derives clean [w] [] (.stmt ⟨.break_, w.span⟩)
  | continue_ : w.kind = .keyword .continue_ → Derives clean [w] [] (.stmt ⟨.continue_, w.span⟩)
  | while_ : w.kind = .keyword .while_ → Derives clean ts ps (.expr c) →
      Derives clean us qs (.lines ss) → e.kind = .keyword .end_ → z.kind = .keyword .while_ →
      Derives clean (w :: (ts ++ (us ++ [e, z]))) (ps ++ qs)
        (.stmt ⟨.while_ c ⟨ss, (lastSpan (w :: ts)).merge e.span⟩, w.span.merge z.span⟩)
  | for_ : w.kind = .keyword .for_ → i.kind = .identifier x → n.kind = .keyword .in_ →
      Derives clean ts ps (.expr c) → Derives clean us qs (.lines ss) → e.kind = .keyword .end_ →
      z.kind = .keyword .for_ →
      Derives clean (w :: i :: n :: (ts ++ (us ++ [e, z]))) (.mention (.name x) :: (ps ++ qs))
        (.stmt ⟨.for_ ⟨x, i.span⟩ c ⟨ss, (lastSpan (w :: i :: n :: ts)).merge e.span⟩,
          w.span.merge z.span⟩)
  | if_ : w.kind = .keyword .if_ → Derives clean ts ps (.arms w.span r) →
      Derives clean (w :: ts) ps (.stmt ⟨.if_ r.1 r.2 false, w.span.merge (lastSpan ts)⟩)
  | inline : w.kind = .keyword .if_ → Derives clean ts ps (.expr c) → n.kind = .keyword .then_ →
      Derives clean us qs (.stmt a) →
      Derives clean (w :: (ts ++ (n :: us))) (ps ++ qs) (.stmt (mkInline w.span c a ([], none)))
  | inlineElse : w.kind = .keyword .if_ → Derives clean ts ps (.expr c) → n.kind = .keyword .then_ →
      Derives clean us qs (.stmt a) → a.isOpen = false → o.kind = .keyword .else_ →
      Derives clean vs rs (.stmt b) →
      Derives clean (w :: (ts ++ (n :: (us ++ (o :: vs))))) (ps ++ (qs ++ rs))
        (.stmt (mkInline w.span c a (Reader.inlineElse true b)))
  | mark : h.kind = .symbol .hash → n.kind = .identifier name → Directive.Follows name ts d →
      IsAtMost (.symbol .semicolon) semi →
      Derives clean (h :: n :: (ts ++ semi.toList)) d.postings
        (.stmt ⟨.directive d, h.span.merge (lastSpan (h :: n :: (ts ++ semi.toList)))⟩)
  | arm : Derives clean ts ps (.expr c) → n.kind = .keyword .then_ → Derives clean us qs (.lines ss) →
      Derives clean (o :: vs) rs (.clauses r) →
      Derives clean (ts ++ (n :: (us ++ (o :: vs)))) (ps ++ (qs ++ rs))
        (.arms start
          (⟨c, ⟨ss, n.span.merge o.span⟩, start.merge (n.span.merge o.span)⟩ :: r.1, r.2))
  | closed : e.kind = .keyword .end_ → w.kind = .keyword .if_ →
      Derives clean [e, w] [] (.clauses ([], none))
  | else_ : o.kind = .keyword .else_ → Derives clean us ps (.lines ss) → e.kind = .keyword .end_ →
      w.kind = .keyword .if_ →
      Derives clean (o :: (us ++ [e, w])) ps (.clauses ([], some ⟨ss, o.span.merge e.span⟩))
  | elseIf : o.kind = .keyword .else_ → w.kind = .keyword .if_ → Derives clean ts ps (.arms o.span r) →
      Derives clean (o :: w :: ts) ps (.clauses r)
  | done : IsBreak gs → Derives clean gs [] (.lines [])
  | comment : IsBreak gs → t.kind = .comment text → Derives clean ts ps (.lines ss) →
      Derives clean (gs ++ (t :: ts)) ps (.lines (⟨.comment text, t.span⟩ :: ss))
  | line : IsBreak gs → Derives clean ts ps (.stmt a) → Derives clean us qs (.lines ss) →
      Derives clean (gs ++ (ts ++ us)) (ps ++ qs) (.lines (a :: ss))
  /-- A line that could not be read. -/
  | lost : ¬clean → IsBreak gs → Derives clean us qs (.lines ss) →
      Derives clean (gs ++ (ts ++ us)) (ps ++ qs) (.lines ss)

/-! ## First and last tokens -/

theorem Literal.isTerminator_kind (l : Literal) : l.kind.isTerminator = false := by
  rcases l with _ | _ | (_ | _) | _ <;> rfl

theorem UnaryOp.isTerminator_token (op : UnaryOp) : op.token.isTerminator = false := by cases op <;> rfl

/-- Tokens that start with one that goes on its line. -/
def Opens (ts : List Token) : Prop := ∃ t us, ts = t :: us ∧ t.kind.isTerminator = false

namespace Opens

theorem append {ts : List Token} (h : Opens ts) (us : List Token) : Opens (ts ++ us) := by
  obtain ⟨t, vs, rfl, ht⟩ := h
  exact ⟨t, vs ++ us, rfl, ht⟩

theorem of_kind {t : Token} {k : Kind} (h : t.kind = k) (hk : k.isTerminator = false)
    (us : List Token) : Opens (t :: us) := ⟨t, us, rfl, h ▸ hk⟩

theorem ne_nil {ts : List Token} (h : Opens ts) : ts ≠ [] := by
  obtain ⟨t, us, rfl, -⟩ := h
  exact List.cons_ne_nil t us

end Opens

/-- Whether a part is the statements of a block. -/
def Part.isLines : Part → Bool
  | .lines _ => true
  | _ => false

theorem Enclosed.ne_nil {α : Type} [Item α] {close : Symbol} {ts : List Token} {qs : List (Piece α)}
    {r : List α × List Comment} (h : Enclosed close ts qs r) : ts ≠ [] := by
  obtain ⟨_, _, _⟩ := h
  simp

namespace Derives

variable {clean : Prop} {ts : List Token} {ps : List Posting} {x : Part}

/-- **What is derived starts on its line**. -/
theorem opens (h : Derives clean ts ps x) (hx : x.isLines = false) : Opens ts := by
  induction h with
  | literal ht => exact .of_kind ht (Literal.isTerminator_kind _) _
  | unary ho => exact .of_kind ho (UnaryOp.isTerminator_token _) _
  | negated ht | identifier ht | paren ht | list ht | map ht | function ht | directive ht | param ht
  | default ht | leave ht | return_ ht | break_ ht | continue_ ht | while_ ht | for_ ht | if_ ht
  | inline ht | inlineElse ht | mark ht | closed ht | else_ ht | elseIf ht => exact .of_kind ht rfl _
  | member _ _ _ _ ih | index _ _ _ _ _ _ ih | slice _ _ _ _ _ _ _ _ _ ih | call _ _ _ _ _ ih
  | binary _ _ _ _ _ _ ih | entry _ _ _ _ _ ih | assign _ _ _ _ ih | command _ _ _ _ _ ih
  | arm _ _ _ _ ih => exact (ih rfl).append _
  | simple _ ih => exact ih rfl
  | done | comment | line | lost => cases hx

/-- An `if` on one line starts with its word. -/
theorem if_of_isInline {a : Stmt} (h : Derives clean ts ps (.stmt a)) (ha : a.isInline = true) :
    ∃ w us, ts = w :: us ∧ w.kind = .keyword .if_ := by
  cases h with
  | inline hw | inlineElse hw => exact ⟨_, _, rfl, hw⟩
  | _ => cases ha

/-- A number without a sign is one token. -/
theorem number_of_isUnsigned {e : Expr} (h : Derives clean ts ps (.expr e))
    (he : e.form.isUnsigned = true) : ∃ t raw value, ts = [t] ∧ ps = [.literal (.number raw value false)] ∧
      e = ⟨.literal (.number raw value false), t.span, {}⟩ ∧ t.kind = .number raw value := by
  have hform : ∀ l : Literal, (Expr.Form.literal l).isUnsigned = true →
      ∃ raw value, l = .number raw value false := by
    rintro (⟨raw, value, _ | _⟩ | _ | _ | _) hl
    · exact ⟨raw, value, rfl⟩
    all_goals cases hl
  cases h with
  | literal ht =>
    obtain ⟨raw, value, rfl⟩ := hform _ he
    exact ⟨_, raw, value, rfl, rfl, rfl, ht⟩
  | _ => cases he

/-- No statement is derived that is a comment. -/
theorem not_isComment {a : Stmt} (h : Derives clean ts ps (.stmt a)) : a.isComment = false := by
  cases h <;> rfl

/-- Nothing is put beside an expression before it is an item or an operand. -/
theorem comments_eq {e : Expr} (h : Derives clean ts ps (.expr e)) :
    e.comments.leading = [] ∧ e.comments.trailing = [] := by
  cases h <;> exact ⟨rfl, rfl⟩

end Derives

/-! ## Places -/

/-- What stands where its tokens do: a part, and for an `if` on one line its clauses. -/
def Part.At (site : Span → Prop) : Part → Prop
  | .expr e => site e.span
  | .entry e => site e.span
  | .param p => site p.span
  | .stmt a => site a.span ∧ ∀ cs last, a.form = .if_ cs last true →
      (∀ c ∈ cs, site c.span) ∧ ∀ b ∈ last, site b.span
  | _ => True

section Places

variable {site : Span → Prop}

/-- The last of some tokens stands where tokens do. -/
theorem lastSpan_at {ts : List Token} (hne : ts ≠ []) (h : ∀ t ∈ ts, site t.span) :
    site (lastSpan ts) := by
  rw [lastSpan, List.getLast?_eq_some_getLast hne]
  exact h _ (List.getLast_mem hne)

/-- The last of some arguments stands where they do. -/
theorem Arguments.last_at {pending : List Comment} {ts : List Token} {qs : List (Piece Expr)}
    {as : List Expr} (h : Arguments pending ts qs as) (hqs : ∀ q ∈ qs, site q.value.span) (start : Span) :
    site ((as.getLast?.map Expr.span).getD start) := by
  induction h with
  | last => exact hqs _ (List.mem_singleton_self _)
  | cons _ _ _ hrest ih =>
    rw [List.getLast?_cons_of_ne_nil]
    · exact ih fun q hq => hqs q (List.mem_cons_of_mem _ hq)
    · cases hrest <;> exact List.cons_ne_nil _ _

/-- What follows an `else` stands where its statement does. -/
theorem Stmt.inlineElse_at {b : Stmt} (hb : site b.span) (hparts : ∀ cs last, b.form = .if_ cs last true →
    (∀ c ∈ cs, site c.span) ∧ ∀ b ∈ last, site b.span) :
    (∀ c ∈ (Reader.inlineElse true b).1, site c.span) ∧
      ∀ d ∈ (Reader.inlineElse true b).2, site d.span := by
  unfold Reader.inlineElse
  split
  · rename_i hform
    exact hparts _ _ hform
  · refine ⟨by simp, ?_⟩
    rintro d ⟨⟩
    exact hb

/-- An `if` on one line stands where its parts do. -/
theorem mkInline_at (hmerge : ∀ a b, site a → site b → site (a.merge b)) {start : Span} (e : Expr)
    {a : Stmt} {r : List Clause × Option Block} (hstart : site start) (ha : site a.span)
    (hcs : ∀ c ∈ r.1, site c.span) (hlast : ∀ b ∈ r.2, site b.span) :
    (Part.stmt (mkInline start e a r)).At site := by
  obtain ⟨cs, last⟩ := r
  have hclauses : ∀ c ∈ (⟨e, single a, start.merge a.span⟩ : Clause) :: cs, site c.span :=
    List.forall_mem_cons.mpr ⟨hmerge _ _ hstart ha, hcs⟩
  refine ⟨hmerge _ _ hstart ?_, ?_⟩
  · cases last with
    | some b => exact hlast b rfl
    | none =>
      rw [List.getLast?_eq_some_getLast (List.cons_ne_nil _ _)]
      exact hclauses _ (List.getLast_mem _)
  · rintro _ _ ⟨⟩
    exact ⟨hclauses, hlast⟩

/-- **What is derived stands where its tokens are**: what holds of the stretches of all tokens and is
kept by merging holds of it. -/
theorem Derives.at {clean : Prop} {ts : List Token} {ps : List Posting} {x : Part}
    (hmerge : ∀ a b, site a → site b → site (a.merge b)) (h : Derives clean ts ps x)
    (hts : ∀ t ∈ ts, site t.span) : x.At site := by
  induction h with
  | literal | identifier | param => exact hts _ (by simp)
  | negated | paren | function => exact hmerge _ _ (hts _ (by simp)) (hts _ (by simp))
  | list _ _ henclosed | map _ _ henclosed =>
    exact hmerge _ _ (hts _ (by simp))
      (lastSpan_at henclosed.ne_nil fun t ht => hts t (List.mem_cons_of_mem _ ht))
  | directive => exact hmerge _ _ (hts _ (by simp)) (lastSpan_at (by simp) hts)
  | member _ _ _ _ ih | index _ _ _ _ _ _ ih | slice _ _ _ _ _ _ _ _ _ ih =>
    exact hmerge _ _ (ih fun t ht => hts t (by simp [ht])) (hts _ (by simp))
  | call _ _ _ _ henclosed ih =>
    exact hmerge _ _ (ih fun t ht => hts t (by simp [ht]))
      (lastSpan_at henclosed.ne_nil fun t ht => hts t (by simp [ht]))
  | binary _ _ _ _ _ _ ihl ihr | entry _ _ _ _ _ ihl ihr =>
    exact hmerge _ _ (ihl fun t ht => hts t (by simp [ht])) (ihr fun t ht => hts t (by simp [ht]))
  | unary _ _ _ _ ih | default _ _ _ ih =>
    exact hmerge _ _ (hts _ (by simp)) (ih fun t ht => hts t (by simp [ht]))
  | simple _ ih => exact ⟨ih hts, by simp⟩
  | assign _ _ _ _ ihe ihv =>
    exact ⟨hmerge _ _ (ihe fun t ht => hts t (by simp [ht])) (ihv fun t ht => hts t (by simp [ht])),
      by simp⟩
  | command _ _ _ hargs hspan ihe ihs =>
    subst hspan
    refine ⟨hmerge _ _ (ihe fun t ht => hts t (by simp [ht])) (hargs.last_at (fun q hq => ?_) _), by simp⟩
    exact ihs q hq fun t ht => hts t (by simp [(hargs.sublist q hq).subset ht])
  | leave | break_ | continue_ => exact ⟨hts _ (by simp), by simp⟩
  | return_ _ _ ih => exact ⟨hmerge _ _ (hts _ (by simp)) (ih fun t ht => hts t (by simp [ht])), by simp⟩
  | while_ | for_ => exact ⟨hmerge _ _ (hts _ (by simp)) (hts _ (by simp)), by simp⟩
  | if_ _ harms =>
    refine ⟨hmerge _ _ (hts _ (by simp)) (lastSpan_at (harms.opens rfl).ne_nil ?_), by simp⟩
    exact fun t ht => hts t (List.mem_cons_of_mem _ ht)
  | mark => exact ⟨hmerge _ _ (hts _ (by simp)) (lastSpan_at (by simp) hts), by simp⟩
  | inline _ _ _ _ _ iha =>
    exact mkInline_at hmerge _ (hts _ (by simp)) (iha fun t ht => hts t (by simp [ht])).1 (by simp) (by simp)
  | inlineElse _ _ _ _ _ _ _ _ iha ihb =>
    have hb := ihb fun t ht => hts t (by simp [ht])
    have helse := Stmt.inlineElse_at hb.1 hb.2
    exact mkInline_at hmerge _ (hts _ (by simp)) (iha fun t ht => hts t (by simp [ht])).1 helse.1 helse.2
  | _ => trivial

end Places

end ScriptBundler

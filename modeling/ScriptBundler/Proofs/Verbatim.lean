import ScriptBundler.Proofs.Induction
import ScriptBundler.Proofs.Standalone

/-!
# Proofs/Verbatim — text that keeps its lines is read as the same tree

Line breaks have no meaning between brackets and after operators, so a text that breaks its lines where
the one it was read from did is read as the same tree.  What needs care are the comments: a comment ends
its line, so the line break after it is written with it, and a comment behind an item continues the line
only if the item does not itself end with a comment.

    text │ held comments │ leading comments │ gap │ item │ , │ …

Between items the cursor tells whether a comment has just ended the line.  `Ready` and `Leads` say what
stands before and after then.
-/

namespace ScriptBundler

namespace Verbatim

open Token (Kind)
open Layout
open Reader (isTarget isLayout)

/-! ## Comments inside brackets -/

namespace Cursor

/-- Something stands on the line, unless a comment has just ended it. -/
def Ready (cur : Cursor) (out : List Char) : Prop := cur.fresh = false → Solid out

/-- What follows has `K`, unless a comment has just ended the line. -/
def Leads (K : List Char → Prop) (cur : Cursor) (rest : List Char) : Prop := cur.fresh = false → K rest

variable {K : List Char → Prop} {cur : Cursor}

theorem covers_ready_solid (h : cur.fresh = false) : Covers cur.Ready Solid := ⟨fun _ hout => hout h⟩

theorem covers_ready_of_fresh (h : cur.fresh = true) : Covers Any cur.Ready :=
  ⟨fun _ _ hnot => absurd (h.symm.trans hnot) (by decide)⟩

theorem covers_leads_of_fresh (h : cur.fresh = true) : Covers Any (cur.Leads K) :=
  ⟨fun _ _ hnot => absurd (h.symm.trans hnot) (by decide)⟩

instance covers_solid_ready : Covers Solid cur.Ready := ⟨fun _ hout _ => hout⟩

instance covers_leads {A : List Char → Prop} [h : Covers A K] : Covers A (cur.Leads K) :=
  ⟨fun cs hcs _ => h.covers cs hcs⟩

theorem covers_leads_self (h : cur.fresh = false) : Covers (cur.Leads K) K := ⟨fun _ hcs => hcs h⟩

/-- A comment ends its line. -/
theorem fresh_comment (env : Env) (cur : Cursor) (c : Comment) :
    (cur.comment env c).2.fresh = true := rfl

/-- **A comment between brackets**, with the end of its line. -/
theorem comment_spells [hK : Covers Pause K] (env : Env) (cur : Cursor) {c : Comment}
    (hc : (Kind.comment c.text).Valid) :
    ∃ ks, Gap ks ∧ said ks = {c.text} ∧
      Spells (cur.comment env c).1 ks cur.Ready Any Any (cur.Leads K) := by
  have hindent := Spells.indent env.deeper.scene.settings env.deeper.depth
  cases hfresh : cur.fresh with
  | true =>
    have := covers_leads_of_fresh (K := K) hfresh
    have hl : (cur.comment env c).1 = env.deeper.indent ++ Layout.comment c.text ++ eol := by
      simp [comment, hfresh]
    rw [hl]
    exact ⟨_, by simp [Gap, isLayout], rfl, ((hindent.append (Spells.comment hc)).append .eol).mono⟩
  | false =>
    have := covers_ready_solid hfresh
    by_cases hline : c.span.start.line = cur.line
    · have hl : (cur.comment env c).1 = trailing c.text ++ eol := by simp [comment, hfresh, hline]
      rw [hl]
      exact ⟨_, by simp [Gap, isLayout], rfl, ((Spells.trailing hc).append .eol).mono⟩
    · have hl : (cur.comment env c).1 =
          eol ++ (env.deeper.indent ++ Layout.comment c.text ++ eol) := by
        simp [comment, hfresh, hline]
      have : Covers Break K := ⟨fun cs h => hK.covers cs (Covers.break_pause.covers cs h)⟩
      rw [hl]
      exact ⟨_, by simp [Gap, isLayout], rfl,
        (Spells.eol.append ((hindent.append (Spells.comment hc)).append .eol)).mono⟩

/-- **Comments between brackets.** -/
theorem comments_spells [Covers Pause K] (env : Env) {cs : List Comment} (cur : Cursor)
    (hcs : Audible cs) :
    (comments env cur cs).2.held = cur.held ∧ ∃ ks, Gap ks ∧ said ks = texts cs ∧
      Spells (comments env cur cs).1 ks cur.Ready (comments env cur cs).2.Ready
        ((comments env cur cs).2.Leads K) (cur.Leads K) := by
  induction cs generalizing cur with
  | nil => exact ⟨rfl, [], Gap.nil, rfl, .nil⟩
  | cons c cs ih =>
    obtain ⟨hc, hcs⟩ := List.forall_mem_cons.mp hcs
    obtain ⟨ks, hks, hsaid, hfirst⟩ := comment_spells (K := K) env cur hc
    obtain ⟨hheld, ls, hls, hsaid', hmore⟩ := ih (cur.comment env c).2 hcs
    have := covers_ready_of_fresh (fresh_comment env cur c)
    refine ⟨hheld, ks ++ ls, hks.append hls, ?_, hfirst.append hmore⟩
    rw [said_append, hsaid, hsaid']
    rfl

/-- **The comments that were held back.** -/
theorem flush_spells [Covers Pause K] (env : Env) (cur : Cursor) (hheld : Audible cur.held) :
    (cur.flush env).2.held = [] ∧ ∃ ks, Gap ks ∧ said ks = texts cur.held ∧
      Spells (cur.flush env).1 ks cur.Ready (cur.flush env).2.Ready
        ((cur.flush env).2.Leads K) (cur.Leads K) :=
  comments_spells env { cur with held := [] } hheld

/-- What is written right before an item, and whether the item starts a line. -/
def gapBefore (env : Env) (isSpaced : Bool) (cur : Cursor) (line : Nat) : Layout × Cursor :=
  if cur.fresh || cur.line < line then
    ((if cur.fresh then [] else eol) ++ env.deeper.indent, { cur with fresh := false, broken := true })
  else (if isSpaced then text " " else [], cur)

/-- Before an item there is nothing but a gap. -/
theorem gapBefore_spells (env : Env) (isSpaced : Bool) (cur : Cursor) (line : Nat) :
    (cur.gapBefore env isSpaced line).2.fresh = false ∧
      ∃ ks, Gap ks ∧ said ks = 0 ∧ Spells (cur.gapBefore env isSpaced line).1 ks Any Any Any Any := by
  have hindent := Spells.indent env.deeper.scene.settings env.deeper.depth
  unfold gapBefore
  split
  · refine ⟨rfl, ?_⟩
    cases cur.fresh with
    | true => exact ⟨[], Gap.nil, rfl, hindent⟩
    | false => exact ⟨_, by simp [Gap, isLayout], rfl, (Spells.eol.append hindent).mono⟩
  · rename_i h
    refine ⟨by simp_all, [], Gap.nil, rfl, ?_⟩
    cases isSpaced with
    | true => exact Spells.blank.mono
    | false => exact .nil

/-- **Before an item** stand the comments that were held back and those that lead it. -/
theorem place_spells (env : Env) (isSpaced : Bool) (span : Span) {cs : Comments}
    (hheld : Audible cur.held) (hleading : Audible cs.leading) :
    (cur.place env isSpaced span cs).2.fresh = false ∧
      (cur.place env isSpaced span cs).2.held = cs.trailing ∧
      ∃ ks, Gap ks ∧ said ks = texts cur.held + texts cs.leading ∧
        Spells (cur.place env isSpaced span cs).1.before ks Solid Any Any Any := by
  obtain ⟨-, ks, hks, hsaid, hspells⟩ := flush_spells (K := Any) env cur hheld
  obtain ⟨-, ls, hls, hsaid', hspells'⟩ := comments_spells (K := Any) env (cur.flush env).2 hleading
  obtain ⟨hfresh, ms, hms, hsaid'', hgap⟩ := gapBefore_spells env isSpaced
    (comments env (cur.flush env).2 cs.leading).2 span.start.line
  have hbefore : (cur.place env isSpaced span cs).1.before =
      (cur.flush env).1 ++ (comments env (cur.flush env).2 cs.leading).1 ++
        ((comments env (cur.flush env).2 cs.leading).2.gapBefore env isSpaced span.start.line).1 := rfl
  rw [hbefore]
  refine ⟨hfresh, rfl, ks ++ ls ++ ms, (hks.append hls).append hms, ?_, ?_⟩
  · rw [said_append, said_append, hsaid, hsaid', hsaid'', add_zero]
  · exact ((hspells.append hspells').append hgap).mono

/-- What is written at a closing bracket, before the bracket. -/
def gapClose (env : Env) (line : Nat) (cur : Cursor) : Layout :=
  (cur.flush env).1 ++ if (cur.flush env).2.fresh then env.indent
    else if (cur.flush env).2.line < line then eol ++ env.indent else []

theorem close_eq (env : Env) (bracket : String) (line : Nat) (cur : Cursor) :
    cur.close env bracket line = cur.gapClose env line ++ text bracket := rfl

/-- **At the closing bracket** stand the comments that were held back. -/
theorem gapClose_spells (env : Env) (line : Nat) (cur : Cursor) (hheld : Audible cur.held) :
    ∃ ks, Gap ks ∧ said ks = texts cur.held ∧
      Spells (cur.gapClose env line) ks cur.Ready Any EndsOperand (cur.Leads EndsOperand) := by
  have hindent := Spells.indent env.scene.settings env.depth
  obtain ⟨-, ks, hks, hsaid, hspells⟩ := flush_spells (K := EndsOperand) env cur hheld
  unfold gapClose
  split
  · rename_i hfresh
    have := covers_leads_of_fresh (K := EndsOperand) hfresh
    exact ⟨ks ++ [], hks.append .nil, by rw [List.append_nil, hsaid], (hspells.append hindent).mono⟩
  · split
    · have hbreak : Spells (eol ++ env.indent) [.newline] Any Any Any Break := Spells.eol.append hindent
      refine ⟨ks ++ [.newline], hks.append .newline, ?_, (hspells.append hbreak).mono⟩
      rw [said_append, hsaid, said_newline, add_zero]
    · rw [List.append_nil]
      exact ⟨ks, hks, hsaid, hspells.mono⟩

end Cursor

/-! ## Items inside brackets -/

section Items

variable {α : Type} [Item α] [Content α] {A : α → List Kind → Prop} {heard : Prop} {image : α → α}

/-- **The last item**, and all up to the closing bracket. -/
theorem last_spells (env : Env) (isSpaced : Bool) (cur : Cursor) (line : Nat)
    (hheld : Audible cur.held) {a : α} {l : Layout} (ha : Renders A heard image a l) :
    ∃ gap ks gap', Gap gap ∧ A (image a) ks ∧ Gap gap' ∧
      (heard → said (gap ++ (ks ++ gap')) = texts cur.held + Content.remarks a) ∧
      Spells ((cur.place env isSpaced (Item.span a) (Item.comments a)).1.before ++ l ++
          (cur.place env isSpaced (Item.span a) (Item.comments a)).2.gapClose env line)
        (gap ++ (ks ++ gap')) Solid Any EndsOperand Any := by
  obtain ⟨⟨hleading, htrailing⟩, ks, hl, hA, hm⟩ := ha
  obtain ⟨hfresh, htrail, gap, hgap, hsaid, hbefore⟩ :=
    Cursor.place_spells env isSpaced (Item.span a) hheld hleading
  obtain ⟨gap', hgap', hsaid', hclose⟩ :=
    Cursor.gapClose_spells env line (cur.place env isSpaced (Item.span a) (Item.comments a)).2
      (by rwa [htrail])
  have := Cursor.covers_leads_self (K := EndsOperand) hfresh
  refine ⟨gap, ks, gap', hgap, hA, hgap', fun h => ?_, ?_⟩
  · rw [said_append, said_append, hsaid, hm h, hsaid', htrail, Content.remarks, Comments.around]
    abel
  · rw [List.append_assoc]
    exact hbefore.append (hl.append hclose)

/-- Where items stood, and the comments beside them. -/
def places (as : List α) : List (Span × Comments) := as.map fun a => (Item.span a, Item.comments a)

/-- **All items**, and all up to the closing bracket. -/
theorem join_spells (env : Env) (line : Nat) {as : List α} {ls : List Layout}
    (h : List.Forall₂ (Renders A heard image) as ls) (has : as ≠ []) (isSpaced : Bool) (cur : Cursor)
    (hheld : Audible cur.held) :
    ∃ gap ks, Gap gap ∧ Separated A (as.map image) ks ∧
      (heard → said (gap ++ ks) = texts cur.held + (as.map Content.remarks).sum) ∧
      Spells (Brackets.join (Cursor.plan env isSpaced cur (places as)).1 ls ++
          (Cursor.plan env isSpaced cur (places as)).2.gapClose env line)
        (gap ++ ks) Solid Any EndsOperand Any := by
  induction h generalizing isSpaced cur with
  | nil => exact absurd rfl has
  | @cons a l as ls ha hmore ih =>
    cases hmore with
    | nil =>
      obtain ⟨gap, ks, gap', hgap, hA, hgap', hsaid, hspells⟩ := last_spells env isSpaced cur line hheld ha
      refine ⟨gap, ks ++ gap', hgap, .last hA hgap', fun h => by simpa using hsaid h, ?_⟩
      simpa [places, Cursor.plan, Brackets.join] using hspells
    | @cons a' l' as ls ha' hmore =>
      obtain ⟨⟨hleading, htrailing⟩, ks, hl, hA, hm⟩ := ha
      obtain ⟨-, htrail, gap, hgap, hsaid, hbefore⟩ :=
        Cursor.place_spells env isSpaced (Item.span a) hheld hleading
      obtain ⟨gap', ks', hgap', hks', hsaid', hspells⟩ := ih (by simp) true
        (cur.place env isSpaced (Item.span a) (Item.comments a)).2 (by rwa [htrail])
      refine ⟨gap, ks ++ ([] ++ .symbol .comma :: (gap' ++ ks')), hgap,
        .cons hA Gap.nil hgap' (by simp) hks', fun h => ?_, ?_⟩
      · show _ = texts cur.held + (Content.remarks a + ((a' :: as).map Content.remarks).sum)
        rw [said_append, said_append, List.nil_append, said_cons_symbol, hsaid, hm h, hsaid' h, htrail,
          Content.remarks, Comments.around]
        abel
      · have hjoin : Brackets.join (Cursor.plan env isSpaced cur (places (a :: a' :: as))).1
            (l :: l' :: ls) =
              (cur.place env isSpaced (Item.span a) (Item.comments a)).1.before ++ l ++ (text "," ++
                Brackets.join (Cursor.plan env true
                  (cur.place env isSpaced (Item.span a) (Item.comments a)).2
                  (places (a' :: as))).1 (l' :: ls)) := rfl
        have hcomma := (Spells.closing (s := .comma) rfl).append hspells
        rw [hjoin, List.append_assoc, List.append_assoc, List.append_assoc]
        exact hbefore.append (hl.append hcomma)

/-- **Brackets and what is between them.** -/
theorem brackets_inner (b : Brackets) (env : Env) {as : List α} {ls : List Layout}
    (h : List.Forall₂ (Renders A heard image) as ls) {inner : List Comment} (hinner : Audible inner) :
    ∃ l, b.layout env (b.plan env as inner) ls = text b.opening ++ l ++ text b.closing ∧
      Inner A heard ((if as.isEmpty then texts inner else 0) + (as.map Content.remarks).sum)
        (as.map image) l := by
  cases h with
  | nil =>
    obtain ⟨hheld, ks, hks, hsaid, hspells⟩ :=
      Cursor.comments_spells (K := EndsOperand) env { line := b.openLine } hinner
    obtain ⟨ls, hls, hsaid', hspells'⟩ := Cursor.gapClose_spells env b.closeLine
      (Cursor.comments env { line := b.openLine } inner).2 (by rw [hheld]; nofun)
    refine ⟨(Cursor.comments env { line := b.openLine } inner).1 ++
      (Cursor.comments env { line := b.openLine } inner).2.gapClose env b.closeLine, ?_,
      ks ++ ls, [], hks.append hls, .nil, ?_, fun _ => ?_⟩
    · simp [Brackets.layout, Brackets.plan, Cursor.plan, Brackets.join, Cursor.close_eq]
    · rw [List.append_nil]
      exact (hspells.append hspells').mono
    · rw [List.append_nil, said_append, hsaid, hsaid', hheld]
      simp
  | @cons a l as ls ha hmore =>
    obtain ⟨gap, ks, hgap, hks, hsaid, hspells⟩ := join_spells env b.closeLine (.cons ha hmore) (by simp)
      false { line := b.openLine } nofun
    refine ⟨_, ?_, gap, ks, hgap, hks, hspells, fun h => by simpa using hsaid h⟩
    simp [Brackets.layout, Brackets.plan, Cursor.close_eq, places]

/-- Brackets around one item, which has nothing but gaps around it. -/
theorem brackets_one (b : Brackets) (env : Env) {e : Expr} {image : Expr → Expr} {l : Layout}
    (he : Renders (Phrase 0) heard image e l) (inner : List Comment) :
    ∃ l', b.layout env (b.plan env [e] inner) [l] = text b.opening ++ l' ++ text b.closing ∧
      Bound heard (Content.remarks e) (some (image e)) l' := by
  obtain ⟨gap, ks, gap', hgap, hks, hgap', hsaid, hspells⟩ := last_spells env false
    { line := b.openLine } b.closeLine nofun he
  refine ⟨_, ?_, _, ⟨gap, ks, gap', rfl, hgap, hks, hgap'⟩, hspells, fun h => by simpa using hsaid h⟩
  simp [Brackets.layout, Brackets.plan, Cursor.close_eq, Cursor.plan, Brackets.join]

end Items

/-! ## Ends of slices -/

section Slices

variable {heard : Prop} {st : Style}

/-- **An end of a slice**; the comments behind it are held back. -/
theorem bound_spells (env : Env) {e : Option Expr} {l : Layout} (he : RendersEnd heard st e l)
    (cur : Cursor) (hcur : cur.fresh = false) (hheld : Audible cur.held) :
    (bound env e cur).2.fresh = false ∧ Audible (bound env e cur).2.held ∧
      ∃ ks, BoundPhrase (Expr.image? st e) ks ∧
        (heard → said ks + texts (bound env e cur).2.held = texts cur.held + Expr.remarks? e) ∧
        Spells ((bound env e cur).1.before ++ l) ks Solid Solid EndsOperand Any := by
  cases e with
  | none =>
    subst he
    refine ⟨hcur, hheld, [], Gap.nil, fun _ => ?_, (Spells.nil (P := Solid) (F := EndsOperand)).mono⟩
    rw [said_nil, zero_add, Expr.remarks?, add_zero]
    rfl
  | some e =>
    obtain ⟨⟨hleading, htrailing⟩, ks, hl, hA, hm⟩ := he
    obtain ⟨hfresh, htrail, gap, hgap, hsaid, hbefore⟩ :=
      Cursor.place_spells env false (Item.span e) hheld hleading
    have hbound : (bound env (some e) cur).2.held = (Item.comments e).trailing := htrail
    refine ⟨hfresh, by rwa [hbound], gap ++ ks, ⟨gap, ks, [], by simp, hgap, hA, Gap.nil⟩,
      fun h => ?_, (hbefore.append hl).mono⟩
    rw [hbound, said_append, hsaid, hm h, Expr.remarks?_some, Content.remarks, Comments.around]
    abel

/-- What is written at the end of a slice. -/
def sliceClose (env : Env) (line : Nat) (inner : List Comment) (cur : Cursor) : Layout :=
  (cur.flush env).1 ++ ((Cursor.comments env (cur.flush env).2 inner).1 ++
    (Cursor.comments env (cur.flush env).2 inner).2.gapClose env line)

/-- At the end of a slice, held and inner comments are written. -/
theorem sliceClose_spells (env : Env) (line : Nat) {inner : List Comment} (hinner : Audible inner)
    (cur : Cursor) (hcur : cur.fresh = false) (hheld : Audible cur.held) :
    ∃ gap, Gap gap ∧ said gap = texts cur.held + texts inner ∧
      Spells (sliceClose env line inner cur) gap Solid Any EndsOperand EndsOperand := by
  obtain ⟨hnone, ks, hks, hsaid, hspells⟩ := Cursor.flush_spells (K := EndsOperand) env cur hheld
  obtain ⟨hsame, ls, hls, hsaid', hspells'⟩ :=
    Cursor.comments_spells (K := EndsOperand) env (cur.flush env).2 hinner
  rw [hnone] at hsame
  obtain ⟨ms, hms, hsaid'', hspells''⟩ := Cursor.gapClose_spells env line
    (Cursor.comments env (cur.flush env).2 inner).2 (by rw [hsame]; nofun)
  have := Cursor.covers_leads_self (K := EndsOperand) hcur
  refine ⟨ks ++ (ls ++ ms), hks.append (hls.append hms), ?_, ?_⟩
  · rw [said_append, said_append, hsaid, hsaid', hsaid'', hsame, texts_nil, add_zero]
  · exact (hspells.append (hspells'.append hspells'')).mono

/-- **A slice**, from what its ends are written as. -/
theorem slice_operand (env : Env) (line : Nat) {b : Expr} {m : Multiset String} {l k k' : Layout}
    (hb : Operand heard m 11 (b.image st) l) {i j : Option Expr} (hi : RendersEnd heard st i k)
    (hj : RendersEnd heard st j k') {inner : List Comment} (hinner : Audible inner) (first : Nat) :
    Operand heard (m + Expr.remarks? i + Expr.remarks? j + texts inner) 11
      (Expr.Form.slice (b.image st) (Expr.image? st i) (Expr.image? st j)).node
      (l ++ (text "[" ++ ((bound env i { line := first }).1.before ++ k) ++ text ":" ++
        ((bound env j (bound env i { line := first }).2).1.before ++ k' ++
          sliceClose env line inner (bound env j (bound env i { line := first }).2).2) ++
        text "]")) := by
  obtain ⟨hfresh, hheld, ks, hks, hsaid, hspells⟩ :=
    bound_spells env hi { line := first } rfl nofun
  obtain ⟨hfresh', hheld', ks', hks', hsaid', hspells'⟩ := bound_spells env hj _ hfresh hheld
  obtain ⟨gap, hgap, hsaid'', hclose⟩ := sliceClose_spells env line hinner _ hfresh' hheld'
  have hfirst : Bound heard (said ks) (Expr.image? st i) _ := ⟨ks, hks, hspells.mono, fun _ => rfl⟩
  have hsecond : Bound heard (said (ks' ++ gap)) (Expr.image? st j) _ :=
    ⟨ks' ++ gap, hks'.append_gap hgap, hspells'.append hclose, fun _ => rfl⟩
  refine (hb.slice hfirst hsecond).recount fun h => ?_
  have hi := hsaid h
  have hj := hsaid' h
  rw [texts_nil, zero_add] at hi
  rw [said_append, hsaid'', ← hi]
  calc m + (said ks + texts (bound env i { line := first }).2.held) + Expr.remarks? j + texts inner
    _ = m + said ks + (texts (bound env i { line := first }).2.held + Expr.remarks? j) + texts inner := by
      abel
    _ = _ := by rw [← hj]; abel

end Slices

/-! ## Operators -/

/-- What goes between an operator and its right operand. -/
theorem operandGap_spells (env : Env) (left : Expr) {right : Expr}
    (hright : Audible right.comments.leading) :
    ∃ ks, Gap ks ∧ said ks = (if left.span.stop.line < right.span.start.line then
        texts right.comments.leading else 0) ∧
      Spells (operandGap env left right).1 ks Solid Any Any Pause := by
  unfold operandGap
  split
  · obtain ⟨-, ks, hks, hsaid, hspells⟩ :=
      Cursor.comments_spells (K := Pause) env { line := left.span.stop.line } hright
    have hindent := Spells.indent env.deeper.scene.settings env.deeper.depth
    have : Covers (Cursor.Leads Pause { line := left.span.stop.line }) Pause :=
      Cursor.covers_leads_self rfl
    dsimp only
    cases hfresh : (Cursor.comments env { line := left.span.stop.line } right.comments.leading).2.fresh with
    | true =>
      have := Cursor.covers_leads_of_fresh (K := Pause) hfresh
      refine ⟨ks ++ [], hks.append .nil, by rw [List.append_nil, hsaid], ?_⟩
      rw [if_pos rfl, List.append_nil]
      exact (hspells.append hindent).mono
    | false =>
      have hbreak : Spells (eol ++ env.deeper.indent) [.newline] Any Any Any Break :=
        Spells.eol.append hindent
      refine ⟨ks ++ [.newline], hks.append .newline, by simp [hsaid], ?_⟩
      rw [if_neg Bool.false_ne_true, List.append_assoc]
      exact (hspells.append hbreak).mono
  · exact ⟨[], Gap.nil, rfl, Spells.blank.mono⟩

/-- **An operator and what goes before its right operand.** -/
theorem joiner (env : Env) (op : BinaryOp) (left : Expr) {right : Expr}
    (hright : Audible right.comments.leading) (heard : Prop) :
    Joiner heard (if left.span.stop.line < right.span.start.line then
      texts right.comments.leading else 0) op
      (text (" " ++ op.spelling) ++ (operandGap env left right).1) := by
  obtain ⟨ks, hks, hsaid, hspells⟩ := operandGap_spells env left hright
  exact ⟨ks, hks, ((Spells.binaryOp op).append hspells).mono, fun _ => hsaid⟩

/-! ## Node by node -/

/-- What is written for `scene` is the image under `st` of what it is written for. -/
structure Fits (S : Stock) (heard : Prop) (scene : Scene) (st : Style) : Prop
    extends scene.FitsLines S heard st where
  paren : ∀ e, st.paren e = .paren
  callAlone : st.callAlone = fun callee => (Expr.Form.call callee []).node
  inline : st.inline = id
  onLine : ∀ s, Stmt.Proper S s → S.inline s → s.isDebugger = true → st.KeepsLines

variable {S : Stock} {heard : Prop} {st : Style} {splicer : Splicer} {env : Env}

@[simp] theorem scene_placement (p : Placement) (env : Env) : (p.env env).scene = env.scene := by
  unfold Placement.env
  split <;> rfl

@[simp] theorem scene_operandGap (env : Env) (left right : Expr) :
    (operandGap env left right).2.scene = env.scene := by
  unfold operandGap
  split <;> rfl

/-- Every item has its place. -/
@[simp] theorem length_plan (env : Env) (isSpaced : Bool) (cur : Cursor)
    (items : List (Span × Comments)) : (Cursor.plan env isSpaced cur items).1.length = items.length := by
  induction items generalizing isSpaced cur with
  | nil => rfl
  | cons item items ih => exact congrArg (· + 1) (ih ..)

theorem length_places {α : Type} [Item α] (b : Brackets) (env : Env) (as : List α)
    (inner : List Comment) : (b.plan env as inner).2.1.length = as.length :=
  (length_plan ..).trans (List.length_map _)

theorem indent_spells (env : Env) : Spells env.indent [] Any Any Any Any := Spells.indent _ _

/-- `e` is written as its image. -/
def WritesExpr (S : Stock) (heard : Prop) (st : Style) (splicer : Splicer) (e : Expr) : Prop :=
  ∀ env, Fits S heard env.scene st → e.Proper S →
    (expr splicer env e).Gives False (Operand heard e.inside e.level (e.image st))

/-- `s` is written as its image. -/
def WritesStmt (S : Stock) (heard : Prop) (st : Style) (splicer : Splicer) (s : Stmt) : Prop :=
  ∀ env, Fits S heard env.scene st → s.Proper S →
    (line splicer env s).Gives False (s.OnLine st heard 0)

namespace WritesExpr

/-- Where any operand may stand. -/
theorem loose {e : Expr} (h : WritesExpr S heard st splicer e) (hfits : Fits S heard env.scene st)
    (hproper : e.Proper S) {k : Nat} (hk : k ≤ e.level) :
    (expr splicer env e).Gives False (Operand heard e.inside k (e.image st)) :=
  (h env hfits hproper).mono fun _ hl => hl.loosen e.level_le hk

/-- An item, without the comments beside it. -/
theorem item {e : Expr} (h : WritesExpr S heard st splicer e) (hfits : Fits S heard env.scene st)
    (hproper : e.Proper S) :
    (expr splicer env e).Gives False (Renders (Phrase 0) heard (Expr.image st) e) :=
  (h.loose hfits hproper (Nat.zero_le _)).mono fun _ hl => ⟨hfits.clear hproper, hl⟩

/-- Expressions, each at its place. -/
theorem exprs : ∀ {es : List Expr} {ps : List Placement}, ps.length = es.length →
    (∀ e ∈ es, WritesExpr S heard st splicer e) → Fits S heard env.scene st → Expr.AllProper S es →
    (exprs splicer env ps es).Gives False
      (List.Forall₂ (Renders (Phrase 0) heard (Expr.image st)) es)
  | [], [], _, _, _, _ => .pure .nil
  | _ :: _, p :: _, hlen, h, hfits, ⟨he, hes⟩ => by
    obtain ⟨hfirst, h⟩ := List.forall_mem_cons.mp h
    have hinside : Fits S heard (p.env env).scene st := (scene_placement p env).symm ▸ hfits
    exact (hfirst.item hinside he).bind fun _ hl =>
      (exprs (Nat.succ.inj hlen) h hfits hes).bind fun _ hls => .pure (.cons hl hls)

/-- Entries of a map, each at its place. -/
theorem entries : ∀ {es : List Entry} {ps : List Placement}, ps.length = es.length →
    (∀ a ∈ es, WritesExpr S heard st splicer a.key ∧ WritesExpr S heard st splicer a.value) →
    Fits S heard env.scene st → Entry.AllProper S es →
    (entries splicer env ps es).Gives False
      (List.Forall₂ (Renders EntryPhrase heard (Entry.image st)) es)
  | [], [], _, _, _, _ => .pure .nil
  | ⟨key, value, _, cs⟩ :: es, p :: _, hlen, h, hfits, ⟨⟨hkey, hvalue, hcs⟩, hes⟩ => by
    obtain ⟨⟨hk, hv⟩, h⟩ := List.forall_mem_cons.mp h
    have hinside : Fits S heard (p.env env).scene st := (scene_placement p env).symm ▸ hfits
    refine (hk.loose hinside hkey (Nat.zero_le _)).bind fun _ hk =>
      (hv.loose hinside hvalue (Nat.zero_le _)).bind fun _ hv =>
        (entries (Nat.succ.inj hlen) h hfits hes).bind fun _ hls => .pure (.cons ⟨?_, ?_⟩ hls)
    · exact hfits.clear (a := Entry.mk key value _ cs) ⟨hkey, hvalue, hcs⟩
    · exact Entity.entry (((Spells.closing (s := .colon) rfl).concat .blank).mono) hk hv

/-- Parameters, each at its place. -/
theorem params : ∀ {ps : List Param} {places : List Placement}, places.length = ps.length →
    (∀ p ∈ ps, ∀ e ∈ p.default, WritesExpr S heard st splicer e) → Fits S heard env.scene st →
    Param.AllProper S ps →
    (params splicer env places ps).Gives False
      (List.Forall₂ (Renders ParamPhrase heard (Param.image st)) ps)
  | [], [], _, _, _, _ => .pure .nil
  | ⟨x, none, _, cs⟩ :: _, _ :: _, hlen, h, hfits, ⟨⟨hx, hvalue, hcs⟩, hps⟩ => by
    refine (params (Nat.succ.inj hlen) (List.forall_mem_cons.mp h).2 hfits hps).bind fun _ hls =>
      .pure (.cons ⟨hfits.clear (a := Param.mk x none _ cs) ⟨hx, hvalue, hcs⟩, ?_⟩ hls)
    rw [Param.image, hfits.name]
    exact Entity.param (hfits.valid _ hx)
  | ⟨x, some e, _, cs⟩ :: _, p :: _, hlen, h, hfits, ⟨⟨hx, he, hcs⟩, hps⟩ => by
    obtain ⟨hvalue, h⟩ := List.forall_mem_cons.mp h
    have hinside : Fits S heard (p.env env).scene st := (scene_placement p env).symm ▸ hfits
    refine ((hvalue e rfl).loose hinside he (Nat.zero_le _)).bind fun _ hv =>
      (params (Nat.succ.inj hlen) h hfits hps).bind fun _ hls => .pure (.cons ⟨?_, ?_⟩ hls)
    · exact hfits.clear (a := Param.mk x (some e) _ cs) ⟨hx, he, hcs⟩
    · rw [Param.image, hfits.name, hfits.guard]
      exact Entity.paramWith (Spells.default (hfits.valid _ hx)) hv

/-- An end of a slice. -/
theorem bound {e : Option Expr} (h : ∀ a ∈ e, WritesExpr S heard st splicer a)
    (hfits : Fits S heard env.scene st) (hproper : Expr.Proper? S e) :
    (boundExpr splicer env e).Gives False (RendersEnd heard st e) := by
  cases e with
  | none => exact .pure rfl
  | some e => exact (h e rfl).item hfits hproper

/-- **An expression that has brackets to itself.** -/
theorem alone {e : Expr} (h : WritesExpr S heard st splicer e) (hfits : Fits S heard env.scene st)
    (hproper : e.Proper S) (b : Brackets) (inner : List Comment) :
    (expr splicer ((b.plan env [e] inner).2.1.head?.elim env (·.env env)) e).Gives False fun k =>
      ∃ l, b.layout env (b.plan env [e] inner) [k] = text b.opening ++ l ++ text b.closing ∧
        Bound heard (Content.remarks e) (some (e.image st)) l := by
  have hinside : Fits S heard
      ((b.plan env [e] inner).2.1.head?.elim env (·.env env)).scene st := by
    cases (b.plan env [e] inner).2.1.head? with
    | none => exact hfits
    | some p => exact (scene_placement p env).symm ▸ hfits
  exact (h.item hinside hproper).mono fun l hl => brackets_one b env hl inner

/-- A slice is written from its base and its ends. -/
theorem expr_slice (b : Expr) (i j : Option Expr) (span : Span) (cs : Comments) :
    expr splicer env ⟨.slice b i j, span, cs⟩ = (do
      let l ← expr splicer env b
      let first := Verbatim.bound env i { line := b.span.stop.line }
      let k ← boundExpr splicer (first.1.env env) i
      let second := Verbatim.bound env j first.2
      let k' ← boundExpr splicer (second.1.env env) j
      return l ++ (text "[" ++ (first.1.before ++ k) ++ text ":" ++
        (second.1.before ++ k' ++ sliceClose env span.stop.line cs.inner second.2) ++ text "]")) := by
  rw [expr]
  simp only [sliceClose, Cursor.close_eq, List.append_assoc]

/-- A slice of an operand. -/
theorem slice {b : Expr} {i j : Option Expr} (hb : WritesExpr S heard st splicer b)
    (hi : ∀ e ∈ i, WritesExpr S heard st splicer e) (hj : ∀ e ∈ j, WritesExpr S heard st splicer e)
    (span : Span) (cs : Comments) : WritesExpr S heard st splicer ⟨.slice b i j, span, cs⟩ := by
  rintro env hfits ⟨⟨hb', hlevel, hi', hj'⟩, hcs⟩
  have hinside : ∀ p : Placement, Fits S heard (p.env env).scene st := fun p =>
    (scene_placement p env).symm ▸ hfits
  rw [expr_slice]
  refine (hb.loose hfits hb' hlevel).bind fun l hl => (bound hi (hinside _) hi').bind fun k hk =>
    (bound hj (hinside _) hj').bind fun k' hk' => .pure ?_
  exact slice_operand env span.stop.line hl hk hk' (hfits.audible hcs).2.2 b.span.stop.line

/-- What is written for two operands and the operator between them. -/
theorem expr_binary (op : BinaryOp) (l r : Expr) (span : Span) (cs : Comments) :
    expr splicer env ⟨.binary op l r, span, cs⟩ = (do
      let a ← expr splicer env l
      let b ← expr splicer (operandGap env l r).2 r
      return a ++ (text (" " ++ op.spelling) ++ (operandGap env l r).1) ++ b) := by
  rw [expr]
  simp only [List.append_assoc]
  rfl

/-- Two operands. -/
theorem binary {op : BinaryOp} {l r : Expr} (hl : WritesExpr S heard st splicer l)
    (hr : WritesExpr S heard st splicer r) (span : Span) (cs : Comments) :
    WritesExpr S heard st splicer ⟨.binary op l r, span, cs⟩ := by
  rintro env hfits ⟨⟨-, hleft, hleftLevel, hright, hrightLevel⟩, -⟩
  have hinside : Fits S heard (operandGap env l r).2.scene st :=
    (scene_operandGap env l r).symm ▸ hfits
  have hjoin := joiner env op l (hfits.clear (a := r) hright).1 heard
  have himage : Expr.image st ⟨.binary op l r, span, cs⟩ =
      (Expr.Form.binary op (l.image st) (r.image st)).node :=
    congrArg (fun f => (f op (l.image st) (r.image st)).node) hfits.binary
  rw [himage, expr_binary]
  exact (hl.loose hfits hleft hleftLevel).bind fun a ha =>
    (hr.loose hinside hright hrightLevel).bind fun b hb => .pure (ha.binary hjoin hb)

end WritesExpr

/-! ## Statements -/

namespace WritesStmt

/-- Statements row by row. -/
theorem rows : ∀ {ss : List Stmt}, (∀ s ∈ ss, WritesStmt S heard st splicer s) →
    Fits S heard env.scene st → Stmt.AllProper S ss →
    (rows splicer env ss).Gives False (RowsFor st heard 0 env.indent ss)
  | [], _, _, _ => .pure .nil
  | s :: ss, h, hfits, ⟨hs, _, hss⟩ => by
    obtain ⟨hline, h⟩ := List.forall_mem_cons.mp h
    rw [Verbatim.rows, hfits.spliced?]
    exact (hline env hfits hs).bind fun l hl => (rows h hfits hss).bind fun rs hrs =>
      .pure (.cons ⟨l, rfl, hl⟩ hrs)

/-- The statements of a block. -/
theorem block {b : Block} (h : ∀ s ∈ b.stmts, WritesStmt S heard st splicer s)
    (hfits : Fits S heard env.scene st) (hproper : b.Proper S) :
    (block splicer env b).Gives False (Body heard b.remarks (b.image st).stmts) := by
  obtain ⟨ss, span⟩ := b
  have hinside : Fits S heard env.deeper.scene st := hfits
  refine (rows h hinside hproper).bind fun rs hrs => .pure ?_
  obtain ⟨ks, hks, hsaid⟩ := (laidOut (Spells.indent _ _) hfits.lines ss rs hproper hrs).1
    (some span.start.line)
  refine ⟨ks, _, inferInstance, hks, fun h => ?_⟩
  rw [← add_zero (said ks), ← sum_map_zero ss]
  exact hsaid h

/-- The body of an `if` on one line. -/
theorem inlineBody {b : Block} (h : ∀ s ∈ b.stmts, WritesStmt S heard st splicer s)
    (hfits : Fits S heard env.scene st) (hproper : b.Proper S) {Q : Stmt → Prop} (hone : b.IsOne Q)
    (hQ : ∀ s, Q s → S.inline s) :
    ∃ s, Q s ∧ b.image st = ⟨[s.image st], default⟩ ∧
      (inlineBody splicer env b).Gives False (Written heard b.remarks (s.image st)) := by
  obtain ⟨ss, span⟩ := b
  obtain ⟨s, rfl, hcomment, hs⟩ := hone
  have hline : s.Proper S := hproper.1
  have hdebugger := hfits.onLine s hline (hQ s hs)
  refine ⟨s, hs, ?_, ((h s (by simp)) env hfits hline).mono fun l hl => ?_⟩
  · rw [Block.image, Stmt.images, st.cons_eq hfits.lines hdebugger]
    rfl
  · cases hl with
    | stmt m _ _ hm hwritten =>
      obtain ⟨ks, hks, hsentence, hsaid⟩ := hwritten
      refine ⟨ks, hks, hsentence, fun h => ?_⟩
      rw [hsaid h, ← add_zero m]
      exact (hm h).trans (add_zero _).symm
    | comment t hform => simp [Stmt.isComment_of_form hform] at hcomment
    | remark hd hjoins => exact ((hdebugger hd).not_joinsLines hjoins).elim

/-- **An `if` on one line**, clause by clause. -/
theorem inlineClauses (hfits : Fits S heard env.scene st) :
    ∀ {cs : List Clause} {last : Option Block} (word : String),
      (∀ c ∈ cs, WritesExpr S heard st splicer c.condition ∧
        ∀ s ∈ c.body.stmts, WritesStmt S heard st splicer s) →
      (∀ b ∈ last, ∀ s ∈ b.stmts, WritesStmt S heard st splicer s) →
      Clause.AllProper S cs → Block.Proper? S last → OnOneLine S.inline cs last →
      (inlineClauses splicer env word cs).Gives False fun l =>
        (inlineElse splicer env last).Gives False fun l' =>
          ∃ r, l ++ l' = text word ++ r ∧
            Inline heard (Clause.allRemarks cs + Block.remarks? last) (Clause.images st cs)
              (Block.image? st last) r
  | [⟨c, b, _⟩], none, word, hcs, _, ⟨⟨hc, hb⟩, _⟩, _, hone => by
    obtain ⟨hcond, hbody⟩ := hcs _ (List.mem_singleton_self _)
    obtain ⟨s, -, himage, hs⟩ := inlineBody hbody hfits hb hone fun _ h => h
    refine (hcond.loose hfits hc (Nat.zero_le _)).bind fun l hl => hs.bind fun l' hl' => ?_
    refine .pure (.pure ⟨l ++ text " then " ++ l', by simp, ?_⟩)
    rw [Clause.images, himage]
    exact (Inline.alone hl hl').recount (by simp [Clause.allRemarks, Block.remarks?])
  | [⟨c, b, _⟩], some b', word, hcs, hlast, ⟨⟨hc, hb⟩, _⟩, hb', ⟨hone, hone'⟩ => by
    obtain ⟨hcond, hbody⟩ := hcs _ (List.mem_singleton_self _)
    obtain ⟨s, ⟨-, hopen⟩, himage, hs⟩ := inlineBody hbody hfits hb hone fun _ h => h.1
    obtain ⟨t, ⟨-, hinline⟩, himage', ht⟩ := inlineBody (hlast _ rfl) hfits hb' hone' fun _ h => h.1
    have hdebugger := st.isInline_debugger hfits.lines
    refine (hcond.loose hfits hc (Nat.zero_le _)).bind fun l hl => hs.bind fun l' hl' => ?_
    refine .pure (ht.bind fun l'' hl'' => .pure
      ⟨l ++ text " then " ++ l' ++ (text " else " ++ l''), by simp, ?_⟩)
    rw [Clause.images, himage, Block.image?, himage']
    exact (Inline.else_ hl hl' (isOpen_image hfits.inline hdebugger s ▸ hopen) hl''
      (isInline_image hfits.inline hdebugger t ▸ hinline)).recount
        (by simp [Clause.allRemarks, Block.remarks?])
  | ⟨c, b, _⟩ :: d :: cs, last, word, hcs, hlast, ⟨⟨hc, hb⟩, hmore⟩, hb', ⟨hone, hones⟩ => by
    obtain ⟨⟨hcond, hbody⟩, hcs⟩ := List.forall_mem_cons.mp hcs
    obtain ⟨s, ⟨-, hopen⟩, himage, hs⟩ := inlineBody hbody hfits hb hone fun _ h => h.1
    have hdebugger := st.isInline_debugger hfits.lines
    refine (hcond.loose hfits hc (Nat.zero_le _)).bind fun l hl => hs.bind fun l' hl' => ?_
    refine (inlineClauses hfits " else if " hcs hlast hmore hb' hones).bind fun k hk =>
      .pure (hk.mono ?_)
    rintro k' ⟨r, hr, hinline⟩
    refine ⟨l ++ text " then " ++ l' ++ (text " else if " ++ r), by simp [← hr], ?_⟩
    rw [Clause.images, himage]
    exact (Inline.chain hl hl' (isOpen_image hfits.inline hdebugger s ▸ hopen) hinline).recount
      (add_assoc ..)

/-- **An `if` with blocks**, clause by clause. -/
theorem blockClauses (hfits : Fits S heard env.scene st) :
    ∀ {cs : List Clause} {last : Option Block} {c : Expr} {b : Block} {span : Span} (word : Layout),
      (∀ d ∈ Clause.mk c b span :: cs, WritesExpr S heard st splicer d.condition ∧
        ∀ s ∈ d.body.stmts, WritesStmt S heard st splicer s) →
      (∀ b ∈ last, ∀ s ∈ b.stmts, WritesStmt S heard st splicer s) →
      Clause.AllProper S (⟨c, b, span⟩ :: cs) → Block.Proper? S last →
      (blockClauses splicer env word (⟨c, b, span⟩ :: cs)).Gives False fun l =>
        (blockElse splicer env last).Gives False fun l' =>
          ∃ k r, l ++ l' = word ++ k ++ text " then" ++ r ∧ Operand heard c.inside 0 (c.image st) k ∧
            Branching heard (b.remarks + Clause.allRemarks cs + Block.remarks? last) (c.image st)
              (Clause.images st (⟨c, b, span⟩ :: cs)) (Block.image? st last) r
  | [], none, c, ⟨_, _⟩, _, word, hcs, _, ⟨⟨hc, hb⟩, _⟩, _ => by
    obtain ⟨hcond, hbody⟩ := hcs _ (List.mem_singleton_self _)
    refine (hcond.loose hfits hc (Nat.zero_le _)).bind fun l hl =>
      (block hbody hfits hb).bind fun l' hl' => ?_
    refine .pure (.pure ⟨l, eol ++ l', by simp, hl, (Branching.last hl').recount ?_⟩)
    simp [Clause.allRemarks, Block.remarks?]
  | [], some ⟨_, _⟩, c, ⟨_, _⟩, _, word, hcs, hlast, ⟨⟨hc, hb⟩, _⟩, hb' => by
    obtain ⟨hcond, hbody⟩ := hcs _ (List.mem_singleton_self _)
    refine (hcond.loose hfits hc (Nat.zero_le _)).bind fun l hl =>
      (block hbody hfits hb).bind fun l' hl' => ?_
    refine .pure ((block (hlast _ rfl) hfits hb').bind fun l'' hl'' => ?_)
    refine .pure ⟨l, eol ++ l' ++ (env.indent ++ text "else" ++ eol ++ l''), by simp, hl,
      (Branching.else_ (indent_spells env) hl' hl'').recount ?_⟩
    simp [Clause.allRemarks, Block.remarks?]
  | ⟨d, b', _⟩ :: cs, last, c, ⟨_, _⟩, _, word, hcs, hlast, ⟨⟨hc, hb⟩, hmore⟩, hb' => by
    obtain ⟨⟨hcond, hbody⟩, hcs⟩ := List.forall_mem_cons.mp hcs
    refine (hcond.loose hfits hc (Nat.zero_le _)).bind fun l hl =>
      (block hbody hfits hb).bind fun l' hl' => ?_
    refine (blockClauses hfits (env.indent ++ text "else if ") hcs hlast hmore hb').bind fun k hk =>
      .pure (hk.mono ?_)
    rintro k' ⟨i, r, hr, he, hbranch⟩
    refine ⟨l, eol ++ l' ++ (env.indent ++ text "else if " ++ i ++ text " then" ++ r),
      by simp [hr], hl, (Branching.elseIf (indent_spells env) hl' he hbranch).recount ?_⟩
    simp only [Clause.allRemarks, add_assoc]

end WritesStmt

/-! ## All nodes -/

/-- A function. -/
theorem WritesExpr.function {ps : List Param} {b : Block}
    (hps : ∀ p ∈ ps, ∀ e ∈ p.default, WritesExpr S heard st splicer e)
    (hb : ∀ s ∈ b.stmts, WritesStmt S heard st splicer s) (span : Span) (cs : Comments) :
    WritesExpr S heard st splicer ⟨.function ps b, span, cs⟩ := by
  rintro env hfits ⟨⟨hps', hb'⟩, hcs⟩
  obtain ⟨ss, bspan⟩ := b
  refine (WritesExpr.params (length_places ..) hps hfits hps').bind fun ls hls =>
    (WritesStmt.block hb hfits hb').bind fun l hl => .pure ?_
  have hparams : Params heard ((if ps.isEmpty then texts cs.inner else 0) + Param.allRemarks ps)
      (Param.images st ps) (if ps.isEmpty && cs.inner.isEmpty then [] else
        Brackets.layout ⟨"(", ")", span.start.line, span.start.line⟩ env
          (Brackets.plan ⟨"(", ")", span.start.line, span.start.line⟩ env ps cs.inner) ls) := by
    rw [Param.images_eq_map, Param.allRemarks_eq_sum]
    by_cases hbare : (ps.isEmpty && cs.inner.isEmpty) = true
    · obtain ⟨hnone, hinner⟩ : ps = [] ∧ cs.inner = [] := by simpa using hbare
      subst hnone
      rw [hinner]
      exact Params.none
    · obtain ⟨l, hl, hinner⟩ := brackets_inner ⟨"(", ")", span.start.line, span.start.line⟩ env hls
        (hfits.audible hcs).2.2
      rw [if_neg hbare, hl]
      exact Params.some hinner
  exact Operand.function (indent_spells env) hparams hl

/-- An `if` of either shape. -/
theorem WritesStmt.if_ {cs : List Clause} {last : Option Block} (inline : Bool) (span : Span)
    (hcs : ∀ c ∈ cs, WritesExpr S heard st splicer c.condition ∧
      ∀ s ∈ c.body.stmts, WritesStmt S heard st splicer s)
    (hlast : ∀ b ∈ last, ∀ s ∈ b.stmts, WritesStmt S heard st splicer s) :
    WritesStmt S heard st splicer ⟨.if_ cs last inline, span⟩ := by
  rintro env hfits ⟨hne, hcs', hlast', hone⟩
  have himage : Stmt.image st ⟨.if_ cs last inline, span⟩ =
      (Stmt.Form.if_ (Clause.images st cs) (Block.image? st last) inline).node := by
    rw [Stmt.image, Stmt.Form.image, hfits.inline]
    rfl
  cases inline with
  | true =>
    refine (inlineClauses hfits "if " hcs hlast hcs' hlast' (hone rfl)).bind fun l hl =>
      hl.bind fun l' hl' => .pure (.written rfl rfl (fun _ => add_zero _) ?_)
    obtain ⟨r, hr, hinline⟩ := hl'
    rw [hr, himage]
    exact hinline.written
  | false =>
    cases cs with
    | nil => exact absurd rfl hne
    | cons c cs =>
      obtain ⟨c, b, _⟩ := c
      refine (blockClauses hfits (text "if ") hcs hlast hcs' hlast').bind fun l hl =>
        hl.bind fun l' hl' => .pure (.written rfl rfl (fun _ => add_zero _) ?_)
      obtain ⟨k, r, hr, he, hbranch⟩ := hl'
      rw [hr, himage]
      refine (Branching.written (indent_spells env) he hbranch).recount ?_
      simp only [Stmt.remarks, Stmt.Form.remarks, Clause.allRemarks, add_assoc]

/-- **Every node is written as its image.** -/
theorem inductive_writes (S : Stock) (heard : Prop) (st : Style) (splicer : Splicer) :
    Inductive (WritesExpr S heard st splicer) (WritesStmt S heard st splicer) where
  literal l span cs := fun env hfits h => .pure (hfits.operand_literal h.1)
  list es span cs hes := by
    rintro env hfits ⟨hes', hcs⟩
    refine (WritesExpr.exprs (length_places ..) hes hfits hes').bind fun ls hls => .pure ?_
    obtain ⟨l, hl, hinner⟩ := brackets_inner ⟨"[", "]", span.start.line, span.stop.line⟩ env hls
      (hfits.audible hcs).2.2
    rw [hl, Expr.inside, Expr.Form.remarks, Expr.allRemarks_eq_sum, Expr.image, Expr.Form.image,
      Expr.images_eq_map]
    exact .list hinner
  map es span cs hes := by
    rintro env hfits ⟨hes', hcs⟩
    refine (WritesExpr.entries (length_places ..) hes hfits hes').bind fun ls hls => .pure ?_
    obtain ⟨l, hl, hinner⟩ := brackets_inner ⟨"\x7b", "\x7d", span.start.line, span.stop.line⟩ env hls
      (hfits.audible hcs).2.2
    rw [hl, Expr.inside, Expr.Form.remarks, Entry.allRemarks_eq_sum, Expr.image, Expr.Form.image,
      Entry.images_eq_map]
    exact .map hinner
  identifier x span cs := fun env hfits h => .pure (hfits.operand_identifier h.1)
  member b x span cs hb := by
    rintro env hfits ⟨⟨hb', hlevel, hx⟩, -⟩
    exact (hb.loose hfits hb' hlevel).bind fun l hl => .pure (hl.member (hfits.valid _ hx))
  index b i span cs hb hi := by
    rintro env hfits ⟨⟨hb', hlevel, hi', -⟩, -⟩
    refine (hb.loose hfits hb' hlevel).bind fun l hl => (hi.alone hfits hi' _ _).bind fun k hk => .pure ?_
    obtain ⟨k', hlayout, hbound⟩ := hk
    rw [hlayout]
    obtain ⟨form, ispan, ics⟩ := i
    exact hl.index hbound
  slice b i j span cs hb hi hj := hb.slice hi hj span cs
  call c es span cs hc hes := by
    rintro env hfits ⟨⟨hc', hlevel, hes'⟩, hcs⟩
    rw [expr, hfits.nativeCall]
    refine (hc.loose hfits hc' hlevel).bind fun l hl =>
      (WritesExpr.exprs (length_places ..) hes hfits hes').bind fun ls hls => .pure ?_
    obtain ⟨k, hk, hinner⟩ := brackets_inner ⟨"(", ")", c.span.stop.line, span.stop.line⟩ env hls
      (hfits.audible hcs).2.2
    rw [hk, Expr.inside, Expr.Form.remarks, Expr.allRemarks_eq_sum, Expr.image, Expr.Form.image,
      Expr.images_eq_map, hfits.guard, add_assoc]
    exact hl.call hinner
  binary op l r span cs hl hr := hl.binary hr span cs
  unary op e span cs he := by
    rintro env hfits ⟨⟨he', hlevel, hneg⟩, -⟩
    exact (he.loose hfits he' hlevel).bind fun l hl => .pure (hfits.operand_unary hneg hl)
  function ps b span cs hps hb := .function hps hb span cs
  paren e span cs he := fun env hfits h => by
    refine (he.alone hfits h.1 _ _).bind fun k hk => .pure ?_
    obtain ⟨l, hlayout, hbound⟩ := hk
    have hnode : Expr.image st ⟨.paren e, span, cs⟩ = (st.paren e (e.image st)).node := rfl
    rw [hlayout, hnode, hfits.paren]
    obtain ⟨form, espan, ecs⟩ := e
    exact .paren hbound
  directive d span cs := fun env hfits h => .pure (hfits.operand_directive h.1 _)
  assign op target value span ht hv := by
    rintro env hfits ⟨ht', htarget, hv'⟩
    refine (ht.loose hfits ht' (Nat.zero_le _)).bind fun l hl =>
      (hv.loose hfits hv' (Nat.zero_le _)).bind fun l' hl' => .pure (.written rfl rfl (fun _ => add_zero _) ?_)
    exact .assign op (Spells.assignOp op) hl (isTarget_image st htarget) hl'
  expr e span he hcallee := fun env hfits h => by
    refine (he.loose hfits h (Nat.zero_le _)).mono fun l hl => .written rfl rfl (fun _ => add_zero _) ?_
    have himage : Stmt.image st ⟨.expr e, span⟩ = (Stmt.Form.expr (e.image st)).node := by
      obtain ⟨form, espan, cs⟩ := e
      cases form with
      | call c args =>
        cases args with
        | nil => exact congrArg (fun f => (Stmt.Form.expr (f (c.image st))).node) hfits.callAlone
        | cons => rfl
      | _ => rfl
    rw [himage]
    exact .expr hl
  return_ value span hv := fun env hfits h => by
    cases value with
    | none => exact .pure (.written rfl rfl (fun _ => add_zero _) .return_none)
    | some e =>
      exact ((hv e rfl).loose hfits h (Nat.zero_le _)).bind fun l hl =>
        .pure (.written rfl rfl (fun _ => add_zero _) (.return_some hl))
  break_ span := fun env hfits h => .pure (.written rfl rfl (fun _ => add_zero _) .break_)
  continue_ span := fun env hfits h => .pure (.written rfl rfl (fun _ => add_zero _) .continue_)
  if_ cs last inline span hcs hlast := .if_ inline span hcs hlast
  while_ c b span hc hb := by
    rintro env hfits ⟨hc', hb'⟩
    obtain ⟨ss, bspan⟩ := b
    exact (hc.loose hfits hc' (Nat.zero_le _)).bind fun l hl =>
      (WritesStmt.block hb hfits hb').bind fun l' hl' =>
        .pure (.written rfl rfl (fun _ => add_zero _) (.while_ (indent_spells env) hl hl'))
  for_ item e b span he hb := by
    rintro env hfits ⟨hx, he', hb'⟩
    obtain ⟨ss, bspan⟩ := b
    refine (he.loose hfits he' (Nat.zero_le _)).bind fun l hl =>
      (WritesStmt.block hb hfits hb').bind fun l' hl' => .pure (.written rfl rfl (fun _ => add_zero _) ?_)
    have himage : Stmt.image st ⟨.for_ item e ⟨ss, bspan⟩, span⟩ =
        (Stmt.Form.for_ ⟨item.name, default⟩ (e.image st) (Block.image st ⟨ss, bspan⟩)).node := by
      rw [Stmt.image, Stmt.Form.image, hfits.name]
      rfl
    rw [himage]
    exact .for_ (indent_spells env) (Spells.forHead (hfits.valid _ hx)) hl hl'
  comment t span := fun env hfits h => .pure (.comment t rfl rfl (hfits.valid _ h) rfl)
  mark d span := fun env hfits h => by
    have hline := hfits.onLine_mark h span " = " 0 rfl
    cases d <;> exact .pure hline

/-- **A script is written as its image**, and its comments are kept. -/
theorem script_gives {scene : Scene} {s : Script} (hfits : Fits S heard scene st)
    (hproper : Stmt.AllProper S s.body) :
    (script scene s).Gives False fun l =>
      ∃ ks, Document (Stmt.images st s.body) l ks ∧ (heard → said ks = Stmt.allRemarks s.body) :=
  (WritesStmt.rows ((inductive_writes S heard st _).stmts s.body) hfits hproper).map fun _ hrows => by
    obtain ⟨ks, hdocument, hsaid⟩ :=
      document_arrangeAll (indent_spells { scene }) hfits.lines hproper hrows
    exact ⟨ks, hdocument, fun h => by simpa using hsaid h⟩

/-- A script on its own fits the plain style. -/
theorem fits_plain {source : Source} (script : Script) {settings : Settings}
    (hdirectives : source.KeepsDirectives settings) :
    Fits source.stock True (source.scene script settings) .plain where
  toFits := hdirectives.fits rfl
  name := rfl
  literal := rfl
  guard := rfl
  binary := rfl
  unary := fun _ _ _ => rfl
  minus := fun e he => (Expr.negate_of_not_isUnsigned (isUnsigned_image rfl (fun _ _ => rfl)
    (fun _ _ _ => rfl) (fun _ _ => rfl) (fun _ _ => rfl) he)).symm
  lines := .inl ⟨fun _ _ _ _ => rfl, rfl⟩
  debugger := fun s hs hdebugger => .inl ⟨by
    rw [Source.settings_scene]
    exact hdirectives.devMode_of_isDebugger hs hdebugger, fun _ _ _ _ => rfl, rfl⟩
  paren := fun _ => rfl
  callAlone := rfl
  inline := rfl
  onLine := fun _ _ _ _ => ⟨fun _ _ _ _ => rfl, rfl⟩

end Verbatim

/-- **Writing a script out keeps it.**  The text has the same comments, and it is read as the tree it
was written from. -/
theorem Source.parse_bundle_verbatim {source : Source} {script : Script} {settings : Settings}
    (hparse : source.parse = .ok script) (hmode : settings.mode = .verbatim)
    (hdirectives : source.KeepsDirectives settings) :
    ∃ t, source.bundle settings = .ok t ∧ ∀ name,
      spoken (Source.mk name t).scan.tokens = spoken source.scan.tokens ∧
        ((Source.mk name t).NestsTooDeep ∨ ∃ script', (Source.mk name t).parse = .ok script' ∧
          script'.body.map Stmt.bare = script.body.map Stmt.bare) := by
  have hhoists : settings.hoists = false := by simp [Settings.hoists, hmode]
  have hread := readFrom_stock hparse
  have hwritten := Verbatim.script_gives (s := script) (Verbatim.fits_plain script hdirectives)
    hread.proper
  have hscript : (source.scene script settings).script script =
      Verbatim.script (source.scene script settings) script := by
    unfold Scene.script
    rw [settings_scene, hmode]
  obtain ⟨l, ⟨ks, hdocument, hsaid⟩, hbundle⟩ := exists_bundle hparse hhoists (hscript ▸ hwritten)
  rw [Stmt.images_plain] at hdocument
  refine ⟨l.join, hbundle, fun name => ⟨?_, hdocument.parse name⟩⟩
  rw [hdocument.spoken name, hsaid trivial, hread.remarks]

/-- Comments after an item and after a statement, and an `if` on one line. -/
def Source.remarked : Source where
  name := "main"
  text := "x=[1,//a\n2] //b\nif x then f()"

theorem Source.parse_bundle_verbatim_remarked :
    ∃ script t, remarked.parse = .ok script ∧ remarked.bundle { mode := .verbatim } = .ok t ∧
      t = "x = [1, //a\n\t2] //b\nif x then f()" ∧
      ∀ name, spoken (Source.mk name t).scan.tokens = spoken remarked.scan.tokens ∧
        ∃ script', (Source.mk name t).parse = .ok script' ∧
          script'.body.map Stmt.bare = script.body.map Stmt.bare := by
  have hsome : remarked.parse.toOption.isSome = true := by decide +kernel
  have houtput : (remarked.bundle { mode := .verbatim }).toOption =
      some "x = [1, //a\n\t2] //b\nif x then f()" := by decide +kernel
  obtain ⟨script, hscript⟩ := Option.isSome_iff_exists.mp hsome
  have hparse := Except.toOption_eq_some hscript
  have hmode : ({ mode := .verbatim } : Settings).mode = .verbatim := rfl
  obtain ⟨t, ht, hkept⟩ := parse_bundle_verbatim hparse hmode (.inr (by decide +kernel))
  obtain rfl := Except.ok.inj (ht.symm.trans (Except.toOption_eq_some houtput))
  exact ⟨script, _, hparse, ht, rfl, fun name => (hkept name).imp_right fun h =>
    h.resolve_left (not_nestsTooDeep (by decide +kernel) name)⟩

end ScriptBundler

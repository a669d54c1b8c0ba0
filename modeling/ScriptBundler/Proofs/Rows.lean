import ScriptBundler.Proofs.Rendering
import ScriptBundler.Proofs.Sentence
import ScriptBundler.Write.Basic

/-!
# Proofs/Rows — statements that are written line by line

What is written below a line starts with the break of that line, unless a comment continues it: then
the break is taken back.  So a layout of lines is looked at together with the break before it
(`Below`), and says no more about its own end than that line breaks are there, because those at the end
of a text are dropped.
-/

namespace ScriptBundler

open Token (Kind)
open Layout Reader

/-- The indentation of a line is not read. -/
theorem Spells.indent (settings : Settings) (depth : Nat) :
    Spells (settings.indent depth) [] Any Any Any Any := by
  have hunit : ∀ c ∈ settings.indentationStyle.unit.toList, isBlank c = true := by
    cases settings.indentationStyle with
    | tab => exact List.all_eq_true.mp rfl
    | spaces n =>
      rw [IndentationStyle.unit, String.toList_ofList]
      intro c hc
      rw [List.eq_of_mem_replicate hc]
      decide
  have hblank : ∀ n, ∀ c ∈ (String.join (List.replicate n settings.indentationStyle.unit)).toList,
      isBlank c = true := by
    intro n
    induction n with
    | zero => simp [String.join]
    | succ n ih =>
      rw [List.replicate_succ, String.join_cons, String.toList_append]
      exact fun c hc => (List.mem_append.mp hc).elim (hunit c) (ih c)
  exact fun out _ => ⟨_, foldl_text _ out, trivial, fun rest _ =>
    ⟨.blanks (hblank depth) rest, trivial⟩⟩

/-- `l`, below a line that something stands on, are the statements `ss`; with the break of that line
they are read as `ks`. -/
def Below (G : List Char → Prop) (ss : List Stmt) (l : Layout) (ks : List Kind) : Prop :=
  ∃ core body m, ks = body ++ List.replicate (m + 1) .newline ∧ Lines ss body ∧
    (body = [] ∨ isLayout (next body) = true) ∧ Spells core body Solid Solid EndsLine G ∧
    ∀ out, Solid out → (eol ++ l).foldl write out = (core ++ eols (m + 1)).foldl write out

namespace Below

variable {G G' : List Char → Prop} {s : Stmt} {ss : List Stmt} {l l' : Layout} {ks ls : List Kind}

/-- Nothing but blank lines. -/
theorem nil [h : Covers EndsLine G] (n : Nat) :
    Below G [] (eols n) (List.replicate (n + 1) .newline) :=
  ⟨[], [], n, rfl, .nil, .inl rfl, (Spells.nil (P := Solid) (F := EndsLine)).mono,
    fun _ _ => rfl⟩

theorem mono [Covers G G'] (h : Below G ss l ks) : Below G' ss l ks := by
  obtain ⟨core, body, m, hks, hlines, hbody, hcore, hl⟩ := h
  exact ⟨core, body, m, hks, hlines, hbody, hcore.mono, hl⟩

/-- **A block** that is written below the line that opens it. -/
theorem block (h : Below G ss l ks) : BlockPhrase ss ks := by
  obtain ⟨core, body, m, rfl, hlines, hbody, -⟩ := h
  refine ⟨?_, body, m, rfl, hlines⟩
  rcases hbody with rfl | hbody
  · rfl
  · cases body with
    | nil => cases hbody
    | cons k ks => exact hbody

/-- With the break before it, such a layout is like any other. -/
theorem spells (h : Below G ss l ks) : Spells (eol ++ l) ks Solid Any Any G := by
  obtain ⟨core, body, m, rfl, -, -, hcore, hl⟩ := h
  intro out hout
  rw [hl out hout]
  exact (hcore.append (Spells.eols m)) out hout

/-- A comment that continues the line before it. -/
theorem trailing {t : String} (ht : (Kind.comment t).Valid) (h : Below EndsLine ss l ks)
    [Covers Pause G] :
    Below G ((Stmt.Form.comment t).node :: ss) (Layout.trailing t ++ eol ++ l) (.comment t :: ks) := by
  obtain ⟨core, body, m, rfl, hlines, -, hcore, hl⟩ := h
  refine ⟨Layout.trailing t ++ core, .comment t :: body, m, rfl, .comment hlines, .inr rfl,
    ((Spells.trailing ht).append hcore).mono, fun out hout => ?_⟩
  obtain ⟨cs, hcs, hsolid, -⟩ := Spells.trailing ht out hout
  have hsplit : eol ++ (Layout.trailing t ++ eol ++ l) =
      (eol ++ Layout.trailing t) ++ (eol ++ l) := by simp
  rw [hsplit, List.foldl_append, foldl_eol_trailing t hout, hcs, hl _ hsolid, ← hcs,
    ← List.foldl_append, List.append_assoc]

end Below

/-! ## A first line and the lines below it -/

/-- `l` is a line, and the break and the lines below it; together they are the statements `ss`. -/
def Paragraph (ss : List Stmt) (l : Layout) (ks : List Kind) : Prop :=
  ∃ first ls s F G below below' ss', Spells first ls Any Solid F Any ∧ Covers G F ∧
    (∀ {ts ms}, Lines ts ms → (next ms).isTerminator = true → Lines (s :: ts) (ls ++ ms)) ∧
    Below G ss' below below' ∧ ss = s :: ss' ∧ ks = ls ++ below' ∧
    ∀ out, l.foldl write out = (first ++ (eol ++ below)).foldl write out

namespace Paragraph

variable {G : List Char → Prop} {s : Stmt} {ss : List Stmt} {i l l' : Layout} {ks ls : List Kind}

/-- A statement and what is below it. -/
theorem stmt (hi : Spells i [] Any Any Any Any) (hl : Spells l ls Any Solid EndsOperand Any)
    (hs : Sentence s ls) [hG : Covers G EndsOperand] (h : Below G ss l' ks) :
    Paragraph (s :: ss) (i ++ l ++ eol ++ l') (ls ++ ks) :=
  ⟨i ++ l, ls, s, _, _, l', ks, ss, hi.append hl, hG, fun hts hms => .stmt hs hms hts, h, rfl, rfl,
    fun out => by simp⟩

/-- A comment and what is below it. -/
theorem comment {t : String} (hi : Spells i [] Any Any Any Any) (ht : (Kind.comment t).Valid)
    (h : Below EndsLine ss l' ks) :
    Paragraph ((Stmt.Form.comment t).node :: ss) (i ++ Layout.comment t ++ eol ++ l')
      (.comment t :: ks) :=
  ⟨i ++ Layout.comment t, [.comment t], _, _, _, l', ks, ss, hi.append (Spells.comment ht), .refl _,
    fun hts _ => .comment hts, h, rfl, rfl, fun out => by simp⟩

/-- The same text in other pieces. -/
theorem of_foldl (h : Paragraph ss l ks)
    (hl : ∀ out, l'.foldl write out = l.foldl write out) : Paragraph ss l' ks := by
  obtain ⟨first, ls, s, F, G, below, below', ss', hfirst, hG, hlines, hbelow, hss, hks, hfold⟩ := h
  exact ⟨first, ls, s, F, G, below, below', ss', hfirst, hG, hlines, hbelow, hss, hks,
    fun out => (hl out).trans (hfold out)⟩

/-- Statements end before a line break and before the end. -/
theorem isTerminator_next {ms : List Kind} (h : ms = [] ∨ isLayout (next ms) = true) :
    (next ms).isTerminator = true := by
  rcases h with rfl | h
  · rfl
  · revert h
    cases next ms <;> simp [isLayout, Kind.isTerminator]

/-- **Lines below a line**, after some blank ones. -/
theorem below (h : Paragraph ss l ks) (n : Nat) :
    Below EndsLine ss (eols n ++ l) (List.replicate (n + 1) .newline ++ ks) := by
  obtain ⟨first, ls, s, F, G, below, _, ss', hfirst, hG, hlines,
    ⟨core, body, m, rfl, hbelow, hbody, hcore, hfold⟩, rfl, rfl, hl⟩ := h
  have hnewlines : ∀ k {ts ms}, Lines ts ms → Lines ts (List.replicate k .newline ++ ms) := by
    intro k ts ms hms
    induction k with
    | zero => exact hms
    | succ k ih => exact .newline ih
  refine ⟨eols (n + 1) ++ (first ++ core), List.replicate (n + 1) .newline ++ (ls ++ body),
    m, by simp, hnewlines _ (hlines hbelow (isTerminator_next hbody)), .inr rfl,
    ((Spells.eols n).append (hfirst.append hcore)).mono, fun out _ => ?_⟩
  obtain ⟨cs, hcs, hsolid, -⟩ := ((Spells.eols n).append hfirst) out trivial
  have hsplit : eol ++ (eols n ++ l) = eols (n + 1) ++ l := by
    simp [eols, eol, List.replicate_succ]
  rw [hsplit, List.foldl_append, hl, ← List.foldl_append, ← List.append_assoc, List.foldl_append, hcs,
    hfold _ hsolid, ← hcs, ← List.foldl_append]
  simp

end Paragraph

/-! ## Whole texts -/

/-- The text of `l` is read as `ks`, which are the statements `ss`. -/
structure Document (ss : List Stmt) (l : Layout) (ks : List Kind) : Prop where
  lines : Lines ss ks
  scans : ∃ cs, l.join = String.ofList cs ∧ ∀ rest, EndsLine rest → Scans cs ks rest

theorem Document.nil : Document [] [] [] := ⟨.nil, [], rfl, fun rest _ => .nil rest⟩

@[simp] theorem said_newline : said [.newline] = 0 := rfl

@[simp] theorem said_newlines (n : Nat) : said (List.replicate n .newline) = 0 :=
  said_of_none fun k hk => by rw [List.eq_of_mem_replicate hk]; rfl

theorem Layout.foldl_eols (n : Nat) (out : List Char) :
    (eols n).foldl write out = List.replicate n '\n' ++ out := by
  induction n generalizing out with
  | zero => rfl
  | succ n ih =>
    rw [List.replicate_succ', List.append_assoc]
    exact ih _

/-- **A first line and the lines below it are a text**, of which the line breaks at its end are
dropped. -/
theorem Paragraph.document {ss : List Stmt} {l : Layout} {ks : List Kind} (h : Paragraph ss l ks) :
    ∃ body, Document ss l body ∧ said body = said ks := by
  obtain ⟨first, ls, s, F, G, below, _, ss', hfirst, hG, hlines,
    ⟨core, body, m, rfl, hbelow, hbody, hcore, hfold⟩, rfl, rfl, hl⟩ := h
  refine ⟨ls ++ body, ⟨hlines hbelow (isTerminator_next hbody), ?_⟩, by simp⟩
  obtain ⟨cs, hcs, hsolid, -⟩ := hfirst [] trivial
  obtain ⟨ds, hds, hsolid', hscan⟩ := (hfirst.append hcore) [] trivial
  refine ⟨ds, ?_, fun rest hrest => (hscan rest hrest).1⟩
  have htext : l.foldl write [] = List.replicate (m + 1) '\n' ++ (ds.reverse ++ []) := by
    rw [hl, List.foldl_append, hcs, hfold _ hsolid, ← hcs, ← List.foldl_append, ← List.append_assoc,
      List.foldl_append, hds, foldl_eols]
  obtain ⟨c, out, hout, hc⟩ := hsolid'
  rw [join, htext, hout, List.dropWhile_append_of_pos (by simp), List.dropWhile_cons,
    if_neg (by simpa using hc), ← hout, List.append_nil, List.reverse_reverse]

/-! ## Rows -/

/-- A mark for a debugger. -/
def Stmt.isDebugger (s : Stmt) : Bool :=
  match s.form with
  | .directive .debugger => true
  | _ => false

/-- What is written for a mark for a debugger if none is wanted. -/
def debuggerRemark : String := "debugger"

/-- A comment that stands for a mark goes on with a comment behind the mark. -/
def joinRemark (s s' : Stmt) (ss ss' : List Stmt) : List Stmt :=
  match ss with
  | ⟨.comment t, span⟩ :: _ =>
    if s.isDebugger && s.span.stop.line = span.start.line then
      (Stmt.Form.comment (debuggerRemark ++ (" //" ++ t))).node :: ss'.tail
    else s' :: ss'
  | _ => s' :: ss'

namespace Style

/-- Every statement gets a line, and a mark for a debugger stays one. -/
structure KeepsLines (st : Style) : Prop where
  cons : ∀ s s' ss ss', st.cons s s' ss ss' = s' :: ss'
  debugger : st.debugger = .directive .debugger

/-- Every statement gets a line, and a mark for a debugger becomes a comment. -/
structure JoinsLines (st : Style) : Prop where
  cons : st.cons = joinRemark
  debugger : st.debugger = .comment debuggerRemark

/-- No style both keeps and joins lines. -/
theorem KeepsLines.not_joinsLines {st : Style} (h : st.KeepsLines) (h' : st.JoinsLines) : False :=
  nomatch h.debugger.symm.trans h'.debugger

end Style

/-- `l` is the statement `s`.  If comments are `heard`, those in it say `m`. -/
def Written (heard : Prop) (m : Multiset String) (s : Stmt) (l : Layout) : Prop :=
  ∃ ks, Spells l ks Any Solid EndsOperand Any ∧ Sentence s ks ∧ (heard → said ks = m)

/-- `l` is what a line has in it for `s`.  Of what the comments in `s` say, `gone s` is left out. -/
inductive Stmt.OnLine (st : Style) (heard : Prop) (gone : Stmt → Multiset String) (s : Stmt)
    (l : Layout) : Prop where
  | stmt (m : Multiset String) : s.isComment = false → (s.isDebugger = true → st.KeepsLines) →
      (heard → m + gone s = s.remarks) → Written heard m (s.image st) l → OnLine st heard gone s l
  | comment (t : String) : s.form = .comment t → gone s = 0 → (Kind.comment t).Valid →
      l = Layout.comment t → OnLine st heard gone s l
  | remark : s.isDebugger = true → st.JoinsLines → ¬heard → l = Layout.comment debuggerRemark →
      OnLine st heard gone s l

/-- A statement that is neither a comment nor a mark for a debugger. -/
theorem Stmt.OnLine.written {st : Style} {heard : Prop} {gone : Stmt → Multiset String} {s : Stmt}
    {l : Layout} {m : Multiset String} (hcomment : s.isComment = false) (hdebugger : s.isDebugger = false)
    (hm : heard → m + gone s = s.remarks) (h : Written heard m (s.image st) l) :
    s.OnLine st heard gone l :=
  .stmt m hcomment (fun hd => absurd (hd.symm.trans hdebugger) Bool.noConfusion) hm h

/-- The first of `ss` is a comment that continues the line `prev`. -/
def Continues (prev : Option Nat) (ss : List Stmt) : Prop :=
  ∃ s ∈ ss.head?, s.isComment = true ∧ prev = some s.span.start.line

/-- What is written below the line `prev` starts with a line break, unless a comment continues it. -/
def Joint (prev : Option Nat) (ss : List Stmt) (cs : List Char) : Prop :=
  EndsOperand cs ∧ (¬Continues prev ss → EndsLine cs)

namespace Joint

variable {prev : Option Nat} {ss : List Stmt}

instance endsLine : Covers EndsLine (Joint prev ss) := ⟨fun _ h => ⟨h.endsOperand, fun _ => h⟩⟩

instance endsOperand : Covers (Joint prev ss) EndsOperand := ⟨fun _ h => h.1⟩

/-- Where a comment continues the line, a pause is enough. -/
theorem covers_pause (h : Continues prev ss) : Covers Pause (Joint prev ss) :=
  ⟨fun cs hcs => ⟨Covers.pause_endsOperand.covers cs hcs, fun hn => absurd h hn⟩⟩

/-- Where no comment continues it, the line ends. -/
theorem covers_endsLine (h : ¬Continues prev ss) : Covers (Joint prev ss) EndsLine :=
  ⟨fun _ hcs => hcs.2 h⟩

end Joint

theorem Stmt.isComment_of_form {s : Stmt} {t : String} (h : s.form = .comment t) :
    s.isComment = true := by rw [isComment, h]

/-- Nothing continues the line of a comment. -/
theorem not_continues_of_clears {s : Stmt} {ss : List Stmt} (hs : s.isComment = true)
    (h : ∀ t ∈ ss.head?, s.Clears t) :
    ¬Continues (some s.span.start.line) ss ∧ ¬Continues (some s.span.stop.line) ss := by
  constructor <;> rintro ⟨t, ht, -, hline⟩ <;> have hlt := h t ht hs <;>
    have hline := Option.some.inj hline <;> omega

/-- Between rows there are line breaks and nothing else. -/
theorem Row.gap_eq (prev next : Option Nat) : ∃ n, Row.gap prev next = eols n := by
  fun_cases Row.gap prev next
  · exact ⟨_, rfl⟩
  · exact ⟨0, rfl⟩

/-- A comment that stands for a mark, and the comment behind it, are one. -/
theorem foldl_remark_trailing (t : String) (out : List Char) :
    (Layout.comment debuggerRemark ++ (eol ++ Layout.trailing t)).foldl write out =
      (Layout.comment (debuggerRemark ++ (" //" ++ t))).foldl write out := by
  simp [Layout.comment, Layout.trailing, eol, write, continueLine, debuggerRemark]

/-- The remark in place of a mark for a debugger can be read. -/
theorem valid_remark : (Kind.comment debuggerRemark).Valid := ⟨by decide, by decide⟩

theorem trimReturns_append {cs ds : List Char} (hcs : trimReturns cs = cs) (hds : trimReturns ds = ds) :
    trimReturns (cs ++ ds) = cs ++ ds := by
  rw [trimReturns, List.reverse_append, List.dropWhile_append]
  rw [trimReturns, List.reverse_eq_iff] at hcs hds
  rw [hcs, hds]
  cases ds with
  | nil => simp
  | cons d ds => simp

/-- So can a comment behind that remark. -/
theorem valid_remark_append {t : String} (ht : (Kind.comment t).Valid) :
    (Kind.comment (debuggerRemark ++ (" //" ++ t))).Valid := by
  refine ⟨?_, ?_⟩ <;> rw [String.toList_append, String.toList_append]
  · simp only [List.mem_append, not_or]
    exact ⟨by decide, by decide, ht.1⟩
  · exact trimReturns_append (by decide) (trimReturns_append (by decide) ht.2)

namespace Style

variable {st : Style}

/-- A line for a statement, and the lines of the others. -/
theorem cons_eq (hst : st.KeepsLines ∨ st.JoinsLines) {s : Stmt}
    (hs : s.isDebugger = true → st.KeepsLines) (s' : Stmt) (ss ss' : List Stmt) :
    st.cons s s' ss ss' = s' :: ss' := by
  rcases hst with h | h
  · exact h.cons s s' ss ss'
  · cases hd : s.isDebugger with
    | true => exact (hs hd).cons s s' ss ss'
    | false =>
      rw [h.cons]
      unfold joinRemark
      split
      · rw [hd, Bool.false_and, if_neg Bool.false_ne_true]
      · rfl

end Style

/-- A statement is arranged behind the gap before it. -/
theorem arrange_stmt {s : Stmt} (hs : s.isComment = false) (close prev : Option Nat) (l : Layout)
    (rs : List Row) : Row.arrange close prev (Row.ofStmt s l :: rs) =
      Row.gap prev (some s.span.start.line) ++ l ++ Row.arrange close (some s.span.stop.line) rs := by
  have hcomment : (Row.ofStmt s l).comment = none := by
    obtain ⟨form, span⟩ := s
    cases form with
    | comment => cases hs
    | _ => rfl
  rw [Row.arrange, hcomment]
  rfl

/-- A comment is arranged behind the line it continues, or on its own. -/
theorem arrange_comment {s : Stmt} {t : String} (hs : s.form = .comment t) (close prev : Option Nat)
    (l : Layout) (rs : List Row) : Row.arrange close prev (Row.ofStmt s l :: rs) =
      if prev = some s.span.start.line then
        Layout.trailing t ++ eol ++ Row.arrange close prev rs
      else
        Row.gap prev (some s.span.start.line) ++ l ++
          Row.arrange close (some s.span.stop.line) rs := by
  have hcomment : (Row.ofStmt s l).comment = some t := by
    unfold Row.ofStmt
    rw [hs]
  rw [Row.arrange, hcomment]
  rfl

theorem Stmt.image_comment {st : Style} {s : Stmt} {t : String} (hs : s.form = .comment t) :
    s.image st = (Stmt.Form.comment t).node := by
  obtain ⟨form, span⟩ := s
  obtain rfl : form = .comment t := hs
  rfl

/-- What becomes of a mark for a debugger. -/
theorem Stmt.image_debugger {st : Style} {s : Stmt} (hs : s.isDebugger = true) :
    s.image st = st.debugger.node := by
  obtain ⟨form, span⟩ := s
  revert hs
  unfold isDebugger
  split
  · rename_i h
    obtain rfl : form = .directive .debugger := h
    exact fun _ => rfl
  · rintro ⟨⟩

theorem Stmt.remarks_comment {s : Stmt} {t : String} (hs : s.form = .comment t) :
    s.remarks = {t} := by
  obtain ⟨form, span⟩ := s
  obtain rfl : form = .comment t := hs
  rfl

theorem Stmt.isDebugger_comment {s : Stmt} {t : String} (hs : s.form = .comment t) :
    s.isDebugger = false := by rw [isDebugger, hs]

theorem Stmt.isComment_debugger {s : Stmt} (hs : s.isDebugger = true) : s.isComment = false := by
  revert hs
  unfold isDebugger isComment
  split <;> simp_all

section Arrange

variable {S : Stock} {st : Style} {heard : Prop} {gone : Stmt → Multiset String} {i : Layout}
  {close : Option Nat}

/-- Rows, each with the statement it was written for. -/
def RowsFor (st : Style) (heard : Prop) (gone : Stmt → Multiset String) (i : Layout) (ss : List Stmt)
    (rs : List Row) : Prop :=
  List.Forall₂ (fun s r => ∃ l, r = Row.ofStmt s (i ++ l ++ eol) ∧ s.OnLine st heard gone l) ss rs

/-- Rows that are the statements they were written for, below whatever line. -/
def LaidOut (st : Style) (heard : Prop) (gone : Stmt → Multiset String) (close : Option Nat)
    (ss : List Stmt) (rs : List Row) : Prop :=
  ∀ prev, ∃ ks, Below (Joint prev ss) (Stmt.images st ss) (Row.arrange close prev rs) ks ∧
    (heard → said ks + (ss.map gone).sum = Stmt.allRemarks ss)

theorem LaidOut.nil : LaidOut st heard gone close [] [] := by
  intro prev
  obtain ⟨n, hn⟩ := Row.gap_eq prev close
  rw [Row.arrange, hn]
  exact ⟨_, Below.nil n, fun _ => by rw [said_newlines]; rfl⟩

/-- Where nothing is left out. -/
@[simp] theorem sum_map_zero {α : Type} (as : List α) :
    (as.map (0 : α → Multiset String)).sum = 0 := by
  induction as with
  | nil => rfl
  | cons a as ih => rw [List.map_cons, List.sum_cons, ih, Pi.zero_apply, add_zero]

/-- A statement in front of others. -/
theorem said_add_gone {s : Stmt} {ss : List Stmt} {ks : List Kind} {m : Multiset String}
    (hs : m + gone s = s.remarks) (hss : said ks + (ss.map gone).sum = Stmt.allRemarks ss) :
    m + said ks + ((s :: ss).map gone).sum = Stmt.allRemarks (s :: ss) := by
  rw [List.map_cons, List.sum_cons, add_add_add_comm, hs, hss]
  rfl

/-- Where no comment continues the line before it, a row starts a line. -/
theorem arrange_cons {s : Stmt} {l : Layout} (hl : s.OnLine st heard gone l) {prev : Option Nat}
    {ss : List Stmt} (h : ¬Continues prev (s :: ss)) (k : Layout) (rs : List Row) :
    Row.arrange close prev (Row.ofStmt s k :: rs) =
      Row.gap prev (some s.span.start.line) ++ (k ++ Row.arrange close (some s.span.stop.line) rs) := by
  have hnone : s.isComment = false → Row.arrange close prev (Row.ofStmt s k :: rs) =
      Row.gap prev (some s.span.start.line) ++ (k ++ Row.arrange close (some s.span.stop.line) rs) :=
    fun hs => (arrange_stmt hs ..).trans (List.append_assoc ..)
  cases hl with
  | stmt _ hcomment => exact hnone hcomment
  | comment t hform =>
    have hprev : prev ≠ some s.span.start.line := fun hprev =>
      h ⟨s, rfl, Stmt.isComment_of_form hform, hprev⟩
    rw [arrange_comment hform, if_neg hprev, List.append_assoc]
  | remark hdebugger => exact hnone (Stmt.isComment_debugger hdebugger)

/-- A comment that stands for a mark, and the comment behind it. -/
theorem paragraph_joined (hi : Spells i [] Any Any Any Any) (hst : st.JoinsLines) {s c : Stmt}
    (hs : s.isDebugger = true) {ss : List Stmt} {t : String} (hc : c.form = .comment t)
    (hvalid : (Kind.comment t).Valid) (hline : s.span.stop.line = c.span.start.line)
    (hclears : ∀ d ∈ ss.head?, c.Clears d) {rs : List Row} (h : LaidOut st heard gone close ss rs)
    (k : Layout) :
    ∃ ks, Paragraph (Stmt.images st (s :: c :: ss))
      (i ++ Layout.comment debuggerRemark ++ eol ++
        Row.arrange close (some s.span.stop.line) (Row.ofStmt c k :: rs)) ks := by
  obtain ⟨ks, hks, -⟩ := h (some s.span.stop.line)
  have hnone := (not_continues_of_clears (Stmt.isComment_of_form hc) hclears).1
  have := Joint.covers_endsLine (hline ▸ hnone)
  have himages : Stmt.images st (s :: c :: ss) =
      (Stmt.Form.comment (debuggerRemark ++ (" //" ++ t))).node :: Stmt.images st ss := by
    obtain ⟨form, span⟩ := c
    obtain rfl : form = .comment t := hc
    have hmore : Stmt.images st (⟨.comment t, span⟩ :: ss) =
        (Stmt.Form.comment t).node :: Stmt.images st ss :=
      st.cons_eq (.inr hst) (by simp [Stmt.isDebugger]) ..
    rw [Stmt.images, hmore, hst.cons, joinRemark, hs, hline]
    simp
  rw [himages, arrange_comment hc, if_pos (congrArg some hline)]
  refine ⟨_, (Paragraph.comment hi (valid_remark_append hvalid) hks.mono).of_foldl fun out => ?_⟩
  have hsplit : ∀ a b d e f : Layout, a ++ b ++ d ++ (e ++ d ++ f) =
      a ++ ((b ++ (d ++ e)) ++ (d ++ f)) := by simp
  rw [hsplit, List.foldl_append, List.foldl_append, foldl_remark_trailing]
  simp [List.foldl_append]

/-- A row that starts a line, and the rows below it. -/
theorem paragraph_rows (hi : Spells i [] Any Any Any Any) (hst : st.KeepsLines ∨ st.JoinsLines)
    {s : Stmt} {ss : List Stmt} (hproper : Stmt.AllProper S (s :: ss)) {l : Layout} {rs : List Row}
    (hl : s.OnLine st heard gone l) (hrows : RowsFor st heard gone i ss rs)
    (h : LaidOut st heard gone close ss rs) (htail : LaidOut st heard gone close ss.tail rs.tail) :
    ∃ ks, Paragraph (Stmt.images st (s :: ss))
      (i ++ l ++ eol ++ Row.arrange close (some s.span.stop.line) rs) ks ∧
      (heard → said ks + ((s :: ss).map gone).sum = Stmt.allRemarks (s :: ss)) := by
  obtain ⟨-, hclears, hss⟩ := hproper
  obtain ⟨ks, hks, hheard⟩ := h (some s.span.stop.line)
  cases hl with
  | stmt m hcomment hdebugger hm hwritten =>
    obtain ⟨ls, hls, hsentence, hsaid⟩ := hwritten
    rw [Stmt.images, st.cons_eq hst hdebugger]
    refine ⟨_, .stmt hi hls hsentence hks, fun h => ?_⟩
    rw [said_append, hsaid h]
    exact said_add_gone (hm h) (hheard h)
  | comment t hform hgone hvalid hl =>
    subst hl
    have := Joint.covers_endsLine
      (not_continues_of_clears (Stmt.isComment_of_form hform) hclears).2
    rw [Stmt.images, st.cons_eq hst (by simp [Stmt.isDebugger_comment hform]),
      Stmt.image_comment hform]
    refine ⟨_, .comment hi hvalid hks.mono, fun h => ?_⟩
    rw [said_cons]
    exact said_add_gone (by rw [hgone, Stmt.remarks_comment hform]; rfl) (hheard h)
  | remark hdebugger hjoins hnot hl =>
    subst hl
    by_cases hnext : Continues (some s.span.stop.line) ss
    · obtain ⟨c, hc, hcomment, hline⟩ := hnext
      cases hrows with
      | nil => cases hc
      | @cons d r ss rs hfirst _ =>
        obtain rfl : d = c := by simpa using hc
        obtain ⟨k, rfl, hk⟩ := hfirst
        cases hk with
        | stmt _ hno => simp [hno] at hcomment
        | comment t hform _ hvalid =>
          obtain ⟨ks, hks⟩ := paragraph_joined hi hjoins hdebugger hform hvalid (Option.some.inj hline)
            hss.2.1 htail _
          exact ⟨ks, hks, fun h => absurd h hnot⟩
        | remark hd => simp [Stmt.isComment_debugger hd] at hcomment
    · have := Joint.covers_endsLine hnext
      have himages : Stmt.images st (s :: ss) =
          (Stmt.Form.comment debuggerRemark).node :: Stmt.images st ss := by
        rw [Stmt.images, hjoins.cons, Stmt.image_debugger hdebugger, hjoins.debugger]
        unfold joinRemark
        split
        · rename_i t span _
          have hne : s.span.stop.line ≠ span.start.line := fun heq =>
            hnext ⟨_, rfl, rfl, congrArg some heq⟩
          simp [hne]
        · rfl
      rw [himages]
      exact ⟨_, .comment hi valid_remark hks.mono, fun h => absurd h hnot⟩

/-- **Rows are the statements they were written for**, one below the other. -/
theorem laidOut (hi : Spells i [] Any Any Any Any) (hst : st.KeepsLines ∨ st.JoinsLines) :
    ∀ (ss : List Stmt) (rs : List Row), Stmt.AllProper S ss → RowsFor st heard gone i ss rs →
      LaidOut st heard gone close ss rs ∧ LaidOut st heard gone close ss.tail rs.tail
  | [], [], _, _ => ⟨.nil, .nil⟩
  | s :: ss, _ :: rs, hproper, .cons ⟨l, hr, hl⟩ hrows => by
    obtain ⟨hmore, htail⟩ := laidOut hi hst ss rs hproper.2.2 hrows
    refine ⟨fun prev => ?_, hmore⟩
    subst hr
    by_cases hprev : Continues prev (s :: ss)
    · obtain ⟨d, hd, hcomment, hline⟩ := hprev
      obtain rfl : s = d := by simpa using hd
      cases hl with
      | stmt _ hno => simp [hno] at hcomment
      | comment t hform hgone hvalid =>
        have := Joint.covers_endsLine
          (hline ▸ (not_continues_of_clears hcomment hproper.2.1).1)
        have : Covers Pause (Joint prev (s :: ss)) := Joint.covers_pause ⟨s, rfl, hcomment, hline⟩
        obtain ⟨ks, hks, hheard⟩ := hmore prev
        rw [arrange_comment hform, if_pos hline, Stmt.images,
          st.cons_eq hst (by simp [Stmt.isDebugger_comment hform]), Stmt.image_comment hform]
        refine ⟨_, hks.mono.trailing hvalid, fun h => ?_⟩
        rw [said_cons]
        exact said_add_gone (by rw [hgone, Stmt.remarks_comment hform]; rfl) (hheard h)
      | remark hd => simp [Stmt.isComment_debugger hd] at hcomment
    · obtain ⟨ks, hks, hheard⟩ := paragraph_rows hi hst hproper hl hrows hmore htail
      obtain ⟨n, hn⟩ := Row.gap_eq prev (some s.span.start.line)
      rw [arrange_cons hl hprev, hn]
      refine ⟨_, (hks.below n).mono, fun h => ?_⟩
      rw [said_append, said_newlines, zero_add, hheard h]

/-- **Rows that nothing encloses are a text.** -/
theorem document_arrangeAll (hi : Spells i [] Any Any Any Any) (hst : st.KeepsLines ∨ st.JoinsLines)
    {ss : List Stmt} {rs : List Row} (hproper : Stmt.AllProper S ss)
    (hrows : RowsFor st heard gone i ss rs) :
    ∃ ks, Document (Stmt.images st ss) (Row.arrangeAll rs) ks ∧
      (heard → said ks + (ss.map gone).sum = Stmt.allRemarks ss) := by
  cases hrows with
  | nil => exact ⟨[], .nil, fun _ => rfl⟩
  | @cons s r ss rs hfirst hrows =>
    obtain ⟨l, rfl, hl⟩ := hfirst
    obtain ⟨hmore, htail⟩ := laidOut hi hst _ _ hproper.2.2 hrows
    obtain ⟨ks, hks, hheard⟩ := paragraph_rows hi hst hproper hl hrows hmore htail
    obtain ⟨body, hbody, hsaid⟩ := hks.document
    refine ⟨body, ?_, fun h => by rw [hsaid, hheard h]⟩
    have hfirst : ¬Continues none (s :: ss) := fun ⟨_, _, _, h⟩ => nomatch h
    rw [Row.arrangeAll, arrange_cons hl hfirst]
    exact hbody

end Arrange

end ScriptBundler

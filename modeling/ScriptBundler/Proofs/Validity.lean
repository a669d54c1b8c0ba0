import ScriptBundler.Proofs.Hoisting
import ScriptBundler.Proofs.Minified
import ScriptBundler.Proofs.Reformatted
import ScriptBundler.Proofs.Verbatim

/-!
# Proofs/Validity — outputs can be read again

Where directives do not stay as they are, they are written as constants, as comments or not at all.
What is then written is the image of the tree under a style that makes these choices, whatever the
names and slots of the output, so it can be read.  One place is left out: a mark for a debugger that is
the statement of an `if` on one line (`Node.hidesDebugger`).  Only reformatted text, which spreads such
an `if` over lines, has room for what is written there.
-/

namespace ScriptBundler

open Token (Kind)
open Layout (text)

/-! ## Statements on one line with an `if` -/

/-- An `if` on one line, with a mark for a debugger as one of its statements. -/
def Node.hidesDebugger : Node → Bool
  | .stmt ⟨.if_ cs last true, _⟩ =>
    cs.any (·.body.stmts.any Stmt.isDebugger) || last.any (·.stmts.any Stmt.isDebugger)
  | _ => false

/-- Tokens that a text can hold, and no mark for a debugger on one line with an `if`. -/
def Stock.unmarked : Stock where
  token := Kind.Valid
  inline s := s.isDebugger = false

theorem Block.IsOne.unmarked {Q Q' : Stmt → Prop} {b : Block} (h : b.IsOne Q)
    (hb : b.stmts.any Stmt.isDebugger = false) (hQ : ∀ s, s.isDebugger = false → Q s → Q' s) :
    b.IsOne Q' := by
  obtain ⟨s, hs, hcomment, hq⟩ := h
  have hdebugger : s.isDebugger = false := by simpa [hs] using hb
  exact ⟨s, hs, hcomment, hQ s hdebugger hq⟩

/-- An `if` on one line without a mark for a debugger. -/
theorem OnOneLine.unmarked {Q : Stmt → Prop} {cs : List Clause} {last : Option Block}
    (h : OnOneLine Q cs last) (hcs : cs.any (·.body.stmts.any Stmt.isDebugger) = false)
    (hlast : last.any (·.stmts.any Stmt.isDebugger) = false) :
    OnOneLine (fun s => s.isDebugger = false) cs last := by
  induction cs with
  | nil => exact h
  | cons c cs ih =>
    have hmore : c.body.stmts.any Stmt.isDebugger = false ∧
        cs.any (·.body.stmts.any Stmt.isDebugger) = false := by
      rwa [List.any_cons, Bool.or_eq_false_iff] at hcs
    cases cs with
    | nil =>
      cases last with
      | none => exact Block.IsOne.unmarked h hmore.1 fun s hs _ => hs
      | some b =>
        exact ⟨h.1.unmarked hmore.1 fun s hs hq => ⟨hs, hq.2⟩,
          h.2.unmarked hlast fun s hs hq => ⟨hs, hq.2⟩⟩
    | cons d cs => exact ⟨h.1.unmarked hmore.1 fun s hs hq => ⟨hs, hq.2⟩, ih h.2 hmore.2⟩

section Unmarked

/-- Nothing among the nodes hides a mark for a debugger. -/
abbrev Unmarked (ns : List Node) : Prop := ∀ n ∈ ns, n.hidesDebugger = false

/-- Expressions without such marks are proper in the smaller stock. -/
theorem Expr.allProper_unmarked {es : List Expr}
    (hes : ∀ e ∈ es, e.Proper .valid → Unmarked e.nodes → e.Proper .unmarked)
    (h : Expr.AllProper .valid es) (hn : Unmarked (Expr.allNodes es)) :
    Expr.AllProper .unmarked es := by
  induction es with
  | nil => exact trivial
  | cons e es ih =>
    obtain ⟨he, hes⟩ := List.forall_mem_cons.mp hes
    obtain ⟨hn, hns⟩ := List.forall_mem_append.mp hn
    exact ⟨he h.1 hn, ih hes h.2 hns⟩

theorem Expr.proper?_unmarked {e : Option Expr}
    (he : ∀ a ∈ e, a.Proper .valid → Unmarked a.nodes → a.Proper .unmarked)
    (h : Expr.Proper? .valid e) (hn : Unmarked (Expr.nodes? e)) : Expr.Proper? .unmarked e := by
  cases e with
  | none => exact trivial
  | some e => exact he e rfl h hn

theorem Entry.allProper_unmarked {es : List Entry}
    (hes : ∀ a ∈ es, (a.key.Proper .valid → Unmarked a.key.nodes → a.key.Proper .unmarked) ∧
      (a.value.Proper .valid → Unmarked a.value.nodes → a.value.Proper .unmarked))
    (h : Entry.AllProper .valid es) (hn : Unmarked (Entry.allNodes es)) :
    Entry.AllProper .unmarked es := by
  induction es with
  | nil => exact trivial
  | cons e es ih =>
    obtain ⟨key, value, span, cs⟩ := e
    obtain ⟨⟨hkey, hvalue⟩, hes⟩ := List.forall_mem_cons.mp hes
    obtain ⟨⟨hkey', hvalue', hcs⟩, hrest⟩ := h
    obtain ⟨hn, hns⟩ := List.forall_mem_append.mp hn
    obtain ⟨hnkey, hnvalue⟩ := List.forall_mem_append.mp hn
    exact ⟨⟨hkey hkey' hnkey, hvalue hvalue' hnvalue, hcs⟩, ih hes hrest hns⟩

theorem Param.allProper_unmarked {ps : List Param}
    (hps : ∀ p ∈ ps, ∀ e ∈ p.default, e.Proper .valid → Unmarked e.nodes → e.Proper .unmarked)
    (h : Param.AllProper .valid ps) (hn : Unmarked (Param.allNodes ps)) :
    Param.AllProper .unmarked ps := by
  induction ps with
  | nil => exact trivial
  | cons p ps ih =>
    obtain ⟨name, value, span, cs⟩ := p
    obtain ⟨hvalue, hps⟩ := List.forall_mem_cons.mp hps
    obtain ⟨⟨hname, hvalue', hcs⟩, hrest⟩ := h
    obtain ⟨hn, hns⟩ := List.forall_mem_append.mp (List.forall_mem_cons.mp hn).2
    exact ⟨⟨hname, Expr.proper?_unmarked hvalue hvalue' hn, hcs⟩, ih hps hrest hns⟩

/-- Statements without such marks are proper in the smaller stock. -/
theorem Stmt.allProper_unmarked {ss : List Stmt}
    (hss : ∀ s ∈ ss, s.Proper .valid → Unmarked s.nodes → s.Proper .unmarked)
    (h : Stmt.AllProper .valid ss) (hn : Unmarked (Stmt.allNodes ss)) :
    Stmt.AllProper .unmarked ss := by
  induction ss with
  | nil => exact trivial
  | cons s ss ih =>
    obtain ⟨hs, hss⟩ := List.forall_mem_cons.mp hss
    obtain ⟨hn, hns⟩ := List.forall_mem_append.mp hn
    exact ⟨hs h.1 hn, h.2.1, ih hss h.2.2 hns⟩

/-- A block without such marks is proper in the smaller stock. -/
theorem Block.proper_unmarked {b : Block}
    (hb : ∀ s ∈ b.stmts, s.Proper .valid → Unmarked s.nodes → s.Proper .unmarked)
    (h : b.Proper .valid) (hn : Unmarked b.nodes) : b.Proper .unmarked := by
  obtain ⟨ss, span⟩ := b
  exact Stmt.allProper_unmarked hb h hn

theorem Block.proper?_unmarked {b : Option Block}
    (hb : ∀ a ∈ b, ∀ s ∈ a.stmts, s.Proper .valid → Unmarked s.nodes → s.Proper .unmarked)
    (h : Block.Proper? .valid b) (hn : Unmarked (Block.nodes? b)) : Block.Proper? .unmarked b := by
  cases b with
  | none => exact trivial
  | some b => exact Block.proper_unmarked (hb b rfl) h hn

/-- Branches without such marks are proper in the smaller stock. -/
theorem Clause.allProper_unmarked {cs : List Clause}
    (hcs : ∀ c ∈ cs,
      (c.condition.Proper .valid → Unmarked c.condition.nodes → c.condition.Proper .unmarked) ∧
      ∀ s ∈ c.body.stmts, s.Proper .valid → Unmarked s.nodes → s.Proper .unmarked)
    (h : Clause.AllProper .valid cs) (hn : Unmarked (Clause.allNodes cs)) :
    Clause.AllProper .unmarked cs := by
  induction cs with
  | nil => exact trivial
  | cons c cs ih =>
    obtain ⟨condition, body, span⟩ := c
    obtain ⟨⟨hcondition, hbody⟩, hcs⟩ := List.forall_mem_cons.mp hcs
    obtain ⟨hn, hns⟩ := List.forall_mem_append.mp hn
    obtain ⟨hncondition, hnbody⟩ := List.forall_mem_append.mp hn
    exact ⟨⟨hcondition h.1.1 hncondition, Block.proper_unmarked hbody h.1.2 hnbody⟩, ih hcs h.2 hns⟩

/-- The nodes in a node hide nothing, if none of its nodes does. -/
theorem Unmarked.inside {n : Node} {ns : List Node} (h : Unmarked (n :: ns)) : Unmarked ns :=
  (List.forall_mem_cons.mp h).2

/-- **A tree that hides no mark for a debugger can do without them** on one line with an `if`. -/
theorem inductive_unmarked :
    Inductive (fun e => e.Proper .valid → Unmarked e.nodes → e.Proper .unmarked)
      fun s => s.Proper .valid → Unmarked s.nodes → s.Proper .unmarked where
  literal l span cs h _ := ⟨by cases l <;> exact h.1, h.2⟩
  list es span cs hes h hn := ⟨Expr.allProper_unmarked hes h.1 hn.inside, h.2⟩
  map es span cs hes h hn := ⟨Entry.allProper_unmarked hes h.1 hn.inside, h.2⟩
  identifier x span cs h _ := h
  member b x span cs hb h hn := ⟨⟨hb h.1.1 hn.inside, h.1.2⟩, h.2⟩
  index b i span cs hb hi h hn := by
    obtain ⟨hnb, hni⟩ := List.forall_mem_append.mp hn.inside
    exact ⟨⟨hb h.1.1 hnb, h.1.2.1, hi h.1.2.2.1 hni, h.1.2.2.2⟩, h.2⟩
  slice b i j span cs hb hi hj h hn := by
    obtain ⟨hn, hnj⟩ := List.forall_mem_append.mp hn.inside
    obtain ⟨hnb, hni⟩ := List.forall_mem_append.mp hn
    exact ⟨⟨hb h.1.1 hnb, h.1.2.1, Expr.proper?_unmarked hi h.1.2.2.1 hni,
      Expr.proper?_unmarked hj h.1.2.2.2 hnj⟩, h.2⟩
  call c es span cs hc hes h hn := by
    obtain ⟨hnc, hnes⟩ := List.forall_mem_append.mp hn.inside
    exact ⟨⟨hc h.1.1 hnc, h.1.2.1, Expr.allProper_unmarked hes h.1.2.2 hnes⟩, h.2⟩
  binary op l r span cs hl hr h hn := by
    obtain ⟨hnl, hnr⟩ := List.forall_mem_append.mp hn.inside
    exact ⟨⟨h.1.1, hl h.1.2.1 hnl, h.1.2.2.1, hr h.1.2.2.2.1 hnr, h.1.2.2.2.2⟩, h.2⟩
  unary op e span cs he h hn := ⟨⟨he h.1.1 hn.inside, h.1.2⟩, h.2⟩
  function ps b span cs hps hb h hn := by
    obtain ⟨hnps, hnb⟩ := List.forall_mem_append.mp hn.inside
    exact ⟨⟨Param.allProper_unmarked hps h.1.1 hnps, Block.proper_unmarked hb h.1.2 hnb⟩, h.2⟩
  paren e span cs he h hn := ⟨he h.1 hn.inside, h.2⟩
  directive d span cs h _ := ⟨by cases d <;> exact h.1, h.2⟩
  assign op target value span ht hv h hn := by
    obtain ⟨hnt, hnv⟩ := List.forall_mem_append.mp hn.inside
    exact ⟨ht h.1 hnt, h.2.1, hv h.2.2 hnv⟩
  expr e span he _ h hn := he h hn.inside
  return_ value span hv h hn := Expr.proper?_unmarked hv h hn.inside
  break_ span h _ := h
  continue_ span h _ := h
  if_ cs last inline span hcs hlast h hn := by
    obtain ⟨hncs, hnlast⟩ := List.forall_mem_append.mp hn.inside
    refine ⟨h.1, Clause.allProper_unmarked hcs h.2.1 hncs,
      Block.proper?_unmarked hlast h.2.2.1 hnlast, fun hinline => ?_⟩
    subst hinline
    have hhides : (cs.any (·.body.stmts.any Stmt.isDebugger) ||
      last.any (·.stmts.any Stmt.isDebugger)) = false := hn _ (List.mem_cons_self ..)
    obtain ⟨hcs, hlast⟩ := Bool.or_eq_false_iff.mp hhides
    exact (h.2.2.2 rfl).unmarked hcs hlast
  while_ c b span hc hb h hn := by
    obtain ⟨hnc, hnb⟩ := List.forall_mem_append.mp hn.inside
    exact ⟨hc h.1 hnc, Block.proper_unmarked hb h.2 hnb⟩
  for_ item e b span he hb h hn := by
    obtain ⟨hne, hnb⟩ := List.forall_mem_append.mp hn.inside
    exact ⟨h.1, he h.2.1 hne, Block.proper_unmarked hb h.2.2 hnb⟩
  comment t span h _ := h
  mark d span h _ := by cases d <;> exact h

end Unmarked

/-! ## What directives are written as -/

/-- The digits of a number are a numeral. -/
theorem Numeral.isNumeral_toString (n : Nat) : IsNumeral (toString n).toList ∧
    ∃ x, value? (toString n).toList = some x := by
  have hlist : (toString n).toList = Nat.toDigits 10 n := by
    rw [Nat.toString_eq_ofList_toDigits, String.toList_ofList]
  have hdigits : ∀ c ∈ Nat.toDigits 10 n, c.isDigit = true := fun c hc =>
    Nat.isDigit_of_mem_toDigits (by decide) (by decide) hc
  have hnum : IsNumeral (Nat.toDigits 10 n) :=
    ⟨Nat.toDigits 10 n, [], [], by simp, hdigits, .inl rfl, .inl rfl, by simp⟩
  rw [hlist]
  exact ⟨hnum, exists_value? hnum⟩

namespace Literal

/-- A text as a constant, and `null` for none. -/
def ofText? : Option String → Literal
  | some s => ofText s
  | none => null

theorem raw_ofText? (s : Option String) : (ofText? s).raw = Scene.quoteOrNull s := by cases s <;> rfl

/-- A text is a constant that can be read, and so is `null` for none. -/
theorem proper_ofText? (s : Option String) : (ofText? s).Proper .valid := by
  cases s with
  | none => exact trivial
  | some s => rfl

theorem level_ofText? (s : Option String) : (Expr.Form.literal (ofText? s)).level = 11 := by
  cases s <;> rfl

/-- A number of a line. -/
def ofLine (line : Nat) : Literal :=
  number (toString line) ((Numeral.value? (toString line).toList).getD default) false

/-- The number of a line is a constant that can be read. -/
theorem proper_ofLine (line : Nat) : (ofLine line).Proper .valid := by
  obtain ⟨hnum, x, hx⟩ := Numeral.isNumeral_toString line
  exact ⟨hnum, by rw [hx]; rfl⟩

end Literal

namespace Scene

/-- The constant that a directive stands for. -/
def constant (scene : Scene) (d : ValueDirective) (line : Nat) : Literal :=
  match d with
  | .envar name => .ofText? (scene.settings.environmentVariables.lookup name)
  | .inject path => .ofText? (scene.active.bind (·.injections.lookup path))
  | .line => .ofLine line
  | .filename => .ofText? (scene.active.map (·.path))

variable {scene : Scene}

/-- The constant of a directive is written as the value of the directive. -/
theorem raw_constant (h : scene.settings.devMode = false) (d : ValueDirective) (line : Nat) :
    (scene.constant d line).raw = scene.value d line := by
  unfold value
  rw [h, if_neg Bool.false_ne_true]
  cases d with
  | line => rfl
  | envar | inject | filename => exact Literal.raw_ofText? _

/-- **The value of a directive is an operand**. -/
theorem operand_constant (h : scene.settings.devMode = false) (d : ValueDirective) (line : Nat) :
    Operand True 0 11 (Expr.Form.literal (scene.constant d line)).node
      (text (scene.value d line)) := by
  have hproper : (scene.constant d line).Proper .valid := by
    cases d with
    | line => exact Literal.proper_ofLine line
    | envar | inject | filename => exact Literal.proper_ofText? _
  have hlevel : (Expr.Form.literal (scene.constant d line)).level = 11 := by
    cases d with
    | line => rfl
    | envar | inject | filename => exact Literal.level_ofText? _
  have hoperand : Operand True 0 _ _ _ := .literal (S := .valid) (fun _ hk => hk) hproper
  rwa [hlevel, raw_constant h] at hoperand

/-- Directives become constants, and a minus before a number becomes its sign. -/
def style (scene : Scene) : Style where
  directive d line := .literal (scene.constant d line)
  unary op e := if op = .neg then e.negate else .unary op e

/-- A mark for a debugger becomes a comment. -/
def remarkStyle (scene : Scene) : Style :=
  { scene.style with cons := joinRemark, debugger := .comment debuggerRemark }

/-- Reformatted text, where directives do not stay as they are. -/
def reformattedStyle (scene : Scene) : Style :=
  { scene.remarkStyle with
    paren := fun e e' =>
      if e.comments.isEmpty && (e.isAtomic && !scene.settings.keepRedundantParens) then e'.form
      else .paren e'
    callAlone := id
    inline := fun _ => false }

/-- Minified text, where directives do not stay as they are. -/
def minifiedStyle (scene : Scene) : Style :=
  { scene.style with
    name := scene.naming.identifier
    literal := fun l => (scene.naming.slot? l).elim (.literal l) .identifier
    binary := Style.minified.binary
    callAlone := id
    cons := fun s s' _ ss' => if s.isComment || s.isDebugger then ss' else s' :: ss' }

end Scene

section Fits

variable (source : Source) (script : Script) {settings : Settings} (hdev : settings.devMode = false)

include hdev

theorem devMode_scene : (source.scene script settings).settings.devMode = false := by
  rw [Source.settings_scene, hdev]

/-- A style that has directives for constants fits. -/
theorem fits_style {S : Stock} {st : Style} (hS : ∀ k, S.token k → k.Valid)
    (hst : st.directive = (source.scene script settings).style.directive) :
    (source.scene script settings).Fits S st :=
  Source.fits_scene hS fun d line _ => by
    rw [hst]
    exact Scene.operand_constant (devMode_scene source script hdev) d line

theorem fitsLines_style {S : Stock} {st : Style} (hS : ∀ k, S.token k → k.Valid)
    (hst : st = { (source.scene script settings).remarkStyle with
      paren := st.paren, callAlone := st.callAlone, inline := st.inline }) :
    (source.scene script settings).FitsLines S False st where
  toFits := fits_style source script hdev hS (by rw [hst]; rfl)
  name := by rw [hst]; rfl
  literal := by rw [hst]; rfl
  guard := by rw [hst]; rfl
  binary := by rw [hst]; rfl
  unary := fun op e hop => by rw [hst]; exact if_neg hop
  minus := fun e _ => by rw [hst]; rfl
  lines := .inr ⟨by rw [hst]; rfl, by rw [hst]; rfl⟩
  debugger := fun s _ _ => .inr ⟨devMode_scene source script hdev, ⟨by rw [hst]; rfl, by rw [hst]; rfl⟩, id⟩

/-- Verbatim text fits its style. -/
theorem fits_verbatim :
    Verbatim.Fits .unmarked False (source.scene script settings)
      (source.scene script settings).remarkStyle where
  toFitsLines := fitsLines_style source script hdev (fun _ hk => hk) rfl
  paren := fun _ => rfl
  callAlone := rfl
  inline := rfl
  onLine := fun _ _ hs hdebugger => absurd (hs.symm.trans hdebugger) Bool.false_ne_true

/-- Reformatted text fits its style. -/
theorem fits_reformatted :
    Reformatted.Fits .valid False (source.scene script settings)
      (source.scene script settings).reformattedStyle where
  toFitsLines := fitsLines_style source script hdev (fun _ hk => hk) rfl
  paren := fun _ _ => rfl
  callAlone := rfl
  inline := fun _ => rfl

/-- Only comments and marks for a debugger say nothing when minified. -/
theorem isSilent_scene (s : Stmt) :
    Minified.isSilent (source.scene script settings) s = (s.isComment || s.isDebugger) := by
  obtain ⟨form, span⟩ := s
  cases form with
  | directive d =>
    cases d with
    | debugger => simp [Minified.isSilent, Stmt.isComment, Stmt.isDebugger, hdev]
    | _ => rfl
  | comment | _ => rfl

/-- Minified text fits its style. -/
theorem fits_minified {xs : List String} (hsettled : (source.naming script settings).Settled xs) :
    Minified.Fits .unmarked True { scene := source.scene script settings }
      (source.scene script settings).minifiedStyle where
  toFits := fits_style source script hdev (fun _ hk => hk) rfl
  isName := fun x hx => hsettled.isName_identifier hx
  name := fun _ _ => rfl
  literal := fun l hl => by
    have hliteral : Operand True 0 _ _ _ := .literal (S := .unmarked) (fun _ hk => hk) hl
    show Operand True 0 _ (((source.naming script settings).slot? l).elim (.literal l)
      Expr.Form.identifier).node (text (((source.naming script settings).slot? l).getD l.raw))
    cases hslot : (source.naming script settings).slot? l with
    | none => exact hliteral
    | some slot =>
      obtain ⟨e, -, -, hmem⟩ := Naming.exists_hoisted hslot
      have hname := hsettled.isName_slot (List.mem_map_of_mem hmem)
      exact (Operand.identifier hname).loosen (Nat.le_refl 11) (Expr.Form.level_le _)
  argument := fun l hl => .literal (S := .unmarked) (fun _ hk => hk) hl
  shift := fun _ _ _ => trivial
  binary := rfl
  unary := fun _ _ hop => if_neg hop
  minus := fun _ _ => rfl
  guardMinus := fun _ _ => rfl
  paren := fun _ => rfl
  callAlone := rfl
  inline := rfl
  debugger := rfl
  cons := fun s s' ss ss' _ => by rw [isSilent_scene source script hdev]; rfl
  onLine := fun s _ hcomment hdebugger => by
    rw [isSilent_scene source script hdev, hcomment]
    exact hdebugger

end Fits

/-! ## Lines in front of a text -/

/-- A text that is read as `ss`, up to the end of its last line. -/
def Listing (ss : List Stmt) (t : String) : Prop :=
  ∃ ks, Lines ss ks ∧ ∀ rest, EndsLine rest → Scans t.toList ks rest

theorem Scans.eq_nil {ks : List Kind} {rest : List Char} (h : Scans [] ks rest) : ks = [] := by
  obtain ⟨ts, hts, hscan⟩ := h default
  have hlen : ∀ (us : List Token) (x : Scanned),
      (us.foldr Scanned.token x).tokens.length = us.length + x.tokens.length := by
    intro us x
    induction us with
    | nil => simp
    | cons u us ih =>
      rw [List.foldr_cons, List.length_cons, Nat.add_right_comm, ← ih]
      rfl
  have heq := congrArg (·.tokens.length) hscan
  rw [hlen] at heq
  have hnil : ts.length = 0 := by
    simpa [Position.after] using heq
  rw [← hts, List.length_eq_zero_iff.mp hnil]
  rfl

namespace Listing

variable {ss : List Stmt} {s : Stmt} {t : String} {l : Layout} {ks : List Kind}

/-- **What is listed can be read**. -/
theorem parse (h : Listing ss t) (name : String) : (Source.mk name t).NestsTooDeep ∨
    ∃ script, (Source.mk name t).parse = .ok script ∧ script.body.map Stmt.bare = ss := by
  obtain ⟨ks, hlines, hscan⟩ := h
  have hparse := Source.parse_lines name (hscan [] .nil) hlines
  rwa [String.ofList_toList] at hparse

theorem ofDocument (h : Document ss l ks) : Listing ss l.join := by
  obtain ⟨cs, hcs, hscan⟩ := h.scans
  exact ⟨ks, h.lines, by rwa [hcs, String.toList_ofList]⟩

/-- A line in front of a text. -/
theorem cons (h : Listing ss t) {line : String}
    (hs : ∃ ls, Sentence s ls ∧ ∀ rest, EndsOperand rest → Scans line.toList ls rest)
    (hline : line ≠ "") : Listing (s :: ss) (Bundle.joinParts "\n" [line, t]) := by
  obtain ⟨ks, hlines, hscan⟩ := h
  obtain ⟨ls, hsentence, hls⟩ := hs
  by_cases ht : t = ""
  · subst ht
    have hks : ks = [] := (hscan [] .nil).eq_nil
    subst hks
    refine ⟨ls ++ [], .stmt hsentence rfl hlines, fun rest hrest => ?_⟩
    rw [Bundle.joinParts_pair_empty, List.append_nil]
    exact hls rest hrest.endsOperand
  · refine ⟨ls ++ (.newline :: ks), .stmt hsentence rfl (.newline hlines), fun rest hrest => ?_⟩
    rw [Bundle.joinParts_pair "\n" hline ht, String.toList_append, String.toList_append,
      List.append_assoc]
    exact (hls _ (EndsLine.newline _).endsOperand).append ((Scans.newline _).append (hscan rest hrest))

/-- The line that defines a slot. -/
def definition (p : String × String) : String := p.1 ++ "=" ++ p.2

theorem definition_ne (p : String × String) : definition p ≠ "" := by simp [definition]

/-- A line that defines a slot is a statement. -/
theorem line {slot : String} {v : Literal} (hslot : IsName slot) (hv : v.Proper .valid) :
    ∃ s : Stmt, ∃ ls, Sentence s ls ∧
      ∀ rest, EndsOperand rest → Scans (slot ++ "=" ++ v.raw).toList ls rest := by
  have hname : Operand True 0 11 _ _ := .identifier hslot
  have hvalue : Operand True 0 _ _ _ := .literal (S := .valid) (fun _ hk => hk) hv
  have hwritten := Written.assign .set (Spells.operator AssignOp.set.symbol_ne_dot).mono
    (hname.loosen (Nat.le_refl 11) (Nat.zero_le _)) rfl
    (hvalue.loosen (Expr.Form.level_le _) (Nat.zero_le _))
  obtain ⟨ls, hspells, hsentence, -⟩ := hwritten
  refine ⟨_, ls, hsentence, fun rest hrest => ?_⟩
  obtain ⟨cs, hcs, -, hscan⟩ := hspells [] trivial
  have hchars : (slot ++ "=" ++ v.raw).toList = cs := by
    rw [List.foldl_append, List.foldl_append, Layout.foldl_text, Layout.foldl_text,
      Layout.foldl_text] at hcs
    have hspelling : AssignOp.set.symbol.spelling = "=" := rfl
    rw [hspelling] at hcs
    simpa using congrArg List.reverse hcs
  rw [hchars]
  exact (hscan rest hrest).1

/-- Lines that define slots, in front of a text. -/
theorem preamble (h : Listing ss t) {hs : List (String × String)}
    (hslots : ∀ p ∈ hs, IsName p.1 ∧ ∃ v : Literal, v.Proper .valid ∧ p.2 = v.raw) :
    ∃ ss', Listing ss' (Bundle.joinParts "\n" [Bundle.joinParts "\n" (hs.map definition), t]) := by
  induction hs with
  | nil =>
    refine ⟨ss, ?_⟩
    show Listing ss (Bundle.joinParts "\n" ["", t])
    rwa [Bundle.joinParts_cons_empty, Bundle.joinParts_singleton]
  | cons p hs ih =>
    obtain ⟨⟨hname, v, hv, hvalue⟩, hslots⟩ := List.forall_mem_cons.mp hslots
    obtain ⟨ss', hrest⟩ := ih hslots
    obtain ⟨s, hline⟩ := line hname hv
    rw [← hvalue] at hline
    refine ⟨s :: ss', ?_⟩
    rw [List.map_cons, Bundle.joinParts_cons "\n" (definition p), Bundle.joinParts_assoc]
    exact hrest.cons hline (definition_ne p)

/-- The preamble defines slots line by line. -/
theorem preamble_eq (n : Naming) :
    Bundle.preamble n = Bundle.joinParts "\n" (n.hoisted.map definition) := by
  refine Bundle.intercalate_eq_joinParts "\n" fun p hp => ?_
  obtain ⟨q, -, rfl⟩ := List.mem_map.mp hp
  exact definition_ne q

end Listing

/-! ## Reading an output -/

theorem Naming.exists_of_mem_hoisted {n : Naming} {p : String × String} (h : p ∈ n.hoisted) :
    ∃ e ∈ n.literals.entries, p.2 = e.literal.raw := by
  unfold hoisted at h
  split at h
  · obtain ⟨e, he, hmap⟩ := List.mem_filterMap.mp h
    obtain ⟨slot, -, rfl⟩ := Option.map_eq_some_iff.mp hmap
    exact ⟨e, he, rfl⟩
  · cases h

namespace Source

variable {source : Source} {script : Script} {settings : Settings}

/-- A script by itself is all that its output is made of. -/
theorem parsed_single (h : source.parse = .ok script) :
    ∀ s ∈ (none : Option Script).toList ++
        (Graph.single ⟨source.name, source.text, script⟩).modules.map (·.script),
      ∃ source : Source, source.parse = .ok s := by
  intro s hs
  obtain rfl : s = script := List.mem_singleton.mp hs
  exact ⟨source, h⟩

/-- The names of a script on its own are settled. -/
theorem settled_single (settings : Settings) (h : source.parse = .ok script) :
    ∃ xs, (source.naming script settings).Settled xs :=
  ⟨_, Bundle.settled_naming (parsed_single h) settings id⟩

/-- Slots are names, and stand for constants that can be read. -/
theorem slots_single (h : source.parse = .ok script) :
    ∀ p ∈ (source.naming script settings).hoisted,
      IsName p.1 ∧ ∃ v : Literal, v.Proper .valid ∧ p.2 = v.raw := by
  intro p hp
  obtain ⟨xs, hsettled⟩ := settled_single settings h
  obtain ⟨e, he, hvalue⟩ := Naming.exists_of_mem_hoisted hp
  exact ⟨hsettled.isName_slot (List.mem_map_of_mem hp), e.literal,
    Graph.proper_pool (parsed_single h) settings id e he, hvalue⟩

section Modes

variable (hparse : source.parse = .ok script) (hdev : settings.devMode = false) {t : String}
  (ht : source.bundle settings = .ok t)

include hparse hdev ht

/-- The verbatim text of a script. -/
theorem listing_verbatim (hmode : settings.mode = .verbatim)
    (hproper : Stmt.AllProper .unmarked script.body) : ∃ ss, Listing ss t := by
  have hhoists : settings.hoists = false := by simp [Settings.hoists, hmode]
  have hwritten := Verbatim.script_gives (s := script) (fits_verbatim source script hdev) hproper
  have hscript : (source.scene script settings).script script =
      Verbatim.script (source.scene script settings) script := by
    unfold Scene.script
    rw [settings_scene, hmode]
  obtain ⟨l, ⟨ks, hdocument, -⟩, hbundle⟩ := exists_bundle hparse hhoists (hscript ▸ hwritten)
  obtain rfl : l.join = t := Except.ok.inj (hbundle.symm.trans ht)
  exact ⟨_, .ofDocument hdocument⟩

/-- The reformatted text of a script. -/
theorem listing_reformatted (hmode : settings.mode = .reformatted) : ∃ ss, Listing ss t := by
  obtain ⟨l, ⟨ks, hdocument, -⟩, hbundle⟩ := exists_bundle_reformatted hparse hmode
    (Reformatted.script_gives (fits_reformatted source script hdev) (allProper_of_parse hparse))
  obtain rfl : l.join = t := Except.ok.inj (hbundle.symm.trans ht)
  exact ⟨_, .ofDocument hdocument⟩

/-- The minified text of a script. -/
theorem listing_minified (hmode : settings.mode = .minified)
    (hproper : Stmt.AllProper .unmarked script.body) : ∃ ss, Listing ss t := by
  obtain ⟨xs, hsettled⟩ := settled_single settings hparse
  have hwritten := Minified.script_gives (s := script) (fits_minified source script hdev hsettled) hproper
  have hscript : (source.scene script settings).script script =
      Minified.script (source.scene script settings) script := by
    unfold Scene.script
    rw [settings_scene, hmode]
  rcases bundle_of_gives hparse (hscript ▸ hwritten) with
    ⟨l, ⟨ks, hdocument, -⟩, hbundle⟩ | ⟨-, err, hbundle⟩
  · obtain ⟨ss, hlisting⟩ := (Listing.ofDocument hdocument).preamble (slots_single hparse)
    have hlead : source.lead script settings =
        Bundle.joinParts "\n" ((source.naming script settings).hoisted.map Listing.definition) := by
      rw [lead, hdev, if_neg Bool.false_ne_true, Listing.preamble_eq]
    have hsep : Bundle.separator settings.mode = "\n" := by rw [hmode]; rfl
    rw [hlead, hsep] at hbundle
    exact ⟨ss, Except.ok.inj (hbundle.symm.trans ht) ▸ hlisting⟩
  · cases hbundle.symm.trans ht

end Modes

/-- **What is written can be read again**, whatever the settings, unless it nests too deep: directives
become constants, comments or nothing, and names and slots are such as can be read.  In text that is not
reformatted no mark for a debugger may be the statement of an `if` on one line. -/
theorem parse_bundle_again (hparse : source.parse = .ok script) (hdev : settings.devMode = false)
    (hmarks : settings.mode = .reformatted ∨ ∀ node ∈ script.nodes, node.hidesDebugger = false)
    {t : String} (ht : source.bundle settings = .ok t) (name : String) :
    (Source.mk name t).NestsTooDeep ∨ ∃ script', (Source.mk name t).parse = .ok script' := by
  suffices hlisting : ∃ ss, Listing ss t by
    obtain ⟨ss, hlisting⟩ := hlisting
    exact (hlisting.parse name).imp_right fun ⟨script', hscript, _⟩ => ⟨script', hscript⟩
  have hunmarked : (∀ node ∈ script.nodes, node.hidesDebugger = false) →
      Stmt.AllProper .unmarked script.body :=
    Stmt.allProper_unmarked (inductive_unmarked.stmts script.body) (allProper_of_parse hparse)
  cases hmode : settings.mode with
  | verbatim =>
    exact listing_verbatim hparse hdev ht hmode (hunmarked (hmarks.resolve_left (by simp [hmode])))
  | minified =>
    exact listing_minified hparse hdev ht hmode (hunmarked (hmarks.resolve_left (by simp [hmode])))
  | reformatted => exact listing_reformatted hparse hdev ht hmode

/-- Directives as operands, as arguments and on a line of their own, and an `if` on one line. -/
def directing : Source where
  name := "main"
  text := "if a then b=-#line else f(#envar x)\n#debugger //d\nc=[#filename,b|1]"

theorem parse_bundle_again_directing : ∃ script t, directing.parse = .ok script ∧
    (∀ node ∈ script.nodes, node.hidesDebugger = false) ∧
    directing.bundle { mode := .minified, obfuscate := true } = .ok t ∧
    t = "if e then f=-1 else g(null)\nh=[\"main\",bitOr(f,1)]" ∧
    ∀ name, ∃ script', (Source.mk name t).parse = .ok script' := by
  have hmarks : directing.parse.toOption.any (·.nodes.all (!·.hidesDebugger)) = true := by
    decide +kernel
  have houtput : (directing.bundle { mode := .minified, obfuscate := true }).toOption =
      some "if e then f=-1 else g(null)\nh=[\"main\",bitOr(f,1)]" := by decide +kernel
  obtain ⟨script, hscript, hmarks⟩ := (Option.any_eq_true _ _).mp hmarks
  have hparse := Except.toOption_eq_some hscript
  have hnodes : ∀ node ∈ script.nodes, node.hidesDebugger = false := by simpa using hmarks
  have ht := Except.toOption_eq_some houtput
  exact ⟨script, _, hparse, hnodes, ht, rfl, fun name =>
    (parse_bundle_again hparse rfl (.inr hnodes) ht name).resolve_left
      (not_nestsTooDeep (by decide +kernel) name)⟩

/-- A mark for a debugger on one line with an `if` leaves an `if` without a statement. -/
example :
    ((Source.mk "main" "if a then #debugger").bundle { mode := .minified }).toOption =
        some "if a then " ∧
      (Source.mk "main" "if a then ").parse.toOption.isNone = true := by
  decide +kernel

end Source

end ScriptBundler

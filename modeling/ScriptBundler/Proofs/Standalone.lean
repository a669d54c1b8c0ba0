import ScriptBundler.Program
import ScriptBundler.Proofs.Naming
import ScriptBundler.Proofs.Parsing
import ScriptBundler.Proofs.Soundness
import ScriptBundler.Proofs.Walk
import ScriptBundler.Proofs.Writing

/-!
# Proofs/Standalone — the output of a script by itself

A script by itself links nothing, so its output is what is written for its own tree, behind the
constants that are written once.  What the three ways of writing need to know of the scene they write
for is gathered in `Scene.Fits`, and holds wherever directives stay as they are or do not occur.
-/

namespace ScriptBundler

open Token (Kind)
open Layout

/-! ## The scene -/

/-- The module that a script by itself is. -/
def Source.module (source : Source) (script : Script) : Module where
  path := source.name
  script

/-- The names of the output of a script by itself. -/
def Source.naming (source : Source) (script : Script) (settings : Settings) : Naming :=
  Bundle.naming settings id (Graph.single ⟨source.name, source.text, script⟩) none

/-- What a script by itself is written against. -/
def Source.scene (source : Source) (script : Script) (settings : Settings) : Scene where
  naming := source.naming script settings
  modules := [source.module script]
  active := source.module script

namespace Source

variable {source : Source} {script : Script} {settings : Settings}

@[simp] theorem settings_scene : (source.scene script settings).settings = settings :=
  Naming.settings_enter ..

/-- A script on its own registers no module. -/
theorem registered_single (r : Resource) : Bundle.registered settings (Graph.single r) = [] := by
  unfold Bundle.registered
  split <;> rfl

/-- The constants that are written once. -/
def lead (source : Source) (script : Script) (settings : Settings) : String :=
  if settings.devMode then "" else Bundle.preamble (source.naming script settings)

/-- **The output of a script by itself** is its text, behind the constants that are written once. -/
theorem bundle_eq (h : source.parse = .ok script) :
    source.bundle settings =
      Bundle.part source.name
        ((fun text => Bundle.joinParts (Bundle.separator settings.mode)
            [source.lead script settings, text]) <$>
          Scene.textOf ((source.scene script settings).script script)) := by
  rw [bundle, h]
  simp only [Graph.bundle, registered_single, Bundle.runtime, List.isEmpty_nil, if_true,
    List.mapM_nil]
  show (Bundle.part source.name (Scene.textOf ((source.scene script settings).script script)) >>= _) = _
  cases Scene.textOf ((source.scene script settings).script script) <;> rfl

/-- An output is written, unless writing fails. -/
theorem bundle_of_gives {fails : Prop} {P : Layout → Prop} (h : source.parse = .ok script)
    (hw : ((source.scene script settings).script script).Gives fails P) :
    (∃ l, P l ∧ source.bundle settings =
      .ok (Bundle.joinParts (Bundle.separator settings.mode)
        [source.lead script settings, l.join])) ∨
      (fails ∧ ∃ err, source.bundle settings = .error err) := by
  rcases hw with ⟨l, hl, hP⟩ | ⟨hfails, err, herr⟩
  · refine .inl ⟨l, hP, ?_⟩
    rw [bundle_eq h, hl]
    rfl
  · refine .inr ⟨hfails, .ofWriteError source.name err, ?_⟩
    rw [bundle_eq h, herr]
    rfl

theorem lead_of_not_hoists (h : settings.hoists = false) : source.lead script settings = "" := by
  have hsettings : (source.naming script settings).settings = settings := settings_scene
  have hhoisted : (source.naming script settings).hoisted = [] := by
    rw [Naming.hoisted, hsettings, h]
    rfl
  rw [lead, Bundle.preamble, hhoisted]
  exact ite_self _

theorem joinParts_of_empty (sep t : String) : Bundle.joinParts sep ["", t] = t := by
  by_cases h : t = ""
  · subst h
    rfl
  · have ht : t.isEmpty = false := by simpa using h
    simp [Bundle.joinParts, ht]

/-- **Where no constant is written once, the output is the text of the script.** -/
theorem exists_bundle {P : Layout → Prop} (h : source.parse = .ok script)
    (hhoists : settings.hoists = false)
    (hw : ((source.scene script settings).script script).Gives False P) :
    ∃ l, P l ∧ source.bundle settings = .ok l.join := by
  rcases bundle_of_gives h hw with ⟨l, hl, hbundle⟩ | ⟨hfalse, -⟩
  · refine ⟨l, hl, ?_⟩
    rw [hbundle, lead_of_not_hoists hhoists, joinParts_of_empty]
  · exact hfalse.elim

end Source

/-! ## What writing needs to know -/

/-- Nothing is linked, tokens are such as can be read again, and so is what is written for a directive
that stands for a value. -/
structure Scene.Fits (S : Stock) (scene : Scene) (st : Style) : Prop where
  valid : ∀ k, S.token k → k.Valid
  directive : ∀ d line, ValueDirective.Proper S d →
    Operand True 0 11 (st.directive d line).node (text (scene.value d line))
  include_ : ∀ path, scene.include? path = none
  import_ : ∀ path, scene.import? path = none
  nativeCall : ∀ callee args, scene.nativeCall? callee args = none

/-- A script on its own has nothing put in place. -/
theorem Scene.Fits.spliced? {S : Stock} {scene : Scene} {st : Style} (h : scene.Fits S st)
    (body : Scene → Write Layout) (s : Stmt) : scene.spliced? body s = none := by
  unfold Scene.spliced?
  split
  · rw [h.include_]
    rfl
  · rfl

/-- Comments of a tree can be read again. -/
theorem Scene.Fits.audible {S : Stock} {scene : Scene} {st : Style} (h : scene.Fits S st)
    {cs : Comments} (hcs : cs.Proper S) :
    Audible cs.leading ∧ Audible cs.trailing ∧ Audible cs.inner := by
  refine ⟨fun c hc => ?_, fun c hc => ?_, fun c hc => ?_⟩ <;> exact h.valid _ (hcs c (by simp [hc]))

/-- Comments beside a proper item can be read again. -/
theorem Scene.Fits.clear {α : Type} [Item α] [Content α] {S : Stock} {scene : Scene} {st : Style}
    (h : scene.Fits S st) {a : α} (ha : Content.proper S a) : Clear a :=
  have hcs := h.audible (Content.proper_comments ha)
  ⟨hcs.1, hcs.2.1⟩

/-- Names and constants are written as they are, every statement gets a line, and a mark for a debugger
is kept, or becomes a comment that is not `heard`. -/
structure Scene.FitsLines (S : Stock) (heard : Prop) (scene : Scene) (st : Style) : Prop
    extends scene.Fits S st where
  name : st.name = id
  literal : st.literal = .literal
  guard : st.guard = st
  binary : st.binary = .binary
  unary : ∀ op e, op ≠ .neg → st.unary op e = .unary op e
  minus : ∀ e : Expr, e.form.isUnsigned = false → st.unary .neg (e.image st) = (e.image st).negate
  lines : st.KeepsLines ∨ st.JoinsLines
  debugger : ∀ s, Stmt.Proper S s → s.isDebugger = true →
    (scene.settings.devMode = true ∧ st.KeepsLines) ∨
      (scene.settings.devMode = false ∧ st.JoinsLines ∧ ¬heard)

namespace Scene.FitsLines

variable {S : Stock} {heard : Prop} {scene : Scene} {st : Style} {e : Expr} {l : Layout}
  {m : Multiset String}

/-- A constant as it is written. -/
theorem operand_literal (h : scene.FitsLines S heard st) {v : Literal} (hv : v.Proper S) :
    Operand heard 0 (Expr.Form.literal v).level (st.literal v).node (text v.raw) := by
  rw [h.literal]
  exact .literal h.valid hv

/-- A name as it is written. -/
theorem operand_identifier (h : scene.FitsLines S heard st) {x : String}
    (hx : S.token (.identifier x)) :
    Operand heard 0 11 (Expr.Form.identifier (st.name x)).node (text x) := by
  rw [h.name]
  exact .identifier (h.valid _ hx)

/-- A directive as it is written. -/
theorem operand_directive (h : scene.FitsLines S heard st) {d : ValueDirective} (hd : d.Proper S)
    (line : Nat) : Operand heard 0 11 (st.directive d line).node (text (scene.value d line)) := by
  obtain ⟨ks, hl, he, hm⟩ := h.directive d line hd
  exact ⟨ks, hl, he, fun _ => hm trivial⟩

/-- An operator before an operand as it is written. -/
theorem operand_unary (h : scene.FitsLines S heard st) {op : UnaryOp}
    (hneg : op = .neg → e.form.isUnsigned = false) (he : Operand heard m op.level (e.image st) l) :
    Operand heard m op.level (st.unary op (e.image st)).node (text op.lead ++ l) := by
  have himage : st.unary op (e.image st) =
      if op = .neg then (e.image st).negate else .unary op (e.image st) := by
    split
    · subst op
      exact h.minus e (hneg rfl)
    · exact h.unary op _ ‹_›
  rw [himage]
  exact he.unary

/-- A directive that is a statement. -/
theorem onLine_mark (h : scene.FitsLines S heard st) {d : Directive} (hd : d.Proper S) (span : Span)
    (equals : String) (gone : Stmt → Multiset String) (hgone : gone ⟨.directive d, span⟩ = 0) :
    Stmt.OnLine st heard gone ⟨.directive d, span⟩ <|
      match d with
      | .import_ x path => text (scene.importText equals x.name path)
      | .include_ path => if (scene.include? path).isNone then text (includeText path) else []
      | .debugger =>
        if scene.settings.devMode then text "#debugger;" else Layout.comment debuggerRemark := by
  have hnone : heard → 0 + gone ⟨.directive d, span⟩ = Stmt.remarks ⟨.directive d, span⟩ := fun _ => by
    rw [hgone]
    rfl
  cases d with
  | import_ x path =>
    refine .written rfl rfl hnone ?_
    dsimp only
    rw [importText, h.import_]
    show Written heard 0 (Stmt.Form.directive (.import_ ⟨st.name x.name, default⟩ path)).node _
    rw [h.name]
    exact .import_ (h.valid _ hd.2) path
  | include_ path =>
    refine .written rfl rfl hnone ?_
    dsimp only
    rw [h.include_]
    exact .include_ path
  | debugger =>
    rcases h.debugger ⟨.directive .debugger, span⟩ hd rfl with ⟨hdev, hkeeps⟩ | ⟨hdev, hjoins, hnot⟩
    · refine .stmt 0 rfl (fun _ => hkeeps) hnone ?_
      dsimp only
      rw [hdev, if_pos rfl]
      show Written heard 0 st.debugger.node _
      rw [hkeeps.debugger]
      exact .debugger
    · refine .remark rfl hjoins hnot ?_
      dsimp only
      rw [hdev, if_neg Bool.false_ne_true]

end Scene.FitsLines

/-- What a script is made of. -/
def Source.stock (source : Source) : Stock where
  token k := k.Valid ∧ ∃ t ∈ source.scan.tokens, t.kind = k
  place t := t ∈ source.scan.tokens

/-- Directives stay as they are, or there are none. -/
def Source.KeepsDirectives (source : Source) (settings : Settings) : Prop :=
  settings.devMode = true ∨ ∀ t ∈ source.scan.tokens, t.kind ≠ .symbol .hash

namespace Source

variable {source : Source} {script : Script} {settings : Settings} {S : Stock} {st : Style}

theorem valid_stock {k : Kind} (h : source.stock.token k) : k.Valid := h.1

/-- A script that is read without a fault is made of the tokens of its text. -/
theorem readFrom_stock (h : source.parse = .ok script) :
    script.ReadFrom source.stock source.scan.tokens :=
  readFrom_of_parse h (fun t ht hv => ⟨hv, t, ht, rfl⟩) (fun _ ht => ht) fun _ => trivial

/-- A scene fits a style whose directives can be read. -/
theorem fits_scene (hvalid : ∀ k, S.token k → k.Valid)
    (hdirective : ∀ d line, ValueDirective.Proper S d →
      Operand True 0 11 (st.directive d line).node
        (Layout.text ((source.scene script settings).value d line))) :
    (source.scene script settings).Fits S st := by
  refine ⟨hvalid, hdirective, fun path => ?_, fun path => ?_, fun callee args => ?_⟩
  · unfold Scene.include? Scene.linked?
    split <;> rfl
  · unfold Scene.import? Scene.linked?
    split <;> rfl
  · unfold Scene.nativeCall? Scene.linked?
    split
    · split
      · split <;> rfl
      · rfl
    · rfl

/-- No directive is there unless they stay as they are. -/
theorem KeepsDirectives.devMode (h : source.KeepsDirectives settings)
    (hhash : source.stock.token (.symbol .hash)) : settings.devMode = true := by
  obtain ⟨-, t, ht, hkind⟩ := hhash
  exact h.resolve_right fun hnone => hnone t ht hkind

/-- Marks for a debugger stay only in development. -/
theorem KeepsDirectives.devMode_of_isDebugger (h : source.KeepsDirectives settings) {s : Stmt}
    (hs : s.Proper source.stock) (hdebugger : s.isDebugger = true) : settings.devMode = true := by
  obtain ⟨form, span⟩ := s
  refine h.devMode ?_
  revert hs hdebugger
  unfold Stmt.isDebugger
  split
  · rename_i hform
    obtain rfl : form = .directive .debugger := hform
    exact fun hs _ => hs
  · nofun

/-- Where directives stay as they are, the scene fits. -/
theorem KeepsDirectives.fits (h : source.KeepsDirectives settings)
    (hst : st.directive = fun d _ => .directive d) :
    (source.scene script settings).Fits source.stock st := by
  refine fits_scene (fun _ => valid_stock) fun d line hd => ?_
  have hhash : source.stock.token (.symbol .hash) := by
    cases d with
    | envar => exact hd.1
    | _ => exact hd
  unfold Scene.value
  rw [settings_scene, h.devMode hhash, if_pos rfl, hst]
  refine .directive fun x hx => ?_
  subst hx
  exact hd.2.1

end Source

/-! ## Reading an output again -/

/-- **A text is read as the statements it was written for**, unless they nest too deep. -/
theorem Document.parse {ss : List Stmt} {l : Layout} {ks : List Kind} (h : Document ss l ks)
    (name : String) : (Source.mk name l.join).NestsTooDeep ∨
      ∃ script, (Source.mk name l.join).parse = .ok script ∧ script.body.map Stmt.bare = ss := by
  obtain ⟨cs, hcs, hscan⟩ := h.scans
  rw [hcs]
  exact Source.parse_lines name (hscan [] .nil) h.lines

/-- The comments of a text are those written into it. -/
theorem Document.spoken {ss : List Stmt} {l : Layout} {ks : List Kind} (h : Document ss l ks)
    (name : String) : spoken (Source.mk name l.join).scan.tokens = said ks := by
  obtain ⟨cs, hcs, hscan⟩ := h.scans
  rw [hcs]
  refine (congrArg said (scan_of_scans (hscan [] .nil)).1).trans ?_
  rw [said_append]
  exact add_zero _

end ScriptBundler

import ScriptBundler.Proofs.Capture
import ScriptBundler.Proofs.Constants
import ScriptBundler.Proofs.Induction

/-!
# Proofs/Twins — writing with and without slots

An output can be written with constants that recur written once, and with all constants where they
occur.  The two namings are *twins*: they differ in slots only (`Naming.twins_enter`).  Node by node
the two writers then agree up to gaps (`Layout.Alike`), whatever is put in place of includes.
-/

namespace ScriptBundler

/-! ## Namings that differ in slots -/

/-- `n'` is `n` without slots. -/
structure Naming.Twins (n n' : Naming) : Prop where
  settings : n'.settings = { n.settings with disableLiteralHoisting := true }
  modules : n'.modules = n.modules
  relocate : n'.relocate = n.relocate
  names : ∀ key : String, ':' ∉ key.toList → n'.names.get? key = n.names.get? key

namespace Naming.Twins

variable {n n' : Naming} {x : String}

theorem renames (h : n.Twins n') : n'.settings.renames = n.settings.renames := by rw [h.settings]; rfl

/-- Both keep the same names. -/
theorem keeps (h : n.Twins n') (x : String) : n'.keeps x = n.keeps x := by
  rw [Naming.keeps, Naming.keeps, h.settings]

/-- Both rename alike; a key of a constant has a colon in it. -/
theorem identifier (h : n.Twins n') (hx : ':' ∉ x.toList) : n'.identifier x = n.identifier x := by
  rw [Naming.identifier, Naming.identifier, h.renames, h.keeps, h.names x hx]

theorem runtimeName (h : n.Twins n') (hx : ':' ∉ x.toList) : n'.runtimeName x = n.runtimeName x := by
  rw [Naming.runtimeName, Naming.runtimeName, h.renames, h.names x hx]

/-- Modules have the same ids. -/
theorem moduleId (h : n.Twins n') (path : String) : n'.moduleId path = n.moduleId path := by
  rw [Naming.moduleId, Naming.moduleId, h.settings, h.modules]

/-- Without slots no constant has one. -/
theorem slot? (h : n.Twins n') (l : Literal) : n'.slot? l = none :=
  slot?_of_not_hoists _ (by simp [h.settings, Settings.hoists]) l

end Naming.Twins

namespace Naming

variable {n : Naming} {xs : List String}

/-- A constant as it is read from a text, and its slot. -/
def Gap (n : Naming) (slot : String) (l : Literal) : Prop := n.slot? l = some slot ∧ l.Proper .valid

/-- Neither slots nor the constants they are written for end in a line break. -/
theorem Settled.solid (h : n.Settled xs) {slot : String} {l : Literal} (hgap : n.Gap slot l) :
    Template.Solid slot ∧ Template.Solid l.raw := by
  obtain ⟨hslot, hl⟩ := hgap
  obtain ⟨e, -, -, hmem⟩ := exists_hoisted hslot
  exact ⟨IsWord.solid (h.isName_slot (List.mem_map_of_mem hmem)).1, Literal.solid_raw hl⟩

end Naming

/-! ## Scenes that differ in slots -/

/-- `s'` is `s` without slots. -/
structure Scene.Twins (s s' : Scene) : Prop where
  naming : s.naming.Twins s'.naming
  modules : s'.modules = s.modules
  active : s'.active = s.active

namespace Scene.Twins

variable {s s' : Scene}

theorem settings (h : s.Twins s') :
    s'.settings = { s.settings with disableLiteralHoisting := true } := h.naming.settings

theorem linked? (h : s.Twins s') : s'.linked? = s.linked? := by
  rw [Scene.linked?, Scene.linked?, h.settings, h.active]

/-- Imports lead to the same modules. -/
theorem import? (h : s.Twins s') (path : String) : s'.import? path = s.import? path := by
  rw [Scene.import?, Scene.import?, h.linked?, h.modules]

/-- Includes lead to the same modules. -/
theorem include? (h : s.Twins s') (path : String) : s'.include? path = s.include? path := by
  rw [Scene.include?, Scene.include?, h.linked?, h.modules]

/-- Directives stand for the same values. -/
theorem value (h : s.Twins s') (d : ValueDirective) (line : Nat) : s'.value d line = s.value d line := by
  unfold Scene.value
  rw [h.settings, h.active]

theorem importText (h : s.Twins s') (equals name path : String) :
    s'.importText equals name path = s.importText equals name path := by
  rw [Scene.importText, Scene.importText, h.import?, h.naming.runtimeName (by decide)]
  simp only [h.naming.moduleId]

/-- The same calls load scripts. -/
theorem nativeCall? (h : s.Twins s') (callee : Expr) (args : List Expr) :
    s'.nativeCall? callee args = s.nativeCall? callee args := by
  unfold Scene.nativeCall?
  rw [h.settings, h.linked?, h.naming.relocate]

theorem moduleHeader (h : s.Twins s') (equals id : String) :
    s'.moduleHeader equals id = s.moduleHeader equals id := by
  rw [Scene.moduleHeader, Scene.moduleHeader, h.naming.runtimeName (by decide),
    h.naming.runtimeName (by decide)]

end Scene.Twins

/-! ## Node by node -/

namespace Minified

open Layout (text eol intercalate Alike)

/-- A constant that is written as its slot. -/
def Env.Gap (env : Env) (slot : String) (l : Literal) : Prop :=
  env.guarded = false ∧ env.scene.naming.Gap slot l

/-- `w` and `v` write the same, up to constants that are written as their slots. -/
abbrev Env.Matches (env : Env) (w v : Write Layout) : Prop := w.Agrees (Alike env.Gap) v

/-- What nodes are written against, with and without slots. -/
structure Paired (splicer : Splicer) (env env' : Env) : Prop where
  scene : env.scene.Twins env'.scene
  guarded : env'.guarded = env.guarded
  splicer : ∀ m ∈ env.scene.modules, ∀ guarded,
    Env.Matches { env with guarded } (splicer ⟨{ env.scene with active := some m }, guarded⟩)
      (splicer ⟨{ env'.scene with active := some m }, guarded⟩)

variable {splicer : Splicer} {env env' : Env}

namespace Paired

theorem guard (h : Paired splicer env env') : Paired splicer env.guard env'.guard :=
  ⟨h.scene, rfl, h.splicer⟩

theorem name (h : Paired splicer env env') {x : String} (hx : IsName x) : env'.name x = env.name x := by
  rw [Env.name, Env.name, h.scene.naming.identifier (hx.not_mem rfl)]

/-- A constant is written as itself or as its slot. -/
theorem literal (h : Paired splicer env env') {l : Literal} (hl : l.Proper .valid) :
    Alike env.Gap (env.literal l) (env'.literal l) := by
  unfold Env.literal
  rw [h.guarded, h.scene.naming.slot?]
  cases hguarded : env.guarded with
  | true => exact .text _
  | false =>
    cases hslot : env.scene.naming.slot? l with
    | none => exact .text _
    | some slot => exact .constant ⟨hguarded, hslot, hl⟩

theorem isSilent (h : Paired splicer env env') (s : Stmt) :
    isSilent env'.scene s = isSilent env.scene s := by
  unfold Minified.isSilent
  rw [h.scene.settings]

end Paired

/-- Where constants are written in place there are no gaps. -/
theorem Env.not_gap_guard (env : Env) (slot : String) (l : Literal) : ¬ env.guard.Gap slot l :=
  fun h => absurd h.1 (by simp [Env.guard])

/-- Constants among arguments are gaps like others. -/
theorem alike_of_guard {l m : Layout} (h : Alike env.guard.Gap l m) : Alike env.Gap l m :=
  h.mono fun slot a hgap => absurd hgap (env.not_gap_guard slot a)

/-- An expression is written the same, up to slots. -/
def MatchesExpr (splicer : Splicer) (e : Expr) : Prop :=
  ∀ ⦃env env'⦄, Paired splicer env env' → e.Proper .valid →
    env.Matches (expr splicer env e) (expr splicer env' e)

/-- A statement is written the same, up to slots. -/
def MatchesStmt (splicer : Splicer) (s : Stmt) : Prop :=
  ∀ ⦃env env'⦄, Paired splicer env env' → s.Proper .valid →
    env.Matches (line splicer env s) (line splicer env' s)

namespace MatchesExpr

/-- Expressions one after another. -/
theorem exprs {es : List Expr} (hes : ∀ e ∈ es, MatchesExpr splicer e)
    (h : Paired splicer env env') (hproper : Expr.AllProper .valid es) :
    (exprs splicer env es).Agrees (List.Forall₂ (Alike env.Gap)) (exprs splicer env' es) := by
  induction es with
  | nil => exact .pure .nil
  | cons e es ih =>
    obtain ⟨he, hes⟩ := List.forall_mem_cons.mp hes
    exact (he h hproper.1).bind fun l m hlm =>
      (ih hes hproper.2).bind fun ls ms hls => .pure (.cons hlm hls)

theorem bound {e : Option Expr} (he : ∀ a ∈ e, MatchesExpr splicer a) (h : Paired splicer env env')
    (hproper : Expr.Proper? .valid e) :
    env.Matches (bound splicer env e) (bound splicer env' e) := by
  cases e with
  | none => exact .pure .nil
  | some e => exact he e rfl h hproper

theorem entries {es : List Entry}
    (hes : ∀ a ∈ es, MatchesExpr splicer a.key ∧ MatchesExpr splicer a.value)
    (h : Paired splicer env env') (hproper : Entry.AllProper .valid es) :
    (entries splicer env es).Agrees (List.Forall₂ (Alike env.Gap)) (entries splicer env' es) := by
  induction es with
  | nil => exact .pure .nil
  | cons e es ih =>
    obtain ⟨key, value, span, cs⟩ := e
    obtain ⟨⟨hkey, hvalue⟩, hes⟩ := List.forall_mem_cons.mp hes
    obtain ⟨⟨hkey', hvalue', -⟩, hproper⟩ := hproper
    exact (hkey h hkey').bind fun l m hlm => (hvalue h hvalue').bind fun l' m' hlm' =>
      (ih hes hproper).bind fun ls ms hls => .pure (.cons ((hlm.append (.text _)).append hlm') hls)

/-- Parameters one after another. -/
theorem params {ps : List Param} (hps : ∀ p ∈ ps, ∀ e ∈ p.default, MatchesExpr splicer e)
    (h : Paired splicer env env') (hproper : Param.AllProper .valid ps) :
    (params splicer env ps).Agrees (List.Forall₂ (Alike env.guard.Gap)) (params splicer env' ps) := by
  induction ps with
  | nil => exact .pure .nil
  | cons p ps ih =>
    obtain ⟨name, value, span, cs⟩ := p
    obtain ⟨hp, hrest⟩ := List.forall_mem_cons.mp hps
    obtain ⟨⟨hname, hvalue, -⟩, hproper⟩ := hproper
    have hparams := ih hrest hproper
    cases value with
    | none =>
      rw [Minified.params, Minified.params, h.name hname]
      exact hparams.bind fun ls ms hls => .pure (.cons (.text _) hls)
    | some e =>
      rw [Minified.params, Minified.params, h.name hname]
      exact (hp e rfl h.guard hvalue).bind fun l m hlm => hparams.bind fun ls ms hls =>
        .pure (.cons (((Alike.text _).append (.text _)).append hlm) hls)

end MatchesExpr

namespace MatchesStmt

/-- An include is replaced in both or in none. -/
theorem spliced? (h : Paired splicer env env') (s : Stmt) :
    (env.scene.spliced? (fun scene => splicer { env with scene }) s = none ∧
      env'.scene.spliced? (fun scene => splicer { env' with scene }) s = none) ∨
    ∃ w v, env.scene.spliced? (fun scene => splicer { env with scene }) s = some w ∧
      env'.scene.spliced? (fun scene => splicer { env' with scene }) s = some v ∧ env.Matches w v := by
  obtain ⟨form, span⟩ := s
  cases form with
  | directive d =>
    cases d with
    | include_ path =>
      rw [Scene.spliced?_include, Scene.spliced?_include, h.scene.include?]
      cases hinclude : env.scene.include? path with
      | none => exact .inl ⟨rfl, rfl⟩
      | some p =>
        have hmatch := h.splicer p.2 (Scene.mem_modules_of_include? hinclude) env.guarded
        rw [← h.guarded] at hmatch
        refine .inr ⟨_, _, rfl, rfl, .splice .nil p.1 ?_⟩
        rwa [h.guarded] at hmatch ⊢
    | _ => exact .inl ⟨rfl, rfl⟩
  | _ => exact .inl ⟨rfl, rfl⟩

/-- Statements one after another. -/
theorem stmts {ss : List Stmt} (hss : ∀ s ∈ ss, MatchesStmt splicer s) (h : Paired splicer env env')
    (hproper : Stmt.AllProper .valid ss) :
    env.Matches (stmts splicer env ss) (stmts splicer env' ss) := by
  induction ss with
  | nil => exact .pure .nil
  | cons s ss ih =>
    obtain ⟨hs, hss⟩ := List.forall_mem_cons.mp hss
    have hrest := ih hss hproper.2.2
    rw [Minified.stmts, Minified.stmts]
    rcases spliced? h s with ⟨hnone, hnone'⟩ | ⟨w, v, hw, hv, hmatch⟩
    · rw [hnone, hnone']
      refine Write.Agrees.bind (R := Alike env.Gap) ((hs h hproper.1).map fun l m hlm => ?_)
        fun l m hlm => hrest.bind fun l' m' hlm' => .pure (hlm.append hlm')
      unfold endLine
      rw [h.isSilent]
      split
      · exact .nil
      · exact hlm.append .eol
    · rw [hw, hv]
      exact hmatch.bind fun l m hlm => hrest.bind fun l' m' hlm' => .pure (hlm.append hlm')

theorem block {b : Block} (hb : ∀ s ∈ b.stmts, MatchesStmt splicer s) (h : Paired splicer env env')
    (hproper : b.Proper .valid) : env.Matches (block splicer env b) (block splicer env' b) := by
  obtain ⟨ss, span⟩ := b
  exact stmts hb h hproper

/-- The clauses of an `if` with blocks. -/
theorem blockClauses {cs : List Clause}
    (hcs : ∀ c ∈ cs, MatchesExpr splicer c.condition ∧ ∀ s ∈ c.body.stmts, MatchesStmt splicer s)
    (h : Paired splicer env env') (hproper : Clause.AllProper .valid cs) (word : String) :
    env.Matches (blockClauses splicer env word cs) (blockClauses splicer env' word cs) := by
  induction cs generalizing word with
  | nil => exact .pure .nil
  | cons c cs ih =>
    obtain ⟨condition, body, span⟩ := c
    obtain ⟨⟨hcondition, hbody⟩, hcs⟩ := List.forall_mem_cons.mp hcs
    obtain ⟨⟨hcondition', hbody'⟩, hproper⟩ := hproper
    exact (hcondition h hcondition').bind fun l m hlm => (block hbody h hbody').bind fun l' m' hlm' =>
      (ih hcs hproper _).bind fun l'' m'' hlm'' =>
        .pure ((((((Alike.text _).append hlm).append (.text _)).append .eol).append hlm').append hlm'')

theorem blockElse {b : Option Block} (hb : ∀ a ∈ b, ∀ s ∈ a.stmts, MatchesStmt splicer s)
    (h : Paired splicer env env') (hproper : Block.Proper? .valid b) :
    env.Matches (blockElse splicer env b) (blockElse splicer env' b) := by
  cases b with
  | none => exact .pure .nil
  | some b =>
    exact (block (hb b rfl) h hproper).bind fun l m hlm =>
      .pure (((Alike.text _).append .eol).append hlm)

theorem inlineBody {b : Block} (hb : ∀ s ∈ b.stmts, MatchesStmt splicer s)
    (h : Paired splicer env env') (hproper : b.Proper .valid) :
    env.Matches (inlineBody splicer env b) (inlineBody splicer env' b) := by
  obtain ⟨ss, span⟩ := b
  match ss with
  | [] => exact .throw _
  | [s] => exact hb s (List.mem_singleton_self s) h hproper.1
  | _ :: _ :: _ => exact .throw _

/-- The clauses of an `if` on one line. -/
theorem inlineClauses {cs : List Clause}
    (hcs : ∀ c ∈ cs, MatchesExpr splicer c.condition ∧ ∀ s ∈ c.body.stmts, MatchesStmt splicer s)
    (h : Paired splicer env env') (hproper : Clause.AllProper .valid cs) (word : String) :
    env.Matches (inlineClauses splicer env word cs) (inlineClauses splicer env' word cs) := by
  induction cs generalizing word with
  | nil => exact .pure .nil
  | cons c cs ih =>
    obtain ⟨condition, body, span⟩ := c
    obtain ⟨⟨hcondition, hbody⟩, hcs⟩ := List.forall_mem_cons.mp hcs
    obtain ⟨⟨hcondition', hbody'⟩, hproper⟩ := hproper
    exact (hcondition h hcondition').bind fun l m hlm =>
      (inlineBody hbody h hbody').bind fun l' m' hlm' => (ih hcs hproper _).bind fun l'' m'' hlm'' =>
        .pure (((((Alike.text _).append hlm).append (.text _)).append hlm').append hlm'')

theorem inlineElse {b : Option Block} (hb : ∀ a ∈ b, ∀ s ∈ a.stmts, MatchesStmt splicer s)
    (h : Paired splicer env env') (hproper : Block.Proper? .valid b) :
    env.Matches (inlineElse splicer env b) (inlineElse splicer env' b) := by
  cases b with
  | none => exact .pure .nil
  | some b =>
    exact (inlineBody (hb b rfl) h hproper).bind fun l m hlm => .pure ((Alike.text _).append hlm)

/-- A call without arguments is written as what it calls. -/
theorem expr {e : Expr} (he : MatchesExpr splicer e)
    (hcallee : ∀ c ∈ e.loneCallee?, MatchesExpr splicer c) (span : Span) :
    MatchesStmt splicer ⟨.expr e, span⟩ := by
  intro env env' h hproper
  obtain ⟨form, span', cs⟩ := e
  cases form with
  | call c args =>
    cases args with
    | nil => exact hcallee c rfl h hproper.1.1
    | cons => exact he h hproper
  | _ => exact he h hproper

/-- A directive on its own line. -/
theorem directive (d : Directive) (span : Span) : MatchesStmt splicer ⟨.directive d, span⟩ := by
  intro env env' h hproper
  cases d with
  | import_ name path =>
    have hname : ':' ∉ name.name.toList := IsName.not_mem hproper.2 rfl
    rw [line, line, h.scene.importText, h.scene.naming.identifier hname]
    exact .pure (.text _)
  | include_ path =>
    rw [line, line, h.scene.include?]
    refine .pure ?_
    split
    · exact .text _
    · exact .nil
  | debugger =>
    rw [line, line, h.scene.settings]
    refine .pure ?_
    split
    · exact .text _
    · exact .nil

end MatchesStmt

/-- A call; its arguments are written guarded on both sides. -/
theorem MatchesExpr.call {c : Expr} {es : List Expr} (hc : MatchesExpr splicer c)
    (hes : ∀ e ∈ es, MatchesExpr splicer e) (span : Span) (cs : Comments) :
    MatchesExpr splicer ⟨.call c es, span, cs⟩ := by
  rintro env env' h ⟨⟨hc', -, hes'⟩, -⟩
  rw [expr, expr, h.scene.nativeCall?]
  cases env.scene.nativeCall? c es with
  | some call => exact .pure (.text _)
  | none =>
    refine (hc h hc').bind fun l m hlm => (exprs hes h.guard hes').bind fun ls ms hls => .pure ?_
    have hargs := Alike.intercalate "," hls
    exact ((hlm.append (.text _)).append (alike_of_guard hargs)).append (.text _)

/-- A function. -/
theorem MatchesExpr.function {ps : List Param} {b : Block}
    (hps : ∀ p ∈ ps, ∀ e ∈ p.default, MatchesExpr splicer e)
    (hb : ∀ s ∈ b.stmts, MatchesStmt splicer s) (span : Span) (cs : Comments) :
    MatchesExpr splicer ⟨.function ps b, span, cs⟩ := by
  rintro env env' h ⟨⟨hps', hb'⟩, -⟩
  refine (params hps h hps').bind fun ls ms hls => (MatchesStmt.block hb h hb').bind
    fun l m hlm => .pure ?_
  have hhead : Alike env.Gap
      (if ls.isEmpty then [] else text "(" ++ intercalate "," ls ++ text ")")
      (if ms.isEmpty then [] else text "(" ++ intercalate "," ms ++ text ")") := by
    cases hls with
    | nil => exact .nil
    | cons hd htail =>
      have hparams := Alike.intercalate "," (.cons hd htail)
      exact ((Alike.text _).append (alike_of_guard hparams)).append (.text _)
  exact ((((Alike.text _).append hhead).append .eol).append hlm).append (.text _)

/-- Two operands. -/
theorem MatchesExpr.binary (op : BinaryOp) {l r : Expr} (hl : MatchesExpr splicer l)
    (hr : MatchesExpr splicer r) (span : Span) (cs : Comments) :
    MatchesExpr splicer ⟨.binary op l r, span, cs⟩ := by
  rintro env env' h ⟨⟨-, hl', -, hr', -⟩, -⟩
  rw [expr, expr]
  split
  · exact .throw _
  · cases callFor? op with
    | some call =>
      exact (hl h hl').bind fun k m hkm => (hr h hr').bind fun k' m' hkm' =>
        .pure (((((Alike.text _).append hkm).append (.text _)).append hkm').append (.text _))
    | none =>
      exact (hl h hl').bind fun k m hkm => (hr h hr').bind fun k' m' hkm' =>
        .pure ((hkm.append (.text _)).append hkm')

section Scenes

variable {scene scene' : Scene} (h : scene.Twins scene')
  (hmodules : ∀ m ∈ scene.modules, Stmt.AllProper .valid m.script.body)

include h hmodules

end Scenes

end Minified

end ScriptBundler

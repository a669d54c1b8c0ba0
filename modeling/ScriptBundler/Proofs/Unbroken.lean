import ScriptBundler.Proofs.Drafting

/-!
# Proofs/Unbroken — layouts without a line break

    [f(1), { k: 2 }]        ◂ written the same at every depth

What stands between brackets is laid out one level in, before it is known whether each item gets a line
of its own.  If no line is broken, nothing was indented, so what was laid out serves on one line as well.

`Steady env pre w out` says so of a writer, with one rule for each way in which writers are put together:
behind `pre`, what `w` makes in `env` has a line break in it, or it is the same in every environment that
differs in its indentation only.
-/

namespace ScriptBundler

open Layout (text eol intercalate hasBreak)
open scoped List

/-! ## Line breaks -/

namespace Layout

@[simp] theorem hasBreak_append (l l' : Layout) : hasBreak (l ++ l') = (hasBreak l || hasBreak l') :=
  List.any_append

@[simp] theorem hasBreak_text (s : String) : hasBreak (text s) = false := by
  unfold text
  split <;> rfl

@[simp] theorem hasBreak_eol : hasBreak eol = true := rfl

/-- A part of a line has no break. -/
theorem hasBreak_of_sublist {l l' : Layout} (h : l <+ l') (hl : hasBreak l' = false) :
    hasBreak l = false :=
  List.any_eq_false.mpr fun p hp => List.any_eq_false.mp hl p (h.subset hp)

/-- Layouts in a row have a break if one of them does. -/
theorem hasBreak_intercalate (sep : String) (ls : List Layout) :
    hasBreak (intercalate sep ls) = ls.any hasBreak := by
  induction ls with
  | nil => rfl
  | cons l ls ih =>
    cases ls with
    | nil => simp [intercalate]
    | cons l' ls =>
      have hcons : intercalate sep (l :: l' :: ls) = l ++ (text sep ++ intercalate sep (l' :: ls)) := rfl
      simp only [hcons, hasBreak_append, hasBreak_text, ih, List.any_cons, Bool.false_or]

end Layout

/-- The same scene, where `style` is one level of indentation. -/
def Scene.restyled (scene : Scene) (style : IndentationStyle) : Scene :=
  { scene with
    naming := { scene.naming with settings := { scene.settings with indentationStyle := style } } }

/-- A run of two writers is a run of both. -/
theorem Write.bind_eq_ok {α β : Type} {w : Write α} {k : α → Write β} {s t : List Nat} {b : β} :
    (w >>= k) s = .ok (b, t) ↔ ∃ a u, w s = .ok (a, u) ∧ k a u = .ok (b, t) :=
  Except.bind_eq_ok.trans Prod.exists

namespace Reformatted

/-! ## Indentation -/

/-- The environments differ in their indentation only: in the depth, and in what one level is. -/
structure Env.Alike (env env' : Env) : Prop where
  scene : ∃ style, env'.scene = env.scene.restyled style
  multiline : env'.multiline = env.multiline

namespace Env.Alike

variable {env env' : Env}

/-- At another depth. -/
theorem atDepth (env : Env) (depth : Nat) : env.Alike { env with depth } := ⟨⟨_, rfl⟩, rfl⟩

/-- Where nothing is ever indented. -/
theorem exists_bare (env : Env) : ∃ env', env.Alike env' ∧ ∀ depth, Env.indent { env' with depth } = [] := by
  refine ⟨{ env with scene := env.scene.restyled (.spaces 0) }, ⟨⟨_, rfl⟩, rfl⟩, fun depth => ?_⟩
  have hempty : String.join (List.replicate depth "") = "" := by
    induction depth with
    | zero => rfl
    | succ depth ih => rw [List.replicate_succ, String.join_cons, ih]; rfl
  show text (String.join (List.replicate depth "")) = []
  rw [hempty]
  rfl

theorem single (h : env.Alike env') : env.single.Alike env'.single := ⟨h.scene, rfl⟩

theorem deeper (h : env.Alike env') : env.deeper.Alike env'.deeper := ⟨h.scene, h.multiline⟩

theorem itemEnv {α : Type} [Item α] (h : env.Alike env') (items : List α) :
    (Brackets.itemEnv env items).Alike (Brackets.itemEnv env' items) := by
  unfold Brackets.itemEnv
  rw [h.multiline]
  split
  · exact h.deeper
  · exact h

/-- What does not look at the indentation is the same. -/
theorem congr (h : env.Alike env') {β : Type} {f : Scene → β}
    (hf : ∀ style, f (env.scene.restyled style) = f env.scene) : f env'.scene = f env.scene := by
  obtain ⟨style, hscene⟩ := h.scene
  rw [hscene, hf]

/-- Which calls load scripts does not depend on indentation. -/
theorem nativeCall? (h : env.Alike env') (c : Expr) (es : List Expr) :
    env'.scene.nativeCall? c es = env.scene.nativeCall? c es :=
  h.congr (f := (·.nativeCall? c es)) fun _ => rfl

theorem keepRedundantParens (h : env.Alike env') :
    env'.scene.settings.keepRedundantParens = env.scene.settings.keepRedundantParens :=
  h.congr (f := (·.settings.keepRedundantParens)) fun _ => rfl

end Env.Alike

/-! ## Steady writers -/

/-- Every layout that `w` makes has a line break in it. -/
def Breaks {α : Type} (w : Write α) (out : α → Layout) : Prop :=
  ∀ placed a placed', w placed = .ok (a, placed') → (out a).hasBreak = true

/-- Behind `pre`, the layout that `out` makes of what `w` yields in `env` has a line break in it, or it is
the same in every environment like `env`, and no module was put in place of an include. -/
def Steady (env : Env) (pre : Layout) {α : Type} (w : Env → Write α) (out : α → Layout) : Prop :=
  ∀ placed a placed', w env placed = .ok (a, placed') → (out a).hasBreak = false →
    pre.hasBreak = false ∧ placed' = placed ∧ ∀ env', env.Alike env' → w env' placed = .ok (a, placed)

namespace Breaks

variable {α β : Type} {out : α → Layout}

protected theorem pure {a : α} (h : (out a).hasBreak = true) : Breaks (pure a) out := by
  intro placed b placed' hb
  cases hb
  exact h

protected theorem bind {w : Write β} {k : β → Write α} (h : ∀ b, Breaks (k b) out) :
    Breaks (w >>= k) out := by
  intro placed a placed' ha
  obtain ⟨b, mid, -, hk⟩ := Write.bind_eq_ok.mp ha
  exact h b mid a placed' hk

end Breaks

namespace Steady

variable {env : Env} {pre : Layout} {α β : Type} {w : Env → Write α} {out : α → Layout}
  {out' : β → Layout}

/-- Where there is always a break, there is nothing to show. -/
theorem of_breaks (h : Breaks (w env) out) : Steady env pre w out := by
  intro placed a placed' ha hnone
  rw [h placed a placed' ha] at hnone
  cases hnone

/-- Text that the indentation has no part in. -/
theorem write {f : Env → α} (hpre : pre <+ out (f env))
    (hf : (out (f env)).hasBreak = false → ∀ env', env.Alike env' → f env' = f env) :
    Steady env pre (fun env => pure (f env)) out := by
  intro placed a placed' ha hnone
  cases ha
  exact ⟨Layout.hasBreak_of_sublist hpre hnone, rfl, fun env' halike =>
    congrArg (fun a => Except.ok (a, placed)) (hf hnone env' halike)⟩

/-- **One part after another.** -/
theorem bind {k : Env → α → Write β} (h : Steady env [] w out)
    (hk : ∀ a, Steady env (pre ++ out a) (k · a) out') :
    Steady env pre (fun env => w env >>= k env) out' := by
  intro placed b placed' hb hnone
  obtain ⟨a, mid, ha, hrest⟩ := Write.bind_eq_ok.mp hb
  obtain ⟨hboth, rfl, hsame'⟩ := hk a mid b placed' hrest hnone
  rw [Layout.hasBreak_append, Bool.or_eq_false_iff] at hboth
  obtain ⟨-, rfl, hsame⟩ := h placed a _ ha hboth.2
  exact ⟨hboth.1, rfl, fun env' halike =>
    Write.bind_eq_ok.mpr ⟨a, _, hsame env' halike, hsame' env' halike⟩⟩

/-- The last part. -/
theorem last {f : Env → α → β} (h : Steady env [] w out) (hpre : ∀ a, pre ++ out a <+ out' (f env a))
    (hf : ∀ a, (out' (f env a)).hasBreak = false → ∀ env', env.Alike env' → f env' a = f env a) :
    Steady env pre (fun env => w env >>= fun a => pure (f env a)) out' :=
  h.bind fun a => write (hpre a) (hf a)

/-- The last part, where the indentation has no part in what is made of it. -/
theorem then_ {f : α → β} (h : Steady env [] w out) (hpre : ∀ a, pre ++ out a <+ out' (f a)) :
    Steady env pre (fun env => w env >>= fun a => pure (f a)) out' :=
  h.last hpre fun _ _ _ _ => rfl

/-- In an environment that is made of the one given. -/
theorem comap {g : Env → Env} (h : Steady (g env) pre w out)
    (hg : ∀ env', env.Alike env' → (g env).Alike (g env')) : Steady env pre (fun env => w (g env)) out :=
  fun placed a placed' ha hnone =>
    (h placed a placed' ha hnone).imp_right (.imp_right fun hsame env' halike => hsame _ (hg env' halike))

/-- On one line the environments are alike still. -/
theorem single (h : Steady env.single pre w out) : Steady env pre (fun env => w env.single) out :=
  h.comap fun _ halike => halike.single

/-- Between brackets the environments are alike still. -/
theorem inside {γ : Type} [Item γ] (items : List γ) (h : Steady (Brackets.itemEnv env items) pre w out) :
    Steady env pre (fun env => w (Brackets.itemEnv env items)) out :=
  h.comap (g := (Brackets.itemEnv · items)) fun _ halike => halike.itemEnv items

/-- What is chosen in the same way in every environment like this one. -/
theorem congr {v : Env → Write α} (h : Steady env pre v out)
    (hlike : ∀ env', env.Alike env' → w env' = v env') : Steady env pre w out := by
  intro placed a placed' ha hnone
  rw [hlike env (.atDepth env env.depth)] at ha
  obtain ⟨hpre, hplaced, hsame⟩ := h placed a placed' ha hnone
  exact ⟨hpre, hplaced, fun env' halike => (congrFun (hlike env' halike) placed).trans (hsame env' halike)⟩

end Steady

/-! ## Items -/

theorem Brackets.hasBreak_oneLine (b : Brackets) (ls : List Layout) :
    (b.oneLine ls).hasBreak = ls.any hasBreak := by
  simp only [Brackets.oneLine, Layout.hasBreak_append, Layout.hasBreak_text, Layout.hasBreak_intercalate,
    Bool.false_or, Bool.or_false]

/-- Brackets without a line break in them are laid out the same at every depth. -/
theorem Brackets.layout_alike {α : Type} [Item α] {b : Brackets} {env env' : Env} {items : List α}
    {inner : List Comment} {ls : List Layout} (hnone : (b.layout env items inner ls).hasBreak = false)
    (h : env.Alike env') : b.layout env' items inner ls = b.layout env items inner ls := by
  unfold Brackets.layout at hnone ⊢
  rw [h.multiline]
  split at hnone
  · rename_i hempty
    rw [if_pos hempty, if_pos hempty]
    unfold Brackets.empty at hnone ⊢
    split at hnone
    · rename_i hinner
      rw [if_pos hinner, if_pos hinner]
    · simp at hnone
  · split at hnone
    · rename_i hempty hfits
      rw [if_neg hempty, if_neg hempty, if_pos hfits, if_pos hfits]
    · simp at hnone

/-- Items without a break are held without one. -/
theorem hasBreak_held {α : Type} {items : List α} {ls : List Layout} (h : ls.any hasBreak = false) :
    (held items ls).hasBreak = false := by
  refine List.any_eq_false.mpr fun p hp => ?_
  obtain ⟨⟨a, l⟩, hmem, hp⟩ := List.mem_flatMap.mp hp
  exact List.any_eq_false.mp (Bool.eq_false_iff.mpr (List.any_eq_false.mp h l (List.of_mem_zip hmem).2)) p hp

/-! ## Expressions -/

variable {splicer : Splicer} {env : Env}

/-- An expression that is written without a line break is written the same in every environment alike. -/
def SteadyExpr (splicer : Splicer) (e : Expr) : Prop := ∀ env, Steady env [] (expr splicer · e) id

namespace SteadyExpr

/-- Expressions one after another. -/
theorem exprs {es : List Expr} (hes : ∀ e ∈ es, SteadyExpr splicer e) (env : Env) :
    Steady env [] (exprs splicer · es) (held es) := by
  induction es with
  | nil => exact .write (.refl _) fun _ _ _ => rfl
  | cons e es ih =>
    obtain ⟨he, hes⟩ := List.forall_mem_cons.mp hes
    exact (he env).bind fun l => (ih hes).then_ fun ls => .refl _

/-- An end of a slice. -/
theorem bound {e : Option Expr} (he : ∀ a ∈ e, SteadyExpr splicer a) (env : Env) :
    Steady env [] (bound splicer · e) id := by
  cases e with
  | none => exact .write (.refl _) fun _ _ _ => rfl
  | some e => exact he e rfl env

/-- Entries of a map one after another. -/
theorem entries {es : List Entry} (hes : ∀ a ∈ es, SteadyExpr splicer a.key ∧ SteadyExpr splicer a.value)
    (env : Env) : Steady env [] (entries splicer · es) (held es) := by
  induction es with
  | nil => exact .write (.refl _) fun _ _ _ => rfl
  | cons e es ih =>
    obtain ⟨key, value, span, cs⟩ := e
    obtain ⟨⟨hkey, hvalue⟩, hes⟩ := List.forall_mem_cons.mp hes
    refine (hkey env).bind fun k => (hvalue env).bind fun v => (ih hes).then_ fun ls => ?_
    exact List.Sublist.append_right (by grind) (held es ls)

/-- Parameters one after another. -/
theorem params {ps : List Param} (hps : ∀ p ∈ ps, ∀ e ∈ p.default, SteadyExpr splicer e) (env : Env) :
    Steady env [] (params splicer · ps) (held ps) := by
  induction ps with
  | nil => exact .write (.refl _) fun _ _ _ => rfl
  | cons p ps ih =>
    obtain ⟨name, value, span, cs⟩ := p
    obtain ⟨hp, hrest⟩ := List.forall_mem_cons.mp hps
    cases value with
    | none => exact (ih hrest).then_ fun ls => List.sublist_append_right _ (held ps ls)
    | some e =>
      refine (hp e rfl env.single).single.bind fun l => (ih hrest).then_ fun ls => ?_
      exact List.Sublist.append_right (by grind) (held ps ls)

end SteadyExpr

/-- **What is written without a line break is written the same at every depth**, node by node.  Nothing is
claimed of statements: a function, the only expression with statements in it, has a line for each. -/
theorem inductive_steady (splicer : Splicer) : Inductive (SteadyExpr splicer) fun _ => True where
  literal l span cs env := .write (List.nil_sublist _) fun _ _ _ => rfl
  list es span cs hes env :=
    ((SteadyExpr.exprs hes _).inside es).last (fun ls => held_sublist_layout ..)
      fun ls hnone env' h => Brackets.layout_alike hnone h
  map es span cs hes env :=
    ((SteadyExpr.entries hes _).inside es).last (fun ls => held_sublist_layout ..)
      fun ls hnone env' h => Brackets.layout_alike hnone h
  identifier x span cs env := .write (List.nil_sublist _) fun _ _ _ => rfl
  member b x span cs hb env := (hb env).then_ fun l => List.sublist_append_left ..
  index b i span cs hb hi env := by
    by_cases hplain : (i.comments.isEmpty && cs.inner.isEmpty) = true
    · simp only [expr, if_pos hplain]
      refine (hb env).bind fun l => (hi env.single).single.then_ fun l' => ?_
      grind
    · refine .of_breaks ?_
      simp only [expr, if_neg hplain]
      exact .bind fun l => .bind fun l' => .pure (by simp)
  slice b i j span cs hb hi hj env := by
    by_cases hspread : spreadsSlice i j cs.inner = true
    · refine .of_breaks ?_
      simp only [expr, if_pos hspread]
      exact .bind fun l => .bind fun l' => .bind fun l'' => .pure (by simp)
    · simp only [expr, if_neg hspread]
      refine (hb env).bind fun l => (SteadyExpr.bound hi env.single).single.bind fun l' =>
        (SteadyExpr.bound hj env.single).single.then_ fun l'' => ?_
      grind
  call c es span cs hc hes env := by
    cases hcall : env.scene.nativeCall? c es with
    | some call =>
      refine .congr (.write (f := fun _ => text call) (List.nil_sublist _) fun _ _ _ => rfl) fun env' h => ?_
      simp only [expr, h.nativeCall?, hcall]
    | none =>
      refine .congr ((hc env).bind fun l => ((SteadyExpr.exprs hes _).inside es).last
        (f := fun env ls => l ++ Brackets.args.layout env es cs.inner ls) (fun ls => ?_)
          fun ls hnone env' h => ?_) fun env' h => ?_
      · exact List.Sublist.append_left (held_sublist_layout ..) l
      · rw [id_eq, Layout.hasBreak_append, Bool.or_eq_false_iff] at hnone
        rw [Brackets.layout_alike hnone.2 h]
      · simp only [expr, h.nativeCall?, hcall]
  binary op l r span cs hl hr env := by
    simp only [WritesExpr.expr_binary]
    by_cases hlead : r.comments.leading.isEmpty = true
    · simp only [operandGap, if_pos hlead]
      refine (hl env).bind fun a => (hr env).then_ fun b => ?_
      grind
    · refine .of_breaks ?_
      simp only [operandGap, if_neg hlead]
      exact .bind fun a => .bind fun b => .pure (by simp)
  unary op e span cs he env := (he env).then_ fun l => List.sublist_append_right ..
  function ps b span cs hps hb env := .of_breaks (.bind fun ls => .bind fun l => .pure (by simp))
  paren e span cs he env := by
    by_cases hcomments : (!e.comments.isEmpty) = true
    · refine .of_breaks ?_
      simp only [expr, if_pos hcomments]
      exact .bind fun l => .pure (by simp)
    · by_cases hbare : (e.isAtomic && !env.scene.settings.keepRedundantParens) = true
      · refine .congr (he env) fun env' h => ?_
        simp only [expr, if_neg hcomments, h.keepRedundantParens, if_pos hbare]
      · refine .congr ((he env).then_ (f := fun l => text "(" ++ l ++ text ")") fun l => ?_) fun env' h => ?_
        · grind
        · simp only [expr, if_neg hcomments, h.keepRedundantParens, if_neg hbare]
  directive d span cs env := .write (List.nil_sublist _) fun _ env' h =>
    h.congr (f := fun s => text (s.value d _)) fun _ => rfl
  assign _ _ _ _ _ _ := trivial
  expr _ _ _ _ := trivial
  return_ _ _ _ := trivial
  break_ _ := trivial
  continue_ _ := trivial
  if_ _ _ _ _ _ _ := trivial
  while_ _ _ _ _ _ := trivial
  for_ _ _ _ _ _ _ := trivial
  comment _ _ := trivial
  mark _ _ := trivial

/-! ## One line or many -/

/-- Where `w` breaks no line, it yields the same at every depth, and the same where nothing is ever
indented. -/
def Flat {α : Type} (w : Env → Write α) (breaks : α → Bool) : Prop :=
  ∀ env placed a placed', w env placed = .ok (a, placed') → breaks a = false →
    (∀ depth, w { env with depth } placed = .ok (a, placed')) ∧
    ∃ bare, env.Alike bare ∧ (∀ depth, Env.indent { bare with depth } = []) ∧
      w bare placed = .ok (a, placed')

/-- Items that `w` has laid out one level in and that go on one line are what `w` makes of them outside, and
where nothing is ever indented. -/
def OneLined {α : Type} [Item α] (w : Env → List α → Write (List Layout)) : Prop :=
  ∀ (b : Brackets) (env : Env) items inner placed ls placed', env.multiline = true → items ≠ [] →
    hasComments items = false → w env.deeper items placed = .ok (ls, placed') → b.fits ls = true →
    b.layout env items inner ls = b.oneLine ls ∧ (b.oneLine ls).hasBreak = false ∧
    w env items placed = .ok (ls, placed') ∧
    ∃ bare, env.Alike bare ∧ (∀ depth, Env.indent { bare with depth } = []) ∧
      w bare items placed = .ok (ls, placed')

/-- What is steady in every environment is flat. -/
theorem Flat.of_steady {α : Type} {w : Env → Write α} {out : α → Layout} {breaks : α → Bool}
    (h : ∀ env, Steady env [] w out) (hout : ∀ a, breaks a = false → (out a).hasBreak = false) :
    Flat w breaks := by
  intro env placed a placed' ha hnone
  obtain ⟨-, rfl, hsame⟩ := h env placed a placed' ha (hout a hnone)
  obtain ⟨bare, halike, hindent⟩ := Env.Alike.exists_bare env
  exact ⟨fun depth => hsame _ (.atDepth env depth), bare, halike, hindent, hsame bare halike⟩

/-- Items that are flat are those on one line. -/
theorem OneLined.of_flat {α : Type} [Item α] {w : Env → List α → Write (List Layout)}
    (h : ∀ items, Flat (w · items) (·.any hasBreak)) : OneLined w := by
  intro b env items inner placed ls placed' hmultiline hne hcomments hls hfits
  have hnone : ls.any hasBreak = false := by
    rw [Brackets.fits, Bool.and_eq_true, Bool.not_eq_true'] at hfits
    exact hfits.2
  obtain ⟨hdepth, bare, halike, hbare⟩ := h items env.deeper placed ls placed' hls hnone
  refine ⟨?_, by rw [Brackets.hasBreak_oneLine, hnone], hdepth env.depth, bare,
    ⟨halike.scene, halike.multiline⟩, hbare⟩
  rw [Brackets.layout, if_neg (mt List.isEmpty_iff.mp hne), if_pos (by simp [hcomments, hfits])]

/-- **A layout without a line break serves at every depth.**  If an expression, an entry of a map or a
parameter is laid out without one, it is laid out the same at every other depth, and where nothing is ever
indented.  So what goes between brackets can be laid out one level in before it is known whether it goes on
one line: if it does, that line is the one made of the items outside, with no indentation in it. -/
theorem flat_items (splicer : Splicer) :
    (∀ e, Flat (expr splicer · e) hasBreak) ∧
    (∀ es, Flat (exprs splicer · es) (·.any hasBreak)) ∧
    (∀ es, Flat (entries splicer · es) (·.any hasBreak)) ∧
    (∀ ps, Flat (params splicer · ps) (·.any hasBreak)) ∧
    OneLined (exprs splicer) ∧ OneLined (entries splicer) ∧ OneLined (params splicer) := by
  have h := inductive_steady splicer
  have hexprs := fun es => Flat.of_steady (SteadyExpr.exprs (h.exprs es)) fun _ => hasBreak_held
  have hentries := fun es => Flat.of_steady (SteadyExpr.entries (h.entries es)) fun _ => hasBreak_held
  have hparams := fun ps => Flat.of_steady (SteadyExpr.params (h.params ps)) fun _ => hasBreak_held
  exact ⟨fun e => .of_steady (h.allExpr e) fun _ => id, hexprs, hentries, hparams, .of_flat hexprs,
    .of_flat hentries, .of_flat hparams⟩

/-- A name and a call, which has brackets of its own. -/
def nameAndCall : List Expr :=
  [⟨.identifier "a", default, {}⟩,
    ⟨.call ⟨.identifier "f", default, {}⟩ [⟨.literal (.bool true), default, {}⟩], default, {}⟩]

theorem flat_items_call : ∃ l ls, ∃ env : Env, env.multiline = true ∧ hasComments nameAndCall = false ∧
    exprs (body 0) env.deeper nameAndCall [] = .ok (ls, []) ∧ Brackets.list.fits ls = true ∧
    Brackets.list.layout env nameAndCall [] ls = Brackets.list.oneLine ls ∧
    exprs (body 0) env nameAndCall [] = .ok (ls, []) ∧ Layout.join l = "[a, f(true)]" ∧
    ∀ depth, expr (body 0) { env with depth } ⟨.list nameAndCall, default, {}⟩ [] = .ok (l, []) := by
  obtain ⟨hexpr, -, -, -, honeLined, -⟩ := flat_items (body 0)
  have hfits := honeLined .list { scene := { naming := .ofSettings {} } } nameAndCall [] [] _ [] rfl
    (List.cons_ne_nil _ _) rfl rfl rfl
  refine ⟨_, _, _, rfl, rfl, rfl, rfl, hfits.1, hfits.2.2.1, ?_, (hexpr _ _ [] _ [] rfl rfl).1⟩
  decide +kernel

end Reformatted

end ScriptBundler

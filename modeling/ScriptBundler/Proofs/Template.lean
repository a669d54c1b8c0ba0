import Mathlib.Data.List.Forall2
import Mathlib.Data.List.Induction
import ScriptBundler.Bundle
import ScriptBundler.Proofs.Rendering

/-!
# Proofs/Template — one tree written twice

Two ways of writing a tree that differ only in how they spell some constants give two layouts of one
shape.  A `Template` is that shape: text with gaps for constants, each with the slot that can stand
for it.  `Write.Agrees` carries a relation between results through all steps of writing, and `Alike`
is the relation of being one template with its gaps filled by slots and by constants.

    template ──fill slots──▸ text with slots
             ──fill raws───▸ text with constants where they occur
-/

namespace ScriptBundler

/-! ## Two runs side by side -/

/-- Two results: both are there and related, or both are missing for one reason. -/
inductive Agree {ε α β : Type} (R : α → β → Prop) : Except ε α → Except ε β → Prop where
  | ok {a : α} {b : β} (h : R a b) : Agree R (.ok a) (.ok b)
  | error (e : ε) : Agree R (.error e) (.error e)

namespace Agree

variable {ε ε' α β γ δ : Type} {R : α → β → Prop} {Q : γ → δ → Prop} {x : Except ε α} {y : Except ε β}

/-- One run after another. -/
theorem bind {k : α → Except ε γ} {k' : β → Except ε δ} (h : Agree R x y)
    (hk : ∀ a b, R a b → Agree Q (k a) (k' b)) : Agree Q (x >>= k) (y >>= k') := by
  cases h with
  | ok h => exact hk _ _ h
  | error e => exact .error e

theorem map {f : α → γ} {g : β → δ} (h : Agree R x y) (hf : ∀ a b, R a b → Q (f a) (g b)) :
    Agree Q (f <$> x) (g <$> y) := by
  cases h with
  | ok h => exact .ok (hf _ _ h)
  | error e => exact .error e

theorem mapError (f : ε → ε') (h : Agree R x y) : Agree R (x.mapError f) (y.mapError f) := by
  cases h with
  | ok h => exact .ok h
  | error e => exact .error (f e)

/-- Item by item. -/
theorem mapM {as : List γ} {f : γ → Except ε α} {g : γ → Except ε β}
    (h : ∀ a ∈ as, Agree R (f a) (g a)) : Agree (List.Forall₂ R) (as.mapM f) (as.mapM g) := by
  induction as with
  | nil => exact .ok .nil
  | cons a as ih =>
    obtain ⟨ha, has⟩ := List.forall_mem_cons.mp h
    rw [List.mapM_cons, List.mapM_cons]
    exact ha.bind fun b c hbc => (ih has).bind fun bs cs hbcs => .ok (.cons hbc hbcs)

end Agree

/-- A module is put in place once. -/
theorem Scene.splice_eq (i : Nat) (body : Write Layout) (s : List Nat) :
    splice i body s = if i ∈ s then .ok ([], s) else body (i :: s) := by
  unfold splice
  show (if s.contains i then pure [] else _ : Write Layout) s = _
  rw [ite_apply]
  simp only [List.contains_iff_mem]
  rfl

/-- From every state on, two writers come to related results and to one state. -/
def Write.Agrees {α β : Type} (R : α → β → Prop) (w : Write α) (v : Write β) : Prop :=
  ∀ s, Agree (fun p q => R p.1 q.1 ∧ p.2 = q.2) (w s) (v s)

namespace Write.Agrees

variable {α β γ δ : Type} {R R' : α → β → Prop} {Q : γ → δ → Prop} {w : Write α} {v : Write β}

protected theorem pure {a : α} {b : β} (h : R a b) : Agrees R (pure a) (pure b) := fun _ => .ok ⟨h, rfl⟩

protected theorem throw (e : WriteError) : Agrees R (throw e) (throw e) := fun _ => .error e

/-- One writer after another. -/
theorem bind {k : α → Write γ} {k' : β → Write δ} (h : Agrees R w v)
    (hk : ∀ a b, R a b → Agrees Q (k a) (k' b)) : Agrees Q (w >>= k) (v >>= k') := by
  intro s
  refine Agree.bind (h s) fun p q hpq => ?_
  obtain ⟨a, s'⟩ := p
  obtain ⟨b, s''⟩ := q
  obtain ⟨hab, rfl⟩ := hpq
  exact hk a b hab s'

theorem map {f : α → γ} {g : β → δ} (h : Agrees R w v) (hf : ∀ a b, R a b → Q (f a) (g b)) :
    Agrees Q (f <$> w) (g <$> v) := by
  rw [map_eq_pure_bind, map_eq_pure_bind]
  exact h.bind fun a b hab => .pure (hf a b hab)

theorem mono (h : Agrees R w v) (hR : ∀ a b, R a b → R' a b) : Agrees R' w v := by
  have h' := h.map (f := id) (g := id) hR
  rwa [id_map, id_map] at h'

/-- A module is put in place of an include by both writers or by none. -/
theorem splice {R : Layout → Layout → Prop} {w v : Write Layout} (hnil : R [] []) (i : Nat)
    (h : Agrees R w v) : Agrees R (Scene.splice i w) (Scene.splice i v) := by
  intro s
  rw [Scene.splice_eq, Scene.splice_eq]
  split
  · exact .ok ⟨hnil, rfl⟩
  · exact h _

end Write.Agrees

/-! ## Includes -/

/-- An include is where its module is put, if it leads to one. -/
theorem Scene.spliced?_include (scene : Scene) (body : Scene → Write Layout) (path : String)
    (span : Span) :
    scene.spliced? body ⟨.directive (.include_ path), span⟩ =
      (scene.include? path).map fun p => splice p.1 (body { scene with active := some p.2 }) := by
  show (scene.include? path >>= _) = _
  cases scene.include? path <;> rfl

/-- A path leads to a module if the edge and the module are there. -/
theorem Module.target?_eq_some {modules : List Module} {edges : List (String × Nat)} {path : String}
    {p : Nat × Module} :
    Module.target? modules edges path = some p ↔ edges.lookup path = some p.1 ∧ modules[p.1]? = some p.2 := by
  obtain ⟨i, t⟩ := p
  unfold Module.target?
  cases edges.lookup path with
  | none => simp
  | some j => cases hj : modules[j]? <;> grind

/-- An include stands for a module with its number. -/
theorem Scene.getElem?_of_include? {scene : Scene} {path : String} {p : Nat × Module}
    (h : scene.include? path = some p) : scene.modules[p.1]? = some p.2 := by
  obtain ⟨m, -, htarget⟩ := Option.bind_eq_some_iff.mp h
  exact (Module.target?_eq_some.mp htarget).2

/-- What is included is one of the modules. -/
theorem Scene.mem_modules_of_include? {scene : Scene} {path : String} {p : Nat × Module}
    (h : scene.include? path = some p) : p.2 ∈ scene.modules :=
  List.mem_of_getElem? (getElem?_of_include? h)

/-! ## Templates -/

/-- A piece of a text with gaps. -/
inductive Template.Piece where
  | text (s : String)
  | eol
  /-- A gap for a constant, which has a slot. -/
  | constant (slot : String) (l : Literal)

/-- A text with gaps for constants. -/
abbrev Template := List Template.Piece

namespace Template

/-- The text of a piece, where `f` fills the gaps. -/
def Piece.fill (f : String → Literal → String) : Piece → String
  | text s => s
  | eol => "\n"
  | constant slot l => f slot l

/-- What a piece becomes when its constant is written by `f`. -/
def Piece.layout (f : String → Literal → String) : Piece → Layout
  | text s => Layout.text s
  | eol => Layout.eol
  | constant slot l => Layout.text (f slot l)

/-- The text of a template, where `f` fills the gaps. -/
def fill (f : String → Literal → String) (t : Template) : String := String.join (t.map (Piece.fill f))

/-- The text when constants are written by `f`. -/
def layout (f : String → Literal → String) (t : Template) : Layout := t.flatMap (Piece.layout f)

/-- The text with slots. -/
def slots (t : Template) : String := t.fill fun slot _ => slot

/-- The text with constants as they are written where they occur. -/
def raws (t : Template) : String := t.fill fun _ l => l.raw

/-- All gaps of a template have `P`. -/
def Gaps (P : String → Literal → Prop) (t : Template) : Prop :=
  ∀ slot l, Piece.constant slot l ∈ t → P slot l

variable {f : String → Literal → String} {P Q : String → Literal → Prop} {t u : Template}

@[simp] theorem fill_nil : fill f [] = "" := rfl

@[simp] theorem fill_cons (p : Piece) (t : Template) : fill f (p :: t) = p.fill f ++ fill f t :=
  String.join_cons

@[simp] theorem fill_append (t u : Template) : fill f (t ++ u) = fill f t ++ fill f u := by
  induction t with
  | nil => simp
  | cons p t ih => simp [ih, String.append_assoc]

@[simp] theorem layout_nil : layout f [] = [] := rfl

@[simp] theorem layout_append (t u : Template) : layout f (t ++ u) = layout f t ++ layout f u :=
  List.flatMap_append

/-- Writing the layout of a template writes its text. -/
theorem foldl_layout (t : Template) (out : List Char) :
    (t.layout f).foldl Layout.write out = (t.fill f).toList.reverse ++ out := by
  induction t generalizing out with
  | nil => rfl
  | cons p t ih =>
    have hp : (p.layout f).foldl Layout.write out = (p.fill f).toList.reverse ++ out := by
      cases p with
      | text s => exact Layout.foldl_text s out
      | eol => simp [Piece.layout, Piece.fill, Layout.eol, Layout.write]
      | constant slot l => exact Layout.foldl_text _ out
    show (p.layout f ++ layout f t).foldl Layout.write out = _
    rw [List.foldl_append, hp, ih, fill_cons, String.toList_append, List.reverse_append,
      List.append_assoc]

theorem gaps_nil : Gaps P [] := fun _ _ h => absurd h List.not_mem_nil

/-- The gaps of two templates. -/
theorem gaps_append : Gaps P (t ++ u) ↔ Gaps P t ∧ Gaps P u := by
  simp only [Gaps, List.mem_append, or_imp, forall_and]

theorem Gaps.mono (h : Gaps P t) (hPQ : ∀ slot l, P slot l → Q slot l) : Gaps Q t :=
  fun slot l hl => hPQ slot l (h slot l hl)

/-! ### Text that is put together from templates -/

/-- A text with an end that is no line break. -/
def Solid (s : String) : Prop := ∃ cs c, s.toList = cs ++ [c] ∧ c ≠ '\n'

/-- What fills the gaps never ends in a line break. -/
abbrev Fills (f : String → Literal → String) (t : Template) : Prop := Gaps (fun slot l => Solid (f slot l)) t

theorem Solid.ne_empty {s : String} (h : Solid s) : s ≠ "" := by
  obtain ⟨cs, c, hs, -⟩ := h
  rintro rfl
  simp at hs

/-- Whether a template is empty does not depend on what fills its gaps. -/
theorem empty_or_not (t : Template) :
    (∀ f, Fills f t → fill f t = "") ∨ ∀ f, Fills f t → fill f t ≠ "" := by
  induction t with
  | nil => exact .inl fun _ _ => rfl
  | cons p t ih =>
    have hrest : ∀ f, Fills f (p :: t) → Fills f t := fun f hf slot l hl =>
      hf slot l (List.mem_cons_of_mem _ hl)
    by_cases hp : p = .text ""
    · refine ih.imp (fun h f hf => ?_) fun h f hf => ?_
      · rw [fill_cons, hp, h f (hrest f hf)]
        rfl
      · rw [fill_cons, hp]
        simpa [Piece.fill] using h f (hrest f hf)
    · refine .inr fun f hf hempty => ?_
      rw [fill_cons, String.append_eq_empty_iff] at hempty
      cases p with
      | text s => exact hp (congrArg Piece.text hempty.1)
      | eol => exact absurd hempty.1 (show "\n" ≠ "" by decide)
      | constant slot l => exact (hf slot l (List.mem_cons_self ..)).ne_empty hempty.1

/-- A text without the line breaks at its end. -/
def strip (s : String) : String := String.ofList ((s.toList.reverse.dropWhile (· == '\n')).reverse)

/-- Nothing is taken off a text that ends in something else than a line break. -/
theorem strip_append_of_solid {s : String} (t : String) (h : Solid s) : strip (t ++ s) = t ++ s := by
  obtain ⟨cs, c, hs, hc⟩ := h
  have htext : t ++ s = String.ofList (t.toList ++ (cs ++ [c])) := by
    rw [← hs, ← String.toList_append, String.ofList_toList]
  rw [strip, htext, String.toList_ofList]
  simp [hc]

/-- Line breaks at the end are taken off. -/
theorem strip_append_of_all {s : String} (t : String) (h : ∀ c ∈ s.toList, c = '\n') :
    strip (t ++ s) = strip t := by
  rw [strip, strip, String.toList_append, List.reverse_append, List.dropWhile_append_of_pos]
  intro c hc
  simp [h c (List.mem_reverse.mp hc)]

/-- A text is line breaks only, or it is solid in front of them. -/
theorem solid_or_all (s : String) :
    (∀ c ∈ s.toList, c = '\n') ∨ ∃ u v, s = u ++ v ∧ Solid u ∧ ∀ c ∈ v.toList, c = '\n' := by
  have hsplit : s = String.ofList ((s.toList.reverse.dropWhile (· == '\n')).reverse) ++
      String.ofList ((s.toList.reverse.takeWhile (· == '\n')).reverse) := by
    rw [← String.ofList_append, ← List.reverse_append, List.takeWhile_append_dropWhile,
      List.reverse_reverse, String.ofList_toList]
  have hall : ∀ c ∈ (s.toList.reverse.takeWhile (· == '\n')).reverse, c = '\n' := fun c hc => by
    simpa using List.all_eq_true.mp List.all_takeWhile c (List.mem_reverse.mp hc)
  cases hdrop : s.toList.reverse.dropWhile (· == '\n') with
  | nil =>
    refine .inl fun c hc => hall c ?_
    rw [hdrop] at hsplit
    rw [hsplit] at hc
    simpa using hc
  | cons c cs =>
    refine .inr ⟨_, _, hsplit, ⟨cs.reverse, c, by simp [hdrop], ?_⟩, by simpa using hall⟩
    have hc := List.head_dropWhile_not (· == '\n') (l := s.toList.reverse) (by simp [hdrop])
    simpa [hdrop] using hc

/-- Taking line breaks off the end of a template leaves a template. -/
theorem exists_strip (t : Template) : ∃ u : Template, (∀ P, Gaps P t → Gaps P u) ∧
    ∀ f, Fills f t → strip (fill f t) = fill f u := by
  induction t using List.reverseRecOn with
  | nil => exact ⟨[], fun _ h => h, fun _ _ => rfl⟩
  | append_singleton t p ih =>
    obtain ⟨u, hu, hstrip⟩ := ih
    have hdrop : (∀ f, strip (fill f (t ++ [p])) = strip (fill f t)) → ∃ u : Template,
        (∀ P, Gaps P (t ++ [p]) → Gaps P u) ∧
        ∀ f, Fills f (t ++ [p]) → strip (fill f (t ++ [p])) = fill f u := fun h =>
      ⟨u, fun P hP => hu P (gaps_append.mp hP).1, fun f hf => by
        rw [h, hstrip f (gaps_append.mp hf).1]⟩
    cases p with
    | text s =>
      rcases solid_or_all s with hall | ⟨v, w, rfl, hsolid, hall⟩
      · exact hdrop fun f => by simpa [Piece.fill] using strip_append_of_all (fill f t) hall
      · refine ⟨t ++ [.text v], fun P hP => gaps_append.mpr ⟨(gaps_append.mp hP).1, ?_⟩,
          fun f _ => ?_⟩
        · intro slot l hl
          simp at hl
        · have hall' := strip_append_of_all (fill f t ++ v) hall
          rw [String.append_assoc] at hall'
          simpa [Piece.fill, strip_append_of_solid (fill f t) hsolid] using hall'
    | eol =>
      have hall : ∀ c ∈ "\n".toList, c = '\n' := by simp
      exact hdrop fun f => by simpa [Piece.fill] using strip_append_of_all (fill f t) hall
    | constant slot l =>
      refine ⟨t ++ [.constant slot l], fun P hP => hP, fun f hf => ?_⟩
      have hsolid := hf slot l (by simp)
      simpa [Piece.fill] using strip_append_of_solid (fill f t) hsolid

/-- Joined pieces are the filled text without the line breaks at its end. -/
theorem join_layout (t : Template) : (t.layout f).join = strip (t.fill f) := by
  rw [Layout.join, foldl_layout, List.append_nil, strip]

end Template

namespace Bundle

theorem joinParts_cons_empty (sep : String) (ps : List String) :
    joinParts sep ("" :: ps) = joinParts sep ps := rfl

theorem joinParts_singleton (sep p : String) : joinParts sep [p] = p := by
  by_cases h : p = ""
  · rw [h]
    rfl
  · simp [joinParts, h]

theorem joinParts_pair {p q : String} (sep : String) (hp : p ≠ "") (hq : q ≠ "") :
    joinParts sep [p, q] = p ++ sep ++ q := by
  simp [joinParts, hp, hq, String.intercalate_cons_cons]

theorem joinParts_pair_empty (sep p : String) : joinParts sep [p, ""] = p :=
  joinParts_singleton sep p

/-- Parts can be joined from the back. -/
theorem joinParts_cons (sep p : String) (ps : List String) :
    joinParts sep (p :: ps) = joinParts sep [p, joinParts sep ps] := by
  by_cases hp : p = ""
  · rw [hp, joinParts_cons_empty, joinParts_cons_empty, joinParts_singleton]
  · cases hps : ps.filter (!·.isEmpty) with
    | nil =>
      have hempty : joinParts sep ps = "" := by rw [joinParts, hps]; rfl
      rw [hempty, joinParts_pair_empty]
      simp [joinParts, hps, hp]
    | cons q qs =>
      have hq : q ≠ "" := by
        have hmem : q ∈ ps.filter (!·.isEmpty) := hps ▸ List.mem_cons_self ..
        simpa using (List.mem_filter.mp hmem).2
      have hjoin : joinParts sep ps = sep.intercalate (q :: qs) := by rw [joinParts, hps]
      have hne : sep.intercalate (q :: qs) ≠ "" := by
        cases qs with
        | nil => simpa using hq
        | cons r rs => simp [String.intercalate_cons_cons, hq]
      rw [hjoin, joinParts_pair sep hp hne]
      have hp' : p.isEmpty = false := by simpa using hp
      simp [joinParts, hps, hp', String.intercalate_cons_cons]

/-- It does not matter which parts are joined first. -/
theorem joinParts_assoc (sep p q r : String) :
    joinParts sep [joinParts sep [p, q], r] = joinParts sep [p, joinParts sep [q, r]] := by
  by_cases hp : p = ""
  · simp only [hp, joinParts_cons_empty, joinParts_singleton]
  · by_cases hq : q = ""
    · simp only [hq, joinParts_pair_empty, joinParts_cons_empty, joinParts_singleton]
    · by_cases hr : r = ""
      · simp only [hr, joinParts_pair_empty]
      · have hpq : p ++ sep ++ q ≠ "" := by simp [hp]
        have hqr : q ++ sep ++ r ≠ "" := by simp [hq]
        rw [joinParts_pair sep hp hq, joinParts_pair sep hq hr, joinParts_pair sep hpq hr,
          joinParts_pair sep hp hqr]
        simp only [String.append_assoc]

/-- Parts that are all there are joined as they are. -/
theorem intercalate_eq_joinParts (sep : String) {ps : List String} (h : ∀ p ∈ ps, p ≠ "") :
    sep.intercalate ps = joinParts sep ps := by
  rw [joinParts, List.filter_eq_self.mpr fun p hp => by simpa using h p hp]

end Bundle

namespace Template

/-- Parts that are filled templates join to one. -/
theorem exists_joinParts (sep : String) (ts : List Template) : ∃ u : Template,
    (∀ P, (∀ t ∈ ts, Gaps P t) → Gaps P u) ∧
    ∀ f, (∀ t ∈ ts, Fills f t) → Bundle.joinParts sep (ts.map (fill f)) = fill f u := by
  induction ts with
  | nil => exact ⟨[], fun _ _ => gaps_nil, fun _ _ => rfl⟩
  | cons t ts ih =>
    obtain ⟨u, hu, hjoin⟩ := ih
    have hrest : ∀ f, (∀ t' ∈ t :: ts, Fills f t') → Fills f t ∧ Fills f u ∧
        Bundle.joinParts sep ((t :: ts).map (fill f)) = Bundle.joinParts sep [fill f t, fill f u] := by
      intro f hf
      obtain ⟨ht, hts⟩ := List.forall_mem_cons.mp hf
      refine ⟨ht, hu _ hts, ?_⟩
      rw [List.map_cons, Bundle.joinParts_cons, hjoin f hts]
    have hgaps : ∀ P, (∀ t' ∈ t :: ts, Gaps P t') → Gaps P t ∧ Gaps P u := fun P hP =>
      ⟨hP t (List.mem_cons_self ..), hu P fun t' ht' => hP t' (List.mem_cons_of_mem _ ht')⟩
    rcases empty_or_not t with ht | ht
    · refine ⟨u, fun P hP => (hgaps P hP).2, fun f hf => ?_⟩
      obtain ⟨hft, -, heq⟩ := hrest f hf
      rw [heq, ht f hft, Bundle.joinParts_cons_empty, Bundle.joinParts_singleton]
    · rcases empty_or_not u with hu' | hu'
      · refine ⟨t, fun P hP => (hgaps P hP).1, fun f hf => ?_⟩
        obtain ⟨-, hfu, heq⟩ := hrest f hf
        rw [heq, hu' f hfu, Bundle.joinParts_pair_empty]
      · refine ⟨t ++ [.text sep] ++ u, fun P hP => ?_, fun f hf => ?_⟩
        · refine gaps_append.mpr ⟨gaps_append.mpr ⟨(hgaps P hP).1, fun slot l hl => ?_⟩, (hgaps P hP).2⟩
          simp at hl
        · obtain ⟨hft, hfu, heq⟩ := hrest f hf
          rw [heq, Bundle.joinParts_pair sep (ht f hft) (hu' f hfu)]
          simp [Piece.fill, String.append_assoc]

end Template

/-! ## Layouts that are alike -/

/-- Two layouts are one template, with its gaps filled by slots and by constants.  All gaps have `P`. -/
def Layout.Alike (P : String → Literal → Prop) (l m : Layout) : Prop :=
  ∃ t : Template, t.Gaps P ∧ t.layout (fun slot _ => slot) = l ∧ t.layout (fun _ a => a.raw) = m

namespace Layout.Alike

variable {P Q : String → Literal → Prop} {l m l' m' : Layout}

theorem nil : Alike P [] [] := ⟨[], Template.gaps_nil, rfl, rfl⟩

theorem text (s : String) : Alike P (text s) (text s) :=
  ⟨[.text s], fun slot l hl => by simp at hl, List.append_nil _, List.append_nil _⟩

theorem eol : Alike P eol eol := ⟨[.eol], fun slot l hl => by simp at hl, rfl, rfl⟩

/-- A slot and its constant. -/
theorem constant {slot : String} {a : Literal} (h : P slot a) :
    Alike P (Layout.text slot) (Layout.text a.raw) :=
  ⟨[.constant slot a], fun _ _ hl => by simp at hl; rwa [hl.1, hl.2], List.append_nil _,
    List.append_nil _⟩

/-- Two layouts behind two others. -/
theorem append (h : Alike P l m) (h' : Alike P l' m') : Alike P (l ++ l') (m ++ m') := by
  obtain ⟨t, ht, rfl, rfl⟩ := h
  obtain ⟨u, hu, rfl, rfl⟩ := h'
  exact ⟨t ++ u, Template.gaps_append.mpr ⟨ht, hu⟩, Template.layout_append .., Template.layout_append ..⟩

/-- Layouts in a row. -/
theorem intercalate (sep : String) {ls ms : List Layout} (h : List.Forall₂ (Alike P) ls ms) :
    Alike P (intercalate sep ls) (intercalate sep ms) := by
  induction h with
  | nil => exact nil
  | cons hd htail ih =>
    cases htail with
    | nil => simpa [Layout.intercalate] using hd
    | cons hd' htail => simpa [Layout.intercalate] using hd.append ((text sep).append ih)

theorem mono (h : Alike P l m) (hPQ : ∀ slot a, P slot a → Q slot a) : Alike Q l m := by
  obtain ⟨t, ht, hl, hm⟩ := h
  exact ⟨t, ht.mono hPQ, hl, hm⟩

end Layout.Alike

/-- Two texts are one template, with its gaps filled by slots and by constants.  All gaps have `P`. -/
def Respelled (P : String → Literal → Prop) (s s' : String) : Prop :=
  ∃ t : Template, t.Gaps P ∧ s = t.slots ∧ s' = t.raws

section Respelled

variable {P : String → Literal → Prop}
  (hP : ∀ slot a, P slot a → Template.Solid slot ∧ Template.Solid a.raw)

include hP

/-- **Layouts that are alike are texts that are respelled**. -/
theorem Layout.Alike.join {l m : Layout} (h : Alike P l m) : Respelled P l.join m.join := by
  obtain ⟨t, ht, rfl, rfl⟩ := h
  obtain ⟨u, hu, hstrip⟩ := t.exists_strip
  refine ⟨u, hu P ht, ?_, ?_⟩
  · rw [Template.join_layout, hstrip _ (ht.mono fun slot a h => (hP slot a h).1), Template.slots]
  · rw [Template.join_layout, hstrip _ (ht.mono fun slot a h => (hP slot a h).2), Template.raws]

/-- Parts that are respelled are joined to a text that is. -/
theorem Respelled.joinParts (sep : String) {ps qs : List String}
    (h : List.Forall₂ (Respelled P) ps qs) :
    Respelled P (Bundle.joinParts sep ps) (Bundle.joinParts sep qs) := by
  have htemplates : ∃ ts : List Template, (∀ t ∈ ts, t.Gaps P) ∧ ps = ts.map Template.slots ∧
      qs = ts.map Template.raws := by
    induction h with
    | nil => exact ⟨[], by simp, rfl, rfl⟩
    | cons hd _ ih =>
      obtain ⟨t, ht, rfl, rfl⟩ := hd
      obtain ⟨ts, hts, rfl, rfl⟩ := ih
      exact ⟨t :: ts, List.forall_mem_cons.mpr ⟨ht, hts⟩, rfl, rfl⟩
  obtain ⟨ts, hts, rfl, rfl⟩ := htemplates
  obtain ⟨u, hu, hjoin⟩ := Template.exists_joinParts sep ts
  refine ⟨u, hu P hts, ?_, ?_⟩
  · exact hjoin _ fun t ht => (hts t ht).mono fun slot a h => (hP slot a h).1
  · exact hjoin _ fun t ht => (hts t ht).mono fun slot a h => (hP slot a h).2

end Respelled

end ScriptBundler

import ScriptBundler.Proofs.Frames

/-!
# Proofs/Reading — how a reader moves over tokens

    before ──p──▸ after          kinds of the tokens ahead, up to the end of the text

`Turns p before after Q` says that the reader `p`, with tokens of the kinds `before` ahead, goes on as
a reader for which `Q` holds, with tokens of the kinds `after` ahead.  Such facts follow one another
(`Turns.trans`), and `Reads` is the case of a reader that has come to its end.  The one thing that may
go wrong on the way is that expressions are nested too deep, and then that is the first fault
(`Deep`).  Where not even that can happen, the reader `Steps`.
-/

namespace ScriptBundler.Reader

open Token (Kind)

variable {α β : Type} {before between after rest : List Kind}

/-- The tokens from the current one on are of the kinds `ks`, and then the text ends. -/
def State.Ahead (s : State) (ks : List Kind) : Prop :=
  s.current.kind :: s.ahead.map Token.kind = ks ++ [.eof]

/-- The kind of the next token. -/
def next : List Kind → Kind
  | [] => .eof
  | k :: _ => k

/-- Between `s` and `t` a fault was found, and the first was that expressions are nested too deep. -/
def Deep (s t : State) : Prop := ∃ d : Located, d.fault = .nestedTooDeep ∧ s.faults ++ [d] <+: t.faults

/-- `p` goes on as a reader for which `Q` holds; or expressions are nested too deep. -/
def Turns (p : Reader α) (before after : List Kind) (Q : Reader α → Prop) : Prop :=
  ∀ s : State, s.Ahead before → s.isFull = false →
    Deep s (p s).2 ∨ ∃ q t, p s = q t ∧ Q q ∧ t.Ahead after ∧ t.faults = s.faults

/-- `p` yields a value for which `Q` holds; or expressions are nested too deep. -/
def Reads (p : Reader α) (before after : List Kind) (Q : α → Prop) : Prop :=
  Turns p before after fun q => ∃ a, q = pure a ∧ Q a

/-- `p` yields a value for which `Q` holds. -/
def Steps (p : Reader α) (before after : List Kind) (Q : α → Prop) : Prop :=
  ∀ s : State, s.Ahead before →
    ∃ a t, p s = (some a, t) ∧ Q a ∧ t.Ahead after ∧ t.faults = s.faults

/-- Whether there are too many faults depends on the faults. -/
theorem isFull_congr {s t : State} (h : t.faults = s.faults) : t.isFull = s.isFull := by
  rw [State.isFull, State.isFull, h]

theorem Deep.congr {s t u : State} (h : t.faults = s.faults) (hd : Deep t u) : Deep s u := by
  obtain ⟨d, hd, hfaults⟩ := hd
  exact ⟨d, hd, h ▸ hfaults⟩

/-- What was nested too deep stays so. -/
theorem Deep.trans {s t u : State} (hd : Deep s t) (h : t.faults <+: u.faults) : Deep s u := by
  obtain ⟨d, hd, hfaults⟩ := hd
  exact ⟨d, hd, hfaults.trans h⟩

namespace Turns

theorem mono {p : Reader α} {Q R : Reader α → Prop} (h : Turns p before after Q)
    (hQ : ∀ q, Q q → R q) : Turns p before after R := by
  intro s hs hfull
  refine (h s hs hfull).imp id ?_
  rintro ⟨q, t, hp, hq, ht⟩
  exact ⟨q, t, hp, hQ q hq, ht⟩

/-- A reader that goes on as itself. -/
theorem refl {p : Reader α} {Q : Reader α → Prop} (hp : Q p) : Turns p rest rest Q :=
  fun s hs _ => .inr ⟨p, s, rfl, hp, hs, rfl⟩

/-- **Moving on, and on from there.** -/
theorem trans {p : Reader α} {Q R : Reader α → Prop} (h : Turns p before between Q)
    (hQ : ∀ q, Q q → Turns q between after R) : Turns p before after R := by
  intro s hs hfull
  rcases h s hs hfull with hdeep | ⟨q, t, hp, hq, ht, hfaults⟩
  · exact .inl hdeep
  · rcases hQ q hq t ht (isFull_congr hfaults ▸ hfull) with hdeep | ⟨r, u, hqr, hr, hu, hfaults'⟩
    · exact .inl (hp ▸ hdeep.congr hfaults)
    · exact .inr ⟨r, u, hp.trans hqr, hr, hu, hfaults'.trans hfaults⟩

/-- A reader that starts with another goes on with what that one yields. -/
theorem bind {p : Reader α} {f : α → Reader β} {Q : α → Prop} [hf : ∀ a, Grows (f a)]
    (h : Reads p before after Q) : Turns (p >>= f) before after fun q => ∃ a, q = f a ∧ Q a := by
  intro s hs hfull
  rcases h s hs hfull with hdeep | ⟨_, t, hp, ⟨a, rfl, ha⟩, ht, hfaults⟩
  · left
    rcases hp : p s with ⟨_ | a, t⟩ <;> rw [hp] at hdeep
    · rw [bind_none hp]
      exact hdeep
    · rw [bind_some hp]
      exact hdeep.trans ((hf a).keeps t)
  · exact .inr ⟨f a, t, bind_some hp, ⟨a, rfl, ha⟩, ht, hfaults⟩

end Turns

namespace Reads

theorem mono {p : Reader α} {Q R : α → Prop} (h : Reads p before after Q) (hQ : ∀ a, Q a → R a) :
    Reads p before after R :=
  Turns.mono h fun _ ⟨a, hq, ha⟩ => ⟨a, hq, hQ a ha⟩

theorem pure {a : α} {Q : α → Prop} (ha : Q a) : Reads (pure a) rest rest Q := Turns.refl ⟨a, rfl, ha⟩

/-- **Reading one thing, then another.** -/
theorem bind {p : Reader α} {f : α → Reader β} {Q : α → Prop} {R : β → Prop} [∀ a, Grows (f a)]
    (h : Reads p before between Q) (hf : ∀ a, Q a → Reads (f a) between after R) :
    Reads (p >>= f) before after R :=
  Turns.trans (Turns.bind h) fun _ ⟨a, hq, ha⟩ => hq ▸ hf a ha

end Reads

/-! ## Steps that cannot go wrong -/

namespace Steps

/-- A reader that steps reads. -/
theorem reads {p : Reader α} {Q : α → Prop} (h : Steps p before after Q) :
    Reads p before after Q := by
  intro s hs _
  obtain ⟨a, t, hp, ha, ht⟩ := h s hs
  exact .inr ⟨_, t, hp, ⟨a, rfl, ha⟩, ht⟩

/-- A step, and then a reader that moves on. -/
theorem turns {p : Reader α} {f : α → Reader β} {Q : α → Prop} {R : Reader β → Prop}
    (h : Steps p before between Q) (hf : ∀ a, Q a → Turns (f a) between after R) :
    Turns (p >>= f) before after R := by
  intro s hs hfull
  obtain ⟨a, t, hp, ha, ht, hfaults⟩ := h s hs
  rw [bind_some hp]
  refine (hf a ha t ht (isFull_congr hfaults ▸ hfull)).imp (·.congr hfaults) ?_
  rintro ⟨q, u, hq, hR, hu, hfaults'⟩
  exact ⟨q, u, hq, hR, hu, hfaults'.trans hfaults⟩

/-- A step, and then a reader. -/
theorem bind {p : Reader α} {f : α → Reader β} {Q : α → Prop} {R : β → Prop}
    (h : Steps p before between Q) (hf : ∀ a, Q a → Reads (f a) between after R) :
    Reads (p >>= f) before after R :=
  turns h hf

/-- A step, and then another. -/
theorem trans {p : Reader α} {f : α → Reader β} {Q : α → Prop} {R : β → Prop}
    (h : Steps p before between Q) (hf : ∀ a, Q a → Steps (f a) between after R) :
    Steps (p >>= f) before after R := by
  intro s hs
  obtain ⟨a, t, hp, ha, ht, hfaults⟩ := h s hs
  obtain ⟨b, u, hb, hR, hu, hfaults'⟩ := hf a ha t ht
  exact ⟨b, u, (bind_some hp).trans hb, hR, hu, hfaults'.trans hfaults⟩

theorem pure {a : α} {Q : α → Prop} (ha : Q a) : Steps (pure a) rest rest Q :=
  fun s hs => ⟨a, s, rfl, ha, hs, rfl⟩

/-- What depends on the kinds ahead and nothing else. -/
theorem get {f : State → α} {Q : α → Prop} (h : ∀ s : State, s.Ahead rest → Q (f s)) :
    Steps (get f) rest rest Q :=
  fun s hs => ⟨f s, s, rfl, h s hs, hs, rfl⟩

end Steps

/-- The current token is the first of those ahead. -/
theorem State.Ahead.current {s : State} (h : s.Ahead rest) : s.current.kind = next rest := by
  cases rest <;> exact (List.cons.inj h).1

namespace Steps

theorem kind : Steps kind rest rest (· = next rest) := get fun _ hs => hs.current

theorem check (k : Kind) : Steps (check k) rest rest (· = (next rest == k)) :=
  get fun s hs => by rw [hs.current]

theorem here : Steps here rest rest fun _ => True := get fun _ _ => trivial

theorem behind : Steps behind rest rest fun _ => True := get fun _ _ => trivial

/-- A change that leaves tokens and faults alone. -/
theorem update {f : State → State} (hcurrent : ∀ s, (f s).current = s.current)
    (hahead : ∀ s, (f s).ahead = s.ahead) (hfaults : ∀ s, (f s).faults = s.faults) :
    Steps (update f) rest rest fun _ => True := by
  refine fun s hs => ⟨(), f s, rfl, trivial, ?_, hfaults s⟩
  rw [State.Ahead, hcurrent, hahead]
  exact hs

theorem closeScope (f : State → Span) :
    Steps (Reader.update fun s => s.closeScope (f s)) rest rest fun _ => True := by
  refine update (fun s => ?_) (fun s => ?_) fun s => Grows.faults_closeScope s (f s)
  all_goals
    unfold State.closeScope
    split <;> rfl

theorem mention (name : String) : Steps (mention name) rest rest fun _ => True := by
  refine update (fun s => ?_) (fun s => ?_) fun s => Grows.faults_mention s name
  all_goals
    unfold State.mention
    split <;> rfl

theorem mentioned (f : Mentions → Mentions) : Steps (mentioned f) rest rest fun _ => True :=
  update (fun _ => rfl) (fun _ => rfl) fun _ => rfl

end Steps

/-- Before the end of a text, `advance` passes over the current token. -/
theorem State.Ahead.advance {s : State} {k : Kind} (h : s.Ahead (k :: rest)) :
    s.advance.Ahead rest ∧ s.ahead = s.advance.current :: s.advance.ahead := by
  obtain ⟨-, hahead⟩ := List.cons.inj h
  unfold State.advance
  split <;> rename_i hs <;> rw [hs] at hahead
  · simp at hahead
  · exact ⟨hahead, hs⟩

namespace Steps

/-- The current token is passed. -/
theorem advance (k : Kind) : Steps advance (k :: rest) rest (·.kind = k) :=
  fun s hs => ⟨s.current, s.advance, rfl, hs.current, hs.advance.1, Grows.faults_advance s⟩

/-- A token is eaten if it is there. -/
theorem eat (k : Kind) : Steps (eat k) (k :: rest) rest (· = true) := by
  refine trans (check k) fun b hb => ?_
  rw [hb, next, beq_self_eq_true, if_pos rfl]
  exact trans (advance k) fun _ _ => pure rfl

/-- A token is not eaten if it is not there. -/
theorem not_eat {k : Kind} (h : next rest ≠ k) : Steps (Reader.eat k) rest rest (· = false) := by
  refine trans (check k) fun b hb => ?_
  rw [hb, beq_eq_false_iff_ne.mpr h, if_neg Bool.false_ne_true]
  exact pure rfl

/-- A token that has to be there. -/
theorem expect (k : Kind) : Steps (expect k) (k :: rest) rest (·.kind = k) := by
  refine trans (check k) fun b hb => ?_
  rw [hb, next, beq_self_eq_true, if_pos rfl]
  exact advance k

theorem identifier (name : String) :
    Steps identifier (.identifier name :: rest) rest (·.name = name) := by
  refine trans kind fun k hk => ?_
  subst hk
  exact trans (advance _) fun _ _ => pure rfl

theorem path (raw value : String) : Steps path (.string raw value :: rest) rest (· = value) := by
  refine trans kind fun k hk => ?_
  subst hk
  exact trans (advance _) fun _ _ => pure rfl

/-- Tokens of a kind in `p` are passed over up to one of another kind. -/
theorem skip {p : Kind → Bool} {ks : List Kind} (hks : ∀ k ∈ ks, p k = true)
    (hrest : p (next rest) = false) : Steps (skip p) (ks ++ rest) rest fun _ => True := by
  intro s hs
  refine ⟨_, _, rfl, trivial, ?_, Grows.faults_skipOver p s s.ahead⟩
  induction ks generalizing s with
  | nil =>
    have hhead : p s.current.kind = false := hs.current ▸ hrest
    cases hahead : s.ahead with
    | nil => exact hs
    | cons t ts =>
      simp only [State.skipOver, hhead]
      exact hs
  | cons k ks ih =>
    obtain ⟨hnext, hahead⟩ := hs.advance
    have hhead : p s.current.kind = true := hs.current ▸ hks k (List.mem_cons_self ..)
    rw [hahead]
    simp only [State.skipOver, hhead, if_true]
    exact ih (fun k hk => hks k (List.mem_cons_of_mem _ hk)) s.advance hnext

/-- Nothing is passed over before a token of another kind. -/
theorem skip_nothing {p : Kind → Bool} (hrest : p (next rest) = false) :
    Steps (Reader.skip p) rest rest fun _ => True :=
  skip (List.forall_mem_nil fun k => p k = true) hrest

/-- Line breaks and comments are passed over where the line goes on. -/
theorem continuation {gap : List Kind} (hgap : ∀ k ∈ gap, isLayout k = true)
    (hrest : isLayout (next rest) = false) :
    Steps continuation (gap ++ rest) rest fun _ => True :=
  trans (skip hgap hrest) fun _ _ => pure trivial

/-- Where no layout is next, nothing is passed over. -/
theorem no_continuation (hrest : isLayout (next rest) = false) :
    Steps Reader.continuation rest rest fun _ => True :=
  trans (skip_nothing hrest) fun _ _ => pure trivial

end Steps

theorem reject_apply (fault : Fault) (s : State) : (reject fault : Reader α) s =
    (none, { s with faults := s.faults ++ [⟨fault, s.current.span⟩] }) := rfl

namespace Reads

/-- Where an expression is nested too deep, that is found before anything is read. -/
theorem nested {p : Reader α} {Q : α → Prop} (h : Reads p before after Q) :
    Reads (nested p) before after Q := by
  intro s hs hfull
  unfold Reader.nested
  split
  · rw [reject_apply]
    exact .inl ⟨⟨.nestedTooDeep, s.current.span⟩, rfl, [], List.append_nil _⟩
  · rcases h { s with depth := s.depth + 1 } hs hfull with hdeep | ⟨_, t, hp, ⟨a, rfl, ha⟩, ht⟩
    · exact .inl hdeep
    · refine .inr ⟨_, { t with depth := t.depth - 1 }, ?_, ⟨a, rfl, ha⟩, ht⟩
      simp only [hp]
      rfl

/-- An attempt reads what the reader does. -/
theorem attempt {p : Reader α} {Q : α → Prop} (h : Reads p before after Q) :
    Reads (attempt p) before after fun r => ∃ a, r = some a ∧ Q a := by
  intro s hs hfull
  rcases h s hs hfull with hdeep | ⟨_, t, hp, ⟨a, rfl, ha⟩, ht⟩
  · exact .inl hdeep
  · refine .inr ⟨_, t, ?_, ⟨some a, rfl, a, rfl, ha⟩, ht⟩
    simp only [Reader.attempt, hp]
    rfl

/-- A scope around what is read. -/
theorem withScope {p : Reader α} {Q : α → Prop} (span : Span) [Grows p]
    (h : Reads p before after Q) : Reads (withScope span p) before after Q := by
  unfold Reader.withScope
  refine Steps.bind (Steps.update (fun _ => rfl) (fun _ => rfl) fun _ => rfl) fun _ _ => ?_
  refine bind h.attempt fun r ⟨a, hr, ha⟩ => ?_
  refine Steps.bind (Steps.closeScope State.behind) fun _ _ => ?_
  subst hr
  exact pure ha

end Reads

end ScriptBundler.Reader

import ScriptBundler.Proofs.Spots

/-!
# Proofs/Abreast — reading with a line break more and without

    s  ──p──▸ t
    ┊         ┊          `s'` has the tokens of `s`, and perhaps a break more
    s' ──p──▸ t'

`Pairs p s s' Q` says that what `p` yields from `s` without a fault, it yields from `s'` as well.  Each
step of a reader has a rule, and each reader of expressions a lemma: it `Glides` if it does so from every
state with the same next token on both sides.  What it leaves is the spot after an operand, where a break
more is passed over by whoever looks at what follows: no operator, bracket or dot starts with one.
-/

namespace ScriptBundler

open Token (Kind)

namespace Reader

variable {α β : Type} {nl : Token} {c d e : Spot} {k : Kind} {s s' t t' u u' : State}

/-! ## Readers on both -/

/-- If `p` yields a value from `s` without a fault, it yields the same from `s'`, and `Q` holds of where
they arrive. -/
def Pairs (p : Reader α) (s s' : State) (Q : α → State → State → Prop) : Prop :=
  ∀ a t, p s = (some a, t) → t.faults = s.faults → ∃ t', p s' = (some a, t') ∧ Q a t t'

/-- Nothing is yielded. -/
def Fails (p : Reader α) (s : State) : Prop := (p s).1 = none

/-- Nothing is passed, and `a` is yielded. -/
def Stays (p : Reader α) (a : α) (s : State) : Prop := p s = (some a, s)

theorem Stays.kind {a : β} {f : Kind → Reader β} (h : Stays (f s.current.kind) a s) :
    Stays (Reader.kind >>= f) a s := h

/-- `t` stands where `s` does. -/
structure Still (s t : State) : Prop where
  current : t.current = s.current
  previous : t.previous = s.previous

theorem Still.trans (h : Still s t) (h' : Still t u) : Still s u :=
  ⟨h'.current.trans h.current, h'.previous.trans h.previous⟩

/-- Both have a `k` next, or neither has. -/
structure Sees (nl : Token) (c : Spot) (k : Kind) (s s' : State) : Prop where
  same : (s'.current.kind == k) = (s.current.kind == k)
  clear : s.current.kind = k → Clear nl c s s'

/-- Where the next token is the same, both see it or not. -/
theorem Clear.sees (h : Clear nl c s s') (k : Kind) : Sees nl c k s s' :=
  ⟨by rw [h.current], fun _ => h⟩

/-- Before a token that ends nothing, both have the same token next. -/
theorem Beside.tight (h : Beside nl c s s') (hgo : c.goesOn = false)
    (hk : Spot.tight s.current.kind = true) : Clear nl c s s' := h.clear (Spot.allows_eq_false hgo hk)

theorem Beside.flat (h : Beside nl c s s') (hflat : c.Flat)
    (hk : Spot.closes s.current.kind = false) : Clear nl c s s' :=
  h.clear ((hflat.allows _).trans hk)

/-- Where no break is allowed, both see the same. -/
theorem Beside.sees_of_allows (h : Beside nl c s s') (hk : c.allows k = false) (hline : k ≠ .newline) :
    Sees nl c k s s' := by
  rcases h.clear_or with hclear | ⟨hallows, hnewline⟩
  · exact hclear.sees k
  · have hne : s.current.kind ≠ k := fun heq => by
      rw [heq, hk] at hallows
      cases hallows
    have hne' : s'.current.kind ≠ k := hnewline ▸ hline.symm
    exact ⟨by rw [beq_eq_false_iff_ne.mpr hne, beq_eq_false_iff_ne.mpr hne'], fun heq => absurd heq hne⟩

/-- Where the line does not go on, there is no break before a token that ends nothing. -/
theorem Beside.sees (h : Beside nl c s s') (hgo : c.goesOn = false) (hk : Spot.tight k = true) :
    Sees nl c k s s' := by
  refine h.sees_of_allows (Spot.allows_eq_false hgo hk) fun heq => ?_
  rw [heq] at hk
  cases hk

theorem Beside.behind (h : Beside nl c s s') : s'.behind = s.behind := by
  rw [State.behind, State.behind, h.previous]

/-- Both may open a scope. -/
theorem Beside.openScope (h : Beside nl c s s') (span : Span) :
    Beside nl c (s.openScope span) (s'.openScope span) := by
  refine ⟨⟨h.ends, h.room, h.faults, h.depth, ?_, ?_⟩, h.previous, h.tokens⟩
  · rw [State.openScope, State.openScope, h.mentions]
  · rw [State.openScope, State.openScope, h.mentions, h.openScopes]

/-- Both may close a scope. -/
theorem Beside.closeScope (h : Beside nl c s s') (stop : Span) :
    Beside nl c (s.closeScope stop) (s'.closeScope stop) := by
  unfold State.closeScope
  rw [h.openScopes]
  split
  · exact h
  · refine ⟨⟨h.ends, h.room, h.faults, h.depth, ?_, rfl⟩, h.previous, h.tokens⟩
    rw [h.mentions]

theorem State.tokens_closeScope (s : State) (stop : Span) : (s.closeScope stop).tokens = s.tokens := by
  unfold State.closeScope
  split <;> rfl

namespace Pairs

variable {p : Reader α} {f : α → Reader β} {Q : α → State → State → Prop}
  {R : β → State → State → Prop}

/-- A weaker fact about where they arrive. -/
theorem mono {Q' : α → State → State → Prop} (h : Pairs p s s' Q)
    (hQ : ∀ a t t', Q a t t' → Q' a t t') : Pairs p s s' Q' := by
  intro a t hrun hfaults
  obtain ⟨t', hrun', hq⟩ := h a t hrun hfaults
  exact ⟨t', hrun', hQ a t t' hq⟩

/-- A run that cannot be. -/
theorem of_false (h : Pairs p s s fun _ _ _ => False) : Pairs p s s' Q := by
  intro a t hrun hfaults
  obtain ⟨_, _, hno⟩ := h a t hrun hfaults
  exact hno.elim

/-- A reader that stays where it is, also where a break is more. -/
theorem of_stays (a : α) (h : Beside nl c s s') (hgo : c.goesOn = false)
    (hclear : Clear nl c s s' → Pairs p s s' Q)
    (hstays : ∀ v : State, Spot.tight v.current.kind = false → Stays p a v)
    (hQ : Spot.tight s.current.kind = false → Q a s s') :
    Pairs p s s' Q := by
  rcases h.clear_or with hclear' | ⟨hallows, hnewline⟩
  · exact hclear hclear'
  · intro b t hrun _
    have hloose : Spot.tight s.current.kind = false := by
      by_contra htight
      rw [Spot.allows_eq_false hgo (Bool.not_eq_false _ ▸ htight)] at hallows
      cases hallows
    have hrun' : p s = (some a, s) := hstays s hloose
    rw [hrun', Prod.mk.injEq, Option.some.injEq] at hrun
    obtain ⟨rfl, rfl⟩ := hrun
    exact ⟨s', hstays s' (by rw [hnewline]; rfl), hQ hloose⟩

theorem pure {a : α} (h : Q a s s') : Pairs (pure a) s s' Q := by
  intro b t hrun _
  obtain ⟨rfl, rfl⟩ : a = b ∧ s = t := by simpa [Pure.pure] using hrun
  exact ⟨s', rfl, h⟩

theorem fail : Pairs fail s s' Q := by
  intro a t hrun _
  cases hrun

/-- If two readers, one after the other, find no fault, the first one found none. -/
theorem faults_of_bind [hp : Grows p] [hf : ∀ a, Grows (f a)] {b : β}
    (hrun : (p >>= f) s = (some b, u)) (hfaults : u.faults = s.faults) :
    ∃ a t, p s = (some a, t) ∧ t.faults = s.faults ∧ f a t = (some b, u) := by
  rcases hps : p s with ⟨_ | a, t⟩
  · rw [bind_none hps] at hrun
    cases hrun
  · rw [bind_some hps] at hrun
    have hgrows := hp.keeps s
    have hgrows' := (hf a).keeps t
    rw [hps] at hgrows
    rw [hrun] at hgrows'
    exact ⟨a, t, rfl, (hgrows.eq_of_length (Nat.le_antisymm hgrows.length_le
      (hfaults ▸ hgrows'.length_le))).symm, hrun⟩

/-- **One reader after another.** -/
theorem bind [Grows p] [∀ a, Grows (f a)] (h : Pairs p s s' Q)
    (hnext : ∀ a t t', Q a t t' → Pairs (f a) t t' R) : Pairs (p >>= f) s s' R := by
  intro b u hrun hfaults
  obtain ⟨a, t, hps, ht, hfat⟩ := faults_of_bind hrun hfaults
  obtain ⟨t', hrun', hq⟩ := h a t hps ht
  obtain ⟨u', hrun'', hr⟩ := hnext a t t' hq b u hfat (hfaults.trans ht.symm)
  exact ⟨u', by rw [bind_some hrun', hrun''], hr⟩

/-- What both find by looking at the state. -/
theorem get {look : State → α} (hlook : look s' = look s) (h : Pairs (f (look s)) s s' R) :
    Pairs (Reader.get look >>= f) s s' R := by
  intro b t hrun hfaults
  obtain ⟨t', hrun', hr⟩ := h b t hrun hfaults
  refine ⟨t', ?_, hr⟩
  rw [bind_some (rfl : Reader.get look s' = (some (look s'), s')), hlook, hrun']

/-- Both take the same branch. -/
theorem ite {b : Bool} {q : Reader α} (hp : b = true → Pairs p s s' Q)
    (hq : b = false → Pairs q s s' Q) :
    Pairs (if b then p else q) s s' Q := by
  cases b with
  | true => exact hp rfl
  | false => exact hq rfl

/-- A reader that reports a fault finds one. -/
theorem report {f : Unit → Reader β} [hf : Grows (f ())] (fault : Fault) (span : Span) :
    Pairs (Reader.report fault span >>= f) s s' R := by
  intro b t hrun hfaults
  have hlen := (hf.keeps { s with faults := s.faults ++ [⟨fault, span⟩] }).length_le
  have hrun' : f () { s with faults := s.faults ++ [⟨fault, span⟩] } = (some b, t) := hrun
  rw [hrun', hfaults, List.length_append, List.length_singleton] at hlen
  exact absurd hlen (Nat.not_succ_le_self _)

theorem rejectAt (span : Span) (fault : Fault) : Pairs (rejectAt span fault) s s' Q := by
  intro a t hrun _
  cases hrun

theorem reject (fault : Fault) : Pairs (reject fault) s s' Q := by
  intro a t hrun _
  cases hrun

/-- Both look at the same kind. -/
theorem kind {f : Kind → Reader β} (h : Clear nl c s s') (hnext : Pairs (f s.current.kind) s s' R) :
    Pairs (Reader.kind >>= f) s s' R := get (by rw [h.current]) hnext

theorem advance_behind {f : Token → Reader β} (h : Clear nl c s s') (hk : s.current.kind = k)
    (hne : k ≠ .eof) (hline : k ≠ .newline)
    (hnext : ∀ t t', t.previous = some s.current → Passed nl c s (c.step k) t t' →
      Pairs (f s.current) t t' R) : Pairs (Reader.advance >>= f) s s' R := by
  intro b t hrun hfaults
  have hpassed := h.advance (hk ▸ hne) fun heq => absurd (hk.symm.trans heq) hline
  have hprevious : s.advance.previous = some s.current := by
    obtain ⟨x, xs, hxs⟩ := List.exists_cons_of_ne_nil (State.ahead_ne_nil h.ends (hk ▸ hne))
    rw [State.advance_eq hxs]
  obtain ⟨t', hrun', hr⟩ := hnext _ _ hprevious (hk ▸ hpassed) b t hrun
    (hfaults.trans (Grows.faults_advance s).symm)
  refine ⟨t', ?_, hr⟩
  rw [bind_some (rfl : Reader.advance s' = (some s'.current, s'.advance)), h.current, hrun']

/-- Both pass a token. -/
theorem advance {f : Token → Reader β} (h : Clear nl c s s') (hk : s.current.kind = k) (hne : k ≠ .eof)
    (hline : k ≠ .newline)
    (hnext : ∀ t t', Passed nl c s (c.step k) t t' → Pairs (f s.current) t t' R) :
    Pairs (Reader.advance >>= f) s s' R :=
  advance_behind h hk hne hline fun t t' _ => hnext t t'

/-- Both see a kind or not. -/
theorem check {f : Bool → Reader β} (h : Sees nl c k s s')
    (hyes : s.current.kind = k → Pairs (f true) s s' R)
    (hno : s.current.kind ≠ k → Pairs (f false) s s' R) : Pairs (Reader.check k >>= f) s s' R := by
  refine get h.same ?_
  by_cases hk : s.current.kind = k
  · rw [beq_iff_eq.mpr hk]
    exact hyes hk
  · rw [beq_eq_false_iff_ne.mpr hk]
    exact hno hk

/-- Both pass a token that has to be there. -/
theorem expect (hne : k ≠ .eof) (hline : k ≠ .newline) (h : Sees nl c k s s') :
    Pairs (expect k) s s' fun a t t' => a = s.current ∧ a.kind = k ∧ Passed nl c s (c.step k) t t' := by
  intro a t hrun hfaults
  by_cases hk : s.current.kind = k
  · have hclear := h.clear hk
    have hpassed := hclear.advance (hk ▸ hne) fun heq => absurd (hk.symm.trans heq) hline
    have hexpect : ∀ v : State, v.current = s.current →
        Reader.expect k v = (some s.current, v.advance) := by
      intro v hv
      have hcheck : Reader.check k v = (some true, v) := by
        simp only [Reader.check, Reader.get, hv, beq_iff_eq.mpr hk]
      rw [Reader.expect, bind_some hcheck, if_pos rfl, Reader.advance, hv]
    rw [hexpect s rfl, Prod.mk.injEq, Option.some.injEq] at hrun
    obtain ⟨rfl, rfl⟩ := hrun
    exact ⟨s'.advance, hexpect s' hclear.current, rfl, hk, hk ▸ hpassed⟩
  · have hcheck : Reader.check k s = (some false, s) := by
      simp only [Reader.check, Reader.get, beq_eq_false_iff_ne.mpr hk]
    rw [Reader.expect, bind_some hcheck] at hrun
    cases hrun

/-- Both pass a token if it is there. -/
theorem eat {f : Bool → Reader β} (hne : k ≠ .eof) (hline : k ≠ .newline) (h : Sees nl c k s s')
    (hyes : ∀ t t', s.current.kind = k → Passed nl c s (c.step k) t t' → Pairs (f true) t t' R)
    (hno : s.current.kind ≠ k → Pairs (f false) s s' R) : Pairs (Reader.eat k >>= f) s s' R := by
  intro b t hrun hfaults
  by_cases hk : s.current.kind = k
  · have hclear := h.clear hk
    have hpassed := hclear.advance (hk ▸ hne) fun heq => absurd (hk.symm.trans heq) hline
    have heat : ∀ v : State, v.current = s.current → Reader.eat k v = (some true, v.advance) := by
      intro v hv
      have hcheck : Reader.check k v = (some true, v) := by
        simp only [Reader.check, Reader.get, hv, beq_iff_eq.mpr hk]
      rw [Reader.eat, bind_some hcheck]
      rfl
    rw [bind_some (heat s rfl)] at hrun
    rw [bind_some (heat s' hclear.current)]
    exact hyes _ _ hk (hk ▸ hpassed) b t hrun (hfaults.trans (Grows.faults_advance s).symm)
  · have heat : ∀ v : State, (v.current.kind == k) = false → Reader.eat k v = (some false, v) := by
      intro v hv
      have hcheck : Reader.check k v = (some false, v) := by simp only [Reader.check, Reader.get, hv]
      rw [Reader.eat, bind_some hcheck]
      rfl
    have hmiss : (s.current.kind == k) = false := beq_eq_false_iff_ne.mpr hk
    rw [bind_some (heat s hmiss)] at hrun
    rw [bind_some (heat s' (h.same.trans hmiss))]
    exact hno hk b t hrun hfaults

/-- Without a value there is nothing to show. -/
theorem of_fails (h : Fails p s) : Pairs p s s' Q := by
  intro a t hrun _
  rw [Fails, hrun] at h
  cases h

/-- A kind that both have, unless there is a fault. -/
theorem kind_tight {f : Kind → Reader β} (h : Spot.tight s.current.kind = true → Clear nl c s s')
    (hno : Spot.tight s.current.kind = false → Fails (f s.current.kind) s)
    (hnext : Clear nl c s s' → Pairs (f s.current.kind) s s' R) :
    Pairs (Reader.kind >>= f) s s' R := by
  cases htight : Spot.tight s.current.kind with
  | true => exact kind (h htight) (hnext (h htight))
  | false => exact of_fails (hno htight)

/-- Both read a name. -/
theorem identifier (h : Spot.tight s.current.kind = true → Clear nl c s s') :
    Pairs identifier s s' fun a t t' => s.current.kind = .identifier a.name ∧
      Passed nl c s (c.step (.identifier a.name)) t t' := by
  refine kind_tight h (fun hno => ?_) fun hclear => ?_
  · split
    · rename_i name hname
      rw [hname] at hno
      cases hno
    · rfl
  · split
    · rename_i name hname
      exact advance hclear hname (by simp) (by simp) fun t t' hpassed => pure ⟨hname, hpassed⟩
    · exact reject _

/-- Both read the path of a file. -/
theorem path (h : Spot.tight s.current.kind = true → Clear nl c s s') :
    Pairs path s s' fun _ t t' => ∃ raw value, t.previous.map Token.kind = some (.string raw value) ∧
      Passed nl c s (c.step (.string raw value)) t t' := by
  refine kind_tight h (fun hno => ?_) fun hclear => ?_
  · split
    · rename_i raw value hvalue
      rw [hvalue] at hno
      cases hno
    · rfl
  · split
    · rename_i raw value hvalue
      exact advance_behind hclear hvalue (by simp) (by simp) fun t t' hprevious hpassed =>
        pure ⟨raw, value, by rw [hprevious, ← hvalue]; rfl, hpassed⟩
    · exact reject _

/-- A reader that leaves a fault if it yields nothing. -/
theorem attempt (h : Pairs p s s' Q)
    (hfault : (p s).1 = none → s.faults.length < (p s).2.faults.length) :
    Pairs (Reader.attempt p) s s' fun r t t' => ∃ a, r = some a ∧ Q a t t' := by
  intro r t hrun hfaults
  obtain ⟨rfl, rfl⟩ : (p s).1 = r ∧ (p s).2 = t := by simpa [Reader.attempt] using hrun
  cases hr : (p s).1 with
  | none =>
    have hmore := hfault hr
    rw [hfaults] at hmore
    exact absurd hmore (Nat.lt_irrefl _)
  | some a =>
    obtain ⟨t', hrun', hq⟩ := h a _ (Prod.ext hr rfl) hfaults
    exact ⟨t', by rw [Reader.attempt, hrun'], a, rfl, hq⟩

/-- **Both move over layout.** -/
theorem continuation {f : List Comment → Reader β} (h : Alike s s')
    (htokens : Slipped nl c s.tokens s'.tokens)
    (hnext : ∀ comments d t t', Skips nl c s d t t' → Pairs (f comments) t t' R) :
    Pairs (Reader.continuation >>= f) s s' R := by
  intro b u hrun hfaults
  obtain ⟨comments, d, t, t', ht, ht', hkeeps, hskips⟩ := run_continuation h htokens
  rw [bind_some ht] at hrun
  rw [bind_some ht']
  exact hnext comments d t t' hskips b u hrun (hfaults.trans hkeeps.symm)

/-! ## Records -/

/-- A change that both make, and that leaves where they stand. -/
theorem update {change : State → State} {f : Unit → Reader β} (h : Beside nl c (change s) (change s'))
    (htokens : (change s).tokens = s.tokens) (hprevious : (change s).previous = s.previous)
    (hfaults : (change s).faults = s.faults)
    (hnext : ∀ t t', Still s t → Arrives nl c s c t t' → Pairs (f ()) t t' R) :
    Pairs (Reader.update change >>= f) s s' R := by
  intro b t hrun hall
  have hcurrent : (change s).current = s.current := (List.cons.inj htokens).1
  exact hnext (change s) (change s') ⟨hcurrent, hprevious⟩
    ⟨h, Nat.le_of_eq (congrArg _ htokens), fun htidy => htokens ▸ htidy⟩ b t hrun
    (hall.trans hfaults.symm)

/-- Both put something on record. -/
theorem mentioned (h : Beside nl c s s') (g : Mentions → Mentions) {f : Unit → Reader β}
    (hnext : ∀ t t', Still s t → Arrives nl c s c t t' → Pairs (f ()) t t' R) :
    Pairs (Reader.mentioned g >>= f) s s' R := by
  refine update ⟨⟨h.ends, h.room, h.faults, h.depth, congrArg g h.mentions, h.openScopes⟩, h.previous,
    h.tokens⟩ rfl rfl rfl hnext

theorem mention (h : Beside nl c s s') (name : String) {f : Unit → Reader β}
    (hnext : ∀ t t', Still s t → Arrives nl c s c t t' → Pairs (f ()) t t' R) :
    Pairs (Reader.mention name >>= f) s s' R := by
  refine update ?_ ?_ ?_ (Grows.faults_mention s name) hnext
  · unfold State.mention
    rw [h.openScopes]
    split
    · exact h
    · refine ⟨⟨h.ends, h.room, h.faults, h.depth, ?_, h.openScopes⟩, h.previous, h.tokens⟩
      rw [State.mapMentions, State.mapMentions, h.mentions]
  · unfold State.mention
    split <;> rfl
  · unfold State.mention
    split <;> rfl

/-- A scope that both open and close. -/
theorem withScope {X : Spot → Kind → Prop} (d : Spot) (t : State) (h : Beside nl c s s') (span : Span)
    (hp : ∀ v v', Still s v → Arrives nl c s c v v' → Pairs p v v' fun _ u u' =>
      ∃ e, X e u.current.kind ∧ Passed nl d t e u u') :
    Pairs (withScope span p) s s' fun _ u u' => ∃ e, X e u.current.kind ∧ Passed nl d t e u u' := by
  intro a u hrun hfaults
  rw [Settles.run_withScope, Prod.mk.injEq] at hrun
  obtain ⟨hvalue, rfl⟩ := hrun
  rw [Grows.faults_closeScope] at hfaults
  obtain ⟨v, hv, e, hX, hpassed⟩ := hp (s.openScope span) (s'.openScope span) ⟨rfl, rfl⟩
    ⟨h.openScope span, Nat.le_refl _, id⟩ a _ (Prod.ext hvalue rfl) hfaults
  have hcurrent : ∀ (v : State) (stop : Span), (v.closeScope stop).current = v.current := fun v stop =>
    (List.cons.inj (v.tokens_closeScope stop)).1
  refine ⟨v.closeScope v.behind, by rw [Settles.run_withScope, hv], e, ?_, ⟨⟨?_, ?_, ?_⟩, ?_⟩⟩
  · rw [hcurrent]
    exact hX
  · rw [hpassed.beside.behind]
    exact hpassed.beside.closeScope _
  · rw [State.tokens_closeScope]
    exact hpassed.leads.length
  · rw [State.tokens_closeScope]
    exact hpassed.leads.tidy
  · rw [State.tokens_closeScope]
    exact hpassed.shorter

end Pairs

/-! ## Expressions -/

/-- From the spot `c` at `s` on, an expression was read up to `t`, where the spot is `d`. -/
structure Read (nl : Token) (c : Spot) (s : State) (d : Spot) (t t' : State) : Prop
    extends Passed nl c s d t t' where
  tight : Spot.tight s.current.kind = true
  ended : Spot.Ended c d t.current.kind

/-- From the spot `c` at `s` on, inside of brackets, to `t`, where the spot is `d`. -/
structure Inside (nl : Token) (c : Spot) (s : State) (d : Spot) (t t' : State) : Prop where
  clear : Clear nl d t t'
  enclosures : d.enclosures = c.enclosures
  length : t.tokens.length ≤ s.tokens.length
  leads : Spot.closes t.current.kind = true → Leads c s d t

/-- With at most `N` tokens left, `p` reads an expression beside a break as it does without it, up to a
token of a kind in `P`. -/
def Glides (nl : Token) (P : Kind → Prop) (N : Nat) (p : Reader α) : Prop :=
  ∀ (c : Spot) (s s' : State), s.tokens.length ≤ N → Clear nl c s s' → c.Starts s.current.kind →
    Pairs p s s' fun _ t t' => P t.current.kind ∧ ∃ d, Read nl c s d t t'

theorem Inside.of_leads (h : Inside nl d t e u u') (hleads : Leads c s d t)
    (henclosures : d.enclosures = c.enclosures) : Inside nl c s e u u' :=
  ⟨h.clear, h.enclosures.trans henclosures, Nat.le_trans h.length hleads.length,
    fun hcloses => hleads.trans (h.leads hcloses)⟩

/-- Layout leads up to what closes the brackets. -/
theorem Skips.inside (h : Skips nl d t e u u') (hleads : Leads c s d t)
    (henclosures : d.enclosures = c.enclosures) : Inside nl c s e u u' :=
  ⟨h.clear, h.enclosures.trans henclosures, Nat.le_trans h.length hleads.length,
    fun hcloses => hleads.trans (h.leads fun _ => Spot.allows_of_closes hcloses)⟩

/-- Both pass a closing bracket, with a break before it or not. -/
theorem Inside.close {close : Symbol} (h : Inside nl c s d t t') (hclose : Spot.Closer close) :
    Pairs (expect (.symbol close)) t t' fun _ u u' => Passed nl c s c.closed u u' := by
  refine (Pairs.expect (by simp) (by simp) (h.clear.sees _)).mono ?_
  rintro a u u' ⟨rfl, hkind, hpassed⟩
  rw [hclose.step, Spot.closed_of_eq h.enclosures] at hpassed
  exact hpassed.of_leads (h.leads (hkind ▸ hclose.closes))

/-- An expression goes on. -/
theorem Read.trans (h : Read nl c s d t t') (h' : Arrives nl d t e u u')
    (hended : Spot.Ended d e u.current.kind) : Read nl c s e u u' :=
  ⟨h.toPassed.trans h', h.tight, hended.of_eq h.ended.enclosures⟩

theorem Read.still (h : Read nl c s d t t') (hstill : Still t u) (h' : Arrives nl d t d u u') :
    Read nl c s d u u' :=
  h.trans h' ⟨rfl, h.ended.operand, h.ended.goesOn, hstill.current ▸ h.ended.fresh⟩

theorem Read.of_ended (h : Passed nl c s c.ended t t') (htight : Spot.tight s.current.kind = true) :
    Read nl c s c.ended t t' := ⟨h, htight, c.ended_ended _⟩

theorem Clear.slipped (h : Clear nl c s s') : Slipped nl c s.tokens s'.tokens := by
  rw [State.tokens, State.tokens, h.current]
  exact .later h.ahead

section Expressions

variable {P : Kind → Prop} {N n : Nat} {p : Reader α}

theorem Glides.mono {Q : Kind → Prop} {M : Nat} (h : Glides nl P N p) (hP : ∀ k, P k → Q k)
    (hM : M ≤ N) : Glides nl Q M p := fun c s s' hs hclear hstarts =>
  (h c s s' (Nat.le_trans hs hM) hclear hstarts).mono fun _ _ _ hread => ⟨hP _ hread.1, hread.2⟩

/-- Where the line does not go on, an expression starts with a token that is not beside a break. -/
theorem Glides.beside (h : Glides nl P N p) (hN : s.tokens.length ≤ N) (hb : Beside nl c s s')
    (hgo : c.goesOn = false) (hstarts : c.Starts s.current.kind) :
    Pairs p s s' fun _ t t' => P t.current.kind ∧ ∃ d, Read nl c s d t t' := by
  intro a t hrun hfaults
  obtain ⟨_, _, _, _, hread⟩ := h c s s hN (.refl _ _ hb.toAlike) hstarts a t hrun hfaults
  exact h c s s' hN (hb.tight hgo hread.tight) hstarts a t hrun hfaults

/-- Nesting changes nothing. -/
theorem Glides.nested (h : Glides nl P N p) : Glides nl P N (nested p) := by
  intro c s s' hN hclear hstarts a t hrun hfaults
  rw [Reader.nested] at hrun ⊢
  rw [hclear.depth]
  split at hrun
  · cases hrun
  · rename_i hdepth
    rw [if_neg hdepth]
    rcases hp : p { s with depth := s.depth + 1 } with ⟨r, v⟩
    rw [hp, Prod.mk.injEq] at hrun
    obtain ⟨rfl, rfl⟩ := hrun
    have hdeeper : Clear nl c { s with depth := s.depth + 1 } { s' with depth := s.depth + 1 } :=
      ⟨⟨hclear.ends, hclear.room, hclear.faults, rfl, hclear.mentions, hclear.openScopes⟩,
        hclear.current, hclear.ahead⟩
    obtain ⟨v', hp', hP, d, hread⟩ := h c { s with depth := s.depth + 1 }
      { s' with depth := s.depth + 1 } hN hdeeper hstarts a v hp hfaults
    refine ⟨{ v' with depth := v'.depth - 1 }, by rw [hp'], hP, d, ?_⟩
    have hbeside := hread.beside
    refine ⟨⟨⟨⟨⟨hbeside.ends, hbeside.room, hbeside.faults, congrArg (· - 1) hbeside.depth,
      hbeside.mentions, hbeside.openScopes⟩, hbeside.previous, hbeside.tokens⟩, ?_⟩,
      hread.shorter⟩, hread.tight, hread.ended⟩
    exact ⟨hread.leads.length, hread.leads.tidy⟩

end Expressions

namespace Glides

variable {P : Kind → Prop} {N n : Nat} {expr : Reader Expr} [Grows expr]

/-- Where the line goes on, layout before an expression makes no difference. -/
theorem awaited {p : Reader α} [Grows p] (hp : Glides nl P N p) (hN : s.tokens.length ≤ N)
    (hb : Beside nl c s s') (hc : c.Awaits) {f : List Comment → α → Reader β} [∀ cs a, Grows (f cs a)]
    {R : β → State → State → Prop}
    (hnext : ∀ comments a d t t', P t.current.kind → Spot.Ended c d t.current.kind →
      Passed nl c s d t t' → Pairs (f comments a) t t' R) :
    Pairs (do let comments ← continuation; let a ← p; f comments a) s s' R := by
  refine .continuation hb.toAlike hb.tokens fun comments d t t' hskips => ?_
  obtain ⟨hleads, hstarts⟩ := hskips.of_awaits hc
  refine .bind (hp d t t' (Nat.le_trans hskips.length hN) hskips.clear (hstarts _)) ?_
  rintro a u u' ⟨hk, e, hread⟩
  refine hnext comments a e u u' hk ?_ (hread.toPassed.of_leads hleads)
  exact hread.ended.of_eq hskips.enclosures

/-! ### Operators -/

/-- **Operators in a loop**, from an operand on. -/
theorem joinLeft (ops : List BinaryOp) (hp : Glides nl P N expr) (n : Nat) (left : Expr)
    (hN : s.tokens.length ≤ N) (hread : Read nl c s d t t') (hk : P t.current.kind) :
    Pairs (joinLeft ops expr n left) t t' fun _ u u' =>
      (P u.current.kind ∧ ∀ op ∈ ops, op.token ≠ u.current.kind) ∧ ∃ e, Read nl c s e u u' := by
  induction n generalizing left d t t' with
  | zero => exact .fail
  | succ n ih =>
    refine .of_stays left hread.beside hread.ended.goesOn (fun hclear => .kind hclear ?_)
      (fun v hv => ?_) fun hloose => ⟨⟨hk, fun op _ heq => ?_⟩, d, hread⟩
    · split
      · rename_i hnone
        refine .pure ⟨⟨hk, fun op hop heq => ?_⟩, d, hread⟩
        have hno := List.find?_eq_none.mp hnone op hop
        exact hno (beq_iff_eq.mpr heq)
      · rename_i op hop
        have htoken := List.find?_some hop
        replace htoken : t.current.kind = op.token := (beq_iff_eq.mp htoken).symm
        refine .advance hclear htoken (by cases op <;> simp [BinaryOp.token])
          (by cases op <;> simp [BinaryOp.token]) fun u u' hpassed => ?_
        rw [Spot.step_op hread.ended.operand] at hpassed
        have hlen := hread.shorter
        have hlen' := hpassed.shorter
        refine hp.awaited (by omega) hpassed.beside d.onward_awaits
          fun comments right e v v' hkind hended hright => ?_
        exact ih _ (hread.trans (hpassed.trans hright.toArrives).toArrives
          (hended.of_eq rfl)) hkind
    · have hnone : ops.find? (fun op => op.token == v.current.kind) = none := by
        refine List.find?_eq_none.mpr fun op _ heq => ?_
        rw [← beq_iff_eq.mp heq, Spot.tight_op] at hv
        cases hv
      refine .kind ?_
      rw [hnone]
      rfl
    · rw [← heq, Spot.tight_op] at hloose
      cases hloose

/-- **A level of operators**. -/
theorem level (ops : List BinaryOp) (hp : Glides nl P N expr) (n : Nat) :
    Glides nl (fun k => P k ∧ ∀ op ∈ ops, op.token ≠ k) N (level n ops expr) := by
  intro c s s' hN hclear hstarts
  refine .bind (hp c s s' hN hclear hstarts) ?_
  rintro left t t' ⟨hk, d, hread⟩
  exact joinLeft ops hp n left hN hread hk

/-- An expression ends before a token that is no operator of the levels it was read with. -/
theorem levels (table : List (List BinaryOp)) (hp : Glides nl P N expr) (n : Nat) :
    Glides nl (fun k => P k ∧ ∀ ops ∈ table, ∀ op ∈ ops, op.token ≠ k) N (levels n table expr) := by
  induction table with
  | nil =>
    exact hp.mono (fun k hk => ⟨hk, fun ops hops => absurd hops List.not_mem_nil⟩) (Nat.le_refl N)
  | cons ops table ih =>
    refine (level ops ih n).mono (fun k hk => ⟨hk.1.1, fun ops' hops' => ?_⟩) (Nat.le_refl N)
    rcases List.mem_cons.mp hops' with rfl | htable
    · exact hk.2
    · exact hk.1.2 ops' htable

/-! ### Items between brackets -/

/-- **Items up to a closing bracket**. -/
theorem items [Item α] {item : Reader α} [Grows item] (close : Kind) (hitem : Glides nl P N item)
    (n : Nat) (pending : List Comment) (hN : s.tokens.length ≤ N) (hclear : Clear nl c s s')
    (hstarts : ∀ k, c.Starts k) (hin : c.inBrackets = true) :
    Pairs (items close item n pending) s s' fun _ t t' => ∃ d, Inside nl c s d t t' := by
  induction n generalizing pending c s s' with
  | zero => exact .fail
  | succ n ih =>
    refine .check (hclear.sees close) (fun _ => ?_) fun _ => ?_
    · exact .pure ⟨c, hclear, rfl, Nat.le_refl _, fun _ => .refl c s⟩
    · rw [if_neg Bool.false_ne_true]
      refine .bind (hitem c s s' hN hclear (hstarts _)) ?_
      rintro a t t' ⟨-, d, hread⟩
      have hdin : d.inBrackets = true := (Spot.inBrackets_of_eq hread.ended.enclosures).trans hin
      refine .continuation hread.beside.toAlike hread.beside.tokens fun before e u u' hskips => ?_
      have hinside := hskips.inside hread.leads hread.ended.enclosures
      refine .eat (by simp) (by simp) (hskips.clear.sees (.symbol .comma))
        (fun v v' hcomma hpassed => ?_) fun _ => ?_
      · refine .continuation hpassed.beside.toAlike hpassed.beside.tokens
          fun after f w w' hskips' => .get (by rw [hskips'.clear.current]) ?_
        obtain ⟨honward, hstarts'⟩ := hskips'.of_awaits e.onward_awaits
        have hbefore : Leads d t e u :=
          hskips.leads fun _ => by rw [hcomma]; simp [Spot.allows, hdin]
        have hleads : Leads c s f w :=
          hread.leads.trans (hbefore.trans (hpassed.leads.trans honward))
        have henclosures : f.enclosures = c.enclosures := hskips'.enclosures.trans hinside.enclosures
        split
        · refine .bind (ih _ (Nat.le_trans hleads.length hN) hskips'.clear hstarts'
            ((Spot.inBrackets_of_eq henclosures).trans hin)) ?_
          rintro rest x x' ⟨g, hrest⟩
          exact .pure ⟨g, hrest.of_leads hleads henclosures⟩
        · exact .pure ⟨f, hskips'.clear, henclosures, hleads.length, fun _ => hleads⟩
      · refine .continuation hskips.clear.toAlike hskips.clear.slipped
          fun after f w w' hskips' => .get (by rw [hskips'.clear.current]) (.pure ⟨f, ?_⟩)
        -- the layout before the sign that closes is passed over at once
        refine ⟨hskips'.clear, hskips'.enclosures.trans hinside.enclosures,
          Nat.le_trans hskips'.length hinside.length, fun hcloses => ?_⟩
        have hbefore := hinside.leads (hskips'.still hskips.solid ▸ hcloses)
        exact hbefore.trans (hskips'.leads fun _ => Spot.allows_of_closes hcloses)

/-- Everything up to a closing bracket, and the bracket. -/
theorem bracketed [Item α] {item : Reader α} [Grows item] {close : Symbol} (hclose : Spot.Closer close)
    (hitem : Glides nl P N item) (n : Nat) (hN : s.tokens.length ≤ N) (hb : Beside nl c s s')
    (hc : c.Awaits) (hin : c.inBrackets = true) :
    Pairs (bracketed n close item) s s' fun _ t t' => Passed nl c s c.closed t t' := by
  have hsequence : Pairs (sequence n (.symbol close) item) s s' fun _ t t' =>
      ∃ d, Inside nl c s d t t' := by
    refine .continuation hb.toAlike hb.tokens fun pending d t t' hskips => ?_
    obtain ⟨hleads, hstarts⟩ := hskips.of_awaits hc
    refine (items (.symbol close) hitem n pending (Nat.le_trans hskips.length hN) hskips.clear hstarts
      ((Spot.inBrackets_of_eq hskips.enclosures).trans hin)).mono ?_
    rintro r u u' ⟨e, hinside⟩
    exact ⟨e, hinside.of_leads hleads hskips.enclosures⟩
  refine .bind hsequence ?_
  rintro r t t' ⟨d, hinside⟩
  exact .bind (hinside.close hclose) fun _ _ _ hpassed => .pure hpassed

/-! ### What follows a primary expression -/

/-- A call of what was read. -/
theorem call (callee : Expr) (args : List Expr) (span : Span) (inner : List Comment)
    (hb : Beside nl c s s') : Pairs (call callee args span inner) s s' fun _ t t' =>
      Still s t ∧ Arrives nl c s c t t' := by
  have hstays : Still s s ∧ Arrives nl c s c s s' := ⟨⟨rfl, rfl⟩, hb, .refl c s⟩
  unfold Reader.call
  split
  · split
    · exact .mentioned hb _ fun t t' hstill harrives => .pure ⟨hstill, harrives⟩
    · exact .pure hstays
  · exact .pure hstays

/-- An end of a slice, up to what closes it. -/
theorem sliceEnd (stop : Kind) (hp : Glides nl P N expr) (loose : List Comment)
    (hN : s.tokens.length ≤ N) (hb : Beside nl c s s') (hc : c.Awaits) :
    Pairs (sliceEnd stop expr loose) s s' fun _ t t' => ∃ d, Inside nl c s d t t' := by
  refine .continuation hb.toAlike hb.tokens fun before d t t' hskips => ?_
  obtain ⟨hleads, hstarts⟩ := hskips.of_awaits hc
  -- whether or not there is an expression, what follows it is layout up to the sign that closes it
  have hend : Pairs (unlessAt stop expr) t t' fun _ u u' => ∃ e, Alike u u' ∧
      Slipped nl e u.tokens u'.tokens ∧ e.enclosures = c.enclosures ∧ Leads c s e u := by
    refine .check (hskips.clear.sees stop) (fun _ => ?_) fun _ => ?_
    · exact .pure ⟨d, hskips.clear.toAlike, hskips.clear.slipped, hskips.enclosures, hleads⟩
    · refine .bind (hp d t t' (Nat.le_trans hskips.length hN) hskips.clear (hstarts _)) ?_
      rintro a u u' ⟨-, e, hread⟩
      exact .pure ⟨e, hread.beside.toAlike, hread.beside.tokens,
        hread.ended.enclosures.trans hskips.enclosures, hleads.trans hread.leads⟩
  refine .bind hend ?_
  rintro end_ u u' ⟨e, halike, htokens, henclosures, hleads'⟩
  exact .continuation halike htokens fun after f v v' hskips' =>
    .pure ⟨f, hskips'.inside hleads' henclosures⟩

/-- An index or a slice, after the opening bracket. -/
theorem subscript (hp : Glides nl P N expr) (base : Expr) (hN : s.tokens.length ≤ N)
    (hb : Beside nl c s s') (hc : c.Awaits) :
    Pairs (subscript expr base) s s' fun _ t t' => Passed nl c s c.closed t t' := by
  refine .bind (sliceEnd _ hp [] hN hb hc) ?_
  rintro ⟨start, loose⟩ t t' ⟨d, hinside⟩
  refine .eat (by simp) (by simp) (hinside.clear.sees _) (fun u u' hcolon hpassed => ?_) fun _ => ?_
  · have hleads := hinside.leads (by rw [hcolon]; rfl)
    have hlen := hinside.length
    have hlen' := hpassed.shorter
    refine .bind (sliceEnd _ hp loose (by omega) hpassed.beside d.onward_awaits) ?_
    rintro ⟨stop, loose⟩ v v' ⟨e, hinside'⟩
    have hall := hinside'.of_leads (hleads.trans hpassed.leads) hinside.enclosures
    exact .bind (hall.close Spot.closer_closeBracket) fun _ _ _ hclosed => .pure hclosed
  · cases start with
    | some start =>
      exact .bind (hinside.close Spot.closer_closeBracket) fun _ _ _ hclosed => .pure hclosed
    | none => exact .reject _

/-- **Members, subscripts and calls**, from an operand on. -/
theorem suffixes (hp : Glides nl P N expr) (n : Nat) (base : Expr) (hN : s.tokens.length ≤ N + 1)
    (hread : Read nl c s d t t') :
    Pairs (suffixes expr n base) t t' fun _ u u' => ∃ e, Read nl c s e u u' := by
  induction n generalizing base d t t' with
  | zero => exact .fail
  | succ n ih =>
    have hlen := hread.shorter
    refine .of_stays base hread.beside hread.ended.goesOn (fun hclear => .kind hclear ?_)
      (fun v hv => ?_) fun _ => ⟨d, hread⟩
    · split
      · rename_i hdot
        refine .advance hclear hdot (by simp) (by simp) fun u u' hpassed => ?_
        refine .bind (.identifier (hpassed.beside.tight rfl)) ?_
        rintro field v v' ⟨-, hfield⟩
        exact ih _ (hread.trans (hpassed.trans hfield.toArrives).toArrives (d.ended_ended _))
      · rename_i hopen
        refine .advance hclear hopen (by simp) (by simp) fun u u' hpassed => ?_
        have hlen' := hpassed.shorter
        refine .bind (subscript hp base (by omega) hpassed.beside (d.opened_awaits _)) ?_
        intro e v v' hclosed
        exact ih e (hread.trans (hpassed.trans hclosed.toArrives).toArrives (d.ended_ended _))
      · rename_i hopen
        refine .advance hclear hopen (by simp) (by simp) fun u u' hpassed => ?_
        rw [Spot.step_openParen (hopen ▸ hread.ended.fresh)] at hpassed
        have hlen' := hpassed.shorter
        refine .bind (bracketed Spot.closer_closeParen hp n (by omega) hpassed.beside
          (d.opened_awaits _) rfl) ?_
        rintro ⟨args, inner⟩ v v' hclosed
        have hcall : Read nl c s d.ended v v' :=
          hread.trans (hpassed.trans hclosed.toArrives).toArrives (d.ended_ended _)
        refine .get hclosed.beside.behind ?_
        refine .bind (call _ _ _ _ hclosed.beside) ?_
        rintro e w w' ⟨hstill, harrives⟩
        exact ih e (hcall.still hstill harrives)
      · exact .pure ⟨d, hread⟩
    · refine .kind ?_
      split
      case h_4 => rfl
      all_goals
        rename_i hk
        rw [hk] at hv
        cases hv

/-! ### Primary expressions -/

/-- A constant. -/
theorem literal (value : Literal) (hclear : Clear nl c s s') (hk : s.current.kind = k)
    (hstep : c.step k = c.ended) (htight : Spot.tight k = true) (hne : k ≠ .eof) :
    Pairs (literal value) s s' fun _ t t' => ∃ d, Read nl c s d t t' := by
  have hline : k ≠ .newline := fun heq => by
    rw [heq] at htight
    cases htight
  refine .advance hclear hk hne hline fun t t' hpassed => ?_
  rw [hstep] at hpassed
  have hread := Read.of_ended hpassed (hk ▸ htight)
  exact .mentioned hpassed.beside _ fun u u' hstill harrives => .pure ⟨_, hread.still hstill harrives⟩

theorem negative (start : Span) (operand : Expr) (hb : Beside nl c s s') :
    Pairs (negative start operand) s s' fun _ t t' => Still s t ∧ Arrives nl c s c t t' := by
  unfold Reader.negative
  split
  · exact .mentioned hb _ fun t t' hstill harrives => .pure ⟨hstill, harrives⟩
  · exact .pure ⟨⟨rfl, rfl⟩, hb, .refl c s⟩

/-- An expression in parentheses. -/
theorem parenthesized (hp : Glides nl P N expr) (hN : s.tokens.length ≤ N + 1)
    (hclear : Clear nl c s s') (hstarts : c.Starts s.current.kind)
    (hopen : s.current.kind = .symbol .openParen) :
    Pairs (parenthesized expr) s s' fun _ t t' => ∃ d, Read nl c s d t t' := by
  refine .advance hclear hopen (by simp) (by simp) fun t t' hpassed => ?_
  rw [Spot.step_openParen (hopen ▸ hstarts.fresh)] at hpassed
  have hlen := hpassed.shorter
  refine hp.awaited (by omega) hpassed.beside (c.opened_awaits _)
    fun leading inner d u u' _ hended hinner => ?_
  refine .continuation hinner.beside.toAlike hinner.beside.tokens fun trailing e v v' hskips => ?_
  have hinside := hskips.inside hinner.leads hended.enclosures
  refine .bind (hinside.close Spot.closer_closeParen) fun close w w' hclosed => .pure ⟨c.ended, ?_⟩
  exact .of_ended (hpassed.trans hclosed.toArrives) (by rw [hopen]; rfl)

/-- A list or a map, from its opening bracket on. -/
theorem brackets [Item α] {item : Reader α} [Grows item] {start close : Symbol}
    (hclose : Spot.Closer close) (hstart : ∀ c : Spot, c.step (.symbol start) = c.opened .bracket)
    (htight : Spot.tight (.symbol start) = true) (hitem : Glides nl P N item) (n : Nat)
    (hN : s.tokens.length ≤ N + 1) (hclear : Clear nl c s s') (hopen : s.current.kind = .symbol start)
    {f : Token → List α × List Comment → Reader β} [∀ a r, Grows (f a r)] {R : β → State → State → Prop}
    (hnext : ∀ r t t', Read nl c s c.ended t t' → Pairs (f s.current r) t t' R) :
    Pairs (do let a ← advance; let r ← Reader.bracketed n close item; f a r) s s' R := by
  refine .advance hclear hopen (by simp) (by simp) fun t t' hpassed => ?_
  rw [hstart] at hpassed
  have hlen := hpassed.shorter
  refine .bind (bracketed hclose hitem n (by omega) hpassed.beside (c.opened_awaits _) rfl) ?_
  intro r u u' hclosed
  exact hnext r u u' (.of_ended (hpassed.trans hclosed.toArrives) (hopen ▸ htight))

/-- A list. -/
theorem list (hp : Glides nl P N expr) (n : Nat) (hN : s.tokens.length ≤ N + 1)
    (hclear : Clear nl c s s') (hopen : s.current.kind = .symbol .openBracket) :
    Pairs (list n expr) s s' fun _ t t' => ∃ d, Read nl c s d t t' := by
  refine brackets Spot.closer_closeBracket (fun _ => rfl) rfl hp n hN hclear hopen fun r t t' hread => ?_
  exact .get hread.beside.behind (.pure ⟨c.ended, hread⟩)

/-- An entry of a map. -/
theorem entry (hp : Glides nl P N expr) : Glides nl P N (entry expr) := by
  intro c s s' hN hclear hstarts
  refine .bind (hp c s s' hN hclear hstarts) ?_
  rintro key t t' ⟨-, d, hkey⟩
  refine .continuation hkey.beside.toAlike hkey.beside.tokens fun before e u u' hskips => ?_
  refine .bind (.expect (by simp) (by simp) (hskips.clear.sees _)) ?_
  rintro colon v v' ⟨rfl, hcolon, hpassed⟩
  have hleads : Leads d t e u := hskips.leads fun _ => Spot.allows_of_closes (by rw [hcolon]; rfl)
  have hlen := hkey.shorter
  have hlen' := hskips.length
  have hlen'' := hpassed.shorter
  refine hp.awaited (by omega) hpassed.beside e.onward_awaits
    fun after value f w w' hk hended hvalue => .pure ⟨hk, f, hkey.trans ?_ ?_⟩
  · exact ((hpassed.trans hvalue.toArrives).of_leads hleads).toArrives
  · exact hended.of_eq hskips.enclosures

/-- A map. -/
theorem map (hp : Glides nl P N expr) (n : Nat) (hN : s.tokens.length ≤ N + 1)
    (hclear : Clear nl c s s') (hopen : s.current.kind = .symbol .openBrace) :
    Pairs (map n expr) s s' fun _ t t' => ∃ d, Read nl c s d t t' := by
  refine brackets Spot.closer_closeBrace (fun _ => rfl) rfl (entry hp) n hN hclear hopen
    fun r t t' hread => ?_
  exact .get hread.beside.behind (.pure ⟨c.ended, hread⟩)

/-- A parameter. -/
theorem param (hp : Glides nl P N expr) : Glides nl (fun _ => True) N (param expr) := by
  intro c s s' hN hclear hstarts
  refine .bind (.identifier fun _ => hclear) ?_
  rintro name t t' ⟨hname, hpassed⟩
  rw [Spot.step_identifier (hname ▸ hstarts.fresh)] at hpassed
  have hread := Read.of_ended hpassed (by rw [hname]; rfl)
  refine .mention hpassed.beside _ fun u u' hstill harrives => ?_
  replace hread := hread.still hstill harrives
  refine .eat (by simp) (by simp) (hread.beside.sees rfl rfl) (fun v v' _ hassign => ?_) fun _ => ?_
  · have hlen := hread.shorter
    have hlen' := hassign.shorter
    refine .bind (hp.beside (by omega) hassign.beside rfl (Spot.starts_of_plain rfl rfl)) ?_
    rintro value w w' ⟨-, d, hvalue⟩
    refine .pure ⟨trivial, d, hread.trans ?_ (hvalue.ended.of_eq rfl)⟩
    exact (hassign.trans hvalue.toArrives).toArrives
  · exact .pure ⟨trivial, _, hread⟩

/-! ### Directives -/

theorem directiveName (hclear : Clear nl c s s') (hhash : s.current.kind = .symbol .hash) :
    Pairs directiveName s s' fun r t t' => t.previous.map Token.kind = some (.identifier r.2) ∧
      Passed nl c s (c.directed r.2) t t' := by
  refine .advance hclear hhash (by simp) (by simp) fun t t' hpassed => ?_
  refine .kind_tight (hpassed.beside.tight rfl) (fun hno => ?_) fun hclear' => ?_
  · split
    · rename_i name hname
      rw [hname] at hno
      cases hno
    · rfl
  · split
    · rename_i name hname
      refine .advance_behind hclear' hname (by simp) (by simp) fun u u' hprevious hname' =>
        .pure ⟨?_, ?_⟩
      · rw [hprevious, ← hname]
        rfl
      · exact hpassed.trans hname'.toArrives
    · exact .reject _

/-- A directive ends with a semicolon or right here. -/
theorem directiveEnd (start : Span) (hb : Beside nl c s s') (hgo : c.goesOn = false) :
    Pairs (directiveEnd start) s s' fun _ t t' =>
      (t = s ∧ t' = s' ∧ s.current.kind ≠ .symbol .semicolon) ∨
        Passed nl c s (c.step (.symbol .semicolon)) t t' := by
  refine .eat (by simp) (by simp) (hb.sees hgo rfl) (fun t t' _ hpassed => ?_) fun hne => ?_
  · exact .get hpassed.beside.behind (.pure (.inr hpassed))
  · exact .get hb.behind (.pure (.inl ⟨rfl, rfl, hne⟩))

/-- What follows the word of a directive. -/
theorem directiveValue (start : Span) (name : String) (hb : Beside nl (c.directed name) s s') :
    Pairs (directiveValue start name) s s' fun _ t t' =>
      Arrives nl (c.directed name) s c.valued t t' := by
  unfold Reader.directiveValue
  split
  · refine .bind (.identifier (hb.tight rfl)) ?_
    rintro ident t t' ⟨-, hpassed⟩
    exact .pure hpassed.toArrives
  · refine .bind (.path (hb.tight rfl)) ?_
    rintro target t t' ⟨raw, value, -, hpassed⟩
    refine .get hpassed.beside.behind ?_
    refine .mentioned hpassed.beside _ fun u u' _ harrives => .pure ?_
    exact (hpassed.trans harrives).toArrives
  · exact .pure ⟨hb, .refl _ _⟩
  · exact .pure ⟨hb, .refl _ _⟩
  · exact .get hb.behind (.rejectAt _ _)

/-- A directive that stands for a value. -/
theorem valueDirective (hclear : Clear nl c s s') (hhash : s.current.kind = .symbol .hash) :
    Pairs valueDirective s s' fun _ t t' => ∃ d, Read nl c s d t t' := by
  have htight : Spot.tight s.current.kind = true := by rw [hhash]; rfl
  refine .bind (directiveName hclear hhash) ?_
  rintro ⟨start, name⟩ t t' ⟨-, hpassed⟩
  refine .bind (directiveValue start name hpassed.beside) ?_
  intro directive u u' harrives
  refine .bind (directiveEnd start harrives.beside rfl) ?_
  rintro span v v' (⟨rfl, rfl, hne⟩ | hsemicolon)
  · exact .pure ⟨c.valued, hpassed.trans harrives, htight, Spot.valued_ended hne⟩
  · exact .pure ⟨c.ended, hpassed.trans (harrives.passed hsemicolon).toArrives, htight, c.ended_ended _⟩

end Glides

end Reader

end ScriptBundler

import ScriptBundler.Proofs.Derivation
import ScriptBundler.Proofs.Frames
import ScriptBundler.Proofs.Scanning

/-!
# Proofs/Running — what a reader does on its way

    s ──ts, ps──▸ t          a reader passes over the tokens `ts` and puts `ps` on record (`Passes`)

`Settles c p q s Q` compares two readers from the state `s` on, of which `q` has at least the bound that
`p` has: they do the same, so the bound of `p` suffices; they find a fault or yield a value for which `Q`
holds; and `Q` also depends on what was passed over and put on record and on where they come to.

This is about every run, with faults or without.  That there are none can be supposed (`Setting.clean`),
and then holds of each part of the run.
-/

namespace ScriptBundler

open Token (Kind)

/-! ## Records -/

/-- What a script puts on record, as a ledger; `inside` are the scopes that are open. -/
def Mentions.ledger (m : Mentions) (inside : List Nat) : Ledger where
  imports := m.imports.map Reference.path
  includes := m.includes.map Reference.path
  injects := m.injects.map Reference.path
  natives := m.natives.map Reference.path
  literals := m.literals
  scopes := m.scopes.map Scope.identifiers
  inside

theorem Scope.identifiers_add (scope : Scope) (x : String) :
    (scope.add x).identifiers = Ledger.addName scope.identifiers x := by
  unfold Scope.add Ledger.addName
  split <;> rfl

/-- A change of one scope, seen by the names in it. -/
theorem map_identifiers_modify {f : Scope → Scope} {g : List String → List String}
    (h : ∀ scope, (f scope).identifiers = g scope.identifiers) (scopes : List Scope) (i : Nat) :
    (scopes.modify i f).map Scope.identifiers = (scopes.map Scope.identifiers).modify i g := by
  refine List.ext_getElem? fun j => ?_
  rw [List.getElem?_map, List.getElem?_modify, List.getElem?_modify, List.getElem?_map]
  cases scopes[j]? with
  | none => rfl
  | some scope =>
    by_cases hij : i = j
    · simp [hij, h]
    · simp [hij]

namespace Reader

variable {α β : Type} {s t u : State} {ts us : List Token} {ps qs : List Posting}

namespace State

/-- The record of a state, with the scope that is open. -/
def ledger (s : State) : Ledger := s.mentions.ledger s.openScopes

/-- Naming something posts the name. -/
theorem ledger_mention (s : State) (x : String) :
    (s.mention x).ledger = s.ledger.post (.mention (.name x)) := by
  cases h : s.openScopes with
  | nil => simp [mention, Ledger.post, ledger, Mentions.ledger, h]
  | cons i is =>
    have hmention : s.mention x =
        s.mapMentions fun m => { m with scopes := m.scopes.modify i (·.add x) } := by
      rw [mention, h]
    rw [hmention]
    simp only [ledger, Mentions.ledger, mapMentions, Ledger.post, h]
    rw [map_identifiers_modify (g := (Ledger.addName · x)) fun scope => Scope.identifiers_add scope x]

/-- Opening a scope posts that it is entered. -/
theorem ledger_openScope (s : State) (span : Span) :
    (s.openScope span).ledger = s.ledger.post .enter := by
  simp [openScope, ledger, Mentions.ledger, Ledger.post]

/-- Closing a scope posts that it is left. -/
theorem ledger_closeScope (s : State) (stop : Span) :
    (s.closeScope stop).ledger = s.ledger.post .leave := by
  unfold closeScope
  cases h : s.openScopes with
  | nil => simp [Ledger.post, ledger, Mentions.ledger, h]
  | cons i is =>
    have hscopes : (s.mentions.scopes.modify i fun sc => { sc with span := sc.span.merge stop }).map
        Scope.identifiers = s.mentions.scopes.map Scope.identifiers :=
      (map_identifiers_modify (f := fun sc => { sc with span := sc.span.merge stop }) (g := id)
        (fun _ => rfl) _ i).trans (List.modify_id ..)
    simp only [ledger, Mentions.ledger, Ledger.post, h, List.tail_cons, hscopes]

/-! ## States -/

/-- The tokens from the current one on. -/
def tokens (s : State) : List Token := s.current :: s.ahead

theorem tokens_pos (s : State) : 0 < s.tokens.length := Nat.succ_pos _

end State

/-- What follows in tokens that end once ends once, and nothing before it is the end. -/
theorem endsOnce_of_append {ts us : List Token} (h : EndsOnce (ts ++ us)) (hus : us ≠ []) :
    EndsOnce us ∧ ∀ t ∈ ts, t.kind ≠ .eof := by
  obtain ⟨vs, e, heq, he, hvs⟩ := h
  obtain ⟨ws, f, rfl⟩ : ∃ ws f, us = ws ++ [f] :=
    ⟨us.dropLast, us.getLast hus, (List.dropLast_concat_getLast hus).symm⟩
  rw [← List.append_assoc] at heq
  obtain ⟨rfl, hf⟩ := List.append_inj' heq rfl
  obtain rfl : f = e := by simpa using hf
  exact ⟨⟨ws, f, rfl, he, fun t ht => hvs t (List.mem_append_right _ ht)⟩,
    fun t ht => hvs t (List.mem_append_left _ ht)⟩

namespace State

theorem endsOnce_of_suffix (h : EndsOnce s.tokens) (hsuffix : t.tokens <:+ s.tokens) :
    EndsOnce t.tokens := by
  obtain ⟨ts, hts⟩ := hsuffix
  rw [← hts] at h
  exact (endsOnce_of_append h (List.cons_ne_nil _ _)).1

/-- The last token is the end of the text. -/
theorem ahead_ne_nil (h : EndsOnce s.tokens) (hne : s.current.kind ≠ .eof) : s.ahead ≠ [] := by
  intro hnil
  obtain ⟨us, e, heq, he, -⟩ := h
  rw [tokens, hnil] at heq
  have hlast : e = s.current := by
    have := congrArg List.getLast? heq
    simpa using this.symm
  exact hne (hlast ▸ he)

theorem ahead_eq_nil (hs : EndsOnce s.tokens) (h : s.current.kind = .eof) : s.ahead = [] := by
  obtain ⟨us, e, heq, -, hus⟩ := hs
  cases us with
  | nil => exact (List.cons.inj heq).2
  | cons u us =>
    obtain ⟨rfl, -⟩ := List.cons.inj heq
    exact absurd h (hus _ (List.mem_cons_self ..))

/-- Before the end, the current token is passed. -/
theorem tokens_advance (h : EndsOnce s.tokens) (hne : s.current.kind ≠ .eof) :
    s.tokens = s.current :: s.advance.tokens := by
  obtain ⟨t, ts, hahead⟩ := List.exists_cons_of_ne_nil (ahead_ne_nil h hne)
  rw [tokens, State.advance, hahead]
  rfl

end State

theorem State.tokens_ofTokens (h : EndsOnce ts) : (State.ofTokens ts).tokens = ts := by
  obtain ⟨us, e, rfl, -⟩ := h
  cases us <;> rfl

/-- What is supposed of a run. -/
structure Setting where
  /-- No fault is found. -/
  clean : Prop
  /-- A sort of stretches, of which all tokens and so all faults are. -/
  site : Span → Prop
  merge : ∀ a b, site a → site b → site (a.merge b)

variable {c : Setting}

/-- A state on the way through tokens that end once. -/
structure State.Sane (c : Setting) (s : State) : Prop where
  ends : EndsOnce s.tokens
  sites : ∀ t ∈ s.tokens, c.site t.span
  behind : c.site s.behind
  faults : ∀ f ∈ s.faults, c.site f.span

/-- A run of which only `clean` is supposed. -/
def Setting.ofClean (clean : Prop) : Setting := ⟨clean, fun _ => True, fun _ _ _ _ => trivial⟩

theorem State.Sane.ofClean (clean : Prop) (hs : EndsOnce s.tokens) : s.Sane (.ofClean clean) :=
  ⟨hs, fun _ _ => trivial, trivial, fun _ _ => trivial⟩

/-- Between `s` and `t` the tokens `ts` were passed over, and `ps` was put on record. -/
structure Passes (c : Setting) (s : State) (ts : List Token) (ps : List Posting) (t : State) : Prop where
  tokens : s.tokens = ts ++ t.tokens
  previous : t.previous = ts.getLast?.or s.previous
  faults : s.faults <+: t.faults
  ledger : t.ledger = s.ledger.enter ps
  sane : t.Sane c

namespace Passes

theorem of_sane (hs : s.Sane c) (htokens : s.tokens = ts ++ t.tokens)
    (hprevious : t.previous = ts.getLast?.or s.previous) (hfaults : s.faults <+: t.faults)
    (hsites : ∀ f ∈ t.faults, c.site f.span) (hledger : t.ledger = s.ledger.enter ps) :
    Passes c s ts ps t := by
  refine ⟨htokens, hprevious, hfaults, hledger, ?_, fun u hu => ?_, ?_, hsites⟩
  · exact State.endsOnce_of_suffix hs.ends ⟨ts, htokens.symm⟩
  · exact hs.sites u (htokens ▸ List.mem_append_right ts hu)
  · rw [State.behind, hprevious]
    cases hlast : ts.getLast? with
    | none => exact hs.behind
    | some u => exact hs.sites u (htokens ▸ List.mem_append_left _ (List.mem_of_getLast? hlast))

/-- Where nothing happens, nothing is passed over. -/
theorem refl (hs : s.Sane c) : Passes c s [] [] s := ⟨rfl, rfl, List.prefix_refl _, rfl, hs⟩

/-- One way after another. -/
theorem trans (h : Passes c s ts ps t) (h' : Passes c t us qs u) : Passes c s (ts ++ us) (ps ++ qs) u where
  tokens := by rw [h.tokens, h'.tokens, List.append_assoc]
  previous := by rw [h'.previous, h.previous, List.getLast?_append, Option.or_assoc]
  faults := h.faults.trans h'.faults
  ledger := by rw [h'.ledger, h.ledger, Ledger.enter_append]
  sane := h'.sane

theorem length (h : Passes c s ts ps t) : s.tokens.length = ts.length + t.tokens.length := by
  rw [h.tokens, List.length_append]

theorem onward (h : Passes c s ts ps t) : t.tokens <:+ s.tokens := ⟨ts, h.tokens.symm⟩

theorem sites (hs : s.Sane c) (h : Passes c s ts ps t) : ∀ u ∈ ts, c.site u.span := fun u hu =>
  hs.sites u (h.tokens ▸ List.mem_append_left _ hu)

/-- The first of the tokens passed over was the current one. -/
theorem head {u : Token} (h : Passes c s (u :: ts) ps t) : u = s.current :=
  (List.cons.inj h.tokens).1.symm

/-- Where nothing was passed over, the current token is still the same. -/
theorem current (h : Passes c s [] ps t) : t.current = s.current := (List.cons.inj h.tokens).1.symm

/-- Behind what was passed is its last token. -/
theorem behind (h : Passes c s ts ps t) (hts : ts ≠ []) : t.behind = lastSpan ts := by
  rw [State.behind, h.previous, List.getLast?_eq_some_getLast hts, lastSpan,
    List.getLast?_eq_some_getLast hts]
  rfl

end Passes

/-- Advancing passes over the current token. -/
theorem State.Sane.advance (hs : s.Sane c) (h : s.current.kind ≠ .eof) :
    Passes c s [s.current] [] s.advance := by
  obtain ⟨t, ts, hahead⟩ := List.exists_cons_of_ne_nil (State.ahead_ne_nil hs.ends h)
  have hnext : s.advance =
      { s with current := t, ahead := ts, previous := some s.current } := by
    rw [State.advance, hahead]
  have htokens := State.tokens_advance hs.ends h
  rw [hnext] at htokens ⊢
  exact .of_sane hs htokens rfl (List.prefix_refl _) hs.faults rfl

/-! ## Two readers side by side -/

/-- The runs `r` and `r'` from `s` on are the same, and they found a fault or yielded a value for which
`Q` holds. -/
structure Settled (c : Setting) (s : State) (Q : List Token → List Posting → α → State → Prop)
    (r r' : Option α × State) : Prop where
  same : r' = r
  passes : ∃ ts ps, Passes c s ts ps r.2 ∧ ∀ a, r.1 = some a → Q ts ps a r.2
  fault : r.1 = none → s.faults.length < r.2.faults.length

/-- From `s` on, the two readers settle, where no fault is found if none is supposed to be. -/
def Settles (c : Setting) (p q : Reader α) (s : State)
    (Q : List Token → List Posting → α → State → Prop) : Prop :=
  s.Sane c → (c.clean → (p s).2.faults = s.faults) → Settled c s Q (p s) (q s)

namespace Settles

variable {p q : Reader α} {f g : α → Reader β} {Q : List Token → List Posting → α → State → Prop}
  {R : List Token → List Posting → β → State → Prop}

/-- A weaker fact about what was read. -/
theorem mono {Q' : List Token → List Posting → α → State → Prop} (h : Settles c p q s Q)
    (hQ : ∀ ts ps a t, Q ts ps a t → Q' ts ps a t) : Settles c p q s Q' := by
  intro hs hclean
  obtain ⟨hsame, ⟨ts, ps, hpass, hq⟩, hfault⟩ := h hs hclean
  exact ⟨hsame, ⟨ts, ps, hpass, fun a ha => hQ _ _ _ _ (hq a ha)⟩, hfault⟩

theorem pure {a : α} (h : Q [] [] a s) : Settles c (pure a) (pure a) s Q := fun hs _ =>
  ⟨rfl, ⟨[], [], .refl hs, fun _ ha => Option.some.inj ha ▸ h⟩, fun ha => absurd ha (by simp)⟩

/-- **One reader after another**: a run without faults has none on its way. -/
theorem bind_settled [hp : Grows p] [hf : ∀ a, Grows (f a)] (h : Settles c p q s Q)
    (hnext : ∀ ts ps a t, s.Sane c → Passes c s ts ps t → Q ts ps a t →
      (c.clean → (f a t).2.faults = t.faults) → Settled c s R (f a t) (g a t)) :
    Settles c (p >>= f) (q >>= g) s R := by
  intro hs hclean
  rcases hps : p s with ⟨_ | a, t⟩
  · rw [bind_none hps] at hclean ⊢
    obtain ⟨hsame, ⟨ts, ps, hpass, -⟩, hfault⟩ := h hs (by rw [hps]; exact hclean)
    rw [hps] at hsame hpass hfault
    rw [bind_none hsame]
    exact ⟨rfl, ⟨ts, ps, hpass, by simp⟩, fun _ => hfault rfl⟩
  · rw [bind_some hps] at hclean ⊢
    have hgrows := hp.keeps s
    have hgrows' := (hf a).keeps t
    rw [hps] at hgrows
    have ht : c.clean → t.faults = s.faults := fun hc =>
      (hgrows.eq_of_length (Nat.le_antisymm hgrows.length_le (hclean hc ▸ hgrows'.length_le))).symm
    obtain ⟨hsame, ⟨ts, ps, hpass, hq⟩, -⟩ := h hs (by rw [hps]; exact ht)
    rw [hps] at hsame hpass hq
    rw [bind_some hsame]
    exact hnext ts ps a t hs hpass (hq a rfl) fun hc => by rw [hclean hc, ht hc]

/-- **One reader after another**. -/
theorem bind [Grows p] [∀ a, Grows (f a)] (h : Settles c p q s Q)
    (hnext : ∀ ts ps a t, s.Sane c → Passes c s ts ps t → Q ts ps a t →
      Settles c (f a) (g a) t fun us qs => R (ts ++ us) (ps ++ qs)) :
    Settles c (p >>= f) (q >>= g) s R := by
  refine bind_settled h fun ts ps a t hs hpass hq hclean => ?_
  obtain ⟨hsame, ⟨us, qs, hpass', hr⟩, hfault⟩ := hnext ts ps a t hs hpass hq hpass.sane hclean
  exact ⟨hsame, ⟨ts ++ us, ps ++ qs, hpass.trans hpass', hr⟩,
    fun hb => hpass.faults.length_le.trans_lt (hfault hb)⟩

/-- A reader whose value is only put to use. -/
theorem last [Grows p] {f : α → β} (h : Settles c p q s Q)
    (hnext : ∀ ts ps a t, Passes c s ts ps t → Q ts ps a t → R ts ps (f a) t) :
    Settles c (do let a ← p; return f a) (do let a ← q; return f a) s R :=
  bind h fun ts ps a t _ hpass hq => pure (by
    rw [List.append_nil, List.append_nil]
    exact hnext ts ps a t hpass hq)

/-- What is found by looking at the state. -/
theorem get {look : State → α} (h : Settles c (f (look s)) (g (look s)) s R) :
    Settles c (Reader.get look >>= f) (Reader.get look >>= g) s R := h

theorem kind {f g : Kind → Reader β} (h : Settles c (f s.current.kind) (g s.current.kind) s R) :
    Settles c (Reader.kind >>= f) (Reader.kind >>= g) s R := h

theorem ite {b : Bool} {p' q' : Reader α} (h : Settles c p q s Q) (h' : Settles c p' q' s Q) :
    Settles c (if b then p else p') (if b then q else q') s Q := by
  cases b with
  | true => exact h
  | false => exact h'

/-- A kind that is next or not. -/
theorem check {k : Kind} {f g : Bool → Reader β}
    (hyes : s.current.kind = k → Settles c (f true) (g true) s R)
    (hno : s.current.kind ≠ k → Settles c (f false) (g false) s R) :
    Settles c (Reader.check k >>= f) (Reader.check k >>= g) s R := by
  show Settles c (f (s.current.kind == k)) (g (s.current.kind == k)) s R
  by_cases hk : s.current.kind = k
  · rw [beq_iff_eq.mpr hk]
    exact hyes hk
  · rw [beq_eq_false_iff_ne.mpr hk]
    exact hno hk

/-- A change of the state that leaves the tokens and the faults. -/
theorem update {change : State → State} {f g : Unit → Reader β} (ps : List Posting)
    (htokens : (change s).tokens = s.tokens) (hprevious : (change s).previous = s.previous)
    (hfaults : (change s).faults = s.faults) (hledger : (change s).ledger = s.ledger.enter ps)
    (h : ∀ t, Passes c s [] ps t → Settles c (f ()) (g ()) t fun us qs => R us (ps ++ qs)) :
    Settles c (Reader.update change >>= f) (Reader.update change >>= g) s R := by
  intro hs hclean
  have hpass : Passes c s [] ps (change s) :=
    .of_sane hs htokens.symm hprevious (hfaults ▸ List.prefix_refl _) (hfaults ▸ hs.faults) hledger
  obtain ⟨hsame, ⟨us, qs, hpass', hr⟩, hfault⟩ := h (change s) hpass hpass.sane
    fun hc => (hclean hc).trans hfaults.symm
  exact ⟨hsame, ⟨us, ps ++ qs, hpass.trans hpass', hr⟩, fun hb => hfaults ▸ hfault hb⟩

/-- The current token is passed over. -/
theorem advance {f g : Token → Reader β} (hne : s.current.kind ≠ .eof)
    (h : ∀ t, s.Sane c → Passes c s [s.current] [] t →
      Settles c (f s.current) (g s.current) t fun us qs => R (s.current :: us) qs) :
    Settles c (Reader.advance >>= f) (Reader.advance >>= g) s R := by
  intro hs hclean
  have hpass := hs.advance hne
  have hfaults : s.advance.faults = s.faults := Grows.faults_advance s
  obtain ⟨hsame, ⟨us, qs, hpass', hr⟩, hfault⟩ := h s.advance hs hpass hpass.sane
    fun hc => (hclean hc).trans hfaults.symm
  exact ⟨hsame, ⟨s.current :: us, qs, hpass.trans hpass', hr⟩, fun hb => hfaults ▸ hfault hb⟩

/-- After a report, the run is known to have a fault. -/
theorem report {f g : Unit → Reader β} [hf : Grows (f ())] (fault : Fault) {span : Span}
    (hspan : s.Sane c → c.site span)
    (h : ∀ t, ¬c.clean → Passes c s [] [] t → Settles c (f ()) (g ()) t R) :
    Settles c (Reader.report fault span >>= f) (Reader.report fault span >>= g) s R := by
  intro hs hclean
  have hlen := (hf.keeps { s with faults := s.faults ++ [⟨fault, span⟩] }).length_le
  simp only [List.length_append, List.length_singleton] at hlen
  have hmore : ¬c.clean := fun hc =>
    absurd (hlen.trans (Nat.le_of_eq (congrArg List.length (hclean hc)))) (Nat.not_succ_le_self _)
  have hpass : Passes c s [] [] { s with faults := s.faults ++ [⟨fault, span⟩] } := by
    refine .of_sane hs rfl rfl (List.prefix_append _ _) (fun d hd => ?_) rfl
    rcases List.mem_append.mp hd with hd | hd
    · exact hs.faults d hd
    · exact List.mem_singleton.mp hd ▸ hspan hs
  obtain ⟨hsame, ⟨us, qs, hpass', hr⟩, hfault⟩ := h _ hmore hpass hpass.sane fun hc => absurd hc hmore
  exact ⟨hsame, ⟨us, qs, hpass.trans hpass', hr⟩, fun hb =>
    (hpass.faults.length_le).trans_lt (hfault hb)⟩

/-- A reader that rejects finds a fault. -/
theorem rejectAt (fault : Fault) (span : Span) (hspan : s.Sane c → c.site span) :
    Settles c (rejectAt span fault) (rejectAt span fault) s Q := by
  intro hs _
  have hmore : s.faults.length < (s.faults ++ [(⟨fault, span⟩ : Located)]).length := by simp
  refine ⟨rfl, ⟨[], [], .of_sane hs rfl rfl (List.prefix_append _ _) (fun d hd => ?_) rfl,
    fun _ ha => absurd ha (by simp [Reader.rejectAt, Reader.report, Reader.update, Bind.bind, fail])⟩,
    fun _ => hmore⟩
  rcases List.mem_append.mp hd with hd | hd
  · exact hs.faults d hd
  · exact List.mem_singleton.mp hd ▸ hspan hs

theorem reject (fault : Fault) : Settles c (reject fault) (reject fault) s Q :=
  rejectAt fault s.current.span fun hs => hs.sites _ (List.mem_cons_self ..)

/-- Nesting reads the same. -/
theorem nested {Q : List Token → List Posting → α → Prop}
    (h : ∀ t, Passes c s [] [] t → Settles c p q t fun ts ps a _ => Q ts ps a) :
    Settles c (nested p) (nested q) s fun ts ps a _ => Q ts ps a := by
  intro hs hclean
  by_cases hdepth : nestingLimit ≤ s.depth
  · rw [Reader.nested, Reader.nested, if_pos hdepth, if_pos hdepth]
    rw [Reader.nested, if_pos hdepth] at hclean
    exact reject .nestedTooDeep hs hclean
  · rw [Reader.nested, Reader.nested, if_neg hdepth, if_neg hdepth]
    rw [Reader.nested, if_neg hdepth] at hclean
    have hpass : Passes c s [] [] { s with depth := s.depth + 1 } :=
      .of_sane hs rfl rfl (List.prefix_refl _) hs.faults rfl
    obtain ⟨hsame, ⟨ts, ps, hpass', hq⟩, hfault⟩ := h _ hpass hpass.sane hclean
    rw [hsame]
    exact ⟨rfl, ⟨ts, ps, { hpass' with sane := { hpass'.sane with } }, hq⟩, hfault⟩

/-- What cannot be read leaves a fault behind. -/
theorem attempt (h : Settles c p q s Q) : Settles c (attempt p) (attempt q) s fun ts ps r t =>
    (∀ a, r = some a → Q ts ps a t) ∧ (r = none → ¬c.clean) := by
  intro hs hclean
  replace hclean : c.clean → (p s).2.faults = s.faults := hclean
  obtain ⟨hsame, ⟨ts, ps, hpass, hq⟩, hfault⟩ := h hs hclean
  rw [Reader.attempt, Reader.attempt, hsame]
  refine ⟨rfl, ⟨ts, ps, hpass, fun r hr => ?_⟩, fun ha => absurd ha (by simp)⟩
  obtain rfl := Option.some.inj hr
  exact ⟨hq, fun hnone hc => absurd (hfault hnone) (by rw [hclean hc]; exact Nat.lt_irrefl _)⟩

/-- A name is put on record. -/
theorem mention (x : String) {f g : Unit → Reader β}
    (h : ∀ t, Passes c s [] [.mention (.name x)] t →
      Settles c (f ()) (g ()) t fun us qs => R us (.mention (.name x) :: qs)) :
    Settles c (Reader.mention x >>= f) (Reader.mention x >>= g) s R := by
  refine update [.mention (.name x)] ?_ ?_ (Grows.faults_mention s x) (State.ledger_mention s x) h <;>
    unfold State.mention <;> split <;> rfl

/-- A change of the record that enters postings. -/
theorem mentioned {change : Mentions → Mentions} {f g : Unit → Reader β} (ps : List Posting)
    (hledger : ∀ m inside, (change m).ledger inside = (m.ledger inside).enter ps)
    (h : ∀ t, Passes c s [] ps t → Settles c (f ()) (g ()) t fun us qs => R us (ps ++ qs)) :
    Settles c (Reader.mentioned change >>= f) (Reader.mentioned change >>= g) s R :=
  update ps rfl rfl rfl (hledger _ _) h

theorem closeScope (span : Span) {f g : Unit → Reader β}
    (h : ∀ t, Passes c s [] [.leave] t → Settles c (f ()) (g ()) t fun us qs => R us (.leave :: qs)) :
    Settles c (Reader.update (·.closeScope span) >>= f) (Reader.update (·.closeScope span) >>= g) s R := by
  refine update [.leave] ?_ ?_ (Grows.faults_closeScope s span) (State.ledger_closeScope s _) h <;>
    unfold State.closeScope <;> split <;> rfl

/-- A scope is closed whether or not anything was read in it. -/
theorem run_withScope (span : Span) (p : Reader α) (s : State) : Reader.withScope span p s =
    ((p (s.openScope span)).1,
      (p (s.openScope span)).2.closeScope (p (s.openScope span)).2.behind) := by
  rcases hp : p (s.openScope span) with ⟨_ | a, t⟩ <;>
    simp only [Reader.withScope, Bind.bind, Reader.update, Reader.attempt, hp] <;> rfl

/-- A scope around what is read. -/
theorem withScope (span : Span) {Q : List Token → List Posting → α → Prop}
    (h : ∀ t, Passes c s [] [.enter] t →
      Settles c p q t fun ts ps a _ => Q ts (.enter :: (ps ++ [.leave])) a) :
    Settles c (withScope span p) (withScope span q) s fun ts ps a _ => Q ts ps a := by
  intro hs hclean
  have hopen : Passes c s [] [.enter] (s.openScope span) :=
    .of_sane hs rfl rfl (List.prefix_refl _) hs.faults (State.ledger_openScope s span)
  rw [run_withScope, Grows.faults_closeScope] at hclean
  obtain ⟨hsame, ⟨ts, ps, hpass, hq⟩, hfault⟩ := h _ hopen hopen.sane hclean
  rw [run_withScope, run_withScope, hsame]
  generalize (p (s.openScope span)).2 = t at hpass hfault
  have hclose : Passes c t [] [.leave] (t.closeScope t.behind) := by
    refine .of_sane hpass.sane ?_ ?_ (Grows.faults_closeScope t _ ▸ List.prefix_refl _)
      (Grows.faults_closeScope t _ ▸ hpass.sane.faults) (State.ledger_closeScope t _) <;>
      unfold State.closeScope <;> split <;> rfl
  refine ⟨rfl, ⟨ts, _, ?_, hq⟩, by rw [Grows.faults_closeScope]; exact hfault⟩
  have hall := hopen.trans (hpass.trans hclose)
  rwa [List.nil_append, List.append_nil] at hall

/-! ## Tokens one by one -/

/-- Moving past a token that is there is moving on. -/
theorem eat {k : Kind} {f g : Bool → Reader β} (hk : k ≠ .eof)
    (hyes : ∀ t, s.current.kind = k → Passes c s [s.current] [] t →
      Settles c (f true) (g true) t fun us qs => R (s.current :: us) qs)
    (hno : s.current.kind ≠ k → Settles c (f false) (g false) s R) :
    Settles c (Reader.eat k >>= f) (Reader.eat k >>= g) s R := by
  have heat : ∀ h : Bool → Reader β, (Reader.eat k >>= h) s =
      (Reader.check k >>= fun b => if b then (Reader.advance >>= fun _ => h true) else h false) s := by
    intro h
    simp only [Reader.eat, Reader.check, Reader.get, Bind.bind, Reader.advance]
    cases s.current.kind == k <;> rfl
  rw [Settles, heat, heat]
  exact check (fun hkind => advance (hkind ▸ hk) fun t _ hpass => hyes t hkind hpass) hno

/-- A token that may be left out. -/
theorem eat_atMost {k : Kind} (hk : k ≠ .eof) : Settles c (Reader.eat k) (Reader.eat k) s
    fun ts ps b _ => ps = [] ∧ ∃ o : Option Token, ts = o.toList ∧ IsAtMost k o ∧ b = o.isSome := by
  have hpure : Reader.eat k = Reader.eat k >>= Pure.pure := by
    funext s
    simp only [Bind.bind]
    split <;> rename_i h <;> exact h
  rw [hpure]
  refine eat hk (fun t hkind _ => pure ⟨rfl, some s.current, rfl, ?_, rfl⟩) fun _ =>
    pure ⟨rfl, none, rfl, fun u hu => absurd hu (by simp), rfl⟩
  rintro u ⟨⟩
  exact hkind

/-- A token that has to be there. -/
theorem expect {k : Kind} (hk : k ≠ .eof) : Settles c (expect k) (expect k) s fun ts ps t _ =>
    ts = [t] ∧ ps = [] ∧ t.kind = k ∧ t = s.current := by
  refine check (fun heq => ?_) fun _ => ?_
  · rw [if_pos rfl]
    exact advance (f := Pure.pure) (heq ▸ hk) fun t _ _ => pure ⟨rfl, rfl, heq, rfl⟩
  · rw [if_neg Bool.false_ne_true]
    exact kind (reject _)

theorem identifier : Settles c identifier identifier s fun ts ps i _ =>
    ∃ t, ts = [t] ∧ ps = [] ∧ t.kind = .identifier i.name ∧ i = ⟨i.name, t.span⟩ := by
  refine kind ?_
  split
  · rename_i name hname
    exact advance (by simp [hname]) fun t _ _ => pure ⟨_, rfl, rfl, hname, rfl⟩
  · exact reject _

theorem path : Settles c path path s fun ts ps value _ =>
    ∃ t raw, ts = [t] ∧ ps = [] ∧ t.kind = .string raw value := by
  refine kind ?_
  split
  · rename_i raw value hvalue
    exact advance (by simp [hvalue]) fun t _ _ => pure ⟨_, raw, rfl, rfl, hvalue⟩
  · exact reject _

end Settles

/-- Skipping passes over all tokens that are looked for, and no others. -/
theorem skipOver_passes (look : Kind → Bool) (hlook : look .eof = false) :
    ∀ ahead (s : State), s.Sane c → s.ahead = ahead →
      Passes c s (s.skipOver look ahead).1 [] (s.skipOver look ahead).2 ∧
      (∀ t ∈ (s.skipOver look ahead).1, look t.kind = true) ∧
      look (s.skipOver look ahead).2.current.kind = false
  | [], s, hs, hahead => by
    refine ⟨.refl hs, by simp [State.skipOver], ?_⟩
    have heof : s.current.kind = .eof := by
      by_contra hne
      exact State.ahead_ne_nil hs.ends hne hahead
    rw [State.skipOver, heof, hlook]
  | t :: ts, s, hs, hahead => by
    unfold State.skipOver
    split
    · rename_i hhead
      have hne : s.current.kind ≠ .eof := fun heq => by rw [heq, hlook] at hhead; cases hhead
      have hpass := hs.advance hne
      have hahead' : s.advance.ahead = ts := by rw [State.advance, hahead]
      obtain ⟨hpass', hskipped, hstop⟩ := skipOver_passes look hlook ts s.advance hpass.sane hahead'
      exact ⟨hpass.trans hpass', List.forall_mem_cons.mpr ⟨hhead, hskipped⟩, hstop⟩
    · rename_i hhead
      exact ⟨.refl hs, by simp, Bool.not_eq_true _ ▸ hhead⟩

namespace Settles

theorem skip {look : Kind → Bool} (hlook : look .eof = false) :
    Settles c (skip look) (skip look) s fun ts ps us t =>
      us = ts ∧ ps = [] ∧ (∀ t ∈ ts, look t.kind = true) ∧ look t.current.kind = false := by
  intro hs _
  obtain ⟨hpass, hskipped, hstop⟩ := skipOver_passes look hlook s.ahead s hs rfl
  refine ⟨rfl, ⟨_, _, hpass, fun us hus => ?_⟩, fun ha => absurd ha (by simp [Reader.skip])⟩
  exact ⟨(Option.some.inj hus).symm, rfl, hskipped, hstop⟩

/-- Comments and line breaks before a line goes on are noted. -/
theorem continuation : Settles c continuation continuation s fun ts ps cs _ =>
    IsGap ts ∧ ps = [] ∧ cs = noted ts :=
  last (skip rfl) fun _ _ _ _ _ h => ⟨h.2.2.1, h.2.1, congrArg noted h.1⟩

/-- Separators are passed over as a break. -/
theorem separators : Settles c separators separators s fun ts ps _ t =>
    IsBreak ts ∧ ps = [] ∧ isSeparator t.current.kind = false :=
  last (skip rfl) fun _ _ _ _ _ h => ⟨h.2.2.1, h.2.1, h.2.2.2⟩

/-- Where a statement does not end, the way to the next one is not empty. -/
theorem synchronize : Settles c synchronize synchronize s fun ts _ _ _ =>
    s.current.kind.isTerminator = false → ts ≠ [] := by
  refine bind (skip rfl) fun ts ps us t _ hpass hskip => kind ?_
  have hstuck : s.current.kind.isTerminator = false → ts ≠ [] := by
    rintro hterm rfl
    obtain ⟨-, -, -, hstop⟩ := hskip
    rw [hpass.current, hterm] at hstop
    cases hstop
  split
  · rename_i hsep
    have hne : t.current.kind ≠ .eof := fun heq => by rw [heq] at hsep; cases hsep
    exact advance hne fun u _ _ => pure fun _ => by simp
  · exact pure fun hterm => by simpa using hstuck hterm

theorem terminator : Settles c terminator terminator s fun ts ps _ t =>
    ts = [] ∧ ps = [] ∧ t = s := by
  refine kind (get ?_)
  split
  · exact pure ⟨rfl, rfl, rfl⟩
  · exact reject _

end Settles

end Reader

end ScriptBundler

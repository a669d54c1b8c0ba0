import ScriptBundler.Proofs.Running

/-!
# Proofs/Descent — what is read is derived

On every run, whatever a reader of the grammar yields is derived from the tokens it passed over, by the
rules of `Derives`.  Each reader has a lemma that supposes this of the readers it is given; the readers
that call one another are taken together, by induction on their bound, which suffices because no more than
eight of them call one another before one moves on.
-/

namespace ScriptBundler

open Token (Kind)

namespace Reader

variable {c : Setting} {s t : State} {ts us : List Token} {ps qs : List Posting}

/-- With at most `N` tokens left, `p` and `q` read what `part` makes of their values. -/
def Parses {α : Type} (c : Setting) (N : Nat) (part : α → Part) (p q : Reader α) : Prop :=
  ∀ s : State, s.tokens.length ≤ N → Settles c p q s fun ts ps a _ => Derives c.clean ts ps (part a)

/-- With at most `N` tokens left, `p` and `q` read expressions of level `k`. -/
def ParsesExpr (c : Setting) (N k : Nat) (p q : Reader Expr) : Prop :=
  ∀ s : State, s.tokens.length ≤ N →
    Settles c p q s fun ts ps e _ => Derives c.clean ts ps (.expr e) ∧ k ≤ e.level

/-- With at most `N` tokens left, `p` and `q` read statements, which leave no `else` that could be
theirs. -/
def ParsesStmt (c : Setting) (N : Nat) (p q : Reader Stmt) : Prop :=
  ∀ s : State, s.tokens.length ≤ N → Settles c p q s fun ts ps a t =>
    Derives c.clean ts ps (.stmt a) ∧ (a.isOpen = true → t.current.kind ≠ .keyword .else_)

/-- With at most `N` tokens left, `p` and `q` read blocks. -/
def ParsesBlock (c : Setting) (N : Nat) (p q : Reader Block) : Prop :=
  ∀ s : State, s.tokens.length ≤ N → Settles c p q s fun ts ps b t =>
    ∃ ss, Derives c.clean ts ps (.lines ss) ∧ b = ⟨ss, s.behind.merge t.current.span⟩

theorem ParsesExpr.mono {M N k : Nat} {p q : Reader Expr} (h : ParsesExpr c N k p q) (hM : M ≤ N) :
    ParsesExpr c M k p q := fun s hs => h s (Nat.le_trans hs hM)

theorem ParsesExpr.reads {N k : Nat} {p q : Reader Expr} (h : ParsesExpr c N k p q) :
    Parses c N .expr p q := fun s hs => (h s hs).mono fun _ _ _ _ he => he.1

/-- Nesting reads no other expressions. -/
theorem ParsesExpr.nested {N k : Nat} {p q : Reader Expr} (h : ParsesExpr c N k p q) :
    ParsesExpr c N k (nested p) (nested q) := fun s hs =>
  .nested fun t hpass => h t (by have := hpass.length; rw [List.length_nil] at this; omega)

/-- What passes the first tokens of something moves on. -/
theorem Passes.length_pos {c : Setting} (h : Passes c s ts ps t) (hts : Opens ts) :
    t.tokens.length < s.tokens.length := by
  have hlen := h.length
  have hpos := List.length_pos_iff.mpr hts.ne_nil
  omega

theorem Passes.length_le {c : Setting} (h : Passes c s ts ps t) : t.tokens.length ≤ s.tokens.length :=
  h.onward.length_le

theorem Passes.length_cons {c : Setting} {u : Token} (h : Passes c s (u :: ts) ps t) :
    t.tokens.length < s.tokens.length := by
  have hlen := h.length
  rw [List.length_cons] at hlen
  omega

namespace Settles

/-! ## Operators -/

section Expressions

variable {p q : Reader Expr} [Grows p] {N n m : Nat}

/-- **Operators in a loop**, from the left operand on. -/
theorem joinLeft {ops : List BinaryOp} {k : Nat}
    (hops : ∀ op ∈ ops, op.leftLevel = k ∧ op.rightLevel = k + 1 ∧ op.level = k)
    (hp : ParsesExpr c N (k + 1) p q) (hnm : n ≤ m) (left : Expr) (ls : List Token) (lps : List Posting)
    (s : State) (hN : s.tokens.length ≤ N) (hn : s.tokens.length ≤ n)
    (hl : Derives c.clean ls lps (.expr left)) (hlevel : k ≤ left.level) :
    Settles c (joinLeft ops p n left) (joinLeft ops q m left) s fun ts ps e _ =>
      Derives c.clean (ls ++ ts) (lps ++ ps) (.expr e) ∧ k ≤ e.level := by
  induction n generalizing m left ls lps s with
  | zero => exact absurd s.tokens_pos (by omega)
  | succ n ih =>
    obtain ⟨m, rfl⟩ := Nat.exists_eq_add_of_le' (Nat.le_trans (Nat.succ_pos n) hnm)
    refine kind ?_
    split
    · exact pure (by rw [List.append_nil, List.append_nil]; exact ⟨hl, hlevel⟩)
    · rename_i op hop
      obtain ⟨hleft, hright, hop'⟩ := hops op (List.mem_of_find?_eq_some hop)
      have htoken := List.find?_some hop
      replace htoken : s.current.kind = op.token := (beq_iff_eq.mp htoken).symm
      have hne : s.current.kind ≠ .eof := by
        rw [htoken]
        cases op <;> simp [BinaryOp.token]
      refine advance hne fun t _ hpass => ?_
      refine bind continuation fun gs _ _ u _ hgap h => ?_
      obtain ⟨hgs, rfl, rfl⟩ := h
      have hlen := hpass.length_cons
      have hlen' := hgap.length_le
      refine bind (hp u (by omega)) fun rs rps r v _ hread hr => ?_
      have hlen'' := hread.length_le
      have hbinary : Derives c.clean _ _ (.expr (mkBinary op left _)) :=
        .binary hl (hleft ▸ hlevel) htoken hgs hr.1 (hright ▸ hr.2)
      refine (ih (by omega) _ _ _ v (by omega) (by omega) hbinary (Nat.le_of_eq hop'.symm)).mono ?_
      intro us qs e w he
      simpa using he

/-- **A level of operators**. -/
theorem level {ops : List BinaryOp} {k : Nat}
    (hops : ∀ op ∈ ops, op.leftLevel = k ∧ op.rightLevel = k + 1 ∧ op.level = k)
    (hp : ParsesExpr c N (k + 1) p q) (hnm : n ≤ m) (hn : N ≤ n) :
    ParsesExpr c N k (level n ops p) (level m ops q) := by
  intro s hN
  refine bind (hp s hN) fun ls lps left t _ hpass hl => ?_
  have hlen := hpass.length_le
  exact joinLeft hops hp hnm left ls lps t (by omega) (by omega) hl.1 (Nat.le_of_succ_le hl.2)

/-- All levels of a table, the loosest first. -/
theorem levels (table : List (List BinaryOp)) {k : Nat}
    (htable : ∀ row ∈ table.zipIdx k, ∀ op ∈ row.1,
      op.leftLevel = row.2 ∧ op.rightLevel = row.2 + 1 ∧ op.level = row.2)
    (hp : ParsesExpr c N (k + table.length) p q) (hnm : n ≤ m) (hn : N ≤ n) :
    ParsesExpr c N k (levels n table p) (levels m table q) := by
  induction table generalizing k with
  | nil => exact hp
  | cons ops table ih =>
    rw [List.zipIdx_cons, List.forall_mem_cons] at htable
    show ParsesExpr c N k (Reader.level n ops (Reader.levels n table p)) _
    refine level htable.1 (ih htable.2 ?_) hnm hn
    rwa [List.length_cons, Nat.add_comm table.length, ← Nat.add_assoc] at hp

end Expressions

/-! ## Items between brackets -/

section Items

variable {α : Type} [Item α] {p q : Reader α} [Grows p] {part : α → Part} {N n m : Nat}

/-- Pieces that are derived. -/
def AllDerived (c : Setting) (part : α → Part) (qs : List (Piece α)) : Prop :=
  ∀ x ∈ qs, Derives c.clean x.tokens x.postings (part x.value)

/-- **Items up to a closing bracket**. -/
theorem items (close : Kind) (hpart : ∀ a, (part a).isLines = false) (hp : Parses c N part p q)
    (hnm : n ≤ m) (pending : List Comment) (s : State) (hN : s.tokens.length ≤ N)
    (hn : s.tokens.length ≤ n) :
    Settles c (items close p n pending) (items close q m pending) s fun ts ps r _ =>
      ∃ qs, Listed pending ts qs r ∧ AllDerived c part qs ∧ ps = qs.flatMap Piece.postings ∧
        (s.current.kind ≠ close → qs ≠ []) := by
  induction n generalizing m pending s with
  | zero => exact absurd s.tokens_pos (by omega)
  | succ n ih =>
    obtain ⟨m, rfl⟩ := Nat.exists_eq_add_of_le' (Nat.le_trans (Nat.succ_pos n) hnm)
    refine check (fun hclose => pure ?_) fun _ => ?_
    · exact ⟨[], .nil, by simp [AllDerived], rfl, fun h => absurd hclose h⟩
    rw [if_neg Bool.false_ne_true, if_neg Bool.false_ne_true]
    refine bind (hp s hN) fun as aps a t _ hitem ha => ?_
    refine bind continuation fun gs _ _ u _ hbefore h => ?_
    obtain ⟨hgs, rfl, rfl⟩ := h
    refine bind (eat_atMost (by simp)) fun _ _ _ v _ hcomma h => ?_
    obtain ⟨rfl, comma, rfl, hcomma', rfl⟩ := h
    refine bind continuation fun hs _ _ w _ hafter h => get ?_
    obtain ⟨hhs, rfl, rfl⟩ := h
    have hlen := hitem.length_pos (ha.opens (hpart a))
    have hlen' := (hbefore.trans (hcomma.trans hafter)).length_le
    let piece : Piece α := ⟨as, aps, a⟩
    split
    · rename_i hgoes
      rw [Bool.and_eq_true, Bool.not_eq_true', beq_eq_false_iff_ne] at hgoes
      obtain ⟨o, rfl⟩ := Option.isSome_iff_exists.mp hgoes.1
      rcases htake : Item.takeTrailing (Item.lead a pending) (noted hs) with ⟨b, rest⟩
      refine last (ih (by omega) rest w (by omega) (by omega)) fun ts ps r x _ h => ?_
      obtain ⟨qs, hlisted, hderived, rfl, hsome⟩ := h
      obtain ⟨d, ds, rfl⟩ := List.exists_cons_of_ne_nil (hsome hgoes.2)
      have hcons := Listed.cons (q := piece) hgs (hcomma' o rfl) hhs htake hlisted
      exact ⟨piece :: d :: ds, hcons, List.forall_mem_cons.mpr ⟨ha, hderived⟩, by simp [piece], by simp⟩
    · refine pure ⟨[piece], ?_, by simpa [AllDerived] using ha, by simp [piece], by simp⟩
      have hlast : Listed pending _ [piece] _ := .last hgs hcomma' hhs
      simpa using hlast

/-- What stands between brackets. -/
theorem bracketed (close : Symbol) (hpart : ∀ a, (part a).isLines = false) (hp : Parses c N part p q)
    (hnm : n ≤ m) (hN : s.tokens.length ≤ N) (hn : s.tokens.length ≤ n) :
    Settles c (bracketed n close p) (bracketed m close q) s fun ts ps r _ =>
      ∃ qs, Enclosed close ts qs r ∧ AllDerived c part qs ∧ ps = qs.flatMap Piece.postings := by
  have hsequence : Settles c (sequence n (.symbol close) p) (sequence m (.symbol close) q) s
      fun ts ps r _ => ∃ gs us qs, ts = gs ++ us ∧ IsGap gs ∧ Listed (noted gs) us qs r ∧
        AllDerived c part qs ∧ ps = qs.flatMap Piece.postings := by
    refine bind continuation fun gs _ _ t _ hgap h => ?_
    obtain ⟨hgs, rfl, rfl⟩ := h
    have hlen := hgap.length_le
    refine (items (.symbol close) hpart hp hnm _ t (by omega) (by omega)).mono fun us ps r _ h => ?_
    obtain ⟨qs, hlisted, hderived, hps, -⟩ := h
    exact ⟨gs, us, qs, rfl, hgs, hlisted, hderived, hps⟩
  refine bind hsequence fun _ _ r t _ _ h => ?_
  obtain ⟨gs, us, qs, rfl, hgs, hlisted, hderived, rfl⟩ := h
  refine last (expect (by simp)) fun _ _ o _ _ h => ?_
  obtain ⟨rfl, rfl, ho, -⟩ := h
  refine ⟨qs, ?_, hderived, by simp⟩
  rw [List.append_assoc]
  exact .mk hgs hlisted ho

end Items

/-! ## What follows a primary expression -/

section Expressions

variable {p q : Reader Expr} [Grows p] {N n m : Nat} {base : Expr} {bs : List Token}
  {bps : List Posting}

/-- A call of what was read. -/
theorem call (callee : Expr) (args : List Expr) (span : Span) (inner : List Comment) :
    Settles c (call callee args span inner) (call callee args span inner) s fun ts ps e _ =>
      ts = [] ∧ ps = callPostings callee args ∧ e = ⟨.call callee args, span, { inner }⟩ := by
  unfold Reader.call
  split
  · rename_i name raw value _ _ hname
    split
    · rename_i himport
      refine mentioned [.native value] (fun m inside => ?_) fun t _ => pure ⟨rfl, ?_, rfl⟩
      · simp [Mentions.ledger, Ledger.enter, Ledger.post]
      · simp [callPostings, nativeTarget?, hname, himport]
    · rename_i himport
      exact pure ⟨rfl, by simp [callPostings, nativeTarget?, hname, himport], rfl⟩
  · rename_i hother
    refine pure ⟨rfl, ?_, rfl⟩
    unfold callPostings nativeTarget?
    split
    · rename_i hname
      exact absurd rfl (hother _ _ _ _ _ hname)
    · rfl

/-- An end of a slice. -/
theorem sliceEnd (stop : Kind) (hp : Parses c N .expr p q) (hN : s.tokens.length ≤ N)
    (loose : List Comment) :
    Settles c (sliceEnd stop p loose) (sliceEnd stop q loose) s fun ts ps r _ =>
      ∃ x, SliceEnd loose ts x r ∧ AllDerived c .expr x.toList ∧ ps = x.toList.flatMap Piece.postings := by
  refine bind continuation fun gs _ _ t _ hbefore h => ?_
  obtain ⟨hgs, rfl, rfl⟩ := h
  have hlen := hbefore.length_le
  have hend : Settles c (unlessAt stop p) (unlessAt stop q) t fun ts ps e _ =>
      ∃ x : Option (Piece Expr), e = x.map Piece.value ∧ ts = x.toList.flatMap Piece.tokens ∧
        AllDerived c .expr x.toList ∧ ps = x.toList.flatMap Piece.postings := by
    refine check (fun _ => pure ⟨none, rfl, rfl, by simp [AllDerived], rfl⟩) fun _ => ?_
    rw [if_neg Bool.false_ne_true, if_neg Bool.false_ne_true]
    refine last (hp t (by omega)) fun ts ps e _ _ he => ?_
    exact ⟨some ⟨ts, ps, e⟩, rfl, by simp, by simpa [AllDerived] using he, by simp⟩
  refine bind hend fun _ _ _ u _ _ h => ?_
  obtain ⟨x, rfl, rfl, hx, rfl⟩ := h
  refine last continuation fun hs _ _ _ _ h => ?_
  obtain ⟨hhs, rfl, rfl⟩ := h
  exact ⟨x, .mk hgs hhs, hx, by simp⟩

/-- **What follows a primary expression** goes on it. -/
theorem suffixes (hp : Parses c N .expr p q) (hnm : n ≤ m) (base : Expr) (bs : List Token)
    (bps : List Posting) (s : State) (hN : s.tokens.length ≤ N) (hn : s.tokens.length ≤ n)
    (hbase : Derives c.clean bs bps (.expr base)) (hlevel : 11 ≤ base.level) :
    Settles c (suffixes p n base) (suffixes q m base) s fun ts ps e _ =>
      Derives c.clean (bs ++ ts) (bps ++ ps) (.expr e) ∧ 11 ≤ e.level := by
  induction n generalizing m base bs bps s with
  | zero => exact absurd s.tokens_pos (by omega)
  | succ n ih =>
    obtain ⟨m, rfl⟩ := Nat.exists_eq_add_of_le' (Nat.le_trans (Nat.succ_pos n) hnm)
    -- With a longer expression in hand, which was read from the tokens up to `t`, the loop goes on.
    have hnext : ∀ ts ps {t : State} {e}, t.tokens.length < s.tokens.length →
        Derives c.clean (bs ++ ts) (bps ++ ps) (.expr e) → 11 ≤ e.level →
        Settles c (Reader.suffixes p n e) (Reader.suffixes q m e) t fun us qs e _ =>
          Derives c.clean (bs ++ (ts ++ us)) (bps ++ (ps ++ qs)) (.expr e) ∧ 11 ≤ e.level := by
      intro ts ps t e hlen he hlevel
      refine (ih (by omega) e _ _ t (by omega) (by omega) he hlevel).mono fun us qs e _ h => ?_
      rwa [List.append_assoc, List.append_assoc] at h
    refine kind ?_
    split
    · rename_i hdot
      refine advance (by simp [hdot]) fun t _ hpass => ?_
      refine bind identifier fun _ _ field u _ hpass' h => ?_
      obtain ⟨f, rfl, rfl, hf, hfield⟩ := h
      rw [hfield]
      have hlen := (hpass.trans hpass').length_cons
      exact hnext [s.current, f] [] hlen
        (by rw [List.append_nil]; exact .member hbase hlevel hdot hf) (Nat.le_refl _)
    · rename_i hopen
      refine advance (by simp [hopen]) fun t _ hpass => ?_
      have hlen := hpass.length_cons
      have hsubscript : Settles c (subscript p base) (subscript q base) t fun ts ps e _ =>
          Derives c.clean (bs ++ (s.current :: ts)) (bps ++ ps) (.expr e) ∧ 11 ≤ e.level := by
        refine bind (sliceEnd _ hp (by omega) []) fun us _ r u _ hpass' h => ?_
        obtain ⟨x, hx, hderived, rfl⟩ := h
        obtain ⟨i, loose⟩ := r
        have hlen' := hpass'.length_le
        refine eat (by simp) (fun v hcolon hpass'' => ?_) fun _ => ?_
        · have hlen'' := hpass''.length_cons
          refine bind (sliceEnd _ hp (by omega) loose) fun vs _ r w _ _ h => ?_
          obtain ⟨y, hy, hderived', rfl⟩ := h
          refine last (expect (by simp)) fun _ _ d _ _ h => ?_
          obtain ⟨rfl, rfl, hd, -⟩ := h
          have hslice := Derives.slice hbase hlevel hopen
            (fun z hz => hderived z (Option.mem_toList.mpr hz)) hx hcolon
            (fun z hz => hderived' z (Option.mem_toList.mpr hz)) hy hd
          exact ⟨by simpa using hslice, Nat.le_refl _⟩
        · cases i with
          | none => exact reject _
          | some i =>
            refine last (expect (by simp)) fun _ _ d _ _ h => ?_
            obtain ⟨rfl, rfl, hd, -⟩ := h
            cases x with
            | none => cases hx
            | some x =>
              have hindex := Derives.index hbase hlevel hopen (hderived x (by simp)) hx hd
              exact ⟨by simpa using hindex, Nat.le_refl _⟩
      refine bind hsubscript fun us ups e u _ hpass' he => ?_
      have hlen' := hpass'.length_le
      exact hnext (s.current :: us) ups (by omega) he.1 he.2
    · rename_i hopen
      refine advance (by simp [hopen]) fun t _ hpass => ?_
      have hlen := hpass.length_cons
      refine bind (bracketed .closeParen (fun _ => rfl) hp (by omega) (by omega) (by omega))
        fun us _ r u _ hpass' h => get ?_
      obtain ⟨xs, henclosed, hderived, rfl⟩ := h
      have hlen' := hpass'.length_le
      rw [hpass'.behind henclosed.ne_nil]
      refine bind (call base r.1 _ r.2) fun _ _ _ v _ hpass'' h => ?_
      obtain ⟨rfl, rfl, rfl⟩ := h
      have hlen'' := hpass''.length_le
      have hcall := Derives.call hbase hlevel hopen hderived henclosed
      refine (hnext (s.current :: us) _ (by omega) hcall (Nat.le_refl _)).mono fun _ _ e _ h => ?_
      simpa using h
    · exact pure (by rw [List.append_nil, List.append_nil]; exact ⟨hbase, hlevel⟩)

/-! ## Primary expressions -/

/-- A constant. -/
theorem literal {l : Literal} (hl : s.current.kind = l.kind) (hlevel : 11 ≤ (Expr.Form.literal l).level) :
    Settles c (literal l) (literal l) s fun ts ps e _ =>
      Derives c.clean ts ps (.expr e) ∧ 11 ≤ e.level := by
  have hne : s.current.kind ≠ .eof := by
    rw [hl]
    rcases l with _ | _ | (_ | _) | _ <;> simp [Literal.kind]
  refine advance hne fun t _ _ => ?_
  refine mentioned [.literal l] (fun _ _ => rfl) fun u _ => pure ⟨.literal hl hlevel, hlevel⟩

/-- An expression in parentheses. -/
theorem parenthesized (hp : Parses c N .expr p q) (hN : s.tokens.length ≤ N + 1)
    (hopen : s.current.kind = .symbol .openParen) :
    Settles c (parenthesized p) (parenthesized q) s fun ts ps e _ =>
      Derives c.clean ts ps (.expr e) ∧ 11 ≤ e.level := by
  refine advance (by simp [hopen]) fun t _ hpass => ?_
  refine bind continuation fun gs _ _ u _ hlead h => ?_
  obtain ⟨hgs, rfl, rfl⟩ := h
  have hlen := hpass.length_cons
  have hlen' := hlead.length_le
  refine bind (hp u (by omega)) fun ts ps e v _ _ he => ?_
  refine bind continuation fun hs _ _ w _ _ h => ?_
  obtain ⟨hhs, rfl, rfl⟩ := h
  refine last (expect (by simp)) fun _ _ d _ _ h => ?_
  obtain ⟨rfl, rfl, hd, -⟩ := h
  exact ⟨by simpa using Derives.paren hopen hgs he hhs hd, Nat.le_refl _⟩

/-- A list. -/
theorem list (hp : Parses c N .expr p q) (hnm : n ≤ m) (hN : s.tokens.length ≤ N + 1) (hn : N ≤ n)
    (hopen : s.current.kind = .symbol .openBracket) :
    Settles c (list n p) (list m q) s fun ts ps e _ =>
      Derives c.clean ts ps (.expr e) ∧ 11 ≤ e.level := by
  refine advance (by simp [hopen]) fun t _ hpass => ?_
  have hlen := hpass.length_cons
  refine bind (bracketed .closeBracket (fun _ => rfl) hp hnm (by omega) (by omega))
    fun us _ r u _ hpass' h => get (pure ?_)
  obtain ⟨xs, henclosed, hderived, rfl⟩ := h
  rw [hpass'.behind henclosed.ne_nil, List.append_nil, List.append_nil]
  exact ⟨.list hopen hderived henclosed, Nat.le_refl _⟩

theorem entry (hp : Parses c N .expr p q) : Parses c N .entry (entry p) (entry q) := by
  intro s hN
  refine bind (hp s hN) fun ks kps k t _ hkey hk => ?_
  refine bind continuation fun gs _ _ u _ hbefore h => ?_
  obtain ⟨hgs, rfl, rfl⟩ := h
  refine bind (expect (by simp)) fun _ _ o v _ hcolon h => ?_
  obtain ⟨rfl, rfl, ho, -⟩ := h
  refine bind continuation fun hs _ _ w _ hafter h => ?_
  obtain ⟨hhs, rfl, rfl⟩ := h
  have hlen := (hkey.trans (hbefore.trans (hcolon.trans hafter))).length_le
  refine last (hp w (by omega)) fun vs vps v _ _ hv => ?_
  simpa using Derives.entry hk hgs ho hhs hv

/-- A map. -/
theorem map (hp : Parses c N .expr p q) (hnm : n ≤ m) (hN : s.tokens.length ≤ N + 1) (hn : N ≤ n)
    (hopen : s.current.kind = .symbol .openBrace) :
    Settles c (map n p) (map m q) s fun ts ps e _ =>
      Derives c.clean ts ps (.expr e) ∧ 11 ≤ e.level := by
  refine advance (by simp [hopen]) fun t _ hpass => ?_
  have hlen := hpass.length_cons
  refine bind (bracketed .closeBrace (fun _ => rfl) (entry hp) hnm (by omega) (by omega))
    fun us _ r u _ hpass' h => get (pure ?_)
  obtain ⟨xs, henclosed, hderived, rfl⟩ := h
  rw [hpass'.behind henclosed.ne_nil, List.append_nil, List.append_nil]
  exact ⟨.map hopen hderived henclosed, Nat.le_refl _⟩

theorem param (hp : Parses c N .expr p q) : Parses c N .param (param p) (param q) := by
  intro s hN
  refine bind identifier fun _ _ name t _ hname h => ?_
  obtain ⟨i, rfl, rfl, hi, hname'⟩ := h
  rw [hname']
  refine mention _ fun u hpass => eat (by simp) (fun v hassign hpass' => ?_) fun _ => pure (.param hi)
  have hlen := (hname.trans (hpass.trans hpass')).length_le
  refine last (hp v (by omega)) fun ts ps v _ _ hv => ?_
  exact .default hi hassign hv

/-- The two words at the end of a block. -/
theorem blockEnd (word : Keyword) (opener : Span) :
    Settles c (blockEnd word opener) (blockEnd word opener) s fun ts ps span _ =>
      ∃ w, ts = [s.current, w] ∧ ps = [] ∧ s.current.kind = .keyword .end_ ∧ w.kind = .keyword word ∧
        span = w.span := by
  refine check (fun hend => ?_) fun _ => ?_
  · rw [if_pos rfl]
    refine advance (by simp [hend]) fun t _ _ => last (expect (by simp)) fun _ _ w _ _ h => ?_
    obtain ⟨rfl, rfl, hw, -⟩ := h
    exact ⟨w, rfl, rfl, hend, hw, rfl⟩
  · rw [if_neg Bool.false_ne_true]
    exact kind (reject _)

/-- The parameters of a function. -/
theorem params (hp : Parses c N .expr p q) (hnm : n ≤ m) (hN : s.tokens.length ≤ N) (hn : N ≤ n) :
    Settles c (params n p) (params m q) s fun ts ps r _ =>
      ∃ qs, Parameters ts qs r ∧ AllDerived c .param qs ∧ ps = qs.flatMap Piece.postings := by
  refine eat (by simp) (fun t hopen hpass => ?_) fun _ =>
    pure ⟨[], .none, by simp [AllDerived], rfl⟩
  have hlen := hpass.length_cons
  refine (bracketed .closeParen (fun _ => rfl) (param hp) hnm (by omega) (by omega)).mono
    fun ts ps r _ h => ?_
  obtain ⟨qs, henclosed, hderived, hps⟩ := h
  exact ⟨qs, .some hopen henclosed, hderived, hps⟩

/-- **A function**. -/
theorem function {body body' : Reader Block} [Grows body] (hp : Parses c N .expr p q) (hnm : n ≤ m)
    (hbody : ParsesBlock c N body body') (hN : s.tokens.length ≤ N + 1) (hn : N ≤ n)
    (hword : s.current.kind = .keyword .function) :
    Settles c (function n p body) (function m q body') s fun ts ps e _ =>
      Derives c.clean ts ps (.expr e) ∧ 11 ≤ e.level := by
  refine advance (by simp [hword]) fun t _ hpass => ?_
  have hlen := hpass.length_cons
  refine withScope _ fun u hopen => ?_
  have hlen' := hopen.length_le
  refine bind (params hp hnm (by omega) hn) fun us _ r v _ hparams h => ?_
  obtain ⟨xs, hparameters, hderived, rfl⟩ := h
  have hlen'' := hparams.length_le
  refine bind (hbody v (by omega)) fun vs vps b w _ _ h => ?_
  obtain ⟨ss, hss, rfl⟩ := h
  refine last (blockEnd _ _) fun _ _ _ _ _ h => ?_
  obtain ⟨e, rfl, rfl, hend, he, rfl⟩ := h
  have hbehind : v.behind = lastSpan (s.current :: us) :=
    (hpass.trans (hopen.trans hparams)).behind (List.cons_ne_nil _ _)
  rw [hbehind]
  refine ⟨?_, Nat.le_refl _⟩
  simpa using Derives.function hword hderived hparameters hss hend he

/-! ## Directives -/

theorem directiveName (hhash : s.current.kind = .symbol .hash) :
    Settles c directiveName directiveName s fun ts ps r _ =>
      ∃ n, ts = [s.current, n] ∧ ps = [] ∧ n.kind = .identifier r.2 ∧ r.1 = s.current.span := by
  refine advance (by simp [hhash]) fun t _ _ => kind ?_
  split
  · rename_i name hname
    exact advance (by simp [hname]) fun u _ _ => pure ⟨t.current, rfl, rfl, hname, rfl⟩
  · exact reject _

theorem directiveEnd (start : Span) {u : State} {ls : List Token} (hpass : Passes c u ls ps s)
    (hls : ls ≠ []) :
    Settles c (directiveEnd start) (directiveEnd start) s fun ts ps span _ =>
      ∃ semi : Option Token, ts = semi.toList ∧ ps = [] ∧ IsAtMost (.symbol .semicolon) semi ∧
        span = start.merge (lastSpan (ls ++ ts)) := by
  refine bind (eat_atMost (by simp)) fun _ _ _ t _ hpass' h => get (pure ?_)
  obtain ⟨rfl, semi, rfl, hsemi, -⟩ := h
  rw [List.append_nil, (hpass.trans hpass').behind (by simp [hls])]
  exact ⟨semi, rfl, rfl, hsemi, rfl⟩

/-- What follows the word of a directive for a value. -/
theorem directiveValue {start : Span} (hstart : c.site start) (name : String) :
    Settles c (directiveValue start name) (directiveValue start name) s fun ts ps d _ =>
      ValueDirective.Follows name ts d ∧ ps = d.postings := by
  unfold Reader.directiveValue
  split
  · refine last identifier fun _ _ i _ _ h => ?_
    obtain ⟨t, rfl, rfl, hi, -⟩ := h
    exact ⟨.envar hi, rfl⟩
  · refine bind path fun _ _ target t _ _ h => get ?_
    obtain ⟨v, raw, rfl, rfl, hv⟩ := h
    refine mentioned [.mention (.inject target)] (fun m inside => ?_) fun u _ => pure ⟨.inject hv, rfl⟩
    simp [Mentions.ledger, Ledger.enter, Ledger.post]
  · exact pure ⟨.line, rfl⟩
  · exact pure ⟨.filename, rfl⟩
  · exact get (rejectAt _ _ fun hs => c.merge _ _ hstart hs.behind)

/-- A directive that stands for a value. -/
theorem valueDirective (hhash : s.current.kind = .symbol .hash) :
    Settles c valueDirective valueDirective s fun ts ps e _ =>
      Derives c.clean ts ps (.expr e) ∧ 11 ≤ e.level := by
  refine bind (directiveName hhash) fun _ _ r t hs hname h => ?_
  obtain ⟨n, rfl, rfl, hn, hstart⟩ := h
  obtain ⟨start, name⟩ := r
  obtain rfl : start = s.current.span := hstart
  refine bind (directiveValue (hs.sites _ (List.mem_cons_self ..)) name) fun ts _ d u _ hvalue h => ?_
  obtain ⟨hd, rfl⟩ := h
  refine last (directiveEnd _ (hname.trans hvalue) (List.cons_ne_nil _ _)) fun _ _ _ _ _ h => ?_
  obtain ⟨semi, rfl, rfl, hsemi, rfl⟩ := h
  refine ⟨?_, Nat.le_refl _⟩
  simpa using Derives.directive hhash hn hd hsemi

/-- What follows the word of a directive. -/
theorem directiveStmt {u : State} {n : Token} (name : String) (hs : u.Sane c)
    (hname : Passes c u [u.current, n] [] s) (hhash : u.current.kind = .symbol .hash)
    (hn : n.kind = .identifier name) :
    Settles c (directiveStmt u.current.span name) (directiveStmt u.current.span name) s
      fun ts ps a _ => Derives c.clean (u.current :: n :: ts) ps (.stmt a) ∧ a.isOpen = false := by
  unfold Reader.directiveStmt
  split
  · refine bind identifier fun _ _ bound v _ hpass h => ?_
    obtain ⟨i, rfl, rfl, hi, hbound⟩ := h
    have hfrom : Settles c fromWord fromWord v fun ts ps _ _ =>
        ∃ f, ts = [f] ∧ ps = [] ∧ f.kind = .identifier "from" := by
      refine kind ?_
      split
      · rename_i hkind
        exact advance (by simp [hkind]) fun t _ _ => pure ⟨v.current, rfl, rfl, hkind⟩
      · exact reject _
    refine bind hfrom fun _ _ _ w _ hpass' h => ?_
    obtain ⟨f, rfl, rfl, hf⟩ := h
    refine bind path fun _ _ target x _ hpass'' h => ?_
    obtain ⟨t, raw, rfl, rfl, ht⟩ := h
    have hall := hname.trans (hpass.trans (hpass'.trans hpass''))
    refine bind (directiveEnd _ hall (List.cons_ne_nil _ _)) fun _ _ _ y _ _ h => ?_
    obtain ⟨semi, rfl, rfl, hsemi, rfl⟩ := h
    refine mention _ fun z _ => mentioned [.mention (.import_ target)] (fun m inside => ?_) fun _ _ =>
      pure ⟨?_, rfl⟩
    · simp [Mentions.ledger, Ledger.enter, Ledger.post]
    · rw [hbound]
      simpa [Directive.postings, Directive.mentions] using
        Derives.mark hhash hn (.import_ hi hf ht) hsemi
  · refine bind path fun _ _ target x _ hpass h => ?_
    obtain ⟨t, raw, rfl, rfl, ht⟩ := h
    refine bind (directiveEnd _ (hname.trans hpass) (List.cons_ne_nil _ _)) fun _ _ _ y _ _ h => ?_
    obtain ⟨semi, rfl, rfl, hsemi, rfl⟩ := h
    refine mentioned [.mention (.include_ target)] (fun m inside => ?_) fun _ _ => pure ⟨?_, rfl⟩
    · simp [Mentions.ledger, Ledger.enter, Ledger.post]
    · simpa [Directive.postings, Directive.mentions] using Derives.mark hhash hn (.include_ ht) hsemi
  · refine last (directiveEnd _ hname (List.cons_ne_nil _ _)) fun _ _ _ _ _ h => ?_
    obtain ⟨semi, rfl, rfl, hsemi, rfl⟩ := h
    exact ⟨.mark hhash hn .debugger hsemi, rfl⟩
  · exact get (rejectAt _ _ fun hs' => c.merge _ _ (hs.sites _ (List.mem_cons_self ..)) hs'.behind)

/-! ## Statements -/

/-- A statement that does not wait for an `else`. -/
theorem of_closed {p q : Reader Stmt} (h : Settles c p q s fun ts ps a _ =>
      Derives c.clean ts ps (.stmt a) ∧ a.isOpen = false) :
    Settles c p q s fun ts ps a t =>
      Derives c.clean ts ps (.stmt a) ∧ (a.isOpen = true → t.current.kind ≠ .keyword .else_) :=
  h.mono fun _ _ _ _ ha => ⟨ha.1, fun hopen => absurd (ha.2.symm.trans hopen) Bool.false_ne_true⟩

theorem statementDirective (hhash : s.current.kind = .symbol .hash) :
    Settles c statementDirective statementDirective s fun ts ps a _ =>
      Derives c.clean ts ps (.stmt a) ∧ a.isOpen = false := by
  refine bind (directiveName hhash) fun _ _ r t hs hname h => ?_
  obtain ⟨n, rfl, rfl, hn, hstart⟩ := h
  obtain ⟨start, name⟩ := r
  obtain rfl : start = s.current.span := hstart
  exact directiveStmt name hs hname hhash hn

/-- Arguments of a call without parentheses. -/
theorem commandArgs (hp : Parses c N .expr p q) (hnm : n ≤ m) (first : Expr) (fs : List Token)
    (fps : List Posting) (pending : List Comment) (s : State) (hN : s.tokens.length ≤ N)
    (hn : s.tokens.length ≤ n) (hfirst : Derives c.clean fs fps (.expr first)) :
    Settles c (commandArgs p n (Item.lead first pending)) (commandArgs q m (Item.lead first pending)) s
      fun ts ps args _ => ∃ xs, Arguments pending (fs ++ ts) xs args ∧ AllDerived c .expr xs ∧
        fps ++ ps = xs.flatMap Piece.postings := by
  induction n generalizing m first fs fps pending s with
  | zero => exact absurd s.tokens_pos (by omega)
  | succ n ih =>
    obtain ⟨m, rfl⟩ := Nat.exists_eq_add_of_le' (Nat.le_trans (Nat.succ_pos n) hnm)
    let piece : Piece Expr := ⟨fs, fps, first⟩
    refine eat (by simp) (fun t hcomma hpass => ?_) fun _ => pure ?_
    · refine bind continuation fun gs _ _ u _ hgap h => ?_
      obtain ⟨hgs, rfl, rfl⟩ := h
      rcases htake : Item.takeTrailing (Item.lead first pending) (noted gs) with ⟨a, rest⟩
      have hlen := hpass.length_cons
      have hlen' := hgap.length_le
      refine bind (hp u (by omega)) fun es eps next v _ hread hnext => ?_
      have hlen'' := hread.length_le
      refine last (ih (by omega) next es eps rest v (by omega) (by omega) hnext)
        fun ts ps args _ _ h => ?_
      obtain ⟨xs, hargs, hderived, hps⟩ := h
      have hcons := Arguments.cons (q := piece) hcomma hgs htake hargs
      refine ⟨piece :: xs, hcons, List.forall_mem_cons.mpr ⟨hfirst, hderived⟩, ?_⟩
      rw [List.flatMap_cons, ← hps]
      simp [piece]
    · refine ⟨[piece], ?_, by simpa [AllDerived] using hfirst, by simp [piece]⟩
      rw [List.append_nil]
      exact .last (q := piece)

/-- What follows the expression a statement starts with. -/
theorem simpleRest {e : Expr} {es : List Token} {eps : List Posting} (hp : Parses c N .expr p q)
    (hnm : n ≤ m) (hN : s.tokens.length ≤ N) (hn : N ≤ n) (he : Derives c.clean es eps (.expr e))
    (hsite : c.site e.span) :
    Settles c (simpleRest n p e) (simpleRest m q e) s fun ts ps a _ =>
      Derives c.clean (es ++ ts) (eps ++ ps) (.stmt a) ∧ a.isOpen = false := by
  refine kind ?_
  split
  · rename_i op hop
    have hne : s.current.kind ≠ .eof := fun heq => by rw [heq] at hop; cases hop
    split
    · rename_i htarget
      refine advance hne fun t _ hpass => ?_
      have hlen := hpass.length_cons
      exact last (hp t (by omega)) fun vs vps v _ _ hv => ⟨.assign he htarget hop hv, rfl⟩
    · exact rejectAt _ _ fun _ => hsite
  · refine kind ?_
    split
    · rename_i hargs
      have htarget : isTarget e = true := (Bool.and_eq_true .. ▸ hargs).2
      refine bind (hp s hN) fun fs fps f t _ hpass hf => ?_
      have hlen := hpass.length_le
      have hlead : Item.lead f [] = f := by cases f; rfl
      rw [← hlead]
      refine bind (commandArgs hp hnm f fs fps [] t (by omega) (by omega) hf) fun ts ps args u _ _ h => ?_
      obtain ⟨xs, hxs, hderived, hps⟩ := h
      refine last (call e args _ []) fun _ _ _ _ _ h => ?_
      obtain ⟨rfl, rfl, rfl⟩ := h
      refine ⟨?_, rfl⟩
      have hcommand := Derives.command he htarget hderived hxs rfl
      rw [← hps] at hcommand
      simpa using hcommand
    · exact pure (by rw [List.append_nil, List.append_nil]; exact ⟨.simple he, rfl⟩)

/-- A statement that starts with an expression. -/
theorem simple (hp : Parses c N .expr p q) (hnm : n ≤ m) (hN : s.tokens.length ≤ N) (hn : N ≤ n) :
    Settles c (simple n p) (simple m q) s fun ts ps a _ =>
      Derives c.clean ts ps (.stmt a) ∧ a.isOpen = false := by
  refine bind (hp s hN) fun es eps e t hs hpass he => ?_
  have hlen := hpass.length_le
  exact simpleRest hp hnm (by omega) hn he (he.at c.merge (hpass.sites hs))

theorem return_ (hp : Parses c N .expr p q) (hN : s.tokens.length ≤ N + 1)
    (hword : s.current.kind = .keyword .return_) :
    Settles c (return_ p) (return_ q) s fun ts ps a _ =>
      Derives c.clean ts ps (.stmt a) ∧ a.isOpen = false := by
  refine advance (by simp [hword]) fun t _ hpass => kind ?_
  have hlen := hpass.length_cons
  split
  · exact pure ⟨.leave hword, rfl⟩
  · exact last (hp t (by omega)) fun ts ps v _ _ hv => ⟨.return_ hword hv, rfl⟩

/-- A `while` loop. -/
theorem while_ {body body' : Reader Block} [Grows body] (hp : Parses c N .expr p q)
    (hbody : ParsesBlock c N body body') (hN : s.tokens.length ≤ N + 1)
    (hword : s.current.kind = .keyword .while_) :
    Settles c (while_ p body) (while_ q body') s fun ts ps a _ =>
      Derives c.clean ts ps (.stmt a) ∧ a.isOpen = false := by
  refine advance (by simp [hword]) fun t _ hpass => ?_
  have hlen := hpass.length_cons
  refine bind (hp t (by omega)) fun ts ps d u _ hcond hd => ?_
  have hlen' := hcond.length_le
  refine bind (hbody u (by omega)) fun us qs b v _ _ h => ?_
  obtain ⟨ss, hss, rfl⟩ := h
  refine last (blockEnd _ _) fun _ _ _ _ _ h => ?_
  obtain ⟨z, rfl, rfl, hend, hz, rfl⟩ := h
  rw [(hpass.trans hcond).behind (List.cons_ne_nil _ _)]
  refine ⟨?_, rfl⟩
  simpa using Derives.while_ hword hd hss hend hz

/-- A `for` loop. -/
theorem for_ {body body' : Reader Block} [Grows body] (hp : Parses c N .expr p q)
    (hbody : ParsesBlock c N body body') (hN : s.tokens.length ≤ N + 1)
    (hword : s.current.kind = .keyword .for_) :
    Settles c (for_ p body) (for_ q body') s fun ts ps a _ =>
      Derives c.clean ts ps (.stmt a) ∧ a.isOpen = false := by
  refine advance (by simp [hword]) fun t _ hpass => ?_
  refine bind identifier fun _ _ item u _ hitem h => ?_
  obtain ⟨i, rfl, rfl, hi, hitem'⟩ := h
  refine mention _ fun v hpass' => ?_
  refine bind (expect (by simp)) fun _ _ n w _ hin h => ?_
  obtain ⟨rfl, rfl, hn, -⟩ := h
  have hall := hpass.trans (hitem.trans (hpass'.trans hin))
  have hlen := hall.length_cons
  refine bind (hp w (by omega)) fun ts ps d x _ hcond hd => ?_
  have hlen' := hcond.length_le
  refine bind (hbody x (by omega)) fun us qs b y _ _ h => ?_
  obtain ⟨ss, hss, rfl⟩ := h
  refine last (blockEnd _ _) fun _ _ _ _ _ h => ?_
  obtain ⟨z, rfl, rfl, hend, hz, rfl⟩ := h
  rw [(hall.trans hcond).behind (List.cons_ne_nil _ _), hitem']
  refine ⟨?_, rfl⟩
  simpa using Derives.for_ hword hi hn hd hss hend hz

/-! ## Conditions -/

variable {block block' : (Kind → Bool) → Reader Block} [∀ stop, Grows (block stop)]
  {stmt stmt' : Reader Stmt} [Grows stmt]

/-- What follows a clause, if it is closed in the end. -/
theorem clausesAfter {more more' : Span → Expr → Reader (List Clause × Option Block)}
    [∀ start e, Grows (more start e)] (hp : Parses c N .expr p q)
    (hblock : ∀ stop, ParsesBlock c N (block stop) (block' stop)) (hN : s.tokens.length ≤ N)
    (hmore : ∀ {es eps e n} (t : State) (start : Span), t.tokens.length < s.tokens.length →
      t.behind = n.span → Derives c.clean es eps (.expr e) → n.kind = .keyword .then_ →
      Settles c (more start e) (more' start e) t fun ts ps r u => ∀ w, u.current.kind = .keyword .end_ →
        w.kind = .keyword .if_ →
        Derives c.clean (es ++ (n :: (ts ++ [u.current, w]))) (eps ++ ps) (.arms start r)) :
    Settles c (clausesAfter p block more) (clausesAfter q block' more') s fun ts ps r t =>
      ∀ w, t.current.kind = .keyword .end_ → w.kind = .keyword .if_ →
        ∃ us, ts ++ [t.current, w] = s.current :: us ∧
          Derives c.clean (s.current :: us) ps (.clauses r) := by
  refine check (fun helse => ?_) fun _ => ?_
  · rw [if_pos rfl, if_pos rfl]
    refine advance (by simp [helse]) fun t _ hpass => ?_
    have hlen := hpass.length_cons
    refine eat (by simp) (fun u hif hpass' => ?_) fun _ => ?_
    · rw [if_pos rfl, if_pos rfl]
      have hlen' := hpass'.length_cons
      refine bind (hp u (by omega)) fun es eps e v _ hcond he => ?_
      refine bind (expect (by simp)) fun _ _ n x _ hthen h => ?_
      obtain ⟨rfl, rfl, hn, -⟩ := h
      have hlen'' := (hcond.trans hthen).length_le
      refine (hmore x _ (by omega) (hthen.behind (List.cons_ne_nil _ _)) he hn).mono
        fun ts ps r y h w hend hw => ?_
      refine ⟨t.current :: (es ++ (n :: (ts ++ [y.current, w]))), by simp, ?_⟩
      exact .elseIf helse hif (by simpa using h w hend hw)
    · rw [if_neg Bool.false_ne_true, if_neg Bool.false_ne_true]
      refine last (hblock _ t (by omega)) fun us ps b u _ h w hend hw => ?_
      obtain ⟨ss, hss, rfl⟩ := h
      rw [hpass.behind (List.cons_ne_nil _ _)]
      exact ⟨us ++ [u.current, w], rfl, .else_ helse hss hend hw⟩
  · rw [if_neg Bool.false_ne_true, if_neg Bool.false_ne_true]
    exact pure fun w hend hw => ⟨[w], rfl, .closed hend hw⟩

/-- **The clauses of an `if` with blocks**. -/
theorem clauses (hp : Parses c N .expr p q)
    (hblock : ∀ stop, ParsesBlock c N (block stop) (block' stop)) (hnm : n ≤ m) (start : Span)
    {e : Expr} {es : List Token} {eps : List Posting} {h : Token} (s : State)
    (hN : s.tokens.length ≤ N) (hn : s.tokens.length ≤ n) (hbehind : s.behind = h.span)
    (he : Derives c.clean es eps (.expr e)) (hthen : h.kind = .keyword .then_) :
    Settles c (clauses p block n start e) (clauses q block' m start e) s fun ts ps r t =>
      ∀ w, t.current.kind = .keyword .end_ → w.kind = .keyword .if_ →
        Derives c.clean (es ++ (h :: (ts ++ [t.current, w]))) (eps ++ ps) (.arms start r) := by
  induction n generalizing m start e es eps h s with
  | zero => exact absurd s.tokens_pos (by omega)
  | succ n ih =>
    obtain ⟨m, rfl⟩ := Nat.exists_eq_add_of_le' (Nat.le_trans (Nat.succ_pos n) hnm)
    refine bind (hblock _ s hN) fun us ups b t _ hpass hb => ?_
    obtain ⟨ss, hss, rfl⟩ := hb
    have hlen := hpass.length_le
    refine last (clausesAfter hp hblock (by omega) fun t' start' ht' hbehind' he' hthen' =>
      ih (by omega) start' t' (by omega) (by omega) hbehind' he' hthen')
      fun vs vps r u _ hr w hend hw => ?_
    obtain ⟨ws, heq, hclauses⟩ := hr w hend hw
    have harm : Derives c.clean _ _ (.arms start _) := .arm he hthen hss hclauses
    rw [← heq] at harm
    rw [hbehind]
    simpa using harm

/-- Whether a statement that follows an `else` goes on the clauses is told by its first token. -/
theorem inlineElse_eq {b : Stmt} (hb : Derives c.clean ts ps (.stmt b)) (hpass : Passes c s ts ps t) :
    inlineElse (s.current.kind == .keyword .if_) b = inlineElse true b := by
  cases hin : b.isInline with
  | false => rw [Stmt.inlineElse_of_not_isInline _ hin, Stmt.inlineElse_of_not_isInline _ hin]
  | true =>
    obtain ⟨w, us, rfl, hw⟩ := hb.if_of_isInline hin
    rw [← hpass.head, hw]
    rfl

theorem isOpen_mkInline (start : Span) (e : Expr) (a : Stmt) (r : List Clause × Option Block) :
    (mkInline start e a r).isOpen = r.2.isNone := by
  obtain ⟨cs, _ | b⟩ := r <;> rfl

/-- An `else` that leaves further clauses open has a statement that is open. -/
theorem isOpen_of_inlineElse {b : Stmt} (h : (inlineElse true b).2 = none) : b.isOpen = true := by
  obtain ⟨form, span⟩ := b
  unfold inlineElse at h
  split at h
  · rename_i clauses last _ hform
    obtain rfl : form = .if_ clauses last true := hform
    obtain rfl : last = none := h
    rfl
  · cases h

/-- An `if` on one line, from its first statement on. -/
theorem inlineIf (hstmt : ParsesStmt c N stmt stmt') (hN : s.tokens.length ≤ N) {w h : Token} {e : Expr}
    {es : List Token} {eps : List Posting} (hword : w.kind = .keyword .if_)
    (he : Derives c.clean es eps (.expr e)) (hthen : h.kind = .keyword .then_) :
    Settles c (inlineIf stmt w.span e) (inlineIf stmt' w.span e) s fun ts ps a t =>
      Derives c.clean (w :: (es ++ (h :: ts))) (eps ++ ps) (.stmt a) ∧
        (a.isOpen = true → t.current.kind ≠ .keyword .else_) := by
  refine bind (hstmt s hN) fun us ups a t _ hpass ha => ?_
  have hlen := hpass.length_le
  have hrest : Settles c (inlineRest stmt) (inlineRest stmt') t fun vs vps r u =>
      Derives c.clean (w :: (es ++ (h :: (us ++ vs)))) (eps ++ (ups ++ vps))
          (.stmt (mkInline w.span e a r)) ∧
        (r.2 = none → u.current.kind ≠ .keyword .else_) := by
    refine eat (by simp) (fun u helse hpass' => get ?_) fun hno => pure ⟨?_, fun _ => hno⟩
    · have hlen' := hpass'.length_cons
      refine last (hstmt u (by omega)) fun vs vps b v hread hb => ?_
      rw [inlineElse_eq hb.1 hread]
      refine ⟨.inlineElse hword he hthen ha.1 ?_ helse hb.1, fun hnone => ?_⟩
      · exact Bool.not_eq_true _ ▸ fun hopen => ha.2 hopen helse
      · exact hb.2 (isOpen_of_inlineElse hnone)
    · rw [List.append_nil, List.append_nil]
      exact .inline hword he hthen ha.1
  refine last hrest fun vs vps r u _ hr => ⟨hr.1, fun hopen => hr.2 ?_⟩
  have := isOpen_mkInline w.span e a r
  exact Option.isNone_iff_eq_none.mp (this.symm.trans hopen)

/-- **An `if`** of either shape. -/
theorem if_ (hp : Parses c N .expr p q) (hblock : ∀ stop, ParsesBlock c N (block stop) (block' stop))
    (hstmt : ParsesStmt c N stmt stmt') (hnm : n ≤ m) (hN : s.tokens.length ≤ N + 1) (hn : N ≤ n)
    (hword : s.current.kind = .keyword .if_) :
    Settles c (if_ n p block stmt) (if_ m q block' stmt') s fun ts ps a t =>
      Derives c.clean ts ps (.stmt a) ∧ (a.isOpen = true → t.current.kind ≠ .keyword .else_) := by
  refine advance (by simp [hword]) fun t _ hpass => ?_
  have hlen := hpass.length_cons
  refine bind (hp t (by omega)) fun es eps e u _ hcond he => ?_
  refine bind (expect (by simp)) fun _ _ h v _ hthen hread => kind ?_
  obtain ⟨rfl, rfl, hh, -⟩ := hread
  have hlen' := (hcond.trans hthen).length_le
  split
  · have hbehind : v.behind = h.span := hthen.behind (List.cons_ne_nil _ _)
    refine bind (clauses hp hblock hnm _ v (by omega) (by omega) hbehind he hh)
      fun us ups r x _ _ hr => ?_
    refine last (blockEnd _ _) fun _ _ _ _ _ h => ?_
    obtain ⟨w, rfl, rfl, hend, hw, rfl⟩ := h
    have hif := Derives.if_ hword (hr w hend hw)
    have hlast : lastSpan (es ++ (h :: (us ++ [x.current, w]))) = w.span := by
      have happend : es ++ (h :: (us ++ [x.current, w])) = (es ++ (h :: (us ++ [x.current]))) ++ [w] := by
        simp
      rw [happend, lastSpan, List.getLast?_concat]
      rfl
    rw [hlast] at hif
    refine ⟨by simpa using hif, fun hopen => absurd hopen (by simp [Stmt.isOpen])⟩
  · refine (inlineIf hstmt (by omega) hword he hh).mono fun ts ps a _ ha => ?_
    simpa using ha

end Expressions

/-! ## Blocks -/

section Blocks

variable {stmt stmt' : Reader Stmt} [Grows stmt] {next next' : Reader (Option Stmt)} [Grows next]
  {N n m : Nat}

theorem isTerminator_eq_false {k : Kind} (hne : k ≠ .eof) (hsep : isSeparator k = false)
    (hcomment : ∀ text, k = .comment text → False) : k.isTerminator = false := by
  cases k with
  | comment text => exact (hcomment text rfl).elim
  | newline => cases hsep
  | eof => exact absurd rfl hne
  | symbol sign =>
    cases sign with
    | semicolon => cases hsep
    | _ => rfl
  | _ => rfl

/-- What a line stands for: a comment, a statement or nothing that could be read. -/
inductive LineOf (clean : Prop) : List Token → List Posting → Option Stmt → Prop
  | comment {t : Token} {text : String} : t.kind = .comment text →
      LineOf clean [t] [] (some ⟨.comment text, t.span⟩)
  | stmt {ts : List Token} {ps : List Posting} {a : Stmt} : Derives clean ts ps (.stmt a) →
      LineOf clean ts ps (some a)
  | lost {ts : List Token} {ps : List Posting} : ¬clean → ts ≠ [] → LineOf clean ts ps none

theorem LineOf.ne_nil {clean : Prop} {r : Option Stmt} (h : LineOf clean ts ps r) : ts ≠ [] := by
  cases h with
  | comment => exact List.cons_ne_nil _ _
  | stmt ha => exact (ha.opens rfl).ne_nil
  | lost _ hts => exact hts

/-- With at most `N` tokens left, `p` and `q` read lines where one can start. -/
def ParsesLine (c : Setting) (N : Nat) (p q : Reader (Option Stmt)) : Prop :=
  ∀ s : State, s.tokens.length ≤ N → s.current.kind ≠ .eof → isSeparator s.current.kind = false →
    Settles c p q s fun ts ps r _ => LineOf c.clean ts ps r

/-- **A line moves on**, whether or not it can be read. -/
theorem line (hstmt : ParsesStmt c N stmt stmt') : ParsesLine c N (line stmt) (line stmt') := by
  intro s hN hne hsep
  refine kind ?_
  split
  · rename_i text htext
    exact advance hne fun t _ _ => pure (.comment htext)
  · rename_i hcomment
    have hterm := isTerminator_eq_false hne hsep hcomment
    have hread : Settles c (do let a ← stmt; Reader.terminator; return a)
        (do let a ← stmt'; Reader.terminator; return a) s fun ts ps a _ =>
          Derives c.clean ts ps (.stmt a) := by
      refine bind (hstmt s hN) fun ts ps a t _ _ ha => last terminator fun _ _ _ _ _ h => ?_
      obtain ⟨rfl, rfl, -⟩ := h
      rw [List.append_nil, List.append_nil]
      exact ha.1
    refine bind hread.attempt fun ts ps r t _ hpass hr => ?_
    cases r with
    | some a => exact pure (by rw [List.append_nil, List.append_nil]; exact .stmt (hr.1 a rfl))
    | none =>
      -- a statement that fails at its first token leaves it to what is passed over
      refine last synchronize fun us qs _ u _ hsync => .lost (hr.2 rfl) ?_
      rintro hnil
      obtain ⟨rfl, rfl⟩ := List.append_eq_nil_iff.mp hnil
      exact hsync (hpass.current ▸ hterm) rfl

/-- A line at the top level. -/
theorem topLine (hstmt : ParsesStmt c N stmt stmt') : ParsesLine c N (topLine stmt) (topLine stmt') := by
  intro s hN hne hsep
  refine kind ?_
  split
  · refine get (report _ (fun hs => hs.sites _ (List.mem_cons_self ..)) fun t hfault hpass => ?_)
    refine advance (hpass.current ▸ hne) fun u _ _ => last synchronize fun _ _ _ _ _ _ => ?_
    exact .lost hfault (List.cons_ne_nil _ _)
  · exact line hstmt s hN hne hsep

/-- **Each round of a block moves on or is the last.** -/
theorem statements (stop : Kind → Bool) (hnext : ParsesLine c N next next') (hnm : n ≤ m) (s : State)
    (hN : s.tokens.length ≤ N) (hn : s.tokens.length ≤ n) :
    Settles c (statements stop next n) (statements stop next' m) s fun ts ps ss t =>
      Derives c.clean ts ps (.lines ss) ∧
        (t.current.kind = .eof ∨ t.isFull = true ∨ stop t.current.kind = true) := by
  induction n generalizing m s with
  | zero => exact absurd s.tokens_pos (by omega)
  | succ n ih =>
    obtain ⟨m, rfl⟩ := Nat.exists_eq_add_of_le' (Nat.le_trans (Nat.succ_pos n) hnm)
    refine bind separators fun gs _ _ t _ hpass h => kind (get ?_)
    obtain ⟨hgs, rfl, hsep⟩ := h
    have hlen := hpass.length_le
    split
    · rename_i hend
      refine pure ⟨by rw [List.append_nil]; exact .done hgs, ?_⟩
      simpa [or_assoc] using hend
    · rename_i hgo
      have hne : t.current.kind ≠ .eof := fun heq => hgo (by rw [heq]; rfl)
      refine bind (hnext t (by omega) hne hsep) fun us ups r u _ hline hr => ?_
      have hlen' := hline.length
      have hus := List.length_pos_iff.mpr hr.ne_nil
      refine last (ih (by omega) u (by omega) (by omega)) fun vs vps ss v _ h => ⟨?_, h.2⟩
      cases hr with
      | comment htext => simpa using Derives.comment hgs htext h.1
      | stmt ha => simpa using Derives.line hgs ha h.1
      | lost hfault => simpa using Derives.lost hfault hgs h.1

/-- **The statements of a block**. -/
theorem blockOf (hstmt : ParsesStmt c N stmt stmt') (hnm : n ≤ m) (hn : N ≤ n) (stop : Kind → Bool) :
    ParsesBlock c N (blockOf n stmt stop) (blockOf m stmt' stop) := by
  intro s hN
  refine get (bind (statements stop (line hstmt) hnm s hN (by omega)) fun ts ps ss t _ _ h =>
    get (pure ?_))
  rw [List.append_nil, List.append_nil]
  exact ⟨ss, h.1, rfl⟩

end Blocks

/-! ## The grammar -/

section Grammar

variable {M N n m : Nat}

/-- An operator before its operand. -/
theorem prefixed {p q : Reader Expr} [Grows p] {op : UnaryOp} (hp : ParsesExpr c N op.level p q)
    (hN : s.tokens.length ≤ N + 1) (ho : s.current.kind = op.token) (hneg : op ≠ .neg) :
    Settles c (do let start := (← Reader.advance).span; return mkUnary op start (← Reader.nested p))
      (do let start := (← Reader.advance).span; return mkUnary op start (← Reader.nested q)) s
      fun ts ps e _ => Derives c.clean ts ps (.expr e) ∧ op.level ≤ e.level := by
  have hne : s.current.kind ≠ .eof := by
    rw [ho]
    cases op <;> simp [UnaryOp.token]
  refine advance hne fun t _ hpass => ?_
  have hlen := hpass.length_cons
  refine last (hp.nested t (by omega)) fun ts ps e _ _ he => ?_
  exact ⟨.unary ho he.1 he.2 fun h => absurd h hneg, Nat.le_refl _⟩

theorem expression (hp : ParsesExpr c N 2 (negation n) (negation m)) (hnm : n ≤ m) (hn : N ≤ n) :
    ParsesExpr c N 0 (expression (n + 1)) (expression (m + 1)) :=
  .nested (levels looseLevels (by decide) hp hnm hn)

theorem negation (hp : ParsesExpr c N 2 (negation n) (negation m))
    (hq : ParsesExpr c M 9 (unary n) (unary m)) (hnm : n ≤ m) (hM : M ≤ N + 1) (hn : M ≤ n) :
    ParsesExpr c M 2 (Reader.negation (n + 1)) (Reader.negation (m + 1)) := by
  intro s hs
  refine check (fun hnot => ?_) fun _ => ?_
  · exact prefixed hp (by omega) hnot (by simp)
  · refine (levels (k := 3) tightLevels (by decide) hq hnm hn s hs).mono fun ts ps e _ he => ?_
    exact ⟨he.1, Nat.le_of_succ_le he.2⟩

/-- A minus before an operand: if that is a number, it changes what was put on record. -/
theorem minus (hp : ParsesExpr c N 9 (unary n) (unary m)) (hN : s.tokens.length ≤ N + 1)
    (hminus : s.current.kind = .symbol .minus) :
    Settles c (do let start := (← Reader.advance).span; negative start (← Reader.nested (Reader.unary n)))
      (do let start := (← Reader.advance).span; negative start (← Reader.nested (Reader.unary m))) s
      fun ts ps e _ => Derives c.clean ts ps (.expr e) ∧ 9 ≤ e.level := by
  refine advance (by simp [hminus]) fun t _ hpass => ?_
  have hlen := hpass.length_cons
  refine bind_settled (hp.nested t (by omega)) fun ts ps e u ht hread he hclean => ?_
  cases hunsigned : e.form.isUnsigned with
  | true =>
    obtain ⟨w, raw, value, rfl, rfl, rfl, hw⟩ := he.1.number_of_isUnsigned hunsigned
    have hnegated : Passes c t [w] [.literal (.number raw value true)]
        (u.mapMentions fun m => { m with literals := negateLast m.literals }) := by
      refine .of_sane ht hread.tokens hread.previous hread.faults hread.sane.faults ?_
      have hliterals : u.mentions.literals = t.mentions.literals ++ [.number raw value false] :=
        congrArg Ledger.literals hread.ledger
      have hledger : (u.mapMentions fun m => { m with literals := negateLast m.literals }).ledger =
          { u.ledger with literals := negateLast u.mentions.literals } := rfl
      rw [hledger, hread.ledger, hliterals]
      simp [negateLast, Literal.negate, Ledger.enter, Ledger.post, State.ledger, Mentions.ledger]
    refine ⟨rfl, ⟨_, _, hnegated, ?_⟩, fun hnone => by cases hnone⟩
    rintro _ ⟨⟩
    exact ⟨.negated hminus hw, Nat.le_refl _⟩
  | false =>
    have hneg : negative s.current.span e = Pure.pure (mkUnary .neg s.current.span e) := by
      unfold negative
      split
      · rename_i hform
        rw [hform] at hunsigned
        cases hunsigned
      · rfl
    rw [hneg]
    refine ⟨rfl, ⟨ts, ps, hread, ?_⟩, fun hnone => absurd hnone (by simp)⟩
    rintro _ ⟨⟩
    exact ⟨.unary hminus he.1 he.2 fun _ => hunsigned, Nat.le_refl _⟩

theorem unary (hp : ParsesExpr c N 9 (unary n) (unary m)) (hq : ParsesExpr c M 10 (address n) (address m))
    (hM : M ≤ N + 1) : ParsesExpr c M 9 (Reader.unary (n + 1)) (Reader.unary (m + 1)) := by
  intro s hs
  refine kind ?_
  split
  · rename_i hminus
    exact minus hp (by omega) hminus
  · rename_i hnew
    exact prefixed hp (by omega) hnew (by simp)
  · refine bind (hq s hs) fun ls lps left t _ hpass hl => ?_
    have hlen := hpass.length_pos (hl.1.opens rfl)
    refine eat (by simp) (fun u hcaret hpass' => ?_) fun _ => ?_
    · refine bind continuation fun gs _ _ v _ hgap h => ?_
      obtain ⟨hgs, rfl, rfl⟩ := h
      have hlen' := (hpass'.trans hgap).length_le
      refine last (hp.nested v (by omega)) fun rs rps r _ _ hr => ?_
      have hpow : Derives c.clean _ _ (.expr (mkBinary .pow left _)) :=
        .binary hl.1 hl.2 hcaret hgs hr.1 hr.2
      exact ⟨by simpa using hpow, Nat.le_refl _⟩
    · exact pure (by rw [List.append_nil, List.append_nil]; exact ⟨hl.1, Nat.le_of_succ_le hl.2⟩)

theorem address (hp : ParsesExpr c M 10 (address n) (address m))
    (hq : ParsesExpr c N 11 (primary n) (primary m))
    (hr : ParsesExpr c M 0 (Reader.expression n) (Reader.expression m)) (hnm : n ≤ m) (hM : N ≤ M + 1)
    (hn : N ≤ n) : ParsesExpr c N 10 (Reader.address (n + 1)) (Reader.address (m + 1)) := by
  intro s hs
  refine check (fun haddress => ?_) fun _ => ?_
  · exact prefixed hp (by omega) haddress (by simp)
  · refine bind (hq s hs) fun bs bps base t _ hpass hbase => ?_
    have hlen := hpass.length_pos (hbase.1.opens rfl)
    refine (suffixes hr.reads hnm base bs bps t (by omega) (by omega) hbase.1 hbase.2).mono
      fun ts ps e _ he => ?_
    exact ⟨he.1, Nat.le_of_succ_le he.2⟩

/-- What an expression starts with. -/
theorem primary (hp : ParsesExpr c N 0 (Reader.expression n) (Reader.expression m))
    (hstmt : ParsesStmt c N (statement n) (statement m)) (hnm : n ≤ m) (hM : M ≤ N + 1) (hn : N ≤ n) :
    ParsesExpr c M 11 (Reader.primary (n + 1)) (Reader.primary (m + 1)) := by
  intro s hs
  refine kind ?_
  split
  · rename_i raw value hkind
    exact literal (l := .number raw value false) hkind (Nat.le_refl _)
  · rename_i raw value hkind
    exact literal (l := .string raw value) hkind (Nat.le_refl _)
  · rename_i hkind
    exact literal (l := .bool true) hkind (Nat.le_refl _)
  · rename_i hkind
    exact literal (l := .bool false) hkind (Nat.le_refl _)
  · rename_i hkind
    exact literal (l := .null) hkind (Nat.le_refl _)
  · rename_i name hkind
    refine advance (by simp [hkind]) fun t _ _ => mention _ fun u _ => pure ?_
    exact ⟨.identifier hkind, Nat.le_refl _⟩
  · rename_i hkind
    exact parenthesized hp.reads (by omega) hkind
  · rename_i hkind
    exact list hp.reads hnm (by omega) hn hkind
  · rename_i hkind
    exact map hp.reads hnm (by omega) hn hkind
  · rename_i hkind
    exact function hp.reads hnm (blockOf hstmt hnm hn _) (by omega) hn hkind
  · rename_i hkind
    exact valueDirective hkind
  · exact reject _

/-- **A statement**. -/
theorem statement (hp : ParsesExpr c M 0 (Reader.expression n) (Reader.expression m))
    (hstmt : ParsesStmt c N (statement n) (statement m)) (hnm : n ≤ m) (hN : N ≤ M) (hM : M ≤ N + 1)
    (hn : M ≤ n) : ParsesStmt c M (Reader.statement (n + 1)) (Reader.statement (m + 1)) := by
  intro s hs
  have hp' := (hp.mono hN).reads
  have hblock := fun stop => blockOf hstmt hnm (hN.trans hn) stop
  refine kind ?_
  split
  · rename_i hkind
    exact if_ hp' hblock hstmt hnm (by omega) (by omega) hkind
  · rename_i hkind
    exact .of_closed (while_ hp' (hblock _) (by omega) hkind)
  · rename_i hkind
    exact .of_closed (for_ hp' (hblock _) (by omega) hkind)
  · rename_i hkind
    exact .of_closed (return_ hp' (by omega) hkind)
  · rename_i hkind
    exact advance (by simp [hkind]) fun t _ _ => pure ⟨.break_ hkind, fun hopen => by cases hopen⟩
  · rename_i hkind
    exact advance (by simp [hkind]) fun t _ _ => pure ⟨.continue_ hkind, fun hopen => by cases hopen⟩
  · rename_i hkind
    exact .of_closed (get (ite (simple hp.reads hnm hs hn) (statementDirective hkind)))
  · exact .of_closed (simple hp.reads hnm hs hn)

end Grammar

end Settles

/-- What holds of the readers that call one another if their bounds are `n` and `m`. -/
structure Settling (c : Setting) (n m : Nat) : Prop where
  expression : ParsesExpr c ((n + 1) / 8) 0 (expression n) (expression m)
  negation : ParsesExpr c ((n + 2) / 8) 2 (negation n) (negation m)
  unary : ParsesExpr c ((n + 3) / 8) 9 (unary n) (unary m)
  address : ParsesExpr c ((n + 4) / 8) 10 (address n) (address m)
  primary : ParsesExpr c ((n + 5) / 8) 11 (primary n) (primary m)
  statement : ParsesStmt c (n / 8) (statement n) (statement m)

/-- **What the grammar reads is derived.**  A bound of eight for each token suffices. -/
theorem settling (c : Setting) {n m : Nat} (hnm : n ≤ m) : Settling c n m := by
  induction n generalizing m with
  | zero =>
    -- There always is a token, so this bound is never enough.
    have hnone : ∀ {P : Prop} (s : State), s.tokens.length ≤ 0 → P := fun s h =>
      absurd s.tokens_pos (Nat.not_lt.mpr h)
    exact ⟨fun s h => hnone s h, fun s h => hnone s h, fun s h => hnone s h, fun s h => hnone s h,
      fun s h => hnone s h, fun s h => hnone s h⟩
  | succ n ih =>
    obtain ⟨m, rfl⟩ := Nat.exists_eq_add_of_le' (Nat.le_trans (Nat.succ_pos n) hnm)
    replace hnm : n ≤ m := Nat.le_of_succ_le_succ hnm
    have ih := ih hnm
    have hexpr := ih.expression.mono (M := n / 8) (by omega)
    exact
      { expression := .expression ih.negation hnm (by omega)
        negation := .negation ih.negation ih.unary hnm (by omega) (by omega)
        unary := .unary ih.unary ih.address (by omega)
        address := .address (ih.address.mono (by omega)) ih.primary hexpr hnm (by omega) (by omega)
        primary := .primary hexpr ih.statement hnm (by omega) (by omega)
        statement := .statement ih.expression ih.statement hnm (by omega) (by omega) (by omega) }

/-- **A script is derived**, in a scope of its own.  It is read to the end unless there are too many
faults. -/
theorem Settles.script {n m : Nat} (hnm : n ≤ m) (hn : 8 * s.tokens.length ≤ n) :
    Settles c (script n) (script m) s fun ts ps r t =>
      (∃ qs, ps = .enter :: (qs ++ [.leave]) ∧ Derives c.clean ts qs (.lines r.body)) ∧
        r.mentions = t.mentions ∧ (t.current.kind = .eof ∨ t.isFull = true) := by
  refine get (update [.enter] rfl rfl rfl (State.ledger_openScope s _) fun t hopen => ?_)
  have hlen := hopen.length_le
  refine bind (statements _ (topLine (settling c hnm).statement) hnm t (by omega) (by omega))
    fun ts ps body u _ _ h => get (closeScope _ fun v hclose => get (pure ?_))
  refine ⟨⟨ps, by simp, by simpa using h.1⟩, rfl, ?_⟩
  rw [hclose.current]
  rcases h.2 with heof | hfull | hno
  · exact .inl heof
  · exact .inr (decide_eq_true ((of_decide_eq_true hfull).trans hclose.faults.length_le))
  · cases hno

/-- Reading a script is reading its lines and closing the outermost scope. -/
theorem run_script (n : Nat) (s : State) : script n s = (do
    let body ← statements (fun _ => false) (topLine (statement n)) n
    let stop ← here
    update (·.closeScope stop)
    return { body, mentions := ← get (·.mentions), span := s.current.span.merge stop } :
      Reader Script) (s.openScope s.current.span) := rfl

/-- The outermost scope is closed again as well. -/
theorem openScopes_of_script {n : Nat} {r : Script} (h : script n s = (some r, t)) :
    t.openScopes = s.openScopes := by
  rw [run_script] at h
  rcases hbody : statements (fun _ => false) (topLine (statement n)) n (s.openScope s.current.span)
    with ⟨_ | body, u⟩
  · rw [bind_none hbody] at h
    cases h
  · rw [bind_some hbody] at h
    obtain rfl : u.closeScope u.current.span = t := congrArg Prod.snd h
    have hbalanced : Balanced (s.openScope s.current.span)
        (statements (fun _ => false) (topLine (statement n)) n (s.openScope s.current.span)).2 :=
      Keeps.holds (R := .balance) _
    rw [hbody] at hbalanced
    have hopen : u.openScopes = s.mentions.scopes.length :: s.openScopes := hbalanced.openScopes
    rw [State.closeScope, hopen]

end Reader

/-- The bound leaves room to read all tokens. -/
theorem Reader.State.length_ofTokens {ts : List Token} (h : EndsOnce ts) :
    8 * (State.ofTokens ts).tokens.length ≤ bound ts.length := by
  rw [tokens_ofTokens h, bound]
  omega

/-- **Faults are where tokens are**: what holds of the stretches of all tokens and is kept by merging
holds of the stretch of every fault. -/
theorem Script.faults_ofTokens {R : Span → Prop} (hmerge : ∀ a b, R a → R b → R (a.merge b))
    (hfirst : R (.point .first)) {ts : List Token} (hends : EndsOnce ts) (hts : ∀ t ∈ ts, R t.span) :
    ∀ f ∈ (Script.ofTokens ts).faults, R f.span := by
  have htokens := Reader.State.tokens_ofTokens hends
  have hsane : (Reader.State.ofTokens ts).Sane ⟨False, R, hmerge⟩ := by
    refine ⟨htokens.symm ▸ hends, htokens.symm ▸ hts, ?_, ?_⟩
    · cases ts <;> exact hfirst
    · cases ts <;> simp [Reader.State.ofTokens]
  have hbound := Reader.State.length_ofTokens hends
  obtain ⟨_, _, hpass, -⟩ := (Reader.Settles.script (Nat.le_refl _) hbound hsane fun h => h.elim).passes
  have hend := hpass.sane.faults
  unfold Script.ofTokens
  split <;> rename_i hrun <;> rw [hrun] at hend <;> exact hend

/-- **Every tree is derived**, but for lines that could not be read. -/
theorem Script.derives_ofTokens {ts : List Token} (hends : EndsOnce ts) :
    ∃ us ps, us <+: ts ∧ Derives False us ps (.lines (Script.ofTokens ts).script.body) := by
  have htokens := Reader.State.tokens_ofTokens hends
  have hbound := Reader.State.length_ofTokens hends
  obtain ⟨-, ⟨us, _, hpass, hr⟩, -⟩ := Reader.Settles.script (c := .ofClean False) (Nat.le_refl _) hbound
    (.ofClean False (htokens.symm ▸ hends)) fun h => h.elim
  unfold Script.ofTokens
  split <;> rename_i hrun
  · obtain ⟨⟨qs, -, hlines⟩, -⟩ := hr _ (congrArg Prod.fst hrun)
    exact ⟨us, qs, ⟨_, hpass.tokens.symm.trans htokens⟩, hlines⟩
  · exact ⟨[], [], List.nil_prefix, .done (by simp [IsBreak])⟩

end ScriptBundler

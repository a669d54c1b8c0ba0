import Mathlib.Data.List.Induction
import Mathlib.Data.List.TakeWhile
import ScriptBundler.Proofs.Descent
import ScriptBundler.Proofs.Tiling

/-!
# Proofs/Positions — lines and columns are those of the text

    a b ⏎ c d ⏎ e         before ── the line feeds in it: the line
    └────────┘ └▸ here      └── what follows the last of them: the column

A place is exact if its line, its column and its offset tell of one and the same piece of the text, the
piece before it (`Source.HasPlace`).  Reading a text passes from exact places to exact places.  Of two
places of one text, one comes first by line and column and by offset alike, so merging stretches makes
up no new ones.  Hence every place that is ever reported is exact, and the line it is on is there to be
shown.
-/

namespace ScriptBundler

/-! ## Places -/

namespace Position

/-- Lines are counted by line feeds. -/
theorem line_after (p : Position) (cs : List Char) : (p.after cs).line = p.line + cs.count '\n' := by
  induction cs generalizing p with
  | nil => rfl
  | cons c cs ih =>
    rw [after_cons, ih, step]
    by_cases hc : c = '\n'
    · rw [if_pos hc, hc, List.count_cons_self]
      show p.line + 1 + cs.count '\n' = p.line + (cs.count '\n' + 1)
      omega
    · rw [if_neg hc, List.count_cons_of_ne hc]

/-- On one line, columns count characters. -/
theorem column_after_of_not_mem (p : Position) {cs : List Char} (h : '\n' ∉ cs) :
    (p.after cs).column = p.column + cs.length := by
  induction cs generalizing p with
  | nil => rfl
  | cons c cs ih =>
    obtain ⟨hc, hcs⟩ := not_or.mp (mt List.mem_cons.mpr h)
    rw [after_cons, ih _ hcs, step, if_neg (Ne.symm hc), List.length_cons]
    show p.column + 1 + cs.length = _
    omega

/-- From the start of a text, columns count what follows the last line feed. -/
theorem column_after_first (cs : List Char) :
    (first.after cs).column = (cs.reverse.takeWhile (· != '\n')).length + 1 := by
  induction cs using List.reverseRecOn with
  | nil => rfl
  | append_singleton cs c ih =>
    rw [after_append, after_cons, after_nil, step, List.reverse_concat]
    by_cases hc : c = '\n'
    · simp [hc]
    · rw [if_neg hc, List.takeWhile_cons_of_pos (by simpa using hc), List.length_cons, ← ih]

theorem earlier_comm (p q : Position) : p.earlier q = q.earlier p := by
  simp only [earlier, mk.injEq]
  refine ⟨Nat.min_comm .., ?_, Nat.min_comm ..⟩
  rcases Nat.lt_trichotomy p.line q.line with h | h | h
  · rw [if_pos h, if_neg (Nat.not_lt.mpr h.le), if_pos h]
  · simp [h, Nat.min_comm]
  · rw [if_neg (Nat.not_lt.mpr h.le), if_pos h, if_pos h]

theorem later_comm (p q : Position) : p.later q = q.later p := by
  simp only [later, mk.injEq]
  refine ⟨Nat.max_comm .., ?_, Nat.max_comm ..⟩
  rcases Nat.lt_trichotomy p.line q.line with h | h | h
  · rw [if_neg (Nat.not_lt.mpr h.le), if_pos h, if_pos h]
  · simp [h, Nat.max_comm]
  · rw [if_pos h, if_neg (Nat.not_lt.mpr h.le), if_pos h]

/-- Reading on does not go back: on a line that is not left, not in columns either. -/
theorem column_le_after {p : Position} {cs : List Char} (h : (p.after cs).line = p.line) :
    p.column ≤ (p.after cs).column := by
  have hcount : cs.count '\n' = 0 := by
    rw [line_after] at h
    omega
  rw [column_after_of_not_mem p (List.count_eq_zero.mp hcount)]
  exact Nat.le_add_right ..

/-- **The earlier of two places is the one that reading comes to first.** -/
theorem earlier_after (p : Position) (cs : List Char) : p.earlier (p.after cs) = p := by
  have hline := line_le_after p cs
  have hoffset := offset_le_after p cs
  have hcolumn : (p.after cs).line = p.line → p.column ≤ (p.after cs).column := column_le_after
  generalize p.after cs = q at hline hoffset hcolumn
  simp only [earlier]
  rw [Nat.min_eq_left hline, Nat.min_eq_left hoffset]
  rcases Nat.lt_or_eq_of_le hline with h | h
  · rw [if_pos h]
  · rw [if_neg (by omega), if_neg (by omega), Nat.min_eq_left (hcolumn h.symm)]

/-- A place behind another one is the later. -/
theorem later_after (p : Position) (cs : List Char) : p.later (p.after cs) = p.after cs := by
  have hline := line_le_after p cs
  have hoffset := offset_le_after p cs
  have hcolumn : (p.after cs).line = p.line → p.column ≤ (p.after cs).column := column_le_after
  generalize p.after cs = q at hline hoffset hcolumn
  simp only [later]
  rw [Nat.max_eq_right hline, Nat.max_eq_right hoffset]
  rcases Nat.lt_or_eq_of_le hline with h | h
  · rw [if_neg (by omega), if_pos h]
  · rw [if_neg (by omega), if_neg (by omega), Nat.max_eq_right (hcolumn h.symm)]

end Position

/-! ## Exact places -/

namespace Source

variable {source : Source} {p q : Position}

/-- `p` is the place after a piece at the start of the text: its offset counts the bytes of that piece,
its line the line feeds in it, and its column the characters behind the last of these. -/
def HasPlace (source : Source) (p : Position) : Prop :=
  ∃ before rest, source.text.toList = before ++ rest ∧ p.offset = byteSize before ∧
    p.line = before.count '\n' + 1 ∧ p.column = (before.reverse.takeWhile (· != '\n')).length + 1

/-- Both ends are exact. -/
def HasSpan (source : Source) (span : Span) : Prop :=
  source.HasPlace span.start ∧ source.HasPlace span.stop

/-- A place is what some beginning of the text leads to. -/
theorem hasPlace_iff : source.HasPlace p ↔
    ∃ before rest, source.text.toList = before ++ rest ∧ p = Position.first.after before := by
  have hafter : ∀ before : List Char, p = Position.first.after before ↔
      p.offset = byteSize before ∧ p.line = before.count '\n' + 1 ∧
        p.column = (before.reverse.takeWhile (· != '\n')).length + 1 := by
    intro before
    have hoffset := Position.offset_after .first before
    have hline := Position.line_after .first before
    have hcolumn := Position.column_after_first before
    obtain ⟨line, column, offset⟩ := p
    generalize Position.first.after before = q at hoffset hline hcolumn
    obtain ⟨line', column', offset'⟩ := q
    simp only [Position.first, Nat.zero_add, Nat.add_comm 1] at hoffset hline
    dsimp only at hcolumn
    simp only [Position.mk.injEq, hoffset, hline, hcolumn]
    tauto
  simp only [HasPlace, hafter]

theorem hasPlace_first : source.HasPlace .first :=
  hasPlace_iff.mpr ⟨[], source.text.toList, rfl, rfl⟩

theorem hasPlace_after (before text rest : List Char)
    (h : source.text.toList = before ++ (text ++ rest)) :
    source.HasPlace ((Position.first.after before).after text) :=
  hasPlace_iff.mpr ⟨before ++ text, rest, by rw [h, List.append_assoc], by rw [Position.after_append]⟩

/-- Of two places of a text, one is found by reading on from the other. -/
theorem HasPlace.after_or (hp : source.HasPlace p) (hq : source.HasPlace q) :
    (∃ cs, q = p.after cs) ∨ ∃ cs, p = q.after cs := by
  obtain ⟨before, rest, htext, rfl⟩ := hasPlace_iff.mp hp
  obtain ⟨before', rest', htext', rfl⟩ := hasPlace_iff.mp hq
  rcases List.append_eq_append_iff.mp (htext.symm.trans htext') with ⟨cs, rfl, -⟩ | ⟨cs, rfl, -⟩
  · exact .inl ⟨cs, Position.after_append ..⟩
  · exact .inr ⟨cs, Position.after_append ..⟩

/-- The earlier of two places is a place. -/
theorem HasPlace.earlier (hp : source.HasPlace p) (hq : source.HasPlace q) :
    source.HasPlace (p.earlier q) := by
  rcases hp.after_or hq with ⟨cs, rfl⟩ | ⟨cs, rfl⟩
  · rwa [Position.earlier_after]
  · rwa [Position.earlier_comm, Position.earlier_after]

/-- The later of two places is a place. -/
theorem HasPlace.later (hp : source.HasPlace p) (hq : source.HasPlace q) :
    source.HasPlace (p.later q) := by
  rcases hp.after_or hq with ⟨cs, rfl⟩ | ⟨cs, rfl⟩
  · rwa [Position.later_after]
  · rwa [Position.later_comm, Position.later_after]

/-- **Merging makes up no places.** -/
theorem hasSpan_merge (a b : Span) (ha : source.HasSpan a) (hb : source.HasSpan b) :
    source.HasSpan (a.merge b) :=
  ⟨ha.1.earlier hb.1, ha.2.later hb.2⟩

/-! ## Tokens -/

/-- **Tokens and faults have exact places**. -/
theorem hasSpan_of_tiles (before : List Char) {laid rest : List Char} {ts : List Token} {fs : List Located}
    (htext : source.text.toList = before ++ (laid ++ rest))
    (h : Tiles (Position.first.after before) laid ts fs) :
    (∀ t ∈ ts, source.HasSpan t.span) ∧ ∀ f ∈ fs, source.HasSpan f.span := by
  generalize hp : Position.first.after before = p at h
  induction h generalizing before with
  | done => simp
  | @blank p c cs ts fs _ _ ih =>
    refine ih (before ++ [c]) (by simpa using htext) ?_
    rw [Position.after_append, hp]
  | @stray p c cs ts fs _ _ _ ih =>
    obtain ⟨hts, hfs⟩ := ih (before ++ [c]) (by simpa using htext)
      (by rw [Position.after_append, hp])
    have hnext : source.HasPlace (p.after [c]) := hp ▸ hasPlace_after before [c] (cs ++ rest) htext
    have hhere : source.HasPlace p := hp ▸ hasPlace_after before [] _ htext
    exact ⟨hts, List.forall_mem_cons.mpr ⟨⟨hhere, hnext⟩, hfs⟩⟩
  | @token p k f text cs ts fs _ _ _ _ ih =>
    rw [List.append_assoc] at htext
    obtain ⟨hts, hfs⟩ := ih (before ++ text) (by rw [htext, List.append_assoc])
      (by rw [Position.after_append, hp])
    have hspan : source.HasSpan ⟨p, p.after text⟩ :=
      ⟨hp ▸ hasPlace_after before [] _ htext, hp ▸ hasPlace_after before text _ htext⟩
    refine ⟨List.forall_mem_cons.mpr ⟨hspan, hts⟩, fun g hg => ?_⟩
    rcases List.mem_append.mp hg with hg | hg
    · obtain ⟨_, -, rfl⟩ := List.mem_map.mp hg
      exact hspan
    · exact hfs g hg

/-- **Scanning passes over exact places.** -/
theorem hasSpan_scan (source : Source) : (∀ t ∈ source.scan.tokens, source.HasSpan t.span) ∧
    ∀ f ∈ source.scan.faults, source.HasSpan f.span := by
  obtain ⟨laid, rest, ts, htext, htiles, htokens, -⟩ := tiles_scanFrom .first 0 source.text.toList
  obtain ⟨hts, hfs⟩ := hasSpan_of_tiles [] htext htiles
  have hlast : source.HasPlace (Position.first.after laid) := hasPlace_after [] laid rest htext
  refine ⟨fun t ht => ?_, hfs⟩
  rw [scan, ScriptBundler.scan, htokens] at ht
  rcases List.mem_append.mp ht with ht | ht
  · exact hts t ht
  · rw [List.mem_singleton.mp ht]
    exact ⟨hlast, hlast⟩

/-! ## Lines -/

/-- `x` is line number `n` of the text: what stands between two line feeds, or one of them and an end of
the text, without the carriage returns at its end. -/
def IsLine (source : Source) (n : Nat) (x : String) : Prop :=
  ∃ before rest returns,
    source.text.toList = before ++ (x.toList ++ List.replicate returns '\r' ++ rest) ∧
    (before = [] ∨ before.getLast? = some '\n') ∧ '\n' ∉ x.toList ∧
    (rest = [] ∨ rest.head? = some '\n') ∧ n = before.count '\n' + 1 ∧
    x.toList.getLast? ≠ some '\r'

end Source

/-- What is cut off the end of a line are carriage returns, and all of them. -/
theorem exists_eq_trimReturns (cs : List Char) :
    ∃ n, cs = trimReturns cs ++ List.replicate n '\r' ∧ (trimReturns cs).getLast? ≠ some '\r' := by
  refine ⟨(cs.reverse.takeWhile (· == '\r')).length, ?_, fun hlast => ?_⟩
  · have hreturns : cs.reverse.takeWhile (· == '\r') =
        List.replicate (cs.reverse.takeWhile (· == '\r')).length '\r' :=
      List.eq_replicate_length.mpr fun c hc => by simpa using List.mem_takeWhile_imp hc
    have hsplit := congrArg List.reverse
      (List.takeWhile_append_dropWhile (p := (· == '\r')) (l := cs.reverse))
    rw [List.reverse_append, List.reverse_reverse, hreturns, List.reverse_replicate] at hsplit
    exact hsplit.symm
  · rw [trimReturns, List.getLast?_reverse] at hlast
    have hnot := List.head?_dropWhile_not (· == '\r') cs.reverse
    rw [hlast] at hnot
    simp at hnot

/-- Whole lines are dropped by their number. -/
theorem dropLines_append {before : List Char} (h : before = [] ∨ before.getLast? = some '\n')
    (cs : List Char) : dropLines (before.count '\n') (before ++ cs) = some cs := by
  induction before with
  | nil => rfl
  | cons c before ih =>
    by_cases hc : c = '\n'
    · subst hc
      have hrest : before = [] ∨ before.getLast? = some '\n' := by
        cases before with
        | nil => exact .inl rfl
        | cons d before => exact .inr (by simpa using h)
      rw [List.count_cons_self, List.cons_append, dropLines]
      exact ih hrest
    · have hrest : before.getLast? = some '\n' := by
        cases before with
        | nil => simp [hc] at h
        | cons d before => simpa using h
      obtain ⟨n, hn⟩ : ∃ n, before.count '\n' = n + 1 :=
        Nat.exists_eq_succ_of_ne_zero fun hzero =>
          List.count_eq_zero.mp hzero (List.mem_of_getLast? hrest)
      have ih := ih (.inr hrest)
      rw [hn, dropLines] at ih
      rw [List.count_cons_of_ne hc, hn, List.cons_append, dropLines,
        List.dropWhile_cons_of_pos (by simpa using hc)]
      exact ih

/-- A text is what reaches to its last line feed, and the line that has begun behind it. -/
theorem exists_lastLine (cs : List Char) : ∃ before line, cs = before ++ line ∧ '\n' ∉ line ∧
    (before = [] ∨ before.getLast? = some '\n') := by
  refine ⟨(cs.reverse.dropWhile (· != '\n')).reverse, (cs.reverse.takeWhile (· != '\n')).reverse, ?_,
    fun hmem => ?_, ?_⟩
  · rw [← List.reverse_append, List.takeWhile_append_dropWhile, List.reverse_reverse]
  · simpa using List.mem_takeWhile_imp (List.mem_reverse.mp hmem)
  · have hhead := List.head?_dropWhile_not (· != '\n') cs.reverse
    rw [List.getLast?_reverse, List.reverse_eq_nil_iff]
    cases hrest : cs.reverse.dropWhile (· != '\n') with
    | nil => exact .inl rfl
    | cons c rest =>
      rw [hrest] at hhead
      exact .inr (by simpa using hhead)

namespace Source

variable {source : Source} {p : Position}

/-- **The line of an exact place is there.** -/
theorem HasPlace.exists_line (h : source.HasPlace p) :
    ∃ x, source.line p.line = some x ∧ source.IsLine p.line x := by
  obtain ⟨before, rest, htext, -, hline, -⟩ := h
  obtain ⟨start, begun, rfl, hbegun, hstart⟩ := exists_lastLine before
  have hcount : (start ++ begun).count '\n' = start.count '\n' := by
    rw [List.count_append, List.count_eq_zero.mpr hbegun, Nat.add_zero]
  have htake : (begun ++ rest).takeWhile (· != '\n') = begun ++ rest.takeWhile (· != '\n') :=
    List.takeWhile_append_of_pos fun c hc => by
      simpa using fun heq : c = '\n' => hbegun (heq ▸ hc)
  obtain ⟨returns, hreturns, hlast⟩ := exists_eq_trimReturns (begun ++ rest.takeWhile (· != '\n'))
  refine ⟨String.ofList (trimReturns (begun ++ rest.takeWhile (· != '\n'))), ?_, start,
    rest.dropWhile (· != '\n'), returns, ?_, hstart, ?_, ?_, by rw [hline, hcount], ?_⟩
  · rw [hline, hcount, line, htext, List.append_assoc, dropLines_append hstart, Option.map_some, htake]
  · rw [String.toList_ofList, ← hreturns, List.append_assoc, List.takeWhile_append_dropWhile, htext,
      List.append_assoc]
  · rw [String.toList_ofList]
    intro hmem
    rcases List.mem_append.mp ((trimReturns_sublist _).subset hmem) with hmem | hmem
    · exact hbegun hmem
    · simpa using List.mem_takeWhile_imp hmem
  · have hhead := List.head?_dropWhile_not (· != '\n') rest
    cases hrest : rest.dropWhile (· != '\n') with
    | nil => exact .inl rfl
    | cons c rest =>
      rw [hrest] at hhead
      exact .inr (by simpa using hhead)
  · rwa [String.toList_ofList]

end Source

/-! ## Reports -/

namespace Report

/-- The errors of a report are those that were added. -/
theorem mem_errors_foldl {ds : List Diagnostic} {r : Report} {d : Diagnostic}
    (h : d ∈ (ds.foldl addError r).errors) : d ∈ r.errors ∨ d ∈ ds := by
  induction ds generalizing r with
  | nil => exact .inl h
  | cons e ds ih =>
    rcases ih h with h | h
    · unfold addError at h
      dsimp only at h
      split at h
      · rcases List.mem_append.mp h with h | h
        · exact .inl h
        · exact .inr (List.mem_singleton.mp h ▸ List.mem_cons_self ..)
      · exact .inl h
    · exact .inr (List.mem_cons_of_mem _ h)

/-- What a report holds was found. -/
theorem exists_of_mem_ofFaults {source : Source} {fs : List Located} {d : Diagnostic}
    (h : d ∈ (ofFaults source fs).errors) :
    ∃ f ∈ fs, d = .locate source f.fault f.span := by
  rw [ofFaults_eq] at h
  obtain ⟨f, hf, rfl⟩ := List.mem_map.mp ((mem_errors_foldl h).resolve_left List.not_mem_nil)
  exact ⟨f, hf, rfl⟩

/-- The errors of two reports are those of either. -/
theorem mem_errors_append {source : Source} {fs gs : List Located} {d : Diagnostic}
    (h : d ∈ ((ofFaults source fs).append (ofFaults source gs)).errors) :
    d ∈ (ofFaults source fs).errors ∨ d ∈ (ofFaults source gs).errors := by
  have hwarnings : (ofFaults source gs).warnings = [] := by
    rw [ofFaults_eq, warnings_foldl]
  simp only [append, hwarnings, List.foldl_nil] at h
  exact mem_errors_foldl h

end Report

namespace Source

/-- A diagnostic of the tokens or of the grammar of a text. -/
def Reports (source : Source) (d : Diagnostic) : Prop :=
  d ∈ (Report.ofFaults source source.scan.faults).errors ∨
    d ∈ (Report.ofFaults source (Script.ofTokens source.scan.tokens).faults).errors ∨
    ∃ report, source.parse = .error report ∧ d ∈ report.errors

/-- What is reported was found at an exact place. -/
theorem Reports.exists_fault {source : Source} {d : Diagnostic} (h : source.Reports d) :
    ∃ f : Located, source.HasSpan f.span ∧ d = .locate source f.fault f.span := by
  obtain ⟨htokens, hscan⟩ := source.hasSpan_scan
  have hread := Script.faults_ofTokens hasSpan_merge ⟨hasPlace_first, hasPlace_first⟩
    (endsOnce_scanFrom ..) htokens
  have hparts : d ∈ (Report.ofFaults source source.scan.faults).errors ∨
      d ∈ (Report.ofFaults source (Script.ofTokens source.scan.tokens).faults).errors := by
    rcases h with h | h | ⟨report, hparse, h⟩
    · exact .inl h
    · exact .inr h
    · rw [parse] at hparse
      split at hparse
      · rw [← Except.error.inj hparse] at h
        exact Report.mem_errors_append h
      · cases hparse
  rcases hparts with h | h
  · obtain ⟨f, hf, rfl⟩ := Report.exists_of_mem_ofFaults h
    exact ⟨f, hscan f hf, rfl⟩
  · obtain ⟨f, hf, rfl⟩ := Report.exists_of_mem_ofFaults h
    exact ⟨f, hread f hf, rfl⟩

/-- **Positions are exact**: those of all tokens, and those of all that is reported, whatever is wrong
with the text.  What is reported shows the line it starts on. -/
theorem positions_exact (source : Source) :
    (∀ t ∈ source.scan.tokens, source.HasPlace t.span.start ∧ source.HasPlace t.span.stop) ∧
    ∀ d, source.Reports d → source.HasPlace d.span.start ∧ source.HasPlace d.span.stop ∧
      source.line d.span.start.line = some d.sourceLine ∧
      source.IsLine d.span.start.line d.sourceLine := by
  refine ⟨source.hasSpan_scan.1, fun d hd => ?_⟩
  obtain ⟨f, ⟨hstart, hstop⟩, rfl⟩ := hd.exists_fault
  obtain ⟨x, hx, hline⟩ := hstart.exists_line
  have hshown : (Diagnostic.locate source f.fault f.span).sourceLine = x := by
    rw [Diagnostic.locate, hx]
    rfl
  rw [hshown]
  exact ⟨hstart, hstop, hx, hline⟩

end Source

end ScriptBundler

import ScriptBundler.Proofs.Soundness

/-!
# Proofs/Ledger — the record of a script is that of its tree

A text without faults leaves exactly what its tree puts on record (`Source.ledger_of_parse`): nothing is
missing, which holds of any text, and nothing is left over from a statement that was given up.
-/

namespace ScriptBundler

variable {clean : Prop} {ts : List Token} {ps : List Posting}

/-! ## Items -/

section Items

variable {α β : Type} [Item α] {g : α → β} {pending : List Comment}

/-- Comments taken from behind an item do not matter. -/
theorem Item.map_takeTrailing (hg : ∀ a cs, g (Item.withComments a cs) = g a) {a b : α}
    {cs rest : List Comment} (h : Item.takeTrailing a cs = (b, rest)) : g b = g a := by
  revert h
  fun_cases Item.takeTrailing a cs with
  | case1 | case3 =>
    rintro ⟨⟩
    rfl
  | case2 =>
    rintro ⟨⟩
    exact hg ..

/-- What does not depend on comments is that of the pieces. -/
theorem Listed.map_eq (hg : ∀ a cs, g (Item.withComments a cs) = g a) {qs : List (Piece α)}
    {r : List α × List Comment} (h : Listed pending ts qs r) : r.1.map g = qs.map (g ·.value) := by
  induction h with
  | nil => rfl
  | last =>
    rw [List.map_singleton, List.map_singleton, Item.trail, hg, Item.lead, hg]
  | cons _ _ _ htake _ ih =>
    rw [List.map_cons, List.map_cons, ih, Item.trail, hg, Item.map_takeTrailing hg htake, Item.lead, hg]

/-- Comments among items do not matter. -/
theorem Enclosed.map_eq (hg : ∀ a cs, g (Item.withComments a cs) = g a) {close : Symbol}
    {qs : List (Piece α)} {r : List α × List Comment} (h : Enclosed close ts qs r) :
    r.1.map g = qs.map (g ·.value) := by
  obtain ⟨-, hlisted, -⟩ := h
  exact hlisted.map_eq hg

end Items

theorem Parameters.map_eq {β : Type} {g : Param → β} (hg : ∀ a cs, g (Item.withComments a cs) = g a)
    {qs : List (Piece Param)} {r : List Param × List Comment} (h : Parameters ts qs r) :
    r.1.map g = qs.map (g ·.value) := by
  cases h with
  | none => rfl
  | some _ henclosed => exact henclosed.map_eq hg

theorem SliceEnd.map_eq {β : Type} {g : Expr → β} (hg : ∀ a cs, g (Item.withComments a cs) = g a)
    {loose : List Comment} {q : Option (Piece Expr)} {r : Option Expr × List Comment}
    (h : SliceEnd loose ts q r) : r.1.toList.map g = q.toList.map (g ·.value) := by
  obtain ⟨-, -⟩ := h
  cases q with
  | none => rfl
  | some q => exact congrArg (fun b => [b]) ((hg ..).trans (hg ..))

theorem Arguments.map_eq {β : Type} {g : Expr → β} (hg : ∀ a cs, g (Item.withComments a cs) = g a)
    {pending : List Comment} {qs : List (Piece Expr)} {args : List Expr}
    (h : Arguments pending ts qs args) : args.map g = qs.map (g ·.value) := by
  induction h with
  | last => rw [List.map_singleton, List.map_singleton, Item.lead, hg]
  | cons _ _ htake _ ih =>
    rw [List.map_cons, List.map_cons, ih, Item.map_takeTrailing hg htake, Item.lead, hg]

/-- Items put on record what their pieces do. -/
theorem flatMap_postings {α : Type} {f : α → List Posting} {as : List α} {qs : List (Piece α)}
    (h : as.map f = qs.map (f ·.value)) (hqs : ∀ q ∈ qs, q.postings = f q.value) :
    qs.flatMap Piece.postings = as.flatMap f := by
  rw [List.flatMap_def, List.flatMap_def, h, List.map_congr_left hqs]

/-! ## Trees -/

/-- The postings of a part. -/
def Part.postings : Part → List Posting
  | .expr e => e.postings
  | .entry e => e.postings
  | .param p => p.postings
  | .stmt a => a.postings
  | .arms _ r => r.1.flatMap Clause.postings ++ r.2.toList.flatMap Block.postings
  | .clauses r => r.1.flatMap Clause.postings ++ r.2.toList.flatMap Block.postings
  | .lines ss => ss.flatMap Stmt.postings

theorem Expr.postings_withComments (e : Expr) (cs : Comments) :
    (Item.withComments e cs).postings = e.postings := by
  obtain ⟨form, span, ds⟩ := e
  rfl

/-- What an `if` on one line puts on record. -/
theorem postings_mkInline (start : Span) (e : Expr) (a : Stmt) (r : List Clause × Option Block) :
    (mkInline start e a r).postings = e.postings ++ (a.postings ++
      (r.1.flatMap Clause.postings ++ r.2.toList.flatMap Block.postings)) := by
  simp [mkInline, Stmt.postings, Stmt.Form.postings, Clause.postings, Block.postings_eq, Reader.single]

/-- What follows an `else` puts on record what its statement does. -/
theorem postings_inlineElse (b : Stmt) : (Reader.inlineElse true b).1.flatMap Clause.postings ++
    (Reader.inlineElse true b).2.toList.flatMap Block.postings = b.postings := by
  obtain ⟨form, span⟩ := b
  unfold Reader.inlineElse
  split
  · rename_i hform
    obtain rfl : form = _ := hform
    simp [Stmt.postings, Stmt.Form.postings]
  · simp [Block.postings_eq, Reader.single]

/-- **What is put on record without a fault is that of the tree.** -/
theorem Derives.postings_eq {x : Part} (hclean : clean) (h : Derives clean ts ps x) : ps = x.postings := by
  induction h with
  | literal | negated | identifier | param | leave | break_ | continue_ | directive | mark => rfl
  | member _ _ _ _ ih | unary _ _ _ _ ih | simple _ ih => exact ih
  | paren _ _ _ _ _ ih =>
    rw [ih, Part.postings, Part.postings, Expr.postings, Expr.Form.postings, Item.trail,
      Expr.postings_withComments, Item.lead, Expr.postings_withComments]
  | list _ _ henclosed ih =>
    rw [flatMap_postings (f := Expr.postings) (henclosed.map_eq Expr.postings_withComments) ih]
    exact (Expr.allPostings_eq _).symm
  | map _ _ henclosed ih =>
    rw [flatMap_postings (f := Entry.postings) (henclosed.map_eq fun _ _ => rfl) ih]
    exact (Entry.allPostings_eq _).symm
  | function _ _ hparams _ _ _ ihs ih =>
    rw [flatMap_postings (f := Param.postings) (hparams.map_eq fun _ _ => rfl) ihs, ih]
    simp [Part.postings, Expr.postings, Expr.Form.postings, Block.postings]
  | index _ _ _ _ hi _ ihb ihi =>
    have hi := List.singleton_inj.mp (hi.map_eq Expr.postings_withComments)
    rw [ihb, ihi]
    exact congrArg (_ ++ ·) hi.symm
  | slice _ _ _ _ hi _ _ hj _ ihb ihi ihj =>
    have hstart := flatMap_postings (f := Expr.postings) (hi.map_eq Expr.postings_withComments)
      fun q hq => ihi q (Option.mem_toList.mp hq)
    have hstop := flatMap_postings (f := Expr.postings) (hj.map_eq Expr.postings_withComments)
      fun q hq => ihj q (Option.mem_toList.mp hq)
    rw [ihb, hstart, hstop]
    simp [Part.postings, Expr.postings, Expr.Form.postings]
  | call _ _ _ _ henclosed ihb ihs =>
    rw [ihb, flatMap_postings (f := Expr.postings) (henclosed.map_eq Expr.postings_withComments) ihs]
    simp [Part.postings, Expr.postings, Expr.Form.postings, callPostings]
  | command _ _ _ hargs _ ihe ihs =>
    rw [ihe, flatMap_postings (f := Expr.postings) (hargs.map_eq Expr.postings_withComments) ihs]
    simp [Part.postings, Stmt.postings, Stmt.Form.postings, Expr.postings, Expr.Form.postings, callPostings]
  | binary _ _ _ _ _ _ ihl ihr =>
    rw [ihl, ihr]
    exact congrArg (_ ++ ·) (Expr.postings_withComments ..).symm
  | entry _ _ _ _ _ ihk ihv | assign _ _ _ _ ihk ihv =>
    rw [ihk, ihv]
    rfl
  | default _ _ _ ih => simp [ih, Part.postings, Param.postings]
  | return_ _ _ ih => simp [ih, Part.postings, Stmt.postings, Stmt.Form.postings]
  | while_ _ _ _ _ _ ihc ihb | for_ _ _ _ _ _ _ _ ihc ihb =>
    simp [ihc, ihb, Part.postings, Stmt.postings, Stmt.Form.postings, Block.postings]
  | if_ _ _ ih => simp [ih, Part.postings, Stmt.postings, Stmt.Form.postings]
  | inline _ _ _ _ ihc iha =>
    rw [ihc, iha]
    simp [Part.postings, postings_mkInline]
  | inlineElse _ _ _ _ _ _ _ ihc iha ihb =>
    rw [ihc, iha, ihb, Part.postings, Part.postings, Part.postings, Part.postings, postings_mkInline,
      postings_inlineElse]
  | arm _ _ _ _ ihc ihb ihr =>
    rw [ihc, ihb, ihr]
    simp [Part.postings, Clause.postings, Block.postings]
  | closed | done => rfl
  | else_ _ _ _ _ ih => simp [ih, Part.postings, Block.postings]
  | elseIf _ _ _ ih => exact ih
  | comment _ _ _ ih =>
    rw [ih]
    rfl
  | line _ _ _ iha ihs =>
    rw [iha, ihs]
    rfl
  | lost hno => exact absurd hclean hno

/-! ## Scripts -/

/-- **The record of a script is that of its tree**: everything its statements put on record and nothing
else, in the order of the text. -/
theorem Source.ledger_of_parse {source : Source} {script : Script} (h : source.parse = .ok script) :
    script.mentions.ledger [] = Ledger.enter {} script.postings := by
  obtain ⟨ts, e, qs, -, -, -, hlines, hledger⟩ := derives_of_parse h
  rw [hledger, hlines.postings_eq trivial]
  rfl

/-- The files that a script is recorded to name are those that its nodes name, in their order. -/
theorem Source.paths_of_parse {source : Source} {script : Script} (h : source.parse = .ok script) :
    script.mentions.imports.map Reference.path = (mentionsOf script.nodes).filterMap Mention.import? ∧
    script.mentions.includes.map Reference.path = (mentionsOf script.nodes).filterMap Mention.include? ∧
    script.mentions.injects.map Reference.path = (mentionsOf script.nodes).filterMap Mention.inject? := by
  have henter := Ledger.mentions_enter {} script.postings
  rw [← ledger_of_parse h, script.filterMap_mention] at henter
  exact henter

/-- The scripts that a script is recorded to load while the program runs are those of its calls. -/
theorem Source.natives_of_parse {source : Source} {script : Script} (h : source.parse = .ok script) :
    script.mentions.natives.map Reference.path = script.nodes.filterMap Node.native? := by
  have henter := Ledger.natives_enter {} script.postings
  rw [← ledger_of_parse h, script.filterMap_native] at henter
  exact henter

end ScriptBundler

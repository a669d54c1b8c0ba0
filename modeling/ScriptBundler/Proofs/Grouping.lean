import ScriptBundler.Proofs.Elements

/-!
# Proofs/Grouping — trees are grouped as operators bind

    a - b - c * -d ^ e            ◂ text
    (a - b) - (c * (-(d ^ e)))    ◂ tree: each operand binds at least as tight as its place asks for

No writer puts parentheses around an operand, so a tree has to be grouped as its text is read.  A reader
of one level joins operands of the next, and the levels of the operands are part of every rule by which
trees are derived; what is left to show is that they are the tiers of the operators.
-/

namespace ScriptBundler

/-! ## Tiers -/

/-- How tight expressions bind, from loose to tight. -/
inductive Tier where
  | or | and | not | comparison | bitOr | bitAnd | shift | sum | product
  /-- A minus or `new` before an operand, and numbers with a sign of their own. -/
  | sign
  | power | address
  /-- Primary expressions and what follows them: members, subscripts and calls. -/
  | primary
deriving DecidableEq

namespace Tier

/-- The tiers in order, the loosest first. -/
def rank : Tier → Nat
  | or => 0
  | and => 1
  | not => 2
  | comparison => 3
  | bitOr => 4
  | bitAnd => 5
  | shift => 6
  | sum => 7
  | product => 8
  | sign => 9
  | power => 10
  | address => 11
  | primary => 12

instance : LE Tier := ⟨fun s t => s.rank ≤ t.rank⟩

instance : LT Tier := ⟨fun s t => s.rank < t.rank⟩

/-- Powers are read where a sign may stand, so both are of one level. -/
def level (t : Tier) : Nat := if t.rank ≤ 9 then t.rank else t.rank - 1

/-- Levels are in the order of tiers, but for powers. -/
theorem le_of_level_le {s t : Tier} (hs : s ≠ power) (h : s.level ≤ t.level) : s ≤ t := by
  have hrank : s.rank ≠ 10 := by
    cases s with
    | power => exact absurd rfl hs
    | _ => decide
  show s.rank ≤ t.rank
  unfold level at h
  split at h <;> split at h <;> omega

theorem lt_of_level_lt {s t : Tier} (h : s.level < t.level) : s < t := by
  show s.rank < t.rank
  unfold level at h
  split at h <;> split at h <;> omega

end Tier

/-- The tier an operator makes. -/
def BinaryOp.tier : BinaryOp → Tier
  | or => .or
  | and => .and
  | equal | notEqual | less | greater | lessEqual | greaterEqual | isa => .comparison
  | bitOr => .bitOr
  | bitAnd => .bitAnd
  | shiftLeft | shiftRight | shiftRightZero => .shift
  | add | sub => .sum
  | mul | div | mod => .product
  | pow => .power

/-- The tier an operator before an operand makes. -/
def UnaryOp.tier : UnaryOp → Tier
  | not => .not
  | neg | new => .sign
  | address => .address

theorem BinaryOp.level_tier (op : BinaryOp) : op.tier.level = op.level := by cases op <;> rfl

theorem UnaryOp.level_tier (op : UnaryOp) : op.tier.level = op.level := by cases op <;> rfl

namespace Expr

/-- The tier of a form. -/
def Form.tier : Form → Tier
  | .literal (.number _ _ true) => .sign
  | .binary op _ _ => op.tier
  | .unary op _ => op.tier
  | .literal _ | .list _ | .map _ | .identifier _ | .member .. | .index .. | .slice .. | .call ..
  | .function .. | .paren _ | .directive _ => .primary

/-- How tight an expression binds. -/
def tier (e : Expr) : Tier := e.form.tier

/-- The level of a tier is that of the expression. -/
theorem level_tier (e : Expr) : e.tier.level = e.level := by
  obtain ⟨form, span, cs⟩ := e
  show form.tier.level = form.level
  cases form with
  | literal l => rcases l with ⟨_, _, _ | _⟩ | _ | _ | _ <;> rfl
  | binary op => exact op.level_tier
  | unary op => exact op.level_tier
  | _ => rfl

/-- The operands bind as tight as the operator asks for.  What groups to the left has an operand of its
own tier on the left only; a power has operands that `@` may start on the left, and signed ones on the
right. -/
def Form.Grouped : Form → Prop
  | .binary .pow l r => .address ≤ l.tier ∧ .sign ≤ r.tier
  | .binary op l r => op.tier ≤ l.tier ∧ op.tier < r.tier
  | .unary .not e => .not ≤ e.tier
  | .unary .neg e => .sign ≤ e.tier ∧ e.form.isUnsigned = false
  | .unary .new e => .sign ≤ e.tier
  | .unary .address e => .address ≤ e.tier
  | .member b _ | .index b _ | .slice b _ _ | .call b _ => b.tier = .primary
  | _ => True

theorem le_tier {t : Tier} {e : Expr} (ht : t ≠ .power) (h : t.level ≤ e.level) : t ≤ e.tier :=
  Tier.le_of_level_le ht (e.level_tier ▸ h)

/-- What is read as tightest is a primary expression. -/
theorem tier_eq_primary {e : Expr} (h : 11 ≤ e.level) : e.tier = .primary := by
  rw [← e.level_tier] at h
  revert h
  cases e.tier <;> decide

/-- Operands that are tight enough are grouped. -/
theorem Form.grouped_binary {op : BinaryOp} {l r : Expr} (hl : op.leftLevel ≤ l.level)
    (hr : op.rightLevel ≤ r.level) : (Form.binary op l r).Grouped := by
  by_cases hop : op = .pow
  · subst hop
    exact ⟨le_tier (by decide) hl, le_tier (by decide) hr⟩
  · rw [BinaryOp.leftLevel, if_neg hop, ← op.level_tier] at hl
    rw [BinaryOp.rightLevel, if_neg hop, ← op.level_tier, ← r.level_tier] at hr
    cases op with
    | pow => exact absurd rfl hop
    | _ => exact ⟨le_tier (by decide) hl, Tier.lt_of_level_lt hr⟩

/-- An operand that is tight enough is grouped. -/
theorem Form.grouped_unary {op : UnaryOp} {e : Expr} (he : op.level ≤ e.level)
    (hneg : op = .neg → e.form.isUnsigned = false) : (Form.unary op e).Grouped := by
  have htier : op.tier ≤ e.tier := le_tier (by cases op <;> decide) (op.level_tier ▸ he)
  cases op with
  | neg => exact ⟨htier, hneg rfl⟩
  | _ => exact htier

/-- What can be assigned to binds as tight as anything. -/
theorem tier_of_isTarget {e : Expr} (h : Reader.isTarget e = true) : e.tier = .primary := by
  obtain ⟨form, span, cs⟩ := e
  cases form with
  | identifier | member | index => rfl
  | _ => cases h

end Expr

/-! ## Trees -/

/-- Of all elements only expressions are grouped. -/
def Element.Grouped : Element → Prop
  | expr e => e.form.Grouped
  | _ => True

namespace Element

/-- Comments beside nodes do not matter. -/
theorem blind_grouped : Blind Grouped := ⟨fun _ _ => .rfl, fun _ _ => .rfl, fun _ _ => .rfl⟩

theorem every_lead {e : Expr} (h : Every Grouped (.expr e)) (cs : List Comment) :
    Every Grouped (.expr (Item.lead e cs)) := by
  rwa [Item.lead, blind_grouped.every_expr]

theorem every_trail {e : Expr} (h : Every Grouped (.expr e)) (cs : List Comment) :
    Every Grouped (.expr (Item.trail e cs)) := by
  rwa [Item.trail, blind_grouped.every_expr]

theorem every_ident (i : Ident) : Every Grouped (.ident i) := .intro trivial (by simp [parts])

end Element

open Element (every_lead every_trail every_ident blind_grouped)

/-- **What is derived is grouped.** -/
theorem Derives.grouped {clean : Prop} {ts : List Token} {ps : List Posting} {x : Part}
    (h : Derives clean ts ps x) : x.Every Element.Grouped := by
  induction h with
  | literal | negated | identifier | directive | leave | break_ | continue_ =>
    exact .intro trivial (by simp [Element.parts, Expr.Form.parts, Stmt.Form.parts])
  | paren _ _ _ _ _ ih =>
    exact .intro trivial (List.forall_mem_singleton.mpr (every_trail (every_lead ih _) _))
  | list _ _ henclosed ih =>
    exact .intro trivial (List.forall_mem_map.mpr
      (forall_of_pieces (henclosed.map_eq blind_grouped.every_expr) ih))
  | map _ _ henclosed ih =>
    exact .intro trivial (List.forall_mem_map.mpr
      (forall_of_pieces (henclosed.map_eq blind_grouped.every_entry) ih))
  | function _ _ hparams _ _ _ ihs ih =>
    refine .intro trivial (List.forall_mem_append.mpr ⟨List.forall_mem_map.mpr ?_, ?_⟩)
    · exact forall_of_pieces (hparams.map_eq blind_grouped.every_param) ihs
    · exact List.forall_mem_singleton.mpr (.block trivial ih)
  | member _ hb _ _ ih =>
    refine .intro (Expr.tier_eq_primary hb) (List.forall_mem_cons.mpr ⟨ih, ?_⟩)
    exact List.forall_mem_singleton.mpr (every_ident _)
  | index _ hb _ _ hi _ ih ih' =>
    refine .intro (Expr.tier_eq_primary hb) (List.forall_mem_cons.mpr ⟨ih, List.forall_mem_singleton.mpr ?_⟩)
    refine hi.every blind_grouped ?_ _ (List.mem_singleton.mpr rfl)
    rintro _ ⟨⟩
    exact ih'
  | slice _ hb _ _ hi _ _ hj _ ih ihi ihj =>
    refine .intro (Expr.tier_eq_primary hb) (List.forall_mem_cons.mpr ⟨ih, List.forall_mem_map.mpr ?_⟩)
    exact List.forall_mem_append.mpr ⟨hi.every blind_grouped ihi, hj.every blind_grouped ihj⟩
  | call _ hb _ _ henclosed ih ihs =>
    refine .intro (Expr.tier_eq_primary hb) (List.forall_mem_cons.mpr ⟨ih, List.forall_mem_map.mpr ?_⟩)
    exact forall_of_pieces (henclosed.map_eq blind_grouped.every_expr) ihs
  | binary _ hl _ _ _ hr ihl ihr =>
    refine .intro (Expr.Form.grouped_binary hl hr) (List.forall_mem_cons.mpr ⟨ihl, ?_⟩)
    exact List.forall_mem_singleton.mpr (every_lead ihr _)
  | unary _ _ he hneg ih => exact .intro (Expr.Form.grouped_unary he hneg) (List.forall_mem_singleton.mpr ih)
  | entry _ _ _ _ _ ihk ihv =>
    exact .intro trivial (List.forall_mem_cons.mpr ⟨ihk, List.forall_mem_singleton.mpr ihv⟩)
  | param => exact .intro trivial (List.forall_mem_singleton.mpr (every_ident _))
  | default _ _ _ ih =>
    exact .intro trivial (List.forall_mem_cons.mpr ⟨every_ident _, List.forall_mem_singleton.mpr ih⟩)
  | simple _ ih | return_ _ _ ih => exact .intro trivial (List.forall_mem_singleton.mpr ih)
  | assign _ _ _ _ ih ih' =>
    exact .intro trivial (List.forall_mem_cons.mpr ⟨ih, List.forall_mem_singleton.mpr ih'⟩)
  | command _ htarget _ hargs _ ih ihs =>
    refine .intro trivial (List.forall_mem_singleton.mpr (.intro (Expr.tier_of_isTarget htarget) ?_))
    refine List.forall_mem_cons.mpr ⟨ih, List.forall_mem_map.mpr ?_⟩
    exact forall_of_pieces (hargs.map_eq blind_grouped.every_expr) ihs
  | while_ _ _ _ _ _ ih ihs =>
    exact .intro trivial (List.forall_mem_cons.mpr ⟨ih, List.forall_mem_singleton.mpr (.block trivial ihs)⟩)
  | for_ _ _ _ _ _ _ _ ih ihs =>
    refine .intro trivial (List.forall_mem_cons.mpr ⟨every_ident _, ?_⟩)
    exact List.forall_mem_cons.mpr ⟨ih, List.forall_mem_singleton.mpr (.block trivial ihs)⟩
  | if_ _ _ ih => exact .if_ trivial ih.1 ih.2
  | inline _ _ _ _ ihc iha =>
    refine .if_ trivial (List.forall_mem_singleton.mpr ?_) (by simp)
    exact .clause trivial ihc (.block trivial (List.forall_mem_singleton.mpr iha))
  | inlineElse _ _ _ _ _ _ _ ihc iha ihb =>
    have helse := ihb.inlineElse trivial
    refine .if_ trivial (List.forall_mem_cons.mpr ⟨?_, helse.1⟩) helse.2
    exact .clause trivial ihc (.block trivial (List.forall_mem_singleton.mpr iha))
  | mark _ _ hfollows =>
    refine .intro trivial ?_
    cases hfollows with
    | import_ => exact List.forall_mem_singleton.mpr (every_ident _)
    | _ => simp [Element.parts, Stmt.Form.parts]
  | arm _ _ _ _ ihc ihs ihr =>
    exact ⟨List.forall_mem_cons.mpr ⟨.clause trivial ihc (.block trivial ihs), ihr.1⟩, ihr.2⟩
  | closed => exact ⟨by simp, by simp⟩
  | else_ _ _ _ _ ih =>
    refine ⟨by simp, ?_⟩
    rintro _ ⟨⟩
    exact .block trivial ih
  | elseIf _ _ _ ih | lost _ _ _ ih => exact ih
  | done => simp [Part.Every]
  | comment _ _ _ ih =>
    refine List.forall_mem_cons.mpr ⟨.intro trivial ?_, ih⟩
    simp [Element.parts, Stmt.Form.parts]
  | line _ _ _ ih ihs => exact List.forall_mem_cons.mpr ⟨ih, ihs⟩

/-- **Every tree is grouped as operators bind**, also one with lines that could not be read. -/
theorem Source.reading_grouped (source : Source) {e : Expr}
    (h : (Script.ofTokens source.scan.tokens).script.Has (.expr e)) : e.form.Grouped := by
  obtain ⟨_, _, -, hlines⟩ := Script.derives_ofTokens (endsOnce_scanFrom .first 0 source.text.toList)
  obtain ⟨a, ha, hinside⟩ := h
  exact hlines.grouped a ha (.expr e) hinside

/-- A line that breaks off before one with operators of many tiers. -/
def brokenOff : Source where
  name := "main"
  text := "a = 1 +)\nb = x - y.z * -w ^ -@f(2)[3] - -4"

/-- The tier of an element, if it is an expression. -/
def Element.tier? : Element → Option Tier
  | expr e => some e.tier
  | _ => none

theorem Source.reading_grouped_brokenOff : (Script.ofTokens brokenOff.scan.tokens).faults ≠ [] ∧
    ∃ e, (Script.ofTokens brokenOff.scan.tokens).script.Has (.expr e) ∧ e.tier = .sum ∧
      e.form.Grouped := by
  refine ⟨by decide +kernel, ?_⟩
  have hfound : ((Script.ofTokens brokenOff.scan.tokens).script.body.flatMap (·.form.parts)).any
      (·.tier? = some .sum) = true := by decide +kernel
  obtain ⟨x, hx, htier⟩ := List.any_eq_true.mp hfound
  obtain ⟨a, ha, hpart⟩ := List.mem_flatMap.mp hx
  have hhas : (Script.ofTokens brokenOff.scan.tokens).script.Has x := ⟨a, ha, .part hpart (.refl x)⟩
  cases x with
  | expr e => exact ⟨e, hhas, Option.some.inj (of_decide_eq_true htier), reading_grouped brokenOff hhas⟩
  | _ => cases htier

end ScriptBundler

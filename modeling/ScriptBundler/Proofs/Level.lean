import ScriptBundler.Tree

/-!
# Proofs/Level — how tight expressions bind

Levels count from loose to tight: 0 `or`, 1 `and`, 2 `not`, 3 comparisons, 4 `|`, 5 `&`, 6 shifts,
7 sums, 8 products, 9 minus, `new` and powers, 10 `@`, 11 all else.  A number with a sign is as loose
as a minus before an operand.
-/

namespace ScriptBundler

namespace BinaryOp

/-- How tight an operator binds, as a number. -/
def level : BinaryOp → Nat
  | or => 0
  | and => 1
  | equal | notEqual | less | greater | lessEqual | greaterEqual | isa => 3
  | bitOr => 4
  | bitAnd => 5
  | shiftLeft | shiftRight | shiftRightZero => 6
  | add | sub => 7
  | mul | div | mod => 8
  | pow => 9

/-- The level of a left operand: what groups to the left may be there. -/
def leftLevel (op : BinaryOp) : Nat := if op = pow then 10 else op.level

/-- The level of a right operand: only powers group to the right. -/
def rightLevel (op : BinaryOp) : Nat := if op = pow then 9 else op.level + 1

end BinaryOp

/-- The level of an operand, which is that of the operator before it. -/
def UnaryOp.level : UnaryOp → Nat
  | not => 2
  | neg | new => 9
  | address => 10

namespace Expr

/-- How tight a form binds, as a number. -/
def Form.level : Form → Nat
  | .literal (.number _ _ true) => 9
  | .binary op _ _ => op.level
  | .unary op _ => op.level
  | _ => 11

/-- How tight an expression binds, as a number. -/
def level (e : Expr) : Nat := e.form.level

/-- A number without a sign. -/
def Form.isUnsigned : Form → Bool
  | .literal (.number _ _ false) => true
  | _ => false

/-- A minus before an operand; before a number without a sign it becomes the number's own. -/
def negate (e : Expr) : Form :=
  match e.form with
  | .literal (.number raw value false) => .literal (.number raw value true)
  | _ => .unary .neg e

/-- A minus stays before what is no number without a sign. -/
theorem negate_of_not_isUnsigned {e : Expr} (h : e.form.isUnsigned = false) :
    e.negate = .unary .neg e := by
  unfold negate
  split
  · rename_i hform
    rw [hform] at h
    cases h
  · rfl

theorem Form.level_le (f : Form) : f.level ≤ 11 := by
  fun_cases Form.level f with
  | case1 => decide
  | case2 op => cases op <;> decide
  | case3 op => cases op <;> decide
  | case4 => decide

/-- No expression binds tighter than a primary one. -/
theorem level_le (e : Expr) : e.level ≤ 11 := e.form.level_le

/-- What needs no parentheses binds tightest. -/
theorem level_of_isAtomic {e : Expr} (h : e.isAtomic = true) : e.level = 11 := by
  revert h
  unfold isAtomic level Form.isAtomic
  split <;> simp_all [Form.level]

end Expr

end ScriptBundler

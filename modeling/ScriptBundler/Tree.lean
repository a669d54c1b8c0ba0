import ScriptBundler.Text.Quoted
import ScriptBundler.Token

/-!
# Tree — expressions and statements of a script

A node is its form, the stretch of text it was read from and, for nodes that may stand between
brackets, the comments written around it.  The order of children is the order of the text.
-/

namespace ScriptBundler

/-! ## Leaves -/

/-- A name and where it stands. -/
structure Ident where
  name : String
  span : Span
deriving DecidableEq, Repr, Inhabited

/-- A line comment; `text` is what follows the two slashes. -/
structure Comment where
  text : String
  span : Span
deriving DecidableEq, Repr, Inhabited

/-- Comments beside a node that stands between brackets or after an operator. -/
structure Comments where
  /-- Comments before the node, on lines of their own. -/
  leading : List Comment := []
  /-- Comments after the node and the comma that follows it; the first may share its last line. -/
  trailing : List Comment := []
  /-- Comments between brackets of the node that hold nothing else. -/
  inner : List Comment := []
deriving DecidableEq, Repr, Inhabited

/-- Whether there are no comments. -/
def Comments.isEmpty (c : Comments) : Bool :=
  c.leading.isEmpty && c.trailing.isEmpty && c.inner.isEmpty

/-- A constant.  A number is kept unsigned, with a mark for a minus sign written before it. -/
inductive Literal where
  | number (raw : String) (value : Binary64) (negated : Bool)
  | string (raw value : String)
  | bool (value : Bool)
  | null
deriving DecidableEq, Repr, Inhabited

namespace Literal

/-- How a constant is written. -/
def raw : Literal → String
  | number raw _ negated => if negated then "-" ++ raw else raw
  | string raw _ => raw
  | bool b => if b then "true" else "false"
  | null => "null"

/-- The string literal that stands for `value`. -/
def ofText (value : String) : Literal := string (quote value) value

/-- A number with a minus sign before it; other constants have none. -/
def negate : Literal → Literal
  | number raw value _ => number raw value true
  | l => l

end Literal

/-! ## Operators -/

/-- Assignment, plain or joined with an operation. -/
inductive AssignOp where
  | set | add | sub | mul | div | mod | pow
deriving DecidableEq, Repr, Inhabited

/-- The symbol of an assignment. -/
def AssignOp.symbol : AssignOp → Symbol
  | set => .assign
  | add => .plusAssign
  | sub => .minusAssign
  | mul => .starAssign
  | div => .slashAssign
  | mod => .percentAssign
  | pow => .caretAssign

/-- Operators between two operands. -/
inductive BinaryOp where
  | or | and
  | equal | notEqual | less | greater | lessEqual | greaterEqual | isa
  | bitOr | bitAnd
  | shiftLeft | shiftRight | shiftRightZero
  | add | sub
  | mul | div | mod
  | pow
deriving DecidableEq, Repr, Inhabited

namespace BinaryOp

/-- The token that writes an operator. -/
def token : BinaryOp → Token.Kind
  | or => .keyword .or
  | and => .keyword .and
  | equal => .symbol .equal
  | notEqual => .symbol .notEqual
  | less => .symbol .less
  | greater => .symbol .greater
  | lessEqual => .symbol .lessEqual
  | greaterEqual => .symbol .greaterEqual
  | isa => .keyword .isa
  | bitOr => .symbol .pipe
  | bitAnd => .symbol .amp
  | shiftLeft => .symbol .shiftLeft
  | shiftRight => .symbol .shiftRight
  | shiftRightZero => .symbol .shiftRightZero
  | add => .symbol .plus
  | sub => .symbol .minus
  | mul => .symbol .star
  | div => .symbol .slash
  | mod => .symbol .percent
  | pow => .symbol .caret

/-- How an operator is written. -/
def spelling (op : BinaryOp) : String := op.token.spelling

/-- Operators that join truth values. -/
def isLogical : BinaryOp → Bool
  | or | and => true
  | _ => false

/-- Operators that compare their operands. -/
def isComparison : BinaryOp → Bool
  | equal | notEqual | less | greater | lessEqual | greaterEqual | isa => true
  | _ => false

/-- Operators written as words, which need blanks around them. -/
def isWord (op : BinaryOp) : Bool := op.token.isKeyword

/-- Whether an operator shifts bits. -/
def isShift : BinaryOp → Bool
  | shiftLeft | shiftRight | shiftRightZero => true
  | _ => false

end BinaryOp

/-- Operators before one operand. -/
inductive UnaryOp where
  | neg | not | new | address
deriving DecidableEq, Repr, Inhabited

namespace UnaryOp

/-- The token that writes an operator. -/
def token : UnaryOp → Token.Kind
  | neg => .symbol .minus
  | not => .keyword .not
  | new => .keyword .new
  | address => .symbol .address

/-- How an operator is written. -/
def spelling (op : UnaryOp) : String := op.token.spelling

/-- Operators written as words, which need a blank after them. -/
def isWord (op : UnaryOp) : Bool := op.token.isKeyword

end UnaryOp

/-! ## Directives -/

/-- Directives that stand for a value. -/
inductive ValueDirective where
  /-- The value of an environment variable. -/
  | envar (name : String)
  /-- The text of another file. -/
  | inject (path : String)
  /-- The line the directive stands on. -/
  | line
  /-- The name of the file the directive stands in. -/
  | filename
deriving DecidableEq, Repr, Inhabited

/-- Directives that are statements. -/
inductive Directive where
  /-- Binds `name` to what the module at `path` exports. -/
  | import_ (name : Ident) (path : String)
  /-- Puts the statements of the module at `path` here. -/
  | include_ (path : String)
  /-- A mark for a debugger. -/
  | debugger
deriving DecidableEq, Repr, Inhabited

/-! ## Nodes -/

mutual

/-- An expression. -/
structure Expr where
  form : Expr.Form
  span : Span
  comments : Comments := {}

/-- What an expression is, apart from where it stands. -/
inductive Expr.Form where
  | literal (value : Literal)
  | list (items : List Expr)
  | map (entries : List Entry)
  | identifier (name : String)
  | member (base : Expr) (field : Ident)
  | index (base index : Expr)
  | slice (base : Expr) (start stop : Option Expr)
  | call (callee : Expr) (args : List Expr)
  | binary (op : BinaryOp) (left right : Expr)
  | unary (op : UnaryOp) (operand : Expr)
  | function (params : List Param) (body : Block)
  | paren (inner : Expr)
  | directive (directive : ValueDirective)

/-- One `key: value` of a map. -/
structure Entry where
  key : Expr
  value : Expr
  span : Span
  comments : Comments := {}

/-- A parameter of a function, with the value it has if none is given. -/
structure Param where
  name : Ident
  default : Option Expr
  span : Span
  comments : Comments := {}

/-- Statements, with the stretch from what opens them to what closes them. -/
structure Block where
  stmts : List Stmt
  span : Span

/-- A condition and the statements it guards. -/
structure Clause where
  condition : Expr
  body : Block
  span : Span

/-- A statement. -/
structure Stmt where
  form : Stmt.Form
  span : Span

/-- What a statement is, apart from where it stands. -/
inductive Stmt.Form where
  | assign (op : AssignOp) (target value : Expr)
  /-- An expression on its own, in most cases a call. -/
  | expr (value : Expr)
  | return_ (value : Option Expr)
  | break_
  | continue_
  /-- `inline` tells an `if` written on one line, without an end, from one with blocks. -/
  | if_ (clauses : List Clause) (else_ : Option Block) (inline : Bool)
  | while_ (condition : Expr) (body : Block)
  | for_ (item : Ident) (iterable : Expr) (body : Block)
  | comment (text : String)
  | directive (directive : Directive)

end

namespace Expr

/-- Whether a form never needs parentheses around it.  A number with a sign does: the sign binds
weaker than the operators that may follow. -/
def Form.isAtomic : Form → Bool
  | .literal (.number _ _ negated) => !negated
  | .binary .. | .unary .. | .function .. => false
  | _ => true

/-- Whether an expression never needs parentheses. -/
def isAtomic (e : Expr) : Bool := e.form.isAtomic

/-- Whether an expression is a call. -/
def isCall (e : Expr) : Bool :=
  match e.form with
  | .call .. => true
  | _ => false

end Expr

/-- Nodes that may stand between brackets and carry comments. -/
class Item (α : Type) where
  span : α → Span
  comments : α → Comments
  withComments : α → Comments → α

instance : Item Expr := ⟨Expr.span, Expr.comments, fun e c => { e with comments := c }⟩
instance : Item Entry := ⟨Entry.span, Entry.comments, fun e c => { e with comments := c }⟩
instance : Item Param := ⟨Param.span, Param.comments, fun p c => { p with comments := c }⟩

namespace Item

variable {α : Type} [Item α]

/-- Puts `cs` before the comments that lead `a`. -/
def lead (a : α) (cs : List Comment) : α :=
  withComments a { comments a with leading := cs ++ (comments a).leading }

/-- Puts `cs` after the comments that trail `a`. -/
def trail (a : α) (cs : List Comment) : α :=
  withComments a { comments a with trailing := (comments a).trailing ++ cs }

/-- Gives `a` the first of `cs` if it starts on the last line of `a`, and returns the others. -/
def takeTrailing (a : α) : List Comment → α × List Comment
  | [] => (a, [])
  | c :: cs => if c.span.start.line = (span a).stop.line then (trail a [c], cs) else (a, c :: cs)

end Item

/-! ## A whole script -/

/-- A file named by a script, as written. -/
structure Reference where
  path : String
  span : Span
deriving DecidableEq, Repr, Inhabited

/-- The names used at the top level of a script or directly in one of its functions. -/
structure Scope where
  /-- Each name once, by first use. -/
  identifiers : List String := []
  span : Span
deriving DecidableEq, Repr, Inhabited

/-- A name more, unless it is there. -/
def Scope.add (s : Scope) (name : String) : Scope :=
  if name ∈ s.identifiers then s else { s with identifiers := s.identifiers ++ [name] }

/-- What a script mentions, in the order of the text. -/
structure Mentions where
  imports : List Reference := []
  includes : List Reference := []
  injects : List Reference := []
  /-- Calls that load another script when the program runs. -/
  natives : List Reference := []
  literals : List Literal := []
  /-- The top level first, then one for each function in order of their first words. -/
  scopes : List Scope := []
deriving DecidableEq, Repr, Inhabited

/-- The name of the function that loads another script when the program runs. -/
def nativeImport : String := "import_code"

/-- A script. -/
structure Script where
  body : List Stmt
  mentions : Mentions
  span : Span

/-- Every name used in a script, scope by scope. -/
def Script.identifiers (s : Script) : List String := s.mentions.scopes.flatMap (·.identifiers)

end ScriptBundler

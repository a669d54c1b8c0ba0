import ScriptBundler.Reader.Basic

/-!
# Reader/Grammar — expressions and statements

Operators bind, from loose to tight: `or`, `and`, `not`, comparisons, `|`, `&`, shifts, sums,
products, minus and `new`, `^`, `@`, and what follows a primary expression.  Operators of one level
group to the left, except that the right operand of `^` takes in further powers.

Inside brackets, after an operator and after a comma the line goes on.  A comment there that shares
the last line of the item before it trails that item; any other leads the item after it.

Every reader that repeats or nests takes a bound on how often.  `Reader.bound` gives one that
suffices, as each round moves past a token.
-/

namespace ScriptBundler.Reader

variable {α : Type} [Item α]

/-! ## Operators that group to the left -/

/-- The operators between truth values, loosest level first. -/
def looseLevels : List (List BinaryOp) := [[.or], [.and]]

/-- The operators that bind tighter than `not`, loosest level first. -/
def tightLevels : List (List BinaryOp) :=
  [[.equal, .notEqual, .less, .greater, .lessEqual, .greaterEqual, .isa], [.bitOr], [.bitAnd],
    [.shiftLeft, .shiftRight, .shiftRightZero], [.add, .sub], [.mul, .div, .mod]]

/-- An operator between two operands, from the start of the first to the end of the second. -/
def mkBinary (op : BinaryOp) (left right : Expr) : Expr :=
  { form := .binary op left right, span := left.span.merge right.span }

/-- An operator before its operand. -/
def mkUnary (op : UnaryOp) (start : Span) (operand : Expr) : Expr :=
  { form := .unary op operand, span := start.merge operand.span }

/-- Joins `left` with the operands that follow it, as long as one of `ops` stands between. -/
def joinLeft (ops : List BinaryOp) (operand : Reader Expr) : Nat → Expr → Reader Expr
  | 0, _ => fail
  | n + 1, left => do
    let got ← kind
    match ops.find? fun op => op.token == got with
    | none => return left
    | some op =>
      let _ ← advance
      let comments ← continuation
      let right ← operand
      joinLeft ops operand n (mkBinary op left (Item.lead right comments))

/-- One level of operators over operands. -/
def level (n : Nat) (ops : List BinaryOp) (operand : Reader Expr) : Reader Expr := do
  joinLeft ops operand n (← operand)

/-- Several levels, loosest first, over the tightest operands. -/
def levels (n : Nat) (table : List (List BinaryOp)) (operand : Reader Expr) : Reader Expr :=
  table.foldr (level n) operand

/-! ## Items between brackets -/

/-- Items with commas between them, up to `close`, which is left.  `pending` are the comments before
the first item; if there is none they are yielded. -/
def items (close : Token.Kind) (item : Reader α) :
    Nat → List Comment → Reader (List α × List Comment)
  | 0, _ => fail
  | n + 1, pending => do
    if ← check close then return ([], pending)
    let next := Item.lead (← item) pending
    let before ← continuation
    let more ← eat (.symbol .comma)
    let after ← continuation
    if more && !(← check close) then
      let (next, pending) := Item.takeTrailing next after
      let (rest, inner) ← items close item n pending
      return (Item.trail next before :: rest, inner)
    else return ([Item.trail next (before ++ after)], [])

/-- Items with commas between them, up to the closing bracket, and the comments before it. -/
def sequence (n : Nat) (close : Token.Kind) (item : Reader α) : Reader (List α × List Comment) := do
  let pending ← continuation
  items close item n pending

/-- Everything up to a closing bracket, and the bracket. -/
def bracketed (n : Nat) (close : Symbol) (item : Reader α) : Reader (List α × List Comment) := do
  let r ← sequence n (.symbol close) item
  let _ ← expect (.symbol close)
  return r

/-! ## What follows a primary expression -/

/-- A call.  Loading another script by a literal path is recorded. -/
def call (callee : Expr) (args : List Expr) (span : Span) (inner : List Comment) : Reader Expr := do
  match callee.form, args with
  | .identifier name, [⟨.literal (.string _ value), _, _⟩] =>
    if name = nativeImport then
      mentioned fun m => { m with natives := m.natives ++ [⟨value, span⟩] }
  | _, _ => pure ()
  return { form := .call callee args, span, comments := { inner } }

/-- What `p` reads, unless a `k` stands here. -/
def unlessAt (k : Token.Kind) (p : Reader α) : Reader (Option α) := do
  if ← check k then return none else return some (← p)

/-- Gives an end of a slice the comments before and after it.  If it is missing they are left over. -/
def around (end_ : Option Expr) (before after : List Comment) : Option Expr × List Comment :=
  match end_ with
  | some e => (some (Item.trail (Item.lead e before) after), [])
  | none => (none, before ++ after)

/-- An end of a slice, which is missing where `stop` stands at once.  `loose` are comments before it;
those left over are yielded. -/
def sliceEnd (stop : Token.Kind) (expr : Reader Expr) (loose : List Comment) :
    Reader (Option Expr × List Comment) := do
  let before ← continuation
  let end_ ← unlessAt stop expr
  let after ← continuation
  return around end_ (loose ++ before) after

/-- The rest of a slice of `base`, after its colon.  Comments that have no end to go with stay with
the slice. -/
def slice (expr : Reader Expr) (base : Expr) (start : Option Expr) (loose : List Comment) :
    Reader Expr := do
  let (stop, loose) ← sliceEnd (.symbol .closeBracket) expr loose
  let close ← expect (.symbol .closeBracket)
  return { form := .slice base start stop, span := base.span.merge close.span
           comments := { inner := loose } }

/-- The rest of an index of `base`. -/
def index (base : Expr) : Option Expr → Reader Expr
  | some index => do
    let close ← expect (.symbol .closeBracket)
    return { form := .index base index, span := base.span.merge close.span }
  | none => reject .expectedIndex

/-- An index or a slice of `base`, after the opening bracket. -/
def subscript (expr : Reader Expr) (base : Expr) : Reader Expr := do
  let (start, loose) ← sliceEnd (.symbol .colon) expr []
  if ← eat (.symbol .colon) then slice expr base start loose else index base start

/-- Members, subscripts and calls after `base`. -/
def suffixes (expr : Reader Expr) : Nat → Expr → Reader Expr
  | 0, _ => fail
  | n + 1, base => do
    match ← kind with
    | .symbol .dot =>
      let _ ← advance
      let field ← identifier
      suffixes expr n { form := .member base field, span := base.span.merge field.span }
    | .symbol .openBracket =>
      let _ ← advance
      suffixes expr n (← subscript expr base)
    | .symbol .openParen =>
      let _ ← advance
      let (args, inner) ← bracketed n .closeParen expr
      suffixes expr n (← call base args (base.span.merge (← behind)) inner)
    | _ => return base

/-! ## Primary expressions -/

/-- A constant, which is recorded. -/
def literal (value : Literal) : Reader Expr := do
  let span := (← advance).span
  mentioned fun m => { m with literals := m.literals ++ [value] }
  return { form := .literal value, span }

/-- `ls` with its last literal negated. -/
def negateLast (ls : List Literal) : List Literal :=
  match ls.getLast? with
  | some l => ls.dropLast ++ [l.negate]
  | none => ls

/-- A minus sign before `operand`.  Before a number without a sign it becomes the number's own, also
in the record, where that number is the last one. -/
def negative (start : Span) (operand : Expr) : Reader Expr := do
  match operand.form with
  | .literal (.number raw value false) =>
    mentioned fun m => { m with literals := negateLast m.literals }
    return { operand with
      form := .literal (.number raw value true)
      span := start.merge operand.span }
  | _ => return mkUnary .neg start operand

/-- An expression in parentheses. -/
def parenthesized (expr : Reader Expr) : Reader Expr := do
  let start := (← advance).span
  let leading ← continuation
  let inner ← expr
  let trailing ← continuation
  let close ← expect (.symbol .closeParen)
  return { form := .paren (Item.trail (Item.lead inner leading) trailing)
           span := start.merge close.span }

/-- A list. -/
def list (n : Nat) (expr : Reader Expr) : Reader Expr := do
  let start := (← advance).span
  let (members, inner) ← bracketed n .closeBracket expr
  return { form := .list members, span := start.merge (← behind), comments := { inner } }

/-- A key and its value.  Comments around the colon trail the entry. -/
def entry (expr : Reader Expr) : Reader Entry := do
  let key ← expr
  let before ← continuation
  let _ ← expect (.symbol .colon)
  let after ← continuation
  let value ← expr
  return { key, value, span := key.span.merge value.span
           comments := { trailing := before ++ after } }

/-- A map. -/
def map (n : Nat) (expr : Reader Expr) : Reader Expr := do
  let start := (← advance).span
  let (entries, inner) ← bracketed n .closeBrace (entry expr)
  return { form := .map entries, span := start.merge (← behind), comments := { inner } }

/-- A parameter, which is recorded. -/
def param (expr : Reader Expr) : Reader Param := do
  let name ← identifier
  mention name.name
  if ← eat (.symbol .assign) then
    let value ← expr
    return { name, default := some value, span := name.span.merge value.span }
  else return { name, default := none, span := name.span }

/-- The two words that close a block opened at `opener`. -/
def blockEnd (word : Keyword) (opener : Span) : Reader Span := do
  if ← check (.keyword .end_) then
    let _ ← advance
    return (← expect (.keyword word)).span
  else reject (.unclosedBlock word opener.start.line (← kind))

/-- The parameters of a function, which may be left out. -/
def params (n : Nat) (expr : Reader Expr) : Reader (List Param × List Comment) := do
  if ← eat (.symbol .openParen) then bracketed n .closeParen (param expr) else return ([], [])

/-- A function, whose names are a scope of their own. -/
def function (n : Nat) (expr : Reader Expr) (block : Reader Block) : Reader Expr := do
  let start := (← advance).span
  withScope start do
    let (params, inner) ← params n expr
    let body ← block
    let stop ← blockEnd .function start
    return { form := .function params body, span := start.merge stop, comments := { inner } }

/-! ## Directives -/

/-- The names of directives that stand for a value. -/
def valueDirectives : List String := ["envar", "inject", "line", "filename"]

/-- The names of directives that are statements. -/
def statementDirectives : List String := ["import", "include", "debugger"]

/-- Whether the current token starts a directive that stands for a value. -/
def atValueDirective : Reader Bool := get fun s =>
  match s.ahead with
  | ⟨.identifier name, _⟩ :: _ => name ∈ valueDirectives
  | _ => false

/-- The sign that starts a directive and the directive's name. -/
def directiveName : Reader (Span × String) := do
  let start := (← advance).span
  match ← kind with
  | .identifier name =>
    let _ ← advance
    return (start, name)
  | got => reject (.expectedDirective got)

/-- The stretch from `start` to the end of a directive, with its semicolon if it has one. -/
def directiveEnd (start : Span) : Reader Span := do
  let _ ← eat (.symbol .semicolon)
  return start.merge (← behind)

/-- The rest of the directive `name`, which stands for a value. -/
def directiveValue (start : Span) (name : String) : Reader ValueDirective := do
  match name with
  | "envar" => return .envar (← identifier).name
  | "inject" =>
    let target ← path
    let span := start.merge (← behind)
    mentioned fun m => { m with injects := m.injects ++ [⟨target, span⟩] }
    return .inject target
  | "line" => return .line
  | "filename" => return .filename
  | _ =>
    let span := start.merge (← behind)
    rejectAt span
      (if name ∈ statementDirectives then .directiveAsValue name else .unknownDirective name)

/-- A directive that stands for a value. -/
def valueDirective : Reader Expr := do
  let (start, name) ← directiveName
  let directive ← directiveValue start name
  return { form := .directive directive, span := ← directiveEnd start }

/-- The word between a name and the file it is imported from. -/
def fromWord : Reader Unit := do
  match ← kind with
  | .identifier "from" =>
    let _ ← advance
  | got => reject (.expectedFrom got)

/-- The rest of the directive `name`, which is a statement. -/
def directiveStmt (start : Span) (name : String) : Reader Stmt := do
  match name with
  | "import" =>
    let bound ← identifier
    fromWord
    let target ← path
    let span ← directiveEnd start
    mention bound.name
    mentioned fun m => { m with imports := m.imports ++ [⟨target, span⟩] }
    return ⟨.directive (.import_ bound target), span⟩
  | "include" =>
    let target ← path
    let span ← directiveEnd start
    mentioned fun m => { m with includes := m.includes ++ [⟨target, span⟩] }
    return ⟨.directive (.include_ target), span⟩
  | "debugger" => return ⟨.directive .debugger, ← directiveEnd start⟩
  | _ =>
    let span := start.merge (← behind)
    rejectAt span (.unknownDirective name)

/-- A directive that is a statement. -/
def statementDirective : Reader Stmt := do
  let (start, name) ← directiveName
  directiveStmt start name

/-! ## Statements -/

/-- The assignment that a token stands for. -/
def assignOp? : Token.Kind → Option AssignOp
  | .symbol s => [AssignOp.set, .add, .sub, .mul, .div, .mod, .pow].find? (·.symbol == s)
  | _ => none

/-- What a value may be assigned to, and what may be called without parentheses. -/
def isTarget (e : Expr) : Bool :=
  match e.form with
  | .identifier _ | .member .. | .index .. => true
  | _ => false

/-- Tokens that start the first argument of a call without parentheses. -/
def startsArgument : Token.Kind → Bool
  | .number .. | .string .. | .identifier _ => true
  | .keyword k => k ∈ [.true, .false, .null, .not, .new, .function]
  | .symbol s => s ∈ [.openBrace, .address, .hash]
  | _ => false

/-- The arguments of a call without parentheses, from `first` on. -/
def commandArgs (expr : Reader Expr) : Nat → Expr → Reader (List Expr)
  | 0, _ => fail
  | n + 1, first => do
    if ← eat (.symbol .comma) then
      let comments ← continuation
      let (first, comments) := Item.takeTrailing first comments
      let next ← expr
      return first :: (← commandArgs expr n (Item.lead next comments))
    else return [first]

/-- A call without parentheses. -/
def command (n : Nat) (expr : Reader Expr) (callee : Expr) : Reader Stmt := do
  let args ← commandArgs expr n (← expr)
  let stop := (args.getLast?.map Expr.span).getD callee.span
  let e ← call callee args (callee.span.merge stop) []
  return ⟨.expr e, e.span⟩

/-- What a statement that starts with `e` goes on as: an assignment, a call or nothing more. -/
def simpleRest (n : Nat) (expr : Reader Expr) (e : Expr) : Reader Stmt := do
  match assignOp? (← kind) with
  | some op =>
    if isTarget e then
      let _ ← advance
      let value ← expr
      return ⟨.assign op e value, e.span.merge value.span⟩
    else rejectAt e.span .invalidTarget
  | none =>
    if startsArgument (← kind) && isTarget e then command n expr e
    else return ⟨.expr e, e.span⟩

/-- An assignment, a call or an expression on its own. -/
def simple (n : Nat) (expr : Reader Expr) : Reader Stmt := do simpleRest n expr (← expr)

/-- A return, with a value unless the line ends. -/
def return_ (expr : Reader Expr) : Reader Stmt := do
  let start := (← advance).span
  let got ← kind
  if got.isTerminator || isCloser got then return ⟨.return_ none, start⟩
  else
    let value ← expr
    return ⟨.return_ (some value), start.merge value.span⟩

/-- A loop with a condition. -/
def while_ (expr : Reader Expr) (block : Reader Block) : Reader Stmt := do
  let start := (← advance).span
  let condition ← expr
  let body ← block
  let stop ← blockEnd .while_ start
  return ⟨.while_ condition body, start.merge stop⟩

/-- A loop over what something holds. -/
def for_ (expr : Reader Expr) (block : Reader Block) : Reader Stmt := do
  let start := (← advance).span
  let item ← identifier
  mention item.name
  let _ ← expect (.keyword .in_)
  let iterable ← expr
  let body ← block
  let stop ← blockEnd .for_ start
  return ⟨.for_ item iterable body, start.merge stop⟩

/-- What follows a clause of an `if` with blocks.  `more` reads the clauses from the next condition
on. -/
def clausesAfter (expr : Reader Expr) (block : (Token.Kind → Bool) → Reader Block)
    (more : Span → Expr → Reader (List Clause × Option Block)) :
    Reader (List Clause × Option Block) := do
  if ← check (.keyword .else_) then
    let start := (← advance).span
    if ← eat (.keyword .if_) then
      let condition ← expr
      let _ ← expect (.keyword .then_)
      more start condition
    else return ([], some (← block (· == .keyword .end_)))
  else return ([], none)

/-- The clauses of an `if` with blocks, the first one guarded by `condition`. -/
def clauses (expr : Reader Expr) (block : (Token.Kind → Bool) → Reader Block) :
    Nat → Span → Expr → Reader (List Clause × Option Block)
  | 0, _, _ => fail
  | n + 1, start, condition => do
    let body ← block isCloser
    let (more, last) ← clausesAfter expr block (clauses expr block n)
    return (⟨condition, body, start.merge body.span⟩ :: more, last)

/-- A statement as a block of its own. -/
def single (stmt : Stmt) : Block := ⟨[stmt], stmt.span⟩

/-- What an `else` on one line adds to an `if` on one line: the clauses of an `if` on one line that
follows it at once, or else a last block. -/
def inlineElse (chained : Bool) (stmt : Stmt) : List Clause × Option Block :=
  match chained, stmt.form with
  | true, .if_ clauses last true => (clauses, last)
  | _, _ => ([], some (single stmt))

/-- What follows the first clause of an `if` on one line. -/
def inlineRest (stmt : Reader Stmt) : Reader (List Clause × Option Block) := do
  if ← eat (.keyword .else_) then
    let chained ← check (.keyword .if_)
    return inlineElse chained (← stmt)
  else return ([], none)

/-- An `if` on one line, after its `then`. -/
def inlineIf (stmt : Reader Stmt) (start : Span) (condition : Expr) : Reader Stmt := do
  let body := single (← stmt)
  let clause : Clause := ⟨condition, body, start.merge body.span⟩
  let (more, last) ← inlineRest stmt
  let stop := match last with
    | some block => block.span
    | none => ((clause :: more).getLast?.map Clause.span).getD start
  return ⟨.if_ (clause :: more) last true, start.merge stop⟩

/-- An `if`: with blocks if its line ends after `then`, on one line otherwise. -/
def if_ (n : Nat) (expr : Reader Expr) (block : (Token.Kind → Bool) → Reader Block)
    (stmt : Reader Stmt) : Reader Stmt := do
  let start := (← advance).span
  let condition ← expr
  let _ ← expect (.keyword .then_)
  let got ← kind
  if isLayout got || got == .eof then
    let (cs, last) ← clauses expr block n start condition
    let stop ← blockEnd .if_ start
    return ⟨.if_ cs last false, start.merge stop⟩
  else inlineIf stmt start condition

/-- A comment, or a statement and its end.  After a fault, moves to the next statement. -/
def line (stmt : Reader Stmt) : Reader (Option Stmt) := do
  match ← kind with
  | .comment text => return some ⟨.comment text, (← advance).span⟩
  | _ =>
    let r ← attempt do
      let s ← stmt
      terminator
      return s
    if r.isNone then synchronize
    return r

/-- Statements line by line, until the text or a block ends or there are too many faults. -/
def statements (stop : Token.Kind → Bool) (next : Reader (Option Stmt)) : Nat → Reader (List Stmt)
  | 0 => fail
  | n + 1 => do
    separators
    let got ← kind
    if got == .eof || (← get State.isFull) || stop got then return []
    else
      let stmt ← next
      let rest ← statements stop next n
      return stmt.toList ++ rest

/-- A block: statements up to what closes it, which is left. -/
def blockOf (n : Nat) (stmt : Reader Stmt) (stop : Token.Kind → Bool) : Reader Block := do
  let start ← behind
  let stmts ← statements stop (line stmt) n
  return ⟨stmts, start.merge (← here)⟩

/-- A line outside of all blocks, where none can be closed. -/
def topLine (stmt : Reader Stmt) : Reader (Option Stmt) := do
  let got ← kind
  if isCloser got then
    report (.outsideBlock got) (← here)
    let _ ← advance
    synchronize
    return none
  else line stmt

/-! ## The grammar -/

mutual

/-- An expression. -/
def expression : Nat → Reader Expr
  | 0 => fail
  | n + 1 => nested (levels n looseLevels (negation n))

/-- Operands of `and`. -/
def negation : Nat → Reader Expr
  | 0 => fail
  | n + 1 => do
    if ← check (.keyword .not) then
      let start := (← advance).span
      return mkUnary .not start (← nested (negation n))
    else levels n tightLevels (unary n)

/-- Operands of products. -/
def unary : Nat → Reader Expr
  | 0 => fail
  | n + 1 => do
    match ← kind with
    | .symbol .minus =>
      let start := (← advance).span
      negative start (← nested (unary n))
    | .keyword .new =>
      let start := (← advance).span
      return mkUnary .new start (← nested (unary n))
    | _ =>
      let left ← address n
      if ← eat (.symbol .caret) then
        let comments ← continuation
        let right ← nested (unary n)
        return mkBinary .pow left (Item.lead right comments)
      else return left

/-- Left operands of powers. -/
def address : Nat → Reader Expr
  | 0 => fail
  | n + 1 => do
    if ← check (.symbol .address) then
      let start := (← advance).span
      return mkUnary .address start (← nested (address n))
    else suffixes (expression n) n (← primary n)

/-- What an expression starts with: a constant, a name, a function, a directive or a bracket. -/
def primary : Nat → Reader Expr
  | 0 => fail
  | n + 1 => do
    match ← kind with
    | .number raw value => literal (.number raw value false)
    | .string raw value => literal (.string raw value)
    | .keyword .true => literal (.bool true)
    | .keyword .false => literal (.bool false)
    | .keyword .null => literal .null
    | .identifier name =>
      let span := (← advance).span
      mention name
      return { form := .identifier name, span }
    | .symbol .openParen => parenthesized (expression n)
    | .symbol .openBracket => list n (expression n)
    | .symbol .openBrace => map n (expression n)
    | .keyword .function =>
      function n (expression n) (blockOf n (statement n) (· == .keyword .end_))
    | .symbol .hash => valueDirective
    | got => reject (.expectedExpression got)

/-- A statement. -/
def statement : Nat → Reader Stmt
  | 0 => fail
  | n + 1 => do
    match ← kind with
    | .keyword .if_ => if_ n (expression n) (blockOf n (statement n)) (statement n)
    | .keyword .while_ => while_ (expression n) (blockOf n (statement n) (· == .keyword .end_))
    | .keyword .for_ => for_ (expression n) (blockOf n (statement n) (· == .keyword .end_))
    | .keyword .return_ => return_ (expression n)
    | .keyword .break_ => return ⟨.break_, (← advance).span⟩
    | .keyword .continue_ => return ⟨.continue_, (← advance).span⟩
    | .symbol .hash =>
      if ← atValueDirective then simple n (expression n) else statementDirective
    | _ => simple n (expression n)

end

/-- A bound that suffices for `count` tokens: no more than eight readers call one another before one
of them moves on. -/
def bound (count : Nat) : Nat := 8 * count + 8

/-- A whole script. -/
def script (n : Nat) : Reader Script := do
  let start ← here
  update (·.openScope start)
  let body ← statements (fun _ => false) (topLine (statement n)) n
  let stop ← here
  update (·.closeScope stop)
  return { body, mentions := ← get (·.mentions), span := start.merge stop }

end ScriptBundler.Reader

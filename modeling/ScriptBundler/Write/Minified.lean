import ScriptBundler.Write.Basic

/-!
# Write/Minified — as short as possible

Comments go, names and constants are written as the naming says, and the bitwise operators become
calls.  Constants among the arguments of a call, and in the values parameters have by default, are
written where they occur.
-/

namespace ScriptBundler.Minified

/-- What a node is written against. -/
structure Env where
  scene : Scene
  /-- Whether constants are written where they occur. -/
  guarded : Bool := false

/-- Inside arguments and values parameters have by default. -/
def Env.guard (env : Env) : Env := { env with guarded := true }

/-- A name as the settings have it written. -/
def Env.name (env : Env) (name : String) : Layout := Layout.text (env.scene.naming.identifier name)

/-- A constant, or the slot that stands for it. -/
def Env.literal (env : Env) (l : Literal) : Layout :=
  Layout.text <| if env.guarded then l.raw else (env.scene.naming.slot? l).getD l.raw

/-- The function that stands for a bitwise operator. -/
def callFor? : BinaryOp → Option String
  | .bitOr => some "bitOr"
  | .bitAnd => some "bitAnd"
  | _ => none

/-- An operator between its operands, with blanks only around words. -/
def infixOp (op : BinaryOp) : String := if op.isWord then s!" {op.spelling} " else op.spelling

/-- The statements of a module, written for the given scene. -/
abbrev Splicer := Env → Write Layout

open Layout (text eol intercalate)

/-- Statements that leave no line behind. -/
def isSilent (scene : Scene) (s : Stmt) : Bool :=
  match s.form with
  | .comment _ => true
  | .directive .debugger => !scene.settings.devMode
  | _ => false

/-- `l`, written for `s`, as a line of its own. -/
def endLine (scene : Scene) (s : Stmt) (l : Layout) : Layout :=
  if isSilent scene s then [] else l ++ eol

mutual

/-- An expression. -/
def expr (splicer : Splicer) (env : Env) : Expr → Write Layout
  | ⟨.literal l, _, _⟩ => return env.literal l
  | ⟨.list items, _, _⟩ => do
    return text "[" ++ intercalate "," (← exprs splicer env items) ++ text "]"
  | ⟨.map items, _, _⟩ => do
    return text "\x7b" ++ intercalate "," (← entries splicer env items) ++ text "\x7d"
  | ⟨.identifier name, _, _⟩ => return env.name name
  | ⟨.member base field, _, _⟩ => do return (← expr splicer env base) ++ text s!".{field.name}"
  | ⟨.index base index, _, _⟩ => do
    return (← expr splicer env base) ++ text "[" ++ (← expr splicer env index) ++ text "]"
  | ⟨.slice base start stop, _, _⟩ => do
    return (← expr splicer env base) ++ text "[" ++ (← bound splicer env start) ++ text ":" ++
      (← bound splicer env stop) ++ text "]"
  | ⟨.call callee args, _, _⟩ =>
    match env.scene.nativeCall? callee args with
    | some call => return text call
    | none => do
      return (← expr splicer env callee) ++ text "(" ++
        intercalate "," (← exprs splicer env.guard args) ++ text ")"
  | ⟨.binary op left right, span, _⟩ =>
    if op.isShift then throw (.unsupportedOperator op span)
    else match callFor? op with
      | some call => do
        return text s!"{call}(" ++ (← expr splicer env left) ++ text "," ++
          (← expr splicer env right) ++ text ")"
      | none => do
        return (← expr splicer env left) ++ text (infixOp op) ++ (← expr splicer env right)
  | ⟨.unary op operand, _, _⟩ => do return text op.lead ++ (← expr splicer env operand)
  | ⟨.function ps body, _, _⟩ => do
    let ps ← params splicer env ps
    let head := if ps.isEmpty then [] else text "(" ++ intercalate "," ps ++ text ")"
    return text "function" ++ head ++ eol ++ (← block splicer env body) ++ text "end function"
  | ⟨.paren inner, _, _⟩ => do return text "(" ++ (← expr splicer env inner) ++ text ")"
  | ⟨.directive d, span, _⟩ => return text (env.scene.value d span.start.line)

/-- Expressions one by one. -/
def exprs (splicer : Splicer) (env : Env) : List Expr → Write (List Layout)
  | [] => return []
  | e :: es => do return (← expr splicer env e) :: (← exprs splicer env es)

/-- An end of a slice. -/
def bound (splicer : Splicer) (env : Env) : Option Expr → Write Layout
  | none => return []
  | some e => expr splicer env e

/-- Keys with their values. -/
def entries (splicer : Splicer) (env : Env) : List Entry → Write (List Layout)
  | [] => return []
  | ⟨key, value, _, _⟩ :: es => do
    let entry := (← expr splicer env key) ++ text ":" ++ (← expr splicer env value)
    return entry :: (← entries splicer env es)

/-- Parameters with the values they have by default. -/
def params (splicer : Splicer) (env : Env) : List Param → Write (List Layout)
  | [] => return []
  | ⟨name, none, _, _⟩ :: ps => do return env.name name.name :: (← params splicer env ps)
  | ⟨name, some value, _, _⟩ :: ps => do
    let param := env.name name.name ++ text "=" ++ (← expr splicer env.guard value)
    return param :: (← params splicer env ps)

/-- The statements of a block. -/
def block (splicer : Splicer) (env : Env) : Block → Write Layout
  | ⟨ss, _⟩ => stmts splicer env ss

/-- Statements on lines, modules in place of includes. -/
def stmts (splicer : Splicer) (env : Env) : List Stmt → Write Layout
  | [] => return []
  | s :: ss => do
    let first ←
      match env.scene.spliced? (fun scene => splicer { env with scene }) s with
      | some body => body
      | none => endLine env.scene s <$> line splicer env s
    return first ++ (← stmts splicer env ss)

/-- A statement without the end of its line. -/
def line (splicer : Splicer) (env : Env) : Stmt → Write Layout
  | ⟨.assign op target value, _⟩ => do
    return (← expr splicer env target) ++ text op.symbol.spelling ++ (← expr splicer env value)
  | ⟨.expr ⟨.call callee [], _, _⟩, _⟩ => expr splicer env callee
  | ⟨.expr e, _⟩ => expr splicer env e
  | ⟨.return_ none, _⟩ => return text "return"
  | ⟨.return_ (some value), _⟩ => do return text "return " ++ (← expr splicer env value)
  | ⟨.break_, _⟩ => return text "break"
  | ⟨.continue_, _⟩ => return text "continue"
  | ⟨.if_ clauses last true, _⟩ => do
    return (← inlineClauses splicer env "if " clauses) ++ (← inlineElse splicer env last)
  | ⟨.if_ clauses last false, _⟩ => do
    return (← blockClauses splicer env "if " clauses) ++ (← blockElse splicer env last) ++
      text "end if"
  | ⟨.while_ condition body, _⟩ => do
    return text "while " ++ (← expr splicer env condition) ++ eol ++ (← block splicer env body) ++
      text "end while"
  | ⟨.for_ item iterable body, _⟩ => do
    return text "for " ++ env.name item.name ++ text " in " ++ (← expr splicer env iterable) ++
      eol ++ (← block splicer env body) ++ text "end for"
  | ⟨.comment _, _⟩ => return []
  | ⟨.directive (.import_ name path), _⟩ =>
    return text (env.scene.importText "=" (env.scene.naming.identifier name.name) path)
  | ⟨.directive (.include_ path), _⟩ =>
    return if (env.scene.include? path).isNone then text (Scene.includeText path) else []
  | ⟨.directive .debugger, _⟩ =>
    return if env.scene.settings.devMode then text "#debugger;" else []

/-- The clauses of an `if` over several lines; `word` opens the first. -/
def blockClauses (splicer : Splicer) (env : Env) (word : String) : List Clause → Write Layout
  | [] => return []
  | ⟨condition, body, _⟩ :: cs => do
    return text word ++ (← expr splicer env condition) ++ text " then" ++ eol ++
      (← block splicer env body) ++ (← blockClauses splicer env "else if " cs)

/-- What an `if` over several lines does otherwise. -/
def blockElse (splicer : Splicer) (env : Env) : Option Block → Write Layout
  | none => return []
  | some body => do return text "else" ++ eol ++ (← block splicer env body)

/-- The clauses of an `if` on one line; `word` opens the first. -/
def inlineClauses (splicer : Splicer) (env : Env) (word : String) : List Clause → Write Layout
  | [] => return []
  | ⟨condition, body, _⟩ :: cs => do
    return text word ++ (← expr splicer env condition) ++ text " then " ++
      (← inlineBody splicer env body) ++ (← inlineClauses splicer env " else if " cs)

/-- What an `if` on one line does otherwise. -/
def inlineElse (splicer : Splicer) (env : Env) : Option Block → Write Layout
  | none => return []
  | some body => do return text " else " ++ (← inlineBody splicer env body)

/-- The one statement that the body of an `if` on one line is. -/
def inlineBody (splicer : Splicer) (env : Env) : Block → Write Layout
  | ⟨[s], _⟩ => line splicer env s
  | ⟨ss, _⟩ => throw (.inlineBody ss.length)

end

/-- Writes the module that is active.  `n` bounds how many includes can be inside one another. -/
def body : Nat → Splicer
  | 0, _ => return []
  | n + 1, env =>
    match env.scene.active with
    | some m => stmts (body n) env m.script.body
    | none => return []

/-- A script on its own, or as the active module of the scene. -/
def script (scene : Scene) (s : Script) : Write Layout :=
  stmts (body scene.modules.length) { scene } s.body

/-- A script as the module that is registered under `id`. -/
def registered (scene : Scene) (id : String) (s : Script) : Write Layout := do
  return text (scene.moduleHeader "=" id) ++ eol ++ (← script scene s) ++ text "end function"

end ScriptBundler.Minified

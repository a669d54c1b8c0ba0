import ScriptBundler.Write.Basic

/-!
# Write/Verbatim — laid out as it was read

Statements keep their lines, blank lines and comments.  Lines break inside brackets and after
operators where they broke in the text.

Which items of a bracket start a line, and what is written before them, follows from the lines they
were read from (`Cursor.plan`), before any item is written.
-/

namespace ScriptBundler.Verbatim

open Layout (text eol)

/-- What a node is written against. -/
structure Env where
  scene : Scene
  depth : Nat := 0

namespace Env

/-- The indentation of a line. -/
def indent (env : Env) : Layout := env.scene.settings.indent env.depth

/-- One level in. -/
def deeper (env : Env) : Env := { env with depth := env.depth + 1 }

end Env

/-! ## Inside brackets -/

/-- How far the writing has come inside a pair of brackets. -/
structure Cursor where
  /-- The line of the text that was reached. -/
  line : Nat
  /-- Whether a comment has just ended the line. -/
  fresh : Bool := false
  /-- Whether an item has started a line; later ones are then one level in. -/
  broken : Bool := false
  /-- Comments that go behind the comma after the last item. -/
  held : List Comment := []

/-- Where an item goes. -/
structure Placement where
  /-- What is written before the item. -/
  before : Layout
  /-- Whether the item is written one level in. -/
  isDeeper : Bool

namespace Cursor

/-- A comment.  On the line that was reached it continues that line; otherwise it gets its own, one
level in. -/
def comment (env : Env) (cur : Cursor) (c : Comment) : Layout × Cursor :=
  let lead :=
    if !cur.fresh && c.span.start.line == cur.line then Layout.trailing c.text
    else (if cur.fresh then [] else eol) ++ env.deeper.indent ++ Layout.comment c.text
  (lead ++ eol, { cur with fresh := true, line := c.span.stop.line })

/-- Comments one after the other. -/
def comments (env : Env) : Cursor → List Comment → Layout × Cursor
  | cur, [] => ([], cur)
  | cur, c :: cs =>
    let (first, cur) := cur.comment env c
    let (rest, cur) := comments env cur cs
    (first ++ rest, cur)

/-- The comments that were held back. -/
def flush (env : Env) (cur : Cursor) : Layout × Cursor :=
  comments env { cur with held := [] } cur.held

/-- Comes to an item, which starts a line if it did so in the text or if a comment stands before it.
`isSpaced` sets a blank between items on one line. -/
def place (env : Env) (isSpaced : Bool) (cur : Cursor) (span : Span) (cs : Comments) :
    Placement × Cursor :=
  let (held, cur) := cur.flush env
  let (leading, cur) := comments env cur cs.leading
  let (gap, cur) :=
    if cur.fresh || cur.line < span.start.line then
      ((if cur.fresh then [] else eol) ++ env.deeper.indent,
        { cur with fresh := false, broken := true })
    else (if isSpaced then text " " else [], cur)
  (⟨held ++ leading ++ gap, cur.broken⟩, { cur with line := span.stop.line, held := cs.trailing })

/-- Comes to each of several items. -/
def plan (env : Env) : Bool → Cursor → List (Span × Comments) → List Placement × Cursor
  | _, cur, [] => ([], cur)
  | isSpaced, cur, (span, cs) :: items =>
    let (first, cur) := cur.place env isSpaced span cs
    let (rest, cur) := plan env true cur items
    (first :: rest, cur)

/-- A closing bracket that stood on `line`. -/
def close (env : Env) (bracket : String) (line : Nat) (cur : Cursor) : Layout :=
  let (held, cur) := cur.flush env
  let gap :=
    if cur.fresh then env.indent
    else if cur.line < line then eol ++ env.indent
    else []
  held ++ gap ++ text bracket

end Cursor

/-- A pair of brackets, and the lines they stood on. -/
structure Brackets where
  opening : String
  closing : String
  openLine : Nat
  closeLine : Nat

namespace Brackets

/-- Where the items between the brackets go, and where the writing is after them. -/
def plan (b : Brackets) (env : Env) {α : Type} [Item α] (items : List α) (inner : List Comment) :
    Layout × List Placement × Cursor :=
  let start : Cursor := { line := b.openLine }
  let (lead, cur) := if items.isEmpty then start.comments env inner else ([], start)
  (lead, Cursor.plan env false cur (items.map fun a => (Item.span a, Item.comments a)))

/-- Items after one another with commas between, each behind what goes before it. -/
def join : List Placement → List Layout → Layout
  | p :: ps, l :: ls => p.before ++ l ++ (if ls.isEmpty then [] else text "," ++ join ps ls)
  | _, _ => []

/-- The brackets and what is between them. -/
def layout (b : Brackets) (env : Env) (plan : Layout × List Placement × Cursor)
    (items : List Layout) : Layout :=
  text b.opening ++ plan.1 ++ join plan.2.1 items ++ plan.2.2.close env b.closing b.closeLine

end Brackets

/-- Comes to an end of a slice, if it is there. -/
def bound (env : Env) (end_ : Option Expr) (cur : Cursor) : Placement × Cursor :=
  match end_ with
  | some e => cur.place env false e.span e.comments
  | none => (⟨[], false⟩, cur)

/-- An environment for an item. -/
def Placement.env (p : Placement) (env : Env) : Env := if p.isDeeper then env.deeper else env

/-- What goes between an operator and its right operand, and the environment of that operand. -/
def operandGap (env : Env) (left right : Expr) : Layout × Env :=
  if left.span.stop.line < right.span.start.line then
    let start : Cursor := { line := left.span.stop.line }
    let (comments, cur) := start.comments env right.comments.leading
    (comments ++ (if cur.fresh then [] else eol) ++ env.deeper.indent, env.deeper)
  else (text " ", env)

/-! ## Nodes -/

/-- The statements of a module, written for the given scene. -/
abbrev Splicer := Env → Write Layout

mutual

/-- An expression. -/
def expr (splicer : Splicer) (env : Env) : Expr → Write Layout
  | ⟨.literal l, _, _⟩ => return text l.raw
  | ⟨.list items, span, cs⟩ => do
    let brackets : Brackets := ⟨"[", "]", span.start.line, span.stop.line⟩
    let plan := brackets.plan env items cs.inner
    return brackets.layout env plan (← exprs splicer env plan.2.1 items)
  | ⟨.map items, span, cs⟩ => do
    let brackets : Brackets := ⟨"\x7b", "\x7d", span.start.line, span.stop.line⟩
    let plan := brackets.plan env items cs.inner
    return brackets.layout env plan (← entries splicer env plan.2.1 items)
  | ⟨.identifier name, _, _⟩ => return text name
  | ⟨.member base field, _, _⟩ => do return (← expr splicer env base) ++ text s!".{field.name}"
  | ⟨.index base index, span, cs⟩ => do
    let brackets : Brackets := ⟨"[", "]", base.span.stop.line, span.stop.line⟩
    let plan := brackets.plan env [index] cs.inner
    let base ← expr splicer env base
    let index ← expr splicer (plan.2.1.head?.elim env (·.env env)) index
    return base ++ brackets.layout env plan [index]
  | ⟨.slice base start stop, span, cs⟩ => do
    let cur : Cursor := { line := base.span.stop.line }
    let base ← expr splicer env base
    let (first, cur) := bound env start cur
    let start ← boundExpr splicer (first.env env) start
    let (second, cur) := bound env stop cur
    let stop ← boundExpr splicer (second.env env) stop
    let (held, cur) := cur.flush env
    let (inner, cur) := cur.comments env cs.inner
    return base ++ text "[" ++ first.before ++ start ++ text ":" ++ second.before ++ stop ++ held ++
      inner ++ cur.close env "]" span.stop.line
  | ⟨.call callee args, span, cs⟩ =>
    match env.scene.nativeCall? callee args with
    | some call => return text call
    | none => do
      let brackets : Brackets := ⟨"(", ")", callee.span.stop.line, span.stop.line⟩
      let plan := brackets.plan env args cs.inner
      return (← expr splicer env callee) ++
        brackets.layout env plan (← exprs splicer env plan.2.1 args)
  | ⟨.binary op left right, _, _⟩ => do
    let (gap, inside) := operandGap env left right
    return (← expr splicer env left) ++ text s!" {op.spelling}" ++ gap ++
      (← expr splicer inside right)
  | ⟨.unary op operand, _, _⟩ => do return text op.lead ++ (← expr splicer env operand)
  | ⟨.function ps body, span, cs⟩ => do
    let brackets : Brackets := ⟨"(", ")", span.start.line, span.start.line⟩
    let plan := brackets.plan env ps cs.inner
    let bare := ps.isEmpty && cs.inner.isEmpty
    let ps ← params splicer env plan.2.1 ps
    let head := if bare then [] else brackets.layout env plan ps
    return text "function" ++ head ++ eol ++ (← block splicer env body) ++ env.indent ++
      text "end function"
  | ⟨.paren inner, span, _⟩ => do
    let brackets : Brackets := ⟨"(", ")", span.start.line, span.stop.line⟩
    let plan := brackets.plan env [inner] []
    let inner ← expr splicer (plan.2.1.head?.elim env (·.env env)) inner
    return brackets.layout env plan [inner]
  | ⟨.directive d, span, _⟩ => return text (env.scene.value d span.start.line)

/-- Items, each where it was placed. -/
def exprs (splicer : Splicer) (env : Env) : List Placement → List Expr → Write (List Layout)
  | p :: ps, e :: es => do
    return (← expr splicer (p.env env) e) :: (← exprs splicer env ps es)
  | _, _ => return []

/-- An end of a slice. -/
def boundExpr (splicer : Splicer) (env : Env) : Option Expr → Write Layout
  | none => return []
  | some e => expr splicer env e

/-- Keys with their values, each at its place. -/
def entries (splicer : Splicer) (env : Env) : List Placement → List Entry → Write (List Layout)
  | p :: ps, ⟨key, value, _, _⟩ :: es => do
    let inside := p.env env
    let entry := (← expr splicer inside key) ++ text ": " ++ (← expr splicer inside value)
    return entry :: (← entries splicer env ps es)
  | _, _ => return []

/-- Parameters with the values they have by default, each at its place. -/
def params (splicer : Splicer) (env : Env) : List Placement → List Param → Write (List Layout)
  | _ :: places, ⟨name, none, _, _⟩ :: ps => do
    return text name.name :: (← params splicer env places ps)
  | p :: places, ⟨name, some value, _, _⟩ :: ps => do
    let param := text s!"{name.name} = " ++ (← expr splicer (p.env env) value)
    return param :: (← params splicer env places ps)
  | _, _ => return []

/-- A block, one level in. -/
def block (splicer : Splicer) (env : Env) : Block → Write Layout
  | ⟨ss, span⟩ => do return Row.arrangeBlock span (← rows splicer env.deeper ss)

/-- Statements, each on a line of its own. -/
def rows (splicer : Splicer) (env : Env) : List Stmt → Write (List Row)
  | [] => return []
  | s :: ss => do
    let layout ←
      match env.scene.spliced? (fun scene => splicer { env with scene }) s with
      | some body => body
      | none => do
        let l ← line splicer env s
        pure (env.indent ++ l ++ eol)
    return Row.ofStmt s layout :: (← rows splicer env ss)

/-- A statement without the indentation and the end of its line. -/
def line (splicer : Splicer) (env : Env) : Stmt → Write Layout
  | ⟨.assign op target value, _⟩ => do
    return (← expr splicer env target) ++ text s!" {op.symbol.spelling} " ++
      (← expr splicer env value)
  | ⟨.expr e, _⟩ => expr splicer env e
  | ⟨.return_ none, _⟩ => return text "return"
  | ⟨.return_ (some value), _⟩ => do return text "return " ++ (← expr splicer env value)
  | ⟨.break_, _⟩ => return text "break"
  | ⟨.continue_, _⟩ => return text "continue"
  | ⟨.if_ clauses last true, _⟩ => do
    return (← inlineClauses splicer env "if " clauses) ++ (← inlineElse splicer env last)
  | ⟨.if_ clauses last false, _⟩ => do
    return (← blockClauses splicer env (text "if ") clauses) ++ (← blockElse splicer env last) ++
      env.indent ++ text "end if"
  | ⟨.while_ condition body, _⟩ => do
    return text "while " ++ (← expr splicer env condition) ++ eol ++ (← block splicer env body) ++
      env.indent ++ text "end while"
  | ⟨.for_ item iterable body, _⟩ => do
    return text s!"for {item.name} in " ++ (← expr splicer env iterable) ++ eol ++
      (← block splicer env body) ++ env.indent ++ text "end for"
  | ⟨.comment s, _⟩ => return Layout.comment s
  | ⟨.directive (.import_ name path), _⟩ => return text (env.scene.importText " = " name.name path)
  | ⟨.directive (.include_ path), _⟩ =>
    return if (env.scene.include? path).isNone then text (Scene.includeText path) else []
  | ⟨.directive .debugger, _⟩ =>
    return if env.scene.settings.devMode then text "#debugger;" else Layout.comment "debugger"

/-- The clauses of an `if` over several lines; `word` opens the first. -/
def blockClauses (splicer : Splicer) (env : Env) (word : Layout) : List Clause → Write Layout
  | [] => return []
  | ⟨condition, body, _⟩ :: cs => do
    return word ++ (← expr splicer env condition) ++ text " then" ++ eol ++
      (← block splicer env body) ++ (← blockClauses splicer env (env.indent ++ text "else if ") cs)

/-- What an `if` over several lines does otherwise. -/
def blockElse (splicer : Splicer) (env : Env) : Option Block → Write Layout
  | none => return []
  | some body => do return env.indent ++ text "else" ++ eol ++ (← block splicer env body)

/-- The clauses of an `if` on one line; `word` opens the first. -/
def inlineClauses (splicer : Splicer) (env : Env) (word : String) : List Clause → Write Layout
  | [] => return []
  | ⟨condition, body, _⟩ :: cs => do
    return text word ++ (← expr splicer env condition) ++ text " then " ++
      (← inlineBody splicer env body) ++ (← inlineClauses splicer env " else if " cs)

/-- What an `if` on one line does otherwise. -/
def inlineElse (splicer : Splicer) (env : Env) : Option Block → Write Layout
  | none => return []
  | some body => do return text " else " ++ (← inlineBody splicer env body)

/-- The one statement that the body of an `if` on one line is. -/
def inlineBody (splicer : Splicer) (env : Env) : Block → Write Layout
  | ⟨[s], _⟩ => line splicer env s
  | ⟨ss, _⟩ => throw (.inlineBody ss.length)

end

/-- Writes the module that is active.  `n` bounds how many includes can be inside one another. -/
def body : Nat → Splicer
  | 0, _ => return []
  | n + 1, env =>
    match env.scene.active with
    | some m => Row.arrangeAll <$> rows (body n) env m.script.body
    | none => return []

/-- A script on its own, or as the active module of the scene. -/
def scriptAt (env : Env) (s : Script) : Write Layout :=
  Row.arrangeAll <$> rows (body env.scene.modules.length) env s.body

/-- A script that nothing encloses. -/
def script (scene : Scene) (s : Script) : Write Layout := scriptAt { scene } s

/-- A script as the module that is registered under `id`. -/
def registered (scene : Scene) (id : String) (s : Script) : Write Layout := do
  return text (scene.moduleHeader " = " id) ++ eol ++ (← scriptAt { scene, depth := 1 } s) ++
    text "end function"

end ScriptBundler.Verbatim

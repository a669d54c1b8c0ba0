import ScriptBundler.Write.Basic

/-!
# Write/Reformatted — laid out by one rule

Blocks are indented by depth, and blank lines between statements stay.  What is between brackets goes
on one line if it is short, and otherwise one item a line.

Every item is written once, at the depth it has when it gets its own line.  A layout without a line
break has no indentation in it, so it serves on one line as well.
-/

namespace ScriptBundler.Reformatted

open Layout (text eol intercalate)

/-- What a node is written against. -/
structure Env where
  scene : Scene
  depth : Nat := 0
  /-- Whether brackets may spread over lines for their length. -/
  multiline : Bool := true

namespace Env

/-- The indentation of a line. -/
def indent (env : Env) : Layout := env.scene.settings.indent env.depth

/-- One level in. -/
def deeper (env : Env) : Env := { env with depth := env.depth + 1 }

/-- Conditions, values parameters have by default, and indices stay on one line. -/
def single (env : Env) : Env := { env with multiline := false }

/-- The body of a function is laid out like any other. -/
def spread (env : Env) : Env := { env with multiline := true }

/-- Comments, each on a line of its own. -/
def ownLines (env : Env) (cs : List Comment) : Layout :=
  cs.flatMap fun c => env.indent ++ Layout.comment c.text ++ eol

/-- A comment on the next line. -/
def nextLine (env : Env) (c : Comment) : Layout := eol ++ env.indent ++ Layout.comment c.text

/-- Comments behind something that ended on `line`.  The first continues that line if it was on it;
the others go below. -/
def behind (env : Env) (line : Nat) : List Comment → Layout
  | [] => []
  | c :: cs =>
    (if c.span.start.line == line then Layout.trailing c.text else env.nextLine c) ++
      cs.flatMap env.nextLine

end Env

/-! ## Inside brackets -/

/-- Whether a comment stands at one of the items, which then get a line each. -/
def hasComments {α : Type} [Item α] (items : List α) : Bool :=
  items.any fun a => !(Item.comments a).isEmpty

/-- A pair of brackets. -/
structure Brackets where
  opening : String
  closing : String
  /-- What is written inside the brackets if they are on one line. -/
  pad : String := ""
  /-- How many items go on one line at most. -/
  limit : Option Nat := none

namespace Brackets

/-- The brackets of a list. -/
def list : Brackets := { opening := "[", closing := "]", limit := some 3 }

/-- The brackets of a map. -/
def map : Brackets := { opening := "\x7b", closing := "\x7d", pad := " ", limit := some 1 }

/-- The brackets of arguments. -/
def args : Brackets := { opening := "(", closing := ")", limit := some 3 }

/-- The brackets of parameters. -/
def params : Brackets := { opening := "(", closing := ")" }

/-- The environment of the items. -/
def itemEnv (env : Env) {α : Type} [Item α] (items : List α) : Env :=
  if env.multiline || hasComments items then env.deeper else env

/-- All on one line. -/
def oneLine (b : Brackets) (ls : List Layout) : Layout :=
  text (b.opening ++ b.pad) ++ intercalate ", " ls ++ text (b.pad ++ b.closing)

/-- Whether the items are few, and none has a line break in it. -/
def fits (b : Brackets) (ls : List Layout) : Bool :=
  b.limit.all (ls.length ≤ ·) && !ls.any Layout.hasBreak

/-- An item on a line of its own, with its comments. -/
def ownItem (env : Env) {α : Type} [Item α] (a : α) (l : Layout) : Layout :=
  let cs := Item.comments a
  env.ownLines cs.leading ++ env.indent ++ l ++ text "," ++
    env.behind (Item.span a).stop.line cs.trailing ++ eol

/-- No items: the brackets, and the comments between them. -/
def empty (b : Brackets) (env : Env) (inner : List Comment) : Layout :=
  text b.opening ++ (if inner.isEmpty then [] else eol ++ env.deeper.ownLines inner ++ env.indent) ++
    text b.closing

/-- The brackets around `items`, which are laid out as `ls`. -/
def layout (b : Brackets) (env : Env) {α : Type} [Item α] (items : List α) (inner : List Comment)
    (ls : List Layout) : Layout :=
  if items.isEmpty then b.empty env inner
  else if !hasComments items && (!env.multiline || b.fits ls) then b.oneLine ls
  else
    text b.opening ++ eol ++ (items.zip ls).flatMap (fun (a, l) => ownItem env.deeper a l) ++
      env.indent ++ text b.closing

end Brackets

/-- Whether the parameters of a function are laid out like other brackets, rather than on one line. -/
def spreadsParams (ps : List Param) (inner : List Comment) : Bool := hasComments ps || !inner.isEmpty

/-- What values of parameters are written against. -/
def paramEnv (env : Env) (ps : List Param) (inner : List Comment) : Env :=
  if spreadsParams ps inner then Brackets.itemEnv env ps else env

/-- Parameters between their brackets. -/
def paramsLayout (env : Env) (ps : List Param) (inner : List Comment) (ls : List Layout) : Layout :=
  if spreadsParams ps inner then Brackets.params.layout env ps inner ls
  else if ps.isEmpty then []
  else Brackets.params.oneLine ls

/-- An operand on lines of its own, one level in; `l` is its layout there. -/
def ownPart (env : Env) (e : Expr) (l : Layout) : Layout :=
  let inside := env.deeper
  inside.ownLines e.comments.leading ++ inside.indent ++ l ++
    inside.behind e.span.stop.line e.comments.trailing ++ eol

/-- Whether the ends of a slice get lines of their own. -/
def spreadsSlice (start stop : Option Expr) (inner : List Comment) : Bool :=
  start.any (!·.comments.isEmpty) || stop.any (!·.comments.isEmpty) || !inner.isEmpty

/-- An end of a slice on lines of its own. -/
def ownBound (env : Env) (e : Option Expr) (l : Layout) : Layout := e.elim [] (ownPart env · l)

/-- What goes between an operator and its right operand, and the environment of that operand. -/
def operandGap (env : Env) (left right : Expr) : Layout × Env :=
  if right.comments.leading.isEmpty then (text " ", env)
  else
    let inside := env.deeper
    (inside.behind left.span.stop.line right.comments.leading ++ eol ++ inside.indent, inside)

/-! ## Nodes -/

/-- The statements of a module, written for the given scene. -/
abbrev Splicer := Env → Write Layout

mutual

/-- An expression. -/
def expr (splicer : Splicer) (env : Env) : Expr → Write Layout
  | ⟨.literal l, _, _⟩ => return text l.raw
  | ⟨.list items, _, cs⟩ => do
    return Brackets.list.layout env items cs.inner
      (← exprs splicer (Brackets.itemEnv env items) items)
  | ⟨.map items, _, cs⟩ => do
    return Brackets.map.layout env items cs.inner
      (← entries splicer (Brackets.itemEnv env items) items)
  | ⟨.identifier name, _, _⟩ => return text name
  | ⟨.member base field, _, _⟩ => do return (← expr splicer env base) ++ text s!".{field.name}"
  | ⟨.index base index, _, cs⟩ =>
    if index.comments.isEmpty && cs.inner.isEmpty then do
      return (← expr splicer env base) ++ text "[" ++ (← expr splicer env.single index) ++ text "]"
    else do
      return (← expr splicer env base) ++ text "[" ++ eol ++
        ownPart env index (← expr splicer env.deeper index) ++ env.deeper.ownLines cs.inner ++
        env.indent ++ text "]"
  | ⟨.slice base start stop, _, cs⟩ =>
    if spreadsSlice start stop cs.inner then do
      return (← expr splicer env base) ++ text "[" ++ eol ++
        ownBound env start (← bound splicer env.deeper start) ++
        env.deeper.indent ++ text ":" ++ eol ++
        ownBound env stop (← bound splicer env.deeper stop) ++
        env.deeper.ownLines cs.inner ++ env.indent ++ text "]"
    else do
      return (← expr splicer env base) ++ text "[" ++ (← bound splicer env.single start) ++
        text ":" ++ (← bound splicer env.single stop) ++ text "]"
  | ⟨.call callee items, _, cs⟩ =>
    match env.scene.nativeCall? callee items with
    | some call => return text call
    | none => do
      return (← expr splicer env callee) ++ Brackets.args.layout env items cs.inner
        (← exprs splicer (Brackets.itemEnv env items) items)
  | ⟨.binary op left right, _, _⟩ => do
    let (gap, inside) := operandGap env left right
    return (← expr splicer env left) ++ text s!" {op.spelling}" ++ gap ++
      (← expr splicer inside right)
  | ⟨.unary op operand, _, _⟩ => do return text op.lead ++ (← expr splicer env operand)
  | ⟨.function ps body, _, cs⟩ => do
    let head := paramsLayout env ps cs.inner (← params splicer (paramEnv env ps cs.inner) ps)
    return text "function" ++ head ++ eol ++ (← block splicer env.spread false body) ++ env.indent ++
      text "end function"
  | ⟨.paren inner, _, _⟩ =>
    if !inner.comments.isEmpty then do
      return text "(" ++ eol ++ ownPart env inner (← expr splicer env.deeper inner) ++ env.indent ++
        text ")"
    else if inner.isAtomic && !env.scene.settings.keepRedundantParens then expr splicer env inner
    else do return text "(" ++ (← expr splicer env inner) ++ text ")"
  | ⟨.directive d, span, _⟩ => return text (env.scene.value d span.start.line)

/-- Expressions one by one. -/
def exprs (splicer : Splicer) (env : Env) : List Expr → Write (List Layout)
  | [] => return []
  | e :: es => do return (← expr splicer env e) :: (← exprs splicer env es)

/-- An end of a slice. -/
def bound (splicer : Splicer) (env : Env) : Option Expr → Write Layout
  | none => return []
  | some e => expr splicer env e

/-- Keys with their values. -/
def entries (splicer : Splicer) (env : Env) : List Entry → Write (List Layout)
  | [] => return []
  | ⟨key, value, _, _⟩ :: es => do
    let entry := (← expr splicer env key) ++ text ": " ++ (← expr splicer env value)
    return entry :: (← entries splicer env es)

/-- Parameters with the values they have by default. -/
def params (splicer : Splicer) (env : Env) : List Param → Write (List Layout)
  | [] => return []
  | ⟨name, none, _, _⟩ :: ps => do return text name.name :: (← params splicer env ps)
  | ⟨name, some value, _, _⟩ :: ps => do
    let param := text s!"{name.name} = " ++ (← expr splicer env.single value)
    return param :: (← params splicer env ps)

/-- A block, one level in.  `isInline` says that it stood on one line with what encloses it, and is
therefore one statement. -/
def block (splicer : Splicer) (env : Env) (isInline : Bool) : Block → Write Layout
  | ⟨ss, span⟩ =>
    if !isInline then Row.arrangeBlock span <$> rows splicer env.deeper ss
    else if ss.length = 1 then Row.arrangeAll <$> rows splicer env.deeper ss
    else throw (.inlineBody ss.length)

/-- Statements, each on a line of its own. -/
def rows (splicer : Splicer) (env : Env) : List Stmt → Write (List Row)
  | [] => return []
  | s :: ss => do
    let layout ←
      match env.scene.spliced? (fun scene => splicer { env with scene }) s with
      | some body => body
      | none => do
        let l ← line splicer env s
        pure (env.indent ++ l ++ eol)
    return Row.ofStmt s layout :: (← rows splicer env ss)

/-- A statement without the indentation and the end of its line. -/
def line (splicer : Splicer) (env : Env) : Stmt → Write Layout
  | ⟨.assign op target value, _⟩ => do
    return (← expr splicer env.single target) ++ text s!" {op.symbol.spelling} " ++
      (← expr splicer env value)
  | ⟨.expr ⟨.call callee [], _, _⟩, _⟩ => expr splicer env callee
  | ⟨.expr e, _⟩ => expr splicer env e
  | ⟨.return_ none, _⟩ => return text "return"
  | ⟨.return_ (some value), _⟩ => do return text "return " ++ (← expr splicer env value)
  | ⟨.break_, _⟩ => return text "break"
  | ⟨.continue_, _⟩ => return text "continue"
  | ⟨.if_ clauses last isInline, _⟩ => do
    return (← blockClauses splicer env isInline (text "if ") clauses) ++
      (← blockElse splicer env isInline last) ++ env.indent ++ text "end if"
  | ⟨.while_ condition body, _⟩ => do
    return text "while " ++ (← expr splicer env.single condition) ++ eol ++
      (← block splicer env false body) ++ env.indent ++ text "end while"
  | ⟨.for_ item iterable body, _⟩ => do
    return text s!"for {item.name} in " ++ (← expr splicer env.single iterable) ++ eol ++
      (← block splicer env false body) ++ env.indent ++ text "end for"
  | ⟨.comment s, _⟩ => return Layout.comment s
  | ⟨.directive (.import_ name path), _⟩ => return text (env.scene.importText " = " name.name path)
  | ⟨.directive (.include_ path), _⟩ =>
    return if (env.scene.include? path).isNone then text (Scene.includeText path) else []
  | ⟨.directive .debugger, _⟩ =>
    return if env.scene.settings.devMode then text "#debugger;" else Layout.comment "debugger"

/-- The clauses of an `if`; `word` opens the first. -/
def blockClauses (splicer : Splicer) (env : Env) (isInline : Bool) (word : Layout) :
    List Clause → Write Layout
  | [] => return []
  | ⟨condition, body, _⟩ :: cs => do
    return word ++ (← expr splicer env.single condition) ++ text " then" ++ eol ++
      (← block splicer env isInline body) ++
      (← blockClauses splicer env isInline (env.indent ++ text "else if ") cs)

/-- What an `if` does otherwise. -/
def blockElse (splicer : Splicer) (env : Env) (isInline : Bool) : Option Block → Write Layout
  | none => return []
  | some body => do return env.indent ++ text "else" ++ eol ++ (← block splicer env isInline body)

end

/-- Writes the module that is active.  `n` bounds how many includes can be inside one another. -/
def body : Nat → Splicer
  | 0, _ => return []
  | n + 1, env =>
    match env.scene.active with
    | some m => Row.arrangeAll <$> rows (body n) env m.script.body
    | none => return []

/-- A script on its own, or as the active module of the scene. -/
def scriptAt (env : Env) (s : Script) : Write Layout :=
  Row.arrangeAll <$> rows (body env.scene.modules.length) env s.body

/-- A script that nothing encloses. -/
def script (scene : Scene) (s : Script) : Write Layout := scriptAt { scene } s

/-- A script as the module that is registered under `id`. -/
def registered (scene : Scene) (id : String) (s : Script) : Write Layout := do
  return text (scene.moduleHeader " = " id) ++ eol ++ (← scriptAt { scene, depth := 1 } s) ++
    text "end function"

end ScriptBundler.Reformatted

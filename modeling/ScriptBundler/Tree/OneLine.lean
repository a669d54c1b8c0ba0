import ScriptBundler.Tree

/-!
# Tree/OneLine — every `if` on one line

Marks the `if` statements of a script as written on one line, wherever they stand but inside
functions.  Their bodies are kept, so the outcome can be a tree that no text is read as.
-/

namespace ScriptBundler

mutual

/-- A block with every `if` in it on one line. -/
def Block.onOneLine : Block → Block
  | ⟨ss, span⟩ => ⟨Stmt.allOnOneLine ss, span⟩

/-- Clauses with every `if` in them on one line. -/
def Clause.allOnOneLine : List Clause → List Clause
  | [] => []
  | ⟨condition, body, span⟩ :: cs => ⟨condition, body.onOneLine, span⟩ :: Clause.allOnOneLine cs

/-- A block that may be missing, with every `if` in it on one line. -/
def Block.onOneLine? : Option Block → Option Block
  | none => none
  | some b => some b.onOneLine

/-- Statements with every `if` among them on one line. -/
def Stmt.allOnOneLine : List Stmt → List Stmt
  | [] => []
  | s :: ss => s.onOneLine :: Stmt.allOnOneLine ss

/-- A statement with every `if` in it on one line, itself included. -/
def Stmt.onOneLine : Stmt → Stmt
  | ⟨.if_ clauses last _, span⟩ =>
    ⟨.if_ (Clause.allOnOneLine clauses) (Block.onOneLine? last) true, span⟩
  | ⟨.while_ condition body, span⟩ => ⟨.while_ condition body.onOneLine, span⟩
  | ⟨.for_ item iterable body, span⟩ => ⟨.for_ item iterable body.onOneLine, span⟩
  | s => s

end

/-- A script with every `if` on one line. -/
def Script.onOneLine (s : Script) : Script := { s with body := Stmt.allOnOneLine s.body }

end ScriptBundler

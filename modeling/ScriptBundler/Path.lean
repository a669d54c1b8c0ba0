/-!
# Path — where a reference leads

Paths are segments with slashes between them.  A reference is read from the directory of the file it
stands in, unless it starts at the root.
-/

namespace ScriptBundler.Path

/-- The parts between slashes. -/
def segments : List Char → List (List Char)
  | [] => [[]]
  | '/' :: cs => [] :: segments cs
  | c :: cs =>
    match segments cs with
    | [] => [[c]]
    | s :: ss => (c :: s) :: ss

/-- Goes into a segment from `dir`, which is reversed.  Above the root there is nothing, and above
anything else one more step up. -/
def enter (absolute : Bool) (dir : List (List Char)) (segment : List Char) : List (List Char) :=
  match segment with
  | [] | ['.'] => dir
  | ['.', '.'] =>
    match dir with
    | [] => if absolute then [] else [segment]
    | last :: rest =>
      if last ≠ ['.', '.'] then rest
      else if absolute then dir
      else segment :: dir
  | _ => segment :: dir

/-- Whether a path starts at the root. -/
def isAbsolute (path : List Char) : Bool := path.head? == some '/'

/-- The segments of the directory a file is in. -/
def directory (base : List Char) : List (List Char) := (segments base).dropLast

/-- Segments with slashes between them, behind the root or not. -/
def join (absolute : Bool) (ss : List (List Char)) : List Char :=
  (if absolute then ['/'] else []) ++ (ss.intersperse ['/']).flatten

/-- `resolve` on characters. -/
def resolveChars (base reference : List Char) : List Char :=
  let absolute := isAbsolute reference || isAbsolute base
  let dir := if isAbsolute reference then [] else directory base
  join absolute ((dir ++ segments reference).foldl (enter absolute) []).reverse

/-- Where `reference`, which stands in the file `base`, leads. -/
def resolve (base reference : String) : String :=
  String.ofList (resolveChars base.toList reference.toList)

/-- The order of texts by their characters; a text stands before those it starts. -/
def precedes : List Char → List Char → Bool
  | [], _ => true
  | _ :: _, [] => false
  | c :: cs, d :: ds => c.toNat < d.toNat || (c == d && precedes cs ds)

/-- What a reference to a script may leave out. -/
def extension : String := ".src"

/-- Whether a path names its extension. -/
def hasExtension (path : String) : Bool := extension.toList.isSuffixOf path.toList

end ScriptBundler.Path

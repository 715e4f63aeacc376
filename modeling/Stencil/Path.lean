import Stencil.Pieces

namespace Stencil

-- A path as it is written. Any text is a path; only valid ones can stand in a tag.
structure Path where
  text : String
deriving DecidableEq, Repr, Inhabited

namespace Path

def first (p : Path) : String :=
  String.ofList (pieces '.' p.text.toList).1

-- The fields to go down through from there. A segment may be empty.
def fields (p : Path) : List String :=
  (pieces '.' p.text.toList).2.map String.ofList

-- ASCII letters, digits and the underscore.
def isNameChar (c : Char) : Bool :=
  c.isAlphanum || c = '_'

def isName (segment : List Char) : Bool :=
  !segment.isEmpty && segment.all isNameChar

-- Takes the mark of a loop variable off a segment.
def dropMark : List Char → List Char
  | '@' :: rest => rest
  | segment => segment

-- One or more names joined by points, the first perhaps marked with `@`.
def isValid (p : Path) : Bool :=
  let (first, others) := pieces '.' p.text.toList
  isName (dropMark first) && others.all isName

-- Paths that begin at a loop element or a loop variable.
def isLocal (p : Path) : Bool :=
  p.first = "this" || p.first.toList.head? = some '@'

end Path

end Stencil

import Stencil.Pieces

namespace Stencil

namespace FilePath

inductive Component where
  -- The folder at the top, where a path that begins with `/` starts.
  | top
  | here
  | up
  | name (name : List Char)
deriving DecidableEq, Repr

def Component.isName : Component → Bool
  | .name _ => true
  | _ => false

def parts (path : List Char) : List (List Char) :=
  (pieces '/' path).1 :: (pieces '/' path).2

def ofParts : List (List Char) → List Char
  | [] => []
  | first :: others => joinPieces '/' first others

-- Such parts stay in the text of a path but are no components, save for a `.` at the very front.
def isIdle (part : List Char) : Bool :=
  part = [] || part = ['.']

def trimIdle (parts : List (List Char)) : List (List Char) :=
  (parts.reverse.dropWhile isIdle).reverse

def component? (part : List Char) : Option Component :=
  if isIdle part then none else if part = ['.', '.'] then some .up else some (.name part)

def steps (path : List Char) : List Component :=
  (parts path).filterMap component?

-- Where a path says it starts, in its first character.
def start? : List Char → Option Component
  | '/' :: _ => some .top
  | ['.'] => some .here
  | '.' :: '/' :: _ => some .here
  | _ => none

def startLength (path : List Char) : Nat :=
  if (start? path).isSome then 1 else 0

def body (path : List Char) : List Char :=
  path.drop (startLength path)

def components (path : List Char) : List Component :=
  (start? path).toList ++ steps (body path)

-- A path that starts at the top stays as it is.
def join (base path : List Char) : List Char :=
  if path.head? = some '/' then path
  else if base = [] || base.getLast? = some '/' then base ++ path
  else base ++ '/' :: path

def fileName? (path : List Char) : Option (List Char) :=
  match (components path).getLast? with
  | some (.name name) => some name
  | _ => none

-- The path in front of its last component, without the idle parts there.
def parent (path : List Char) : List Char :=
  path.take (startLength path) ++ ofParts (trimIdle (trimIdle (parts (body path))).dropLast)

def withFileName (path name : List Char) : List Char :=
  if (fileName? path).isSome then join (parent path) name else join path name

end FilePath

end Stencil

import Stencil.Pieces

namespace Stencil

inductive FileEntry where
  | folder
  | file (content : ByteArray)

inductive ReadFailure where
  | notFound
  | invalidPath
  | nameTooLong
  | notAFolder
  | isAFolder
  | invalidText
deriving DecidableEq, Repr

structure FileTree where
  -- The names that lead from the top to the folder where paths begin.
  base : List String := []
  -- What was put into the tree, each entry under the names that lead to it from the top.
  entries : List (List String × FileEntry) := []

namespace FileTree

-- The folders down to the base are always there.
def find? (tree : FileTree) (place : List String) : Option FileEntry :=
  if place.isPrefixOf tree.base then some .folder else tree.entries.lookup place

-- A slash separates names; empty ones stay where they are.
def namesOf (path : String) : List String :=
  let (first, others) := pieces '/' path.toList
  (first :: others).map String.ofList

-- Where a name leads from a folder. From the top `..` leads back to the top.
def move (place : List String) (name : String) : List String :=
  if name = "" || name = "." then place
  else if name = ".." then place.dropLast
  else place ++ [name]

def set (tree : FileTree) (place : List String) (entry : FileEntry) : FileTree :=
  { tree with entries := (place, entry) :: tree.entries.filter (·.1 ≠ place) }

def makeFolder (tree : FileTree) (place : List String) : FileTree :=
  if (tree.find? place).isSome then tree else tree.set place .folder

-- Puts an entry where the names lead from a place, and makes the folders on the way.
def put (tree : FileTree) (place : List String) (entry : FileEntry) : List String → FileTree
  | [] => match entry with
    | .folder => tree.makeFolder place
    | .file _ => tree.set place entry
  | name :: rest => (tree.makeFolder place).put (move place name) entry rest

def write (tree : FileTree) (path : String) (entry : FileEntry) : FileTree :=
  tree.put tree.base entry (namesOf path)

def maxNameSize : Nat := 255

def maxPathSize : Nat := 4095

-- The bytes of a path when it is written from the top.
def pathSize (tree : FileTree) (path : String) : Nat :=
  tree.base.foldl (fun size name => size + 1 + name.utf8ByteSize) 0 + 1 + path.utf8ByteSize

-- Goes from a place in the tree along the names of a path, to the place where it ends and what is
-- there. Every name is looked up in a folder, also one that leads nowhere else.
def walk (tree : FileTree) (place : List String) :
    List String → Except ReadFailure (List String × FileEntry)
  | [] => match tree.find? place with
    | some entry => .ok (place, entry)
    | none => .error .notFound
  | name :: rest => match tree.find? place with
    | none => .error .notFound
    | some (.file _) => .error .notAFolder
    | some .folder =>
      if maxNameSize < name.utf8ByteSize then .error .nameTooLong
      else tree.walk (move place name) rest

-- Takes out what is at a path, with all that is below it.
def delete (tree : FileTree) (path : String) : FileTree :=
  match tree.walk tree.base (namesOf path) with
  | .ok (place, _) => { tree with entries := tree.entries.filter fun entry => !place.isPrefixOf entry.1 }
  | .error _ => tree

def read (tree : FileTree) (path : String) : Except ReadFailure String :=
  if path.toList.contains '\x00' then .error .invalidPath
  else if maxPathSize < tree.pathSize path then .error .nameTooLong
  else match tree.walk tree.base (namesOf path) with
    | .error failure => .error failure
    | .ok (_, .folder) => .error .isAFolder
    | .ok (_, .file content) => match String.fromUTF8? content with
      | some text => .ok text
      | none => .error .invalidText

end FileTree

end Stencil

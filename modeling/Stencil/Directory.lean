import Stencil.FilePath
import Stencil.FileTree
import Stencil.Source

namespace Stencil

-- Templates kept as files below a root folder. A name is the path of its file.
structure Directory where
  root : String
  extension : Option String := none
  files : FileTree
  describe : ReadFailure → String

namespace Directory

def refusal : String :=
  "template names must be relative paths without '..'"

-- A name must stay below the root, so nothing but names may be on its way.
def accepts (name : String) : Bool :=
  name ≠ "" && (FilePath.components name.toList).all (·.isName)

-- The file of a template below this folder. The extension is added to the last name.
def fileBelow (source : Directory) (folder name : String) : String :=
  let path := FilePath.join folder.toList name.toList
  String.ofList (match source.extension with
    | some extension =>
      FilePath.withFileName path ((FilePath.fileName? path).getD [] ++ '.' :: extension.toList)
    | none => path)

def pathFor (source : Directory) (name : String) : Except Error String :=
  if accepts name then .ok (source.fileBelow source.root name)
  else .error (.templateLoad name refusal)

-- The tree of files begins at the root.
def fetch (source : Directory) (name : String) : Except Error String :=
  match source.pathFor name with
  | .error error => .error error
  | .ok path =>
    match source.files.read (source.fileBelow "" name) with
    | .ok text => .ok text
    | .error .notFound => .error (.missingTemplate name)
    | .error failure => .error (.templateLoad name (path ++ ": " ++ source.describe failure))

instance : Source Directory where
  fetch source name := (source.fetch name, source)

theorem fetch_of_not_accepts (source : Directory) {name : String} (h : accepts name = false) :
    source.fetch name = .error (.templateLoad name refusal) := by
  simp [fetch, pathFor, h]

end Directory

end Stencil

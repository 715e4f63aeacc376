import Stencil.Dict
import Stencil.Error

namespace Stencil

-- Something that gives the text of a template by name, and may change by being asked.
class Source (σ : Type) where
  fetch : σ → String → Except Error String × σ

structure MemorySource where
  templates : Dict String := .empty
deriving DecidableEq, Repr, Inhabited

namespace MemorySource

-- Registers a template. A name that is taken keeps its text.
def add (source : MemorySource) (name text : String) : Except Error MemorySource :=
  if source.templates.contains name then .error (.templateExists name)
  else .ok ⟨source.templates.insert name text⟩

def contains (source : MemorySource) (name : String) : Bool :=
  source.templates.contains name

def fetch (source : MemorySource) (name : String) : Except Error String :=
  match source.templates.get? name with
  | some text => .ok text
  | none => .error (.missingTemplate name)

instance : Source MemorySource where
  fetch source name := (source.fetch name, source)

end MemorySource

inductive Answer where
  | text (text : String)
  | failure (reason : String)
deriving DecidableEq, Repr

-- A source whose answers are set from outside, and which counts how often it was asked.
structure ScriptedSource where
  answers : Dict Answer := .empty
  fetches : Nat := 0
deriving DecidableEq, Repr, Inhabited

namespace ScriptedSource

def set (source : ScriptedSource) (name : String) (answer : Answer) : ScriptedSource :=
  { source with answers := source.answers.insert name answer }

def unset (source : ScriptedSource) (name : String) : ScriptedSource :=
  { source with answers := source.answers.erase name }

def answer (source : ScriptedSource) (name : String) : Except Error String :=
  match source.answers.get? name with
  | some (.text text) => .ok text
  | some (.failure reason) => .error (.templateLoad name reason)
  | none => .error (.missingTemplate name)

instance : Source ScriptedSource where
  fetch source name := (source.answer name, { source with fetches := source.fetches + 1 })

end ScriptedSource

end Stencil

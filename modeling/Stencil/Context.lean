import Stencil.Value
import Stencil.Path

namespace Stencil

structure Context where
  values : Dict Value := .empty
deriving Inhabited

namespace Context

def empty : Context := {}

def insert (context : Context) (name : String) (value : Value) : Context :=
  ⟨context.values.insert name value⟩

def get? (context : Context) (name : String) : Option Value :=
  context.values.get? name

def contains (context : Context) (name : String) : Bool :=
  context.values.contains name

def size (context : Context) : Nat :=
  context.values.size

def isEmpty (context : Context) : Bool :=
  context.values.isEmpty

-- The context with these entries; of a repeated name the last value stays.
def ofPairs (pairs : List (String × Value)) : Context :=
  ⟨.ofList pairs⟩

-- Looks the first segment up and goes down from there. There is no value as soon as a segment is
-- missing, or what was reached is no mapping.
def resolve (context : Context) (path : Path) : Option Value :=
  (context.get? path.first).bind (·.descend path.fields)

end Context

end Stencil

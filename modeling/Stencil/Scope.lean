import Stencil.Context

namespace Stencil

inductive Scope where
  | root (context : Context)
  -- One turn of a loop. `count` is the number of turns, `index` counts from zero.
  | item (parent : Scope) (element : Value) (index count : Nat)

namespace Scope

-- Finds the first segment of a path: the loop variables of the innermost loop, then the fields of its
-- element, then the element itself as `this`, then what stands further out.
def lookup : Scope → String → Option Value
  | .root context, name => context.get? name
  | .item parent element index count, name =>
    if name = "@index" then some (.ofNat index)
    else if name = "@first" then some (.bool (index = 0))
    else if name = "@last" then some (.bool (index + 1 = count))
    else match element.field? name with
      | some value => some value
      | none => if name = "this" then some element else parent.lookup name

def resolve (scope : Scope) (path : Path) : Option Value :=
  (scope.lookup path.first).bind (·.descend path.fields)

end Scope

end Stencil

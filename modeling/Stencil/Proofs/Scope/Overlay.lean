import Stencil.Scope

namespace Stencil

namespace Context

-- Lays entries over a context one after the other, so that later ones win.
def overlay (context : Context) (entries : List (String × Value)) : Context :=
  ⟨entries.foldl (fun values entry => values.insert entry.1 entry.2) context.values⟩

-- What turn number `index` of a loop adds: the element as `this`, then the fields of the element when it is
-- a mapping, then the loop variables. A mapping answers with the first of two fields of one name, so the
-- fields are laid on from the last to the first.
def turnEntries (element : Value) (index count : Nat) : List (String × Value) :=
  let fields := match element with
    | .mapping fields => fields.reverse
    | _ => []
  ("this", element) :: fields ++
    [("@index", .ofNat index), ("@first", .bool (index = 0)), ("@last", .bool (index + 1 = count))]

-- The data that the body of a loop is filled with in one turn.
def turn (context : Context) (element : Value) (index count : Nat) : Context :=
  context.overlay (turnEntries element index count)

theorem get?_overlay (context : Context) (entries : List (String × Value)) (name : String) :
    (context.overlay entries).get? name = (entries.reverse.lookup name).or (context.get? name) :=
  Dict.get?_foldl_insert ..

theorem lookup_reverse_turnEntries (element : Value) (index count : Nat) (name : String) :
    (turnEntries element index count).reverse.lookup name =
      if name = "@index" then some (.ofNat index)
      else if name = "@first" then some (.bool (index = 0))
      else if name = "@last" then some (.bool (index + 1 = count))
      else (element.field? name).or (if name = "this" then some element else none) := by
  have hfields : (match element with
      | .mapping fields => fields.reverse
      | _ => []).reverse.lookup name = element.field? name := by
    cases element <;> simp [Value.field?]
  simp only [turnEntries, List.reverse_append, List.reverse_cons, List.lookup_append, hfields]
  -- The names differ, so the order in which they were laid on only matters against the fields.
  by_cases hindex : name = "@index"
  · simp [hindex, List.lookup_cons]
  by_cases hfirst : name = "@first"
  · simp [hfirst, List.lookup_cons]
  by_cases hlast : name = "@last"
  · simp [hlast, List.lookup_cons]
  by_cases hthis : name = "this"
  · simp [hthis, List.lookup_cons]
  simp [List.lookup_cons, beq_false_of_ne hindex, beq_false_of_ne hfirst, beq_false_of_ne hlast,
    beq_false_of_ne hthis, hindex, hfirst, hlast, hthis]

end Context

namespace Scope

-- The scope as one context, copied and overlaid once for each loop around the place.
def toContext : Scope → Context
  | .root context => context
  | .item parent element index count => parent.toContext.turn element index count

theorem get?_toContext (scope : Scope) (name : String) :
    scope.toContext.get? name = scope.lookup name := by
  induction scope with
  | root context => rfl
  | item parent element index count ih =>
      rw [toContext, Context.turn, Context.get?_overlay, Context.lookup_reverse_turnEntries, ih, lookup]
      grind

theorem resolve_toContext (scope : Scope) (path : Path) :
    scope.toContext.resolve path = scope.resolve path := by
  rw [Context.resolve, get?_toContext, resolve]

end Scope

end Stencil

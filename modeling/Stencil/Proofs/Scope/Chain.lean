import Stencil.Proofs.Scope.Overlay

namespace Stencil

-- A turn of a loop, with its counters as machine words. They need not fit each other.
structure Turn where
  element : Value
  index : UInt64
  count : UInt64

namespace Turn

def enter (scope : Scope) (turn : Turn) : Scope :=
  .item scope turn.element turn.index.toNat turn.count.toNat

-- The counters are compared as numbers: a sum that no word can hold is the count of no turn.
def entries (turn : Turn) : List (String × Value) :=
  Context.turnEntries turn.element turn.index.toNat turn.count.toNat

-- Laying one turn over the copy that another has left is laying both over the same context.
theorem toContext_foldl_enter (turns : List Turn) (scope : Scope) :
    (turns.foldl enter scope).toContext = scope.toContext.overlay (turns.flatMap entries) := by
  induction turns generalizing scope with
  | nil => rfl
  | cons turn rest ih =>
      have hturn : (enter scope turn).toContext = scope.toContext.overlay turn.entries := rfl
      rw [List.foldl_cons, ih, hturn, List.flatMap_cons]
      simp only [Context.overlay, List.foldl_append]

end Turn

namespace Scope

theorem resolve_foldl_enter (context : Context) (turns : List Turn) (path : Path) :
    (turns.foldl Turn.enter (.root context)).resolve path =
      (context.overlay (turns.flatMap Turn.entries)).resolve path := by
  rw [← resolve_toContext, Turn.toContext_foldl_enter, toContext]

-- As a word the successor of the greatest index is zero, but no turn is the last of none.
example (scope : Scope) (element : Value) :
    (Turn.enter scope ⟨element, -1, 0⟩).resolve ⟨"@last"⟩ = some (.bool false) := by
  rfl

end Scope

end Stencil

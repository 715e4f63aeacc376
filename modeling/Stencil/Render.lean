import Stencil.Escape
import Stencil.Node
import Stencil.Scope

namespace Stencil

namespace Node

-- What a placeholder writes; for a value that is not there, nothing.
def renderPlaceholder (value : Option Value) (escaped : Bool) : String :=
  match value with
  | some value => if escaped then escape value.toText else value.toText
  | none => ""

mutual

def render (scope : Scope) : Node → String
  | .text content => content
  | .placeholder path escaped => renderPlaceholder (scope.resolve path) escaped
  | .block .ifTrue path body => if isTruthy (scope.resolve path) then renderAll scope body else ""
  | .block .ifFalse path body => if isTruthy (scope.resolve path) then "" else renderAll scope body
  | .block .each path body =>
    match (scope.resolve path).bind Value.items? with
    | some items =>
      let count := items.length
      String.join (items.mapIdx fun index element =>
        renderAll (.item scope element index count) body)
    | none => ""
  | .ifElse path thenBody elseBody =>
    if isTruthy (scope.resolve path) then renderAll scope thenBody else renderAll scope elseBody

def renderAll (scope : Scope) : List Node → String
  | [] => ""
  | node :: rest => render scope node ++ renderAll scope rest

end

end Node

end Stencil

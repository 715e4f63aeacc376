import Stencil.Proofs.Scope.Overlay
import Stencil.Template

namespace Stencil

namespace Node

mutual

-- What a node writes when it is filled with a context.
def fill (context : Context) : Node → String
  | .text content => content
  | .placeholder path escaped => renderPlaceholder (context.resolve path) escaped
  | .block .ifTrue path body => if isTruthy (context.resolve path) then fillAll context body else ""
  | .block .ifFalse path body => if isTruthy (context.resolve path) then "" else fillAll context body
  | .block .each path body =>
    match context.resolve path with
    | some (.sequence items) =>
      String.join (items.zipIdx.map fun (element, index) =>
        fillAll (context.turn element index items.length) body)
    | _ => ""
  | .ifElse path thenBody elseBody =>
    if isTruthy (context.resolve path) then fillAll context thenBody else fillAll context elseBody

def fillAll (context : Context) : List Node → String
  | [] => ""
  | node :: rest => fill context node ++ fillAll context rest

end

-- What a loop writes depends on its body only through what that writes in each turn.
theorem render_each_congr {scope : Scope} {context : Context} {path : Path} {body : List Node}
    (hresolve : context.resolve path = scope.resolve path)
    (hturn : ∀ element index count, renderAll (.item scope element index count) body =
      fillAll (context.turn element index count) body) :
    render scope (.block .each path body) = fill context (.block .each path body) := by
  rw [render, fill, hresolve]
  cases hvalue : scope.resolve path with
  | none => rfl
  | some value =>
      cases value with
      | sequence items => simp [Value.items?, List.mapIdx_eq_zipIdx_map, hturn]
      | null | bool | int | float | string | mapping => rfl

mutual

theorem render_eq_fill (scope : Scope) : ∀ node : Node, render scope node = fill scope.toContext node
  | .text content => by rw [render, fill]
  | .placeholder path escaped => by rw [render, fill, scope.resolve_toContext]
  | .block .ifTrue path body => by
    rw [render, fill, scope.resolve_toContext, renderAll_eq_fillAll scope body]
  | .block .ifFalse path body => by
    rw [render, fill, scope.resolve_toContext, renderAll_eq_fillAll scope body]
  | .block .each path body =>
    render_each_congr (scope.resolve_toContext path)
      fun element index count => renderAll_eq_fillAll (.item scope element index count) body
  | .ifElse path thenBody elseBody => by
    rw [render, fill, scope.resolve_toContext, renderAll_eq_fillAll scope thenBody,
      renderAll_eq_fillAll scope elseBody]

theorem renderAll_eq_fillAll (scope : Scope) :
    ∀ nodes : List Node, renderAll scope nodes = fillAll scope.toContext nodes
  | [] => by rw [renderAll, fillAll]
  | node :: rest => by
    rw [renderAll, fillAll, render_eq_fill scope node, renderAll_eq_fillAll scope rest]

end

end Node

namespace Template

theorem render_eq_fillAll (template : Template) (context : Context) :
    template.render context = Node.fillAll context template.nodes :=
  Node.renderAll_eq_fillAll (.root context) template.nodes

end Template

end Stencil

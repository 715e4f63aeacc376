import Stencil.Builder
import Stencil.Render
import Stencil.Usage

namespace Stencil

structure Template where
  source : String
  nodes : List Node

namespace Template

-- Fails only when strict, and then at the first fault.
def parseWith (options : Options) (source : String) : Except Error Template :=
  match Node.parse options source.toList with
  | .ok nodes => .ok { source, nodes }
  | .error error => .error (.parse error)

-- Parses with the default options. Should that ever fail, the source is text as a whole.
def parse (source : String) : Template :=
  match parseWith {} source with
  | .ok template => template
  | .error _ => { source, nodes := [.text source] }

def render (template : Template) (context : Context) : String :=
  Node.renderAll (.root context) template.nodes

-- The paths of the root context that are read, each with its first usage, in order of appearance.
def usages (template : Template) : List (Path × Usage) :=
  Usage.collectAll [] template.nodes

theorem parseWith_eq_ok_iff {options : Options} {source : String} {template : Template} :
    parseWith options source = .ok template ↔
      ∃ nodes, Node.parse options source.toList = .ok nodes ∧ template = { source, nodes } := by
  unfold parseWith
  cases Node.parse options source.toList with
  | error error => simp
  | ok nodes => simp [eq_comm]

end Template

def render (source : String) (context : Context) : String :=
  (Template.parse source).render context

def renderWith (options : Options) (source : String) (context : Context) : Except Error String :=
  (Template.parseWith options source).map (·.render context)

theorem render_of_parse {source : String} {nodes : List Node}
    (h : Node.parse {} source.toList = .ok nodes) (context : Context) :
    render source context = Node.renderAll (.root context) nodes := by
  simp [render, Template.parse, Template.parseWith, h, Template.render]

theorem renderWith_of_parse {options : Options} {source : String} {nodes : List Node}
    (h : Node.parse options source.toList = .ok nodes) (context : Context) :
    renderWith options source context = .ok (Node.renderAll (.root context) nodes) := by
  simp [renderWith, Template.parseWith, h, Template.render, Except.map]

end Stencil

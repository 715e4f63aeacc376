import Stencil.Tag

namespace Stencil

inductive Node where
  | text (content : String)
  | placeholder (path : Path) (escaped : Bool)
  | block (kind : BlockKind) (path : Path) (body : List Node)
  -- An `if` block with an `else` tag in it.
  | ifElse (path : Path) (thenBody elseBody : List Node)

namespace Node

def openerText (kind : BlockKind) (path : Path) : String :=
  "\x7b\x7b#" ++ kind.keyword ++ " " ++ path.text ++ "\x7d\x7d"

def closerText (kind : BlockKind) : String :=
  "\x7b\x7b/" ++ kind.keyword ++ "\x7d\x7d"

def elseText : String :=
  "\x7b\x7belse\x7d\x7d"

def placeholderText (path : Path) (escaped : Bool) : String :=
  if escaped then "\x7b\x7b" ++ path.text ++ "\x7d\x7d"
  else "\x7b\x7b\x7b" ++ path.text ++ "\x7d\x7d\x7d"

mutual

-- Writes a node back, each tag in its only spelling without padding.
def spell : Node → String
  | .text content => content
  | .placeholder path escaped => placeholderText path escaped
  | .block kind path body => openerText kind path ++ spellAll body ++ closerText kind
  | .ifElse path thenBody elseBody =>
    openerText .ifTrue path ++ spellAll thenBody ++ elseText ++ spellAll elseBody ++ closerText .ifTrue

def spellAll : List Node → String
  | [] => ""
  | node :: rest => spell node ++ spellAll rest

end

end Node

end Stencil

import Stencil.Node

namespace Stencil

-- The characters from `start` up to but not including `stop`.
structure Span where
  start : Nat
  stop : Nat
deriving DecidableEq, Repr

-- Literal text is kept as a span of the source, and touching spans become one, so that a text node never stands
-- next to another.
inductive Piece where
  | text (span : Span)
  -- A finished node with the span of its tag, or of its whole block.
  | node (node : Node) (span : Span)

namespace Piece

def span : Piece → Span
  | .text span => span
  | .node _ span => span

def toNode (source : Array Char) : Piece → Node
  | .text span => .text (String.ofList (source.extract span.start span.stop).toList)
  | .node built _ => built

end Piece

structure Draft where
  -- The latest piece comes first.
  pieces : List Piece := []
  -- Where the literal text begins that is not among the pieces yet.
  textStart : Nat

namespace Draft

-- Adds literal text. It is joined to text that ends where it begins; an empty span adds nothing.
def pushText (draft : Draft) (span : Span) : Draft :=
  if span.stop ≤ span.start then draft
  else match draft.pieces with
    | .text last :: earlier =>
      if last.stop = span.start then { draft with pieces := .text ⟨last.start, span.stop⟩ :: earlier }
      else { draft with pieces := .text span :: draft.pieces }
    | pieces => { draft with pieces := .text span :: pieces }

def push (draft : Draft) : Piece → Draft
  | .text span => draft.pushText span
  | piece => { draft with pieces := piece :: draft.pieces }

-- Adds pieces that are listed with the latest first.
def append (draft : Draft) (pieces : List Piece) : Draft :=
  pieces.foldr (fun piece d => d.push piece) draft

def flush (draft : Draft) (stop : Nat) : Draft :=
  draft.pushText ⟨draft.textStart, stop⟩

def pushNode (draft : Draft) (node : Node) (span : Span) : Draft :=
  { pieces := .node node span :: (draft.flush span.start).pieces, textStart := span.stop }

def toNodes (source : Array Char) (draft : Draft) : List Node :=
  (draft.pieces.map (Piece.toNode source)).reverse

end Draft

end Stencil

import Stencil.Proofs.Builder.Frames

namespace Stencil

namespace OpenBlock

variable {reader : Reader} {block : OpenBlock} {first cur : Outline} {pos start stop : Nat}

-- The block as the plain reading has it, when `cur` is the last part of its body.
def outline (source : Array Char) (block : OpenBlock) (first cur : Outline)
    (closer : List Char) : Outline :=
  let opener := Piece.slice source block.tag.start block.tag.stop
  match block.thenBranch with
  | some branch =>
    .ifElse block.path opener first (Piece.slice source branch.elseTag.start branch.elseTag.stop)
      cur closer .nil
  | none => .block block.kind block.path opener cur closer .nil

theorem toBlock_whole (source : Array Char) (block : OpenBlock) (first cur : Outline)
    (closer : List Char) (found : Option (List Char × Nat)) :
    (block.whole source first { body := cur, closer := found }).toBlock block.kind block.path
      (Piece.slice source block.tag.start block.tag.stop) closer =
        block.outline source first cur closer := by
  unfold whole outline
  cases block.thenBranch with
  | none => rfl
  | some branch => simp [Reading.split, Reading.prepend, Reading.toBlock]

theorem closer_whole (source : Array Char) (block : OpenBlock) (first : Outline) (r : Reading) :
    (block.whole source first r).closer = r.closer := by
  unfold whole
  cases block.thenBranch <;> rfl

-- Whatever is open around it, a block ends at the tag that ends it when its body is read alone.
theorem Holds.closer_readBody {room width : Nat} (h : block.Holds reader room first cur pos)
    (hscan : reader.scanAt? pos = some (.closer block.kind, width)) :
    (reader.readBody block.kind block.tag.stop).closer =
      some (Piece.slice reader.source pos (pos + width), pos + width) := by
  rw [h.reading, closer_whole, Reader.readFrom_closer hscan]
  rfl

theorem Holds.tag_le {room : Nat} (h : block.Holds reader room first cur pos) :
    block.tag.start ≤ block.tag.stop := by
  obtain ⟨width, -, hstop⟩ := h.opener
  omega

-- The opener ends before the body that is read behind it, or behind the `else` tag, does.
theorem Holds.bodyStart_le {room : Nat} (h : block.Holds reader room first cur pos) :
    block.tag.stop ≤ pos := by
  have hbody := h.body.le
  cases hthen : block.thenBranch with
  | none =>
      rw [bodyStart, hthen] at hbody
      exact hbody
  | some branch =>
      obtain ⟨helse, hfirst⟩ := h.branch branch hthen
      have := hfirst.covers.le
      rw [bodyStart, hthen] at hbody
      simp only at hbody
      omega

-- The finished block is the one node that the plain reading makes of it.
theorem Holds.toNode_eq {room : Nat} (h : block.Holds reader room first cur pos)
    (closer : List Char) :
    ((block.outline reader.source first cur closer).limit (room + 1)).nodes =
      [OpenBlock.toNode reader.source { block with body := block.body.flush pos }] := by
  have hbody : (block.body.flush pos).toNodes reader.source = Node.joinText (cur.limit room).nodes :=
    h.body.flushed.nodesOf_eq
  unfold outline toNode
  cases hthen : block.thenBranch with
  | none => simp [Outline.limit, Outline.nodes, hbody]
  | some branch =>
      have hfirst := (h.branch branch hthen).2.nodesOf_eq
      rw [Piece.nodesOf] at hfirst
      simp [Outline.limit, Outline.nodes, hbody, hfirst]

theorem Holds.shows_pushNode {room : Nat} {nodes : List Node} {around : Draft} {closer : List Char}
    (h : block.Holds reader room first cur pos)
    (haround : around.Shows reader.source start block.tag.start nodes) (hstop : pos ≤ stop) :
    Draft.Shows reader.source start stop
      (nodes ++ ((block.outline reader.source first cur closer).limit (room + 1)).nodes)
      (around.pushNode (OpenBlock.toNode reader.source { block with body := block.body.flush pos })
        ⟨block.tag.start, stop⟩) := by
  have htag := h.tag_le
  have hbody := h.bodyStart_le
  rw [h.toNode_eq]
  refine haround.pushNode ?_ (by omega)
  unfold toNode
  split <;> rfl

-- A block that lies too deep leaves its parts to the draft around it, with its tags as text.
theorem Holds.shows_dissolve {nodes : List Node} {around : Draft}
    (h : block.Holds reader 0 first cur pos)
    (haround : around.Shows reader.source start block.tag.start nodes)
    (hstop : pos ≤ stop) (hsize : stop ≤ reader.source.size) :
    Draft.Shows reader.source start stop
      (nodes ++ ((block.outline reader.source first cur
        (Piece.slice reader.source pos stop)).limit 0).nodes)
      { OpenBlock.dissolve { block with body := block.body.flush pos } around with
        textStart := pos } := by
  have htag := h.tag_le
  have hbodyStart := h.bodyStart_le
  have hbody := h.body.flushed
  have hbodyLe := hbody.covers.le
  have hopener := (haround.skip htag (by omega)).flushed
  unfold dissolve
  cases hthen : block.thenBranch with
  | none =>
      simp only [bodyStart, hthen] at hbody
      have hall := Draft.shows_append hopener hbody (hstop.trans hsize)
      have hshows := Draft.shows_of_pieces hall hstop hsize
      refine hshows.congr ?_
      simp [outline, hthen, Outline.limit, Outline.nodes]
  | some branch =>
      obtain ⟨helse, hfirst⟩ := h.branch branch hthen
      simp only [bodyStart, hthen] at hbody hbodyLe
      have hthenPart := Draft.shows_append hopener hfirst (by omega)
      have helsePart := Draft.shows_pushText hthenPart helse (by omega)
      have hall := Draft.shows_append helsePart hbody (hstop.trans hsize)
      have hshows := Draft.shows_of_pieces hall hstop hsize
      refine hshows.congr ?_
      simp [outline, hthen, Outline.limit, Outline.nodes]

end OpenBlock

end Stencil

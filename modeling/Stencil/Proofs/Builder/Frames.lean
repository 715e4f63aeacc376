import Stencil.Proofs.Builder.Closers

namespace Stencil

-- The plain reading of the body of a block whose opener ends at an offset.
def Reader.readBody (reader : Reader) (kind : BlockKind) (offset : Nat) : Reading :=
  reader.readFrom (some kind) (kind = .ifTrue) offset

namespace OpenBlock

-- Where the draft of the body begins.
def bodyStart (block : OpenBlock) : Nat :=
  match block.thenBranch with
  | some branch => branch.elseTag.stop
  | none => block.tag.stop

-- The reading of the whole body, when `first` was read in front of the `else` tag that has split it.
def whole (source : Array Char) (block : OpenBlock) (first : Outline) (r : Reading) : Reading :=
  match block.thenBranch with
  | some branch =>
    (r.split (Piece.slice source branch.elseTag.start branch.elseTag.stop)).prepend first
  | none => r

-- The block stands behind its opener, and `first` and `cur` are what was read of it up to `pos`.
structure Holds (reader : Reader) (room : Nat) (first cur : Outline) (pos : Nat)
    (block : OpenBlock) : Prop where
  opener : ∃ width, reader.scanAt? block.tag.start = some (.opener block.kind block.path, width) ∧
    block.tag.stop = block.tag.start + width
  after_eq : block.after = reader.tokens block.tag.stop
  passes : reader.Passes block.tag.stop
  reading : reader.readBody block.kind block.tag.stop = block.whole reader.source first
    ((reader.readFrom (some block.kind) block.splits pos).prepend cur)
  branch : ∀ branch ∈ block.thenBranch, branch.elseTag.start ≤ branch.elseTag.stop ∧
    Piece.Shows reader.source block.tag.stop branch.elseTag.start (first.limit room).nodes
      branch.pieces
  body : block.body.Shows reader.source block.bodyStart pos (cur.limit room).nodes

end OpenBlock

-- What was read of the body around a block, up to its opener, and of the block's own first branch.
structure Frame where
  before : Outline
  first : Outline

namespace Reader

variable (reader : Reader)

-- The plain reading of the rest of the innermost body.
def readTop (opened : List OpenBlock) (pos : Nat) : Reading :=
  reader.readFrom (opened.head?.map (·.kind)) (opened.head?.any (·.splits)) pos

-- Every open block holds its part of the plain reading; `cur` is the part of the innermost body.
def Holds (root : Draft) : List OpenBlock → List Frame → Outline → Nat → Prop
  | [], [], cur, pos =>
    reader.readFrom none false 0 = (reader.readFrom none false pos).prepend cur ∧
      root.Shows reader.source 0 pos (cur.limit reader.options.maxDepth).nodes
  | block :: outer, frame :: frames, cur, pos =>
    block.Holds reader (reader.options.maxDepth - (outer.length + 1)) frame.first cur pos ∧
      Holds root outer frames frame.before block.tag.start
  | [], _ :: _, _, _ => False
  | _ :: _, [], _, _ => False

variable {reader} {root : Draft} {opened : List OpenBlock} {frames : List Frame} {cur : Outline}
  {pos pos' : Nat}

theorem Holds.of_nil (h : reader.Holds root [] frames cur pos) :
    frames = [] ∧ reader.readFrom none false 0 = (reader.readFrom none false pos).prepend cur ∧
      root.Shows reader.source 0 pos (cur.limit reader.options.maxDepth).nodes := by
  cases frames with
  | nil => exact ⟨rfl, h⟩
  | cons frame frames => exact h.elim

theorem Holds.of_cons {block : OpenBlock} {outer : List OpenBlock}
    (h : reader.Holds root (block :: outer) frames cur pos) :
    ∃ frame rest, frames = frame :: rest ∧
      block.Holds reader (reader.options.maxDepth - (outer.length + 1)) frame.first cur pos ∧
        reader.Holds root outer rest frame.before block.tag.start := by
  cases frames with
  | nil => exact h.elim
  | cons frame frames => exact ⟨frame, frames, rfl, h⟩

-- The stack is as high as there are frames.
theorem Holds.length_eq (h : reader.Holds root opened frames cur pos) :
    frames.length = opened.length := by
  induction opened generalizing frames cur pos with
  | nil =>
      obtain ⟨rfl, -⟩ := h.of_nil
      rfl
  | cons block outer ih =>
      obtain ⟨frame, rest, rfl, -, houter⟩ := h.of_cons
      exact congrArg (· + 1) (ih houter)

-- A body that goes on with `more`, in its plain reading as in its draft, holds that much more.
theorem Holds.updateBody {s : State} {more : Outline} {change : Draft → Draft}
    (h : reader.Holds s.root s.opened frames cur pos)
    (hread : reader.readTop s.opened pos = (reader.readTop s.opened pos').prepend more)
    (hdraft : ∀ start nodes draft, draft.Shows reader.source start pos nodes →
      (change draft).Shows reader.source start pos'
        (nodes ++ (more.limit (reader.options.maxDepth - s.opened.length)).nodes)) :
    reader.Holds (s.updateBody change).root (s.updateBody change).opened frames (cur ++ more)
      pos' := by
  obtain ⟨_, _, root, opened, _⟩ := s
  cases opened with
  | nil =>
      obtain ⟨rfl, hroot, hshows⟩ := h.of_nil
      refine ⟨?_, ?_⟩
      · have hread : reader.readFrom none false pos = _ := hread
        rw [hroot, hread, Reading.prepend_prepend]
        rfl
      · rw [Outline.limit_append, Outline.nodes_append]
        exact hdraft _ _ _ hshows
  | cons block outer =>
      obtain ⟨frame, rest, rfl, hblock, houter⟩ := h.of_cons
      refine ⟨{ hblock with reading := ?_, body := ?_ }, houter⟩
      · have hread : reader.readFrom (some block.kind) block.splits pos = _ := hread
        have hreading := hblock.reading
        rw [hread, Reading.prepend_prepend] at hreading
        exact hreading
      · rw [Outline.limit_append, Outline.nodes_append]
        exact hdraft _ _ _ hblock.body

end Reader

end Stencil

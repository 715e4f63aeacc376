import Stencil.Proofs.Builder.Invariant

namespace Stencil

namespace OpenBlock

theorem fits_outline {source : Array Char} {block : OpenBlock} {first cur : Outline}
    {closer : List Char} {room : Nat} (hfirst : first.Fits (room - 1)) (hcur : cur.Fits (room - 1))
    (hroom : 0 < room) : (block.outline source first cur closer).Fits room := by
  unfold outline
  split
  · exact ⟨⟨hfirst.1, hcur.1, trivial⟩, hroom, hfirst.2, hcur.2, trivial⟩
  · exact ⟨⟨hcur.1, trivial⟩, hroom, hcur.2, trivial⟩

end OpenBlock

namespace Outline

theorem nodes_limit_literal (room : Nat) (c : Char) (behind : List Char) :
    ((literal c behind).limit room).nodes = [.text (String.ofList [c])] := by
  unfold literal
  split
  · next h => rw [h.1]; rfl
  · rfl

end Outline

namespace State

variable {reader : Reader} {s : State} {frames : List Frame} {cur more : Outline} {width : Nat}
  {kind : BlockKind} {path : Path} {block : OpenBlock} {outer : List OpenBlock}

-- Reading goes past what stays text.
theorem Inv.pass (inv : s.Inv reader frames cur) (hsize : s.pos + width ≤ reader.source.size)
    (hpasses : reader.Passes (s.pos + width))
    (hread : reader.readTop s.opened s.pos =
      (reader.readTop s.opened (s.pos + width)).prepend more)
    (hnodes : ∀ room, (more.limit room).nodes =
      [.text (String.ofList (Piece.slice reader.source s.pos (s.pos + width)))])
    (hfits : reader.options.strict = true → ∀ room, more.Fits room) :
    (s.moveTo reader (s.pos + width)).Inv reader frames (cur ++ more) := by
  have hinv : ((s.moveTo reader (s.pos + width)).updateBody id).Inv reader frames (cur ++ more) := by
    refine (inv.toPlaced.moveTo hsize hpasses).inv_updateBody inv.holds hread ?_ ?_
    · intro start nodes draft hshows
      rw [hnodes]
      exact hshows.skip (Nat.le_add_right _ _) hsize
    · exact fun hstrict => (inv.fits hstrict).append (hfits hstrict _)
  rwa [updateBody_id] at hinv

-- Only lenient reading goes past a tag that stays text.
theorem Inv.pass_tag (inv : s.Inv reader frames cur) {tag : Tag}
    (hscan : reader.scanAt? s.pos = some (tag, width))
    (hread : reader.readTop s.opened s.pos = (reader.readTop s.opened (s.pos + width)).prepend
      (.verbatim (Piece.slice reader.source s.pos (s.pos + width)) .nil))
    (hlenient : reader.options.strict = false) :
    (s.moveTo reader (s.pos + width)).Inv reader frames
      (cur ++ .verbatim (Piece.slice reader.source s.pos (s.pos + width)) .nil) := by
  refine inv.pass (Reader.le_size_of_scanAt? hscan) (inv.passes.skip_tag hscan) hread
    (fun _ => rfl) ?_
  intro hstrict
  rw [hlenient] at hstrict
  cases hstrict

theorem Inv.push_node (inv : s.Inv reader frames cur) {tag : Tag} {escaped : Bool}
    (hscan : reader.scanAt? s.pos = some (tag, width))
    (hread : reader.readTop s.opened s.pos = (reader.readTop s.opened (s.pos + width)).prepend
      (.placeholder path escaped (Piece.slice reader.source s.pos (s.pos + width)) .nil)) :
    ((s.moveTo reader (s.pos + width)).updateBody
      (·.pushNode (.placeholder path escaped) ⟨s.pos, s.pos + width⟩)).Inv reader frames
        (cur ++ .placeholder path escaped
          (Piece.slice reader.source s.pos (s.pos + width)) .nil) := by
  have hsize := Reader.le_size_of_scanAt? hscan
  refine (inv.toPlaced.moveTo hsize (inv.passes.skip_tag hscan)).inv_updateBody inv.holds hread ?_ ?_
  · intro start nodes draft hshows
    exact hshows.pushNode rfl (Nat.le_add_right _ _)
  · exact fun hstrict => (inv.fits hstrict).append ⟨trivial, trivial⟩

-- An opener is tried as a block.
theorem Inv.push_block (inv : s.Inv reader frames cur)
    (hscan : reader.scanAt? s.pos = some (.opener kind path, width))
    (hroom : reader.options.strict = true → s.opened.length < reader.options.maxDepth) :
    Inv reader
      { s.moveTo reader (s.pos + width) with
        opened :=
          { kind, path
            tag := ⟨s.pos, s.pos + width⟩
            after := reader.tokens (s.pos + width)
            body := { textStart := s.pos + width } } :: s.opened }
      (⟨cur, .nil⟩ :: frames) .nil := by
  have hplaced := inv.toPlaced.moveTo (Reader.le_size_of_scanAt? hscan) (inv.passes.skip_tag hscan)
  refine ⟨⟨hplaced.rest_eq, hplaced.pos_le, hplaced.passes, hplaced.unclosable⟩, ⟨?_, ?_⟩, ?_⟩
  · refine ⟨⟨width, hscan, rfl⟩, rfl, hplaced.passes, ?_, ?_, ?_⟩
    · simp [OpenBlock.whole, Reader.readBody, OpenBlock.splits, moveTo]
    · intro branch hbranch
      cases hbranch
    · exact Draft.shows_start reader.source (s.pos + width)
  · exact inv.holds
  · intro hstrict
    have hlength := inv.holds.length_eq
    have := hroom hstrict
    exact ⟨Outline.fits_nil _, Outline.fits_nil _, by omega, inv.fits hstrict⟩

-- The `else` tag ends the first branch, and the draft of the second one is empty.
theorem Inv.split (inv : s.Inv reader frames cur) (hopened : s.opened = block :: outer)
    (hsplits : block.splits = true) (hscan : reader.scanAt? s.pos = some (.otherwise, width)) :
    ∃ frames' cur', Inv reader
      { s.moveTo reader (s.pos + width) with
        opened := block.split ⟨s.pos, s.pos + width⟩ :: outer } frames' cur' := by
  have hholds := inv.holds
  rw [hopened] at hholds
  have hplaced := inv.toPlaced.moveTo (Reader.le_size_of_scanAt? hscan) (inv.passes.skip_tag hscan)
  have hthen : block.thenBranch = none := by
    simp only [OpenBlock.splits, Bool.and_eq_true, Option.isNone_iff_eq_none] at hsplits
    exact hsplits.2
  obtain ⟨frame, frames, rfl, hblock, houter⟩ := hholds.of_cons
  refine ⟨⟨frame.before, cur⟩ :: frames, .nil, ⟨hplaced.rest_eq, hplaced.pos_le, hplaced.passes,
    hplaced.unclosable⟩, ⟨⟨hblock.opener, hblock.after_eq, hblock.passes, ?_, ?_, ?_⟩, houter⟩, ?_⟩
  · have hreading := hblock.reading
    rw [hsplits, Reader.readFrom_else_splits hscan, OpenBlock.whole, hthen] at hreading
    simpa [OpenBlock.whole, OpenBlock.split, OpenBlock.splits, moveTo] using hreading
  · intro branch hbranch
    cases hbranch
    have hbody := hblock.body.flushed
    rw [OpenBlock.bodyStart, hthen] at hbody
    exact ⟨Nat.le_add_right _ _, hbody⟩
  · exact Draft.shows_start reader.source (s.pos + width)
  · intro hstrict
    obtain ⟨hcur, -, hroom, hbefore⟩ := inv.fits hstrict
    exact ⟨Outline.fits_nil _, hcur, hroom, hbefore⟩

-- The body around a block that is closed goes on with what the plain reading makes of the block.
theorem readTop_of_holds (outer : List OpenBlock) {pos : Nat} {first : Outline} {room : Nat}
    (hblock : block.Holds reader room first cur pos)
    (hscan : reader.scanAt? pos = some (.closer block.kind, width)) :
    reader.readTop outer block.tag.start = (reader.readTop outer (pos + width)).prepend
      (block.outline reader.source first cur
        (Piece.slice reader.source pos (pos + width))) := by
  obtain ⟨opener, hopener, hstop⟩ := hblock.opener
  have hreading := hblock.reading
  rw [Reader.readFrom_closer hscan, hstop] at hreading
  have hcloser := hblock.closer_readBody hscan
  rw [hstop] at hcloser
  rw [Reader.readTop, Reader.readFrom_opener_of_closed hopener hcloser]
  rw [Reader.readBody] at hreading
  rw [hreading, ← hstop]
  have hcur : ({ body := .nil, closer := some (Piece.slice reader.source pos (pos + width),
      pos + width) } : Reading).prepend cur =
        { body := cur, closer := some (Piece.slice reader.source pos (pos + width), pos + width) } := by
    simp [Reading.prepend]
  rw [hcur, OpenBlock.toBlock_whole]
  rfl

theorem Inv.close (inv : s.Inv reader frames cur) (hopened : s.opened = block :: outer)
    (hscan : reader.scanAt? s.pos = some (.closer block.kind, width)) :
    ∃ frames' cur', Inv reader ((s.moveTo reader (s.pos + width)).closeBlock reader block outer
      ⟨s.pos, s.pos + width⟩) frames' cur' := by
  have hsize := Reader.le_size_of_scanAt? hscan
  have hholds := inv.holds
  rw [hopened] at hholds
  obtain ⟨frame, frames, rfl, hblock, houter⟩ := hholds.of_cons
  have hplaced := inv.toPlaced.moveTo hsize (inv.passes.skip_tag hscan)
  have hplaced' : Placed reader { s.moveTo reader (s.pos + width) with opened := outer } :=
    ⟨hplaced.rest_eq, hplaced.pos_le, hplaced.passes, hplaced.unclosable⟩
  have hread := readTop_of_holds outer hblock hscan
  have hfits : reader.options.strict = true → Frame.AllFit reader.options.maxDepth frames
      (frame.before ++ block.outline reader.source frame.first cur
        (Piece.slice reader.source s.pos (s.pos + width))) := by
    intro hstrict
    obtain ⟨hcur, hfirst, hroom, hbefore⟩ := inv.fits hstrict
    exact hbefore.append (OpenBlock.fits_outline hfirst hcur (by omega))
  refine ⟨frames, frame.before ++ block.outline reader.source frame.first cur
    (Piece.slice reader.source s.pos (s.pos + width)), ?_⟩
  unfold closeBlock
  split_ifs with hdeep
  · refine hplaced'.inv_updateBody houter hread ?_ hfits
    intro start nodes around haround
    have hroom : reader.options.maxDepth - outer.length = 0 := by omega
    have hroom' : reader.options.maxDepth - (outer.length + 1) = 0 := by omega
    rw [hroom'] at hblock
    rw [hroom]
    exact hblock.shows_dissolve haround (Nat.le_add_right _ _) hsize
  · refine hplaced'.inv_updateBody houter hread ?_ hfits
    intro start nodes around haround
    have hroom : reader.options.maxDepth - outer.length =
        reader.options.maxDepth - (outer.length + 1) + 1 := by omega
    rw [hroom]
    exact hblock.shows_pushNode haround (Nat.le_add_right _ _)

-- At the end of the text the body around the innermost block goes on behind its opener.
theorem Inv.abandon (inv : s.Inv reader frames cur) (hopened : s.opened = block :: outer)
    (hend : s.pos = reader.source.size) (hlenient : reader.options.strict = false) :
    ∃ frames' cur', Inv reader (s.abandon block outer) frames' cur' := by
  have hholds := inv.holds
  rw [hopened] at hholds
  obtain ⟨frame, frames, rfl, hblock, houter⟩ := hholds.of_cons
  obtain ⟨width, hscan, hstop⟩ := hblock.opener
  have hsize : block.tag.stop ≤ reader.source.size := hstop ▸ Reader.le_size_of_scanAt? hscan
  have hcloser : (reader.readBody block.kind (block.tag.start + width)).closer = none := by
    rw [← hstop, hblock.reading, OpenBlock.closer_whole, Reader.readFrom_end hend.ge]
    rfl
  have hplaced : Placed reader (s.abandon block outer) := by
    refine ⟨hblock.after_eq, hsize, hblock.passes, ?_⟩
    exact unclosable_insert inv.unclosable
      ⟨hlenient, block.kind, block.path, width, hscan, hcloser⟩
  have hread : reader.readTop outer block.tag.start =
      (reader.readTop outer block.tag.stop).prepend
        (.verbatim (Piece.slice reader.source block.tag.start block.tag.stop) .nil) := by
    rw [hstop]
    exact Reader.readFrom_opener_of_unclosed hscan hcloser
  refine ⟨frames, frame.before ++
    .verbatim (Piece.slice reader.source block.tag.start block.tag.stop) .nil, ?_⟩
  rw [← updateBody_id (s.abandon block outer)]
  refine hplaced.inv_updateBody houter hread ?_ ?_
  · intro start nodes draft hshows
    exact hshows.skip hblock.tag_le hsize
  · intro hstrict
    rw [hlenient] at hstrict
    cases hstrict

end State

end Stencil

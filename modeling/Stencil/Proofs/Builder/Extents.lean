import Stencil.Proofs.Builder.Nesting
import Stencil.Proofs.Bytes
import Stencil.Proofs.Tag.Grammar

namespace Stencil

namespace Reader

variable (reader : Reader)

-- The number of bytes in front of an offset.
def byteAt (offset : Nat) : Nat :=
  bytesBefore reader.source.toList offset

-- What is cut out of the source between two offsets, by their numbers of bytes.
def slice? (start stop : Nat) : Option String :=
  byteSlice? (String.ofList reader.source.toList) (reader.byteAt start) (reader.byteAt stop)

-- The offset lies in the source, and between two of its characters.
def Boundary (offset : Nat) : Prop :=
  offset ≤ reader.source.size ∧
    String.Pos.Raw.IsValid (String.ofList reader.source.toList) ⟨reader.byteAt offset⟩

variable {reader} {start stop offset : Nat} {tag : Tag} {span : Span}

theorem byteAt_strictMono (reader : Reader) : StrictMono reader.byteAt :=
  bytesBefore_strictMono reader.source.toList

theorem byteAt_ofText {options : Options} {text : List Char} (h : offset ≤ text.length) :
    (ofText options text).byteAt offset = (String.ofList (text.take offset)).utf8ByteSize :=
  bytesBefore_of_le h

theorem byteAt_add (offset width : Nat) :
    reader.byteAt (offset + width) = reader.byteAt offset + bytesBefore (reader.rest offset) width :=
  bytesBefore_add reader.source.toList offset width

theorem boundary_of_le (h : offset ≤ reader.source.size) : reader.Boundary offset :=
  ⟨h, isValid_bytesBefore (by simpa using h)⟩

theorem slice?_eq (hle : start ≤ stop) (hsize : stop ≤ reader.source.size) :
    reader.slice? start stop = some (String.ofList (Piece.slice reader.source start stop)) := by
  rw [slice?, byteAt, byteAt, byteSlice?_bytesBefore hle (by simpa using hsize)]
  simp [Piece.slice, List.extract_eq_take_drop]

-- A tag takes up as many bytes as characters.
theorem Reads.byteAt_stop (h : reader.Reads tag span) :
    reader.byteAt span.stop = reader.byteAt span.start + (span.stop - span.start) := by
  obtain ⟨width, hscan, hstop⟩ := h
  obtain ⟨hspelled, htag⟩ := Tag.spelled_of_scan? hscan
  have hwidth := (Tag.scan?_length hscan).2
  rw [hstop, byteAt_add, bytesBefore_of_le hwidth, (Tag.ascii_of_spelled hspelled htag).utf8ByteSize_eq,
    List.length_take_of_le hwidth, Nat.add_sub_cancel_left]

theorem byteAt_behind_brace {behind : List Char} (h : reader.rest offset = '{' :: behind) :
    reader.byteAt (offset + 1) = reader.byteAt offset + 1 := by
  rw [byteAt_add, h, bytesBefore, bytesBefore]
  rfl

end Reader

namespace OpenBlock

-- All stretches of the source that a block keeps.
def spans (block : OpenBlock) : List Span :=
  match block.thenBranch with
  | some branch =>
    block.tag :: branch.elseTag :: (block.body.pieces ++ branch.pieces).map Piece.span
  | none => block.tag :: block.body.pieces.map Piece.span

variable {reader : Reader} {block : OpenBlock} {pos : Nat}

theorem tag_mem_spans (block : OpenBlock) : block.tag ∈ block.spans := by
  unfold spans
  split <;> exact List.mem_cons_self

theorem Tiled.span_le (h : block.Tiled reader) (htag : block.tag.start ≤ block.tag.stop)
    (hle : block.body.textStart ≤ pos) :
    ∀ span ∈ block.spans, span.start ≤ span.stop ∧ span.stop ≤ pos := by
  have hopener := h.tag_stop_le.trans hle
  unfold spans
  obtain ⟨hthen, hbody⟩ | ⟨branch, hthen, -, helse, hfirst, hbody⟩ := h.cases
  · rw [hthen]
    refine List.forall_mem_cons.mpr ⟨⟨htag, hopener⟩, List.forall_mem_map.mpr ?_⟩
    exact fun piece hpiece => (hbody.covers.span_le piece hpiece).imp_right hle.trans'
  · have hend : branch.elseTag.stop ≤ pos := hbody.covers.le.trans hle
    have hstart : branch.elseTag.start ≤ pos := helse.lt.le.trans hend
    rw [hthen]
    refine List.forall_mem_cons.mpr ⟨⟨htag, hopener⟩, ?_⟩
    refine List.forall_mem_cons.mpr ⟨⟨helse.lt.le, hend⟩, List.forall_mem_map.mpr ?_⟩
    refine List.forall_mem_append.mpr ⟨fun piece hpiece => ?_, fun piece hpiece => ?_⟩
    · exact (hbody.covers.span_le piece hpiece).imp_right hle.trans'
    · exact (hfirst.covers.span_le piece hpiece).imp_right hstart.trans'

end OpenBlock

namespace Reader

variable {reader : Reader} {root : Draft} {block : OpenBlock} {opened outer : List OpenBlock} {pos : Nat}

theorem Nested.tag_start_le (h : reader.Nested root (block :: outer) pos)
    (htag : block.tag.start ≤ block.tag.stop) : block.tag.start ≤ pos :=
  htag.trans (h.1.tag_stop_le.trans h.2.1)

theorem Nested.textStart_le (h : reader.Nested root opened pos)
    (htag : ∀ block ∈ opened, block.tag.start < block.tag.stop) :
    ∀ draft ∈ root :: opened.map OpenBlock.body, draft.textStart ≤ pos := by
  induction opened generalizing pos with
  | nil => simpa using h.2
  | cons block outer ih =>
      obtain ⟨htag, htags⟩ := List.forall_mem_cons.mp htag
      have hstart := h.tag_start_le htag.le
      obtain ⟨hroot, houter⟩ := List.forall_mem_cons.mp (ih h.2.2 htags)
      refine List.forall_mem_cons.mpr ⟨hroot.trans hstart, List.forall_mem_cons.mpr ⟨h.2.1, ?_⟩⟩
      exact fun draft hdraft => (houter draft hdraft).trans hstart

theorem Nested.span_le (h : reader.Nested root opened pos)
    (htag : ∀ block ∈ opened, block.tag.start < block.tag.stop) :
    ∀ span ∈ root.pieces.map Piece.span ++ opened.flatMap OpenBlock.spans,
      span.start ≤ span.stop ∧ span.stop ≤ pos := by
  induction opened generalizing pos with
  | nil =>
      rw [List.flatMap_nil, List.append_nil]
      refine List.forall_mem_map.mpr fun piece hpiece => ?_
      exact (h.1.covers.span_le piece hpiece).imp_right h.2.trans'
  | cons block outer ih =>
      obtain ⟨htag, htags⟩ := List.forall_mem_cons.mp htag
      have hstart := h.tag_start_le htag.le
      obtain ⟨hroot, houter⟩ := List.forall_mem_append.mp (ih h.2.2 htags)
      rw [List.flatMap_cons]
      refine List.forall_mem_append.mpr
        ⟨fun span hspan => (hroot span hspan).imp_right hstart.trans', List.forall_mem_append.mpr ⟨?_, ?_⟩⟩
      · exact h.1.span_le htag.le h.2.1
      · exact fun span hspan => (houter span hspan).imp_right hstart.trans'

-- A block that was opened later begins behind the opener of one opened before.
theorem Nested.ascending (h : reader.Nested root opened pos)
    (htag : ∀ block ∈ opened, block.tag.start < block.tag.stop) :
    opened.Pairwise fun inner outer => outer.tag.start < inner.tag.start := by
  induction opened generalizing pos with
  | nil => exact .nil
  | cons block outer ih =>
      obtain ⟨-, htags⟩ := List.forall_mem_cons.mp htag
      refine .cons (fun around haround => ?_) (ih h.2.2 htags)
      have hspans := (List.forall_mem_append.mp (h.2.2.span_le htags)).2
      have hstop := (hspans around.tag (List.mem_flatMap.mpr ⟨around, haround, around.tag_mem_spans⟩)).2
      exact (htags around haround).trans_le hstop

end Reader

namespace State

-- All stretches of the source that a state keeps.
def spans (s : State) : List Span :=
  s.root.pieces.map Piece.span ++ s.opened.flatMap OpenBlock.spans

def drafts (s : State) : List Draft :=
  s.root :: s.opened.map OpenBlock.body

-- The body that reading is in.
def innermost (s : State) : Draft :=
  match s.opened with
  | block :: _ => block.body
  | [] => s.root

-- The bodies lie in each other, and tile the source up to the place of the state.
structure Tiled (reader : Reader) (s : State) : Prop where
  nested : reader.Nested s.root s.opened s.pos
  opener : ∀ block ∈ s.opened,
    reader.Reads (.opener block.kind block.path) block.tag ∧ block.tag.start < block.tag.stop
  ascending : s.opened.Pairwise fun inner outer => outer.tag.start < inner.tag.start
  pos_le : s.pos ≤ reader.source.size

-- Whatever is looked up in the source by numbers of bytes is there: what is read next, the tag, what an error
-- counts lines in, and the text of each piece, that which still waits at the end of the innermost body with it.
structure InRange (reader : Reader) (s : State) : Prop where
  pos : reader.Boundary s.pos
  textStart : ∀ draft ∈ s.drafts, reader.Boundary draft.textStart
  span : ∀ span ∈ s.spans ++ (s.innermost.flush s.pos).pieces.map Piece.span,
    reader.Boundary span.start ∧ reader.Boundary span.stop ∧
      reader.slice? span.start span.stop =
        some (String.ofList (Piece.slice reader.source span.start span.stop))
  rest : s.rest = reader.tokens s.pos ∧
    reader.slice? s.pos reader.source.size = some (String.ofList (reader.rest s.pos))
  brace : ∀ behind, reader.rest s.pos = '{' :: behind →
    reader.byteAt (s.pos + 1) = reader.byteAt s.pos + 1
  tag : ∀ tag width, reader.scanAt? s.pos = some (tag, width) →
    reader.byteAt (s.pos + width) = reader.byteAt s.pos + width ∧
      reader.slice? s.pos (s.pos + width) = some (String.ofList ((reader.rest s.pos).take width))
  failed : ∀ error, s.step reader = .failed error → ∃ fault, error = reader.locate s.pos fault ∧
    reader.slice? 0 s.pos = some (String.ofList (Piece.slice reader.source 0 s.pos))

variable {reader : Reader} {s : State} {frames : List Frame} {cur : Outline} {stop : Nat}

theorem fills_innermost (h : reader.Nested s.root s.opened stop) :
    ∃ start, reader.Fills start (s.innermost.flush stop).pieces stop := by
  unfold innermost
  cases hopened : s.opened with
  | nil =>
      rw [hopened] at h
      exact ⟨0, Draft.fills_pushText h.1 h.2⟩
  | cons block outer =>
      rw [hopened] at h
      exact ⟨block.bodyStart, h.1.flush h.2.1⟩

-- Reading fails at the place of the state only.
theorem located_of_failed {error : ParseError} (h : s.step reader = .failed error) :
    ∃ fault, error = reader.locate s.pos fault := by
  have hstray : ∀ {behind : State} {tag spelling}, behind.strayCloser reader tag spelling = .failed error →
      tag.start = s.pos → ∃ fault, error = reader.locate s.pos fault := by
    intro behind tag spelling h htag
    unfold strayCloser at h
    split_ifs at h
    cases h
    exact ⟨_, by rw [htag]⟩
  unfold step at h
  split at h
  · unfold onEnd at h
    split at h
    · cases h
    · split_ifs at h
      cases h
      exact ⟨_, rfl⟩
  · simp only at h
    split at h
    · cases h
    · split_ifs at h
      cases h
      exact ⟨_, rfl⟩
    · unfold onTag openBlock at h
      split at h
      · cases h
      · simp only at h
        split_ifs at h
        cases h
        exact ⟨_, rfl⟩
      · cases h
      · split at h
        · split_ifs at h
          exact hstray h rfl
        · exact hstray h rfl

theorem Inv.tiled (inv : s.Inv reader frames cur) (h : reader.Nested s.root s.opened s.pos) :
    s.Tiled reader := by
  have hopener := inv.reads_opener
  have htag := fun block hblock => (hopener block hblock).lt
  exact ⟨h, fun block hblock => ⟨hopener block hblock, htag block hblock⟩, h.ascending htag, inv.pos_le⟩

theorem Tiled.inRange (h : s.Tiled reader) (hrest : s.rest = reader.tokens s.pos) : s.InRange reader := by
  have htag := fun block hblock => (h.opener block hblock).2
  have hpos := h.pos_le
  constructor
  case pos => exact Reader.boundary_of_le hpos
  case textStart =>
    intro draft hdraft
    exact Reader.boundary_of_le ((h.nested.textStart_le htag draft hdraft).trans hpos)
  case span =>
    obtain ⟨start, hinner⟩ := fills_innermost h.nested
    intro span hspan
    obtain ⟨hle, hstop⟩ := List.forall_mem_append.mpr
      ⟨h.nested.span_le htag, List.forall_mem_map.mpr hinner.covers.span_le⟩ span hspan
    have hsize := hstop.trans hpos
    exact ⟨Reader.boundary_of_le (hle.trans hsize), Reader.boundary_of_le hsize, Reader.slice?_eq hle hsize⟩
  case rest =>
    have hall : Piece.slice reader.source s.pos reader.source.size = reader.rest s.pos := by
      simp [Piece.slice, Reader.rest, List.take_of_length_le]
    exact ⟨hrest, by rw [Reader.slice?_eq hpos (Nat.le_refl _), hall]⟩
  case brace => exact fun behind hbehind => Reader.byteAt_behind_brace hbehind
  case tag =>
    intro tag width hscan
    have hreads : reader.Reads tag ⟨s.pos, s.pos + width⟩ := ⟨width, hscan, rfl⟩
    refine ⟨by simpa using hreads.byteAt_stop, ?_⟩
    rw [Reader.take_rest, Reader.slice?_eq hreads.lt.le hreads.stop_le]
  case failed =>
    intro error herror
    obtain ⟨fault, herror⟩ := located_of_failed herror
    exact ⟨fault, herror, Reader.slice?_eq (Nat.zero_le _) hpos⟩

end State

namespace Node

theorem parse_states_tile (options : Options) (text : List Char) :
    (StrictMono (Reader.ofText options text).byteAt ∧ ∀ offset ≤ text.length,
      (Reader.ofText options text).byteAt offset = (String.ofList (text.take offset)).utf8ByteSize) ∧
      ∃ visited, State.Course (Reader.ofText options text)
          (.start (Token.ofText options.allowPadding text)) visited (parse options text) ∧
        ∀ s ∈ visited, s.Tiled (Reader.ofText options text) ∧ s.InRange (Reader.ofText options text) := by
  obtain ⟨visited, hcourse⟩ := State.course_run (Reader.ofText options text)
    (.start (Token.ofText options.allowPadding text))
  refine ⟨⟨Reader.byteAt_strictMono _, fun _ => Reader.byteAt_ofText⟩, visited, hcourse, ?_⟩
  intro s hs
  have inv := Reader.inv_start options text
  obtain ⟨frames, cur, hinv⟩ := hcourse.forall_inv inv s hs
  have htiled := hinv.tiled (hcourse.nested inv (State.nested_start _ _) s hs)
  exact ⟨htiled, htiled.inRange hinv.rest_eq⟩

end Node

end Stencil

import Stencil.Proofs.Builder.Course
import Stencil.Proofs.Draft.Filled

namespace Stencil

namespace Reader

-- The pieces that cover a stretch of the source of this reader, with what stands there.
def Fills (reader : Reader) (start : Nat) (pieces : List Piece) (stop : Nat) : Prop :=
  Piece.Fills reader.options.allowPadding reader.source start pieces stop

end Reader

namespace OpenBlock

-- A block that is split has its first branch up to the `else` tag, and its body begins behind that.
structure Tiled (reader : Reader) (block : OpenBlock) : Prop where
  branch : ∀ branch ∈ block.thenBranch, block.kind = .ifTrue ∧
    reader.Reads .otherwise branch.elseTag ∧
      reader.Fills block.tag.stop branch.pieces branch.elseTag.start
  body : reader.Fills block.bodyStart block.body.pieces block.body.textStart

end OpenBlock

namespace Reader

-- The waiting text of each body begins in front of the opener that stands in it, and that of the innermost one in
-- front of `stop`.
def Nested (reader : Reader) (root : Draft) : List OpenBlock → Nat → Prop
  | [], stop => reader.Fills 0 root.pieces root.textStart ∧ root.textStart ≤ stop
  | block :: outer, stop =>
    block.Tiled reader ∧ block.body.textStart ≤ stop ∧ reader.Nested root outer block.tag.start

variable {reader : Reader} {root : Draft} {opened : List OpenBlock} {stop stop' : Nat}

theorem Nested.mono (h : reader.Nested root opened stop) (hle : stop ≤ stop') :
    reader.Nested root opened stop' := by
  cases opened with
  | nil => exact ⟨h.1, h.2.trans hle⟩
  | cons block outer => exact ⟨h.1, h.2.1.trans hle, h.2.2⟩

-- A body can go on in any way that keeps it covered.
theorem Nested.updateBody {s : State} {change : Draft → Draft} (h : reader.Nested s.root s.opened stop)
    (hchange : ∀ start draft, reader.Fills start draft.pieces draft.textStart → draft.textStart ≤ stop →
      reader.Fills start (change draft).pieces (change draft).textStart ∧ (change draft).textStart ≤ stop') :
    reader.Nested (s.updateBody change).root (s.updateBody change).opened stop' := by
  obtain ⟨_, _, root, opened, _⟩ := s
  cases opened with
  | nil => exact hchange 0 root h.1 h.2
  | cons block outer =>
      obtain ⟨hblock, hle, houter⟩ := h
      obtain ⟨hbody, hle'⟩ := hchange block.bodyStart block.body hblock.body hle
      exact ⟨⟨hblock.branch, hbody⟩, hle', houter⟩

end Reader

namespace OpenBlock

variable {reader : Reader} {block : OpenBlock} {around : Draft} {start pos stop : Nat}

theorem Tiled.flush (h : block.Tiled reader) (hle : block.body.textStart ≤ pos) :
    reader.Fills block.bodyStart (block.body.flush pos).pieces pos :=
  Draft.fills_pushText h.body hle

-- The body is the only one, or stands behind the `else` tag of an `if`.
theorem Tiled.cases (h : block.Tiled reader) :
    (block.thenBranch = none ∧ reader.Fills block.tag.stop block.body.pieces block.body.textStart) ∨
      ∃ branch, block.thenBranch = some branch ∧ block.kind = .ifTrue ∧
        reader.Reads .otherwise branch.elseTag ∧
          reader.Fills block.tag.stop branch.pieces branch.elseTag.start ∧
            reader.Fills branch.elseTag.stop block.body.pieces block.body.textStart := by
  have hbody := h.body
  unfold bodyStart at hbody
  cases hthen : block.thenBranch with
  | none =>
      rw [hthen] at hbody
      exact .inl ⟨rfl, hbody⟩
  | some branch =>
      obtain ⟨hkind, helse, hfirst⟩ := h.branch branch hthen
      rw [hthen] at hbody
      exact .inr ⟨branch, rfl, hkind, helse, hfirst, hbody⟩

theorem Tiled.tag_stop_le (h : block.Tiled reader) : block.tag.stop ≤ block.body.textStart := by
  obtain ⟨-, hbody⟩ | ⟨branch, -, -, helse, hfirst, hbody⟩ := h.cases
  · exact hbody.covers.le
  · exact hfirst.covers.le.trans (helse.lt.le.trans hbody.covers.le)

-- The finished block is spelled from its opener to its closing tag.
theorem Tiled.spells_toNode (h : block.Tiled reader) (hle : block.body.textStart ≤ pos)
    (hopener : reader.Reads (.opener block.kind block.path) block.tag)
    (hcloser : reader.Reads (.closer block.kind) ⟨pos, stop⟩) :
    Node.Spells reader.options.allowPadding
      [OpenBlock.toNode reader.source { block with body := block.body.flush pos }]
      (Piece.slice reader.source block.tag.start stop) := by
  have htag := hopener.lt
  have hend : pos < stop := hcloser.lt
  have hstart := h.tag_stop_le.trans hle
  rw [← Piece.slice_append_slice reader.source (htag.le.trans hstart) hend.le,
    ← Piece.slice_append_slice reader.source htag.le hstart]
  unfold toNode
  obtain ⟨hthen, hbody⟩ | ⟨branch, hthen, hkind, helse, hfirst, hbody⟩ := h.cases
  · have hbody := Draft.fills_pushText hbody hle
    have hspells := Node.Spells.block hopener.spelled hbody.spells hcloser.spelled .nil
    rw [List.append_nil] at hspells
    rw [hthen]
    exact hspells
  · have hbody := Draft.fills_pushText hbody hle
    have hbodyLe := hbody.covers.le
    rw [hkind] at hopener hcloser
    have hspells := Node.Spells.ifElse hopener.spelled hfirst.spells helse.spelled hbody.spells
      hcloser.spelled .nil
    rw [hthen, ← Piece.slice_append_slice reader.source hfirst.covers.le (helse.lt.le.trans hbodyLe),
      ← Piece.slice_append_slice reader.source helse.lt.le hbodyLe]
    simp only [List.append_assoc, List.append_nil] at hspells ⊢
    exact hspells

-- Dissolved, a block covers the body around it up to its closing tag, which is text there.
theorem Tiled.fills_dissolve (h : block.Tiled reader) (hle : block.body.textStart ≤ pos)
    (htag : block.tag.start ≤ block.tag.stop) (haround : reader.Fills start around.pieces around.textStart)
    (hstart : around.textStart ≤ block.tag.start) :
    reader.Fills start
      (OpenBlock.dissolve { block with body := block.body.flush pos } around).pieces pos := by
  have hopener := Draft.fills_pushText haround (hstart.trans htag)
  unfold dissolve
  obtain ⟨hthen, hbody⟩ | ⟨branch, hthen, -, helse, hfirst, hbody⟩ := h.cases
  · rw [hthen]
    exact Draft.fills_append hopener (Draft.fills_pushText hbody hle)
  · rw [hthen]
    have hthenPart := Draft.fills_append hopener hfirst
    exact Draft.fills_append (Draft.fills_pushText hthenPart helse.lt.le) (Draft.fills_pushText hbody hle)

end OpenBlock

namespace State

variable {reader : Reader} {s s' : State} {frames : List Frame} {cur : Outline} {block : OpenBlock}
  {outer : List OpenBlock} {kind : BlockKind} {path : Path} {width : Nat}

theorem nested_pushNode {node : Node} {span : Span} (hnode : node.isText = false)
    (hspells : Node.Spells reader.options.allowPadding [node]
      (Piece.slice reader.source span.start span.stop))
    (hspan : span.start ≤ span.stop) (h : reader.Nested s.root s.opened span.start) :
    reader.Nested (s.updateBody (·.pushNode node span)).root (s.updateBody (·.pushNode node span)).opened
      span.stop := by
  refine h.updateBody fun start draft hdraft hle => ⟨?_, Nat.le_refl _⟩
  exact Draft.Fills.pushNode hdraft hle hspan hnode hspells

-- The body of a block that is taken up is empty, and begins where its opener ends.
theorem nested_openBlock {tag : Span} (h : reader.Nested s.root s.opened tag.start)
    (hle : tag.start ≤ tag.stop) (hstep : s.openBlock reader kind path tag = .next s') :
    reader.Nested s'.root s'.opened tag.stop := by
  have hnone : ∀ branch ∈ (none : Option ThenBranch), kind = .ifTrue ∧
      reader.Reads .otherwise branch.elseTag ∧
        reader.Fills tag.stop branch.pieces branch.elseTag.start := by
    intro branch hbranch
    cases hbranch
  unfold openBlock at hstep
  simp only at hstep
  split_ifs at hstep <;> cases hstep
  · exact h.mono hle
  · exact ⟨⟨hnone, Piece.fills_nil⟩, Nat.le_refl _, h⟩
  · exact ⟨⟨hnone, Piece.fills_nil⟩, Nat.le_refl _, h⟩
  · exact h.mono hle

-- Where `else` is a path, the tag is one of its spellings.
theorem nested_elsePath {tag : Span} (h : reader.Nested s.root s.opened tag.start)
    (htag : reader.Reads .otherwise tag) :
    reader.Nested (s.updateBody (·.pushNode (.placeholder ⟨"else"⟩ true) tag)).root
      (s.updateBody (·.pushNode (.placeholder ⟨"else"⟩ true) tag)).opened tag.stop := by
  have hspells := Node.Spells.placeholder (Outline.spelled_placeholder_of_otherwise htag.spelled) .nil
  rw [List.append_nil] at hspells
  exact nested_pushNode rfl hspells htag.lt.le h

theorem nested_elseTag {tag : Span} (h : reader.Nested s.root s.opened tag.start)
    (htag : reader.Reads .otherwise tag) :
    reader.Nested (s.elseTag tag).root (s.elseTag tag).opened tag.stop := by
  unfold elseTag
  split
  · next block outer hopened =>
    split_ifs with hsplits
    · rw [hopened] at h
      obtain ⟨hblock, hle, houter⟩ := h
      simp only [OpenBlock.splits, Bool.and_eq_true, decide_eq_true_eq, Option.isNone_iff_eq_none]
        at hsplits
      have hfirst := hblock.flush hle
      rw [OpenBlock.bodyStart, hsplits.2] at hfirst
      refine ⟨⟨?_, Piece.fills_nil⟩, Nat.le_refl _, houter⟩
      intro branch hbranch
      cases hbranch
      exact ⟨hsplits.1, htag, hfirst⟩
    · exact nested_elsePath h htag
  · exact nested_elsePath h htag

theorem nested_closeBlock {tag : Span} (hopened : s.opened = block :: outer)
    (h : reader.Nested s.root s.opened tag.start)
    (hopener : reader.Reads (.opener block.kind block.path) block.tag)
    (hcloser : reader.Reads (.closer block.kind) tag) :
    reader.Nested (s.closeBlock reader block outer tag).root (s.closeBlock reader block outer tag).opened
      tag.stop := by
  rw [hopened] at h
  obtain ⟨hblock, hle, houter⟩ := h
  have houter : reader.Nested ({ s with opened := outer } : State).root
    ({ s with opened := outer } : State).opened block.tag.start := houter
  have htag := hopener.lt.le
  have hend := hcloser.lt.le
  unfold closeBlock
  split_ifs with hdeep
  · refine houter.updateBody fun start around haround hstart => ⟨?_, hend⟩
    exact hblock.fills_dissolve hle htag haround hstart
  · have hspan : block.tag.start ≤ tag.stop := htag.trans (hblock.tag_stop_le.trans (hle.trans hend))
    refine nested_pushNode ?_ (hblock.spells_toNode hle hopener hcloser) hspan houter
    unfold OpenBlock.toNode
    split <;> rfl

theorem nested_strayCloser {tag : Span} {spelling : List Char}
    (h : reader.Nested s.root s.opened tag.start) (hle : tag.start ≤ tag.stop)
    (hstep : s.strayCloser reader tag spelling = .next s') :
    reader.Nested s'.root s'.opened tag.stop := by
  unfold strayCloser at hstep
  split_ifs at hstep
  cases hstep
  exact h.mono hle

theorem nested_onTag {tag : Tag} {spelling : List Char} {span : Span}
    (hstep : s.onTag reader tag spelling span = .next s')
    (h : reader.Nested s.root s.opened span.start) (htag : reader.Reads tag span)
    (hopener : ∀ block ∈ s.opened, reader.Reads (.opener block.kind block.path) block.tag) :
    reader.Nested s'.root s'.opened span.stop := by
  cases tag with
  | placeholder path escaped =>
      cases hstep
      have hspells := Node.Spells.placeholder htag.spelled .nil
      rw [List.append_nil] at hspells
      exact nested_pushNode rfl hspells htag.lt.le h
  | opener kind path => exact nested_openBlock h htag.lt.le hstep
  | otherwise =>
      cases hstep
      exact nested_elseTag h htag
  | closer kind =>
      simp only [onTag] at hstep
      split at hstep
      · next block outer hopened =>
        split_ifs at hstep with hkind
        · cases hstep
          subst hkind
          exact nested_closeBlock hopened h (hopener block (by simp [hopened])) htag
        · exact nested_strayCloser h htag.lt.le hstep
      · exact nested_strayCloser h htag.lt.le hstep

theorem Inv.nested_step (inv : s.Inv reader frames cur) (h : reader.Nested s.root s.opened s.pos)
    (hstep : s.step reader = .next s') : reader.Nested s'.root s'.opened s'.pos := by
  have hopener := inv.reads_opener
  rcases inv.next_cases hstep with ⟨tag, width, hscan, htag⟩ | ⟨-, rfl⟩ | ⟨block, outer, -, hopened, rfl⟩
  · have hpos : s'.pos = s.pos + width := (move_onTag htag).2.1
    rw [hpos]
    exact nested_onTag htag h ⟨width, hscan, rfl⟩ hopener
  · exact h.mono (Nat.le_succ _)
  · rw [hopened] at h
    exact h.2.2.mono (hopener block (by simp [hopened])).lt.le

theorem Course.nested {visited : List State} {result : Except ParseError (List Node)}
    (hcourse : Course reader s visited result) (inv : s.Inv reader frames cur)
    (h : reader.Nested s.root s.opened s.pos) :
    ∀ s' ∈ visited, reader.Nested s'.root s'.opened s'.pos := by
  have hboth : ∀ s' ∈ visited, (∃ frames' cur', s'.Inv reader frames' cur') ∧
      reader.Nested s'.root s'.opened s'.pos := by
    refine hcourse.forall_mem ?_ ⟨⟨frames, cur, inv⟩, h⟩
    rintro s s' ⟨⟨frames, cur, inv⟩, h⟩ hstep
    exact ⟨inv.step hstep, inv.nested_step h hstep⟩
  exact fun s' hs' => (hboth s' hs').2

theorem nested_start (reader : Reader) (tokens : List Token) :
    reader.Nested (start tokens).root (start tokens).opened (start tokens).pos :=
  ⟨Piece.fills_nil, Nat.le_refl 0⟩

end State

end Stencil

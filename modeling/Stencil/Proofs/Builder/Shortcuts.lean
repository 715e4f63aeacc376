import Stencil.Proofs.Builder.LookAhead
import Stencil.Proofs.Builder.Rewinds

namespace Stencil

namespace State

-- The opener at the place of the state is not tried as a block: it was given up before, or no closing tag of
-- its kind can be read behind it.
def TurnsDown (reader : Reader) (s : State) (kind : BlockKind) (stop : Nat) : Prop :=
  s.pos ∈ s.unclosed ∨
    ∀ offset width, reader.scanAt? offset = some (.closer kind, width) → offset < stop

-- What is done with openers and blocks is what the plain reading of each opener on its own asks for.
structure Fair (reader : Reader) (s : State) : Prop where
  unclosable : ∀ offset ∈ s.unclosed, reader.Unclosable offset
  waiting : ∀ block ∈ s.opened,
    reader.Reads (.opener block.kind block.path) block.tag ∧ block.tag.start ∉ s.unclosed
  turnedDown : ∀ kind path width, reader.scanAt? s.pos = some (.opener kind path, width) →
    s.TurnsDown reader kind (s.pos + width) →
      reader.Unclosable s.pos ∧
        ∃ s', s.step reader = .next s' ∧ s'.opened = s.opened ∧ s.pos ∈ s'.unclosed
  takenUp : ∀ kind path width, reader.scanAt? s.pos = some (.opener kind path, width) →
    ¬s.TurnsDown reader kind (s.pos + width) →
      ∃ s' block, s.step reader = .next s' ∧ s'.opened = block :: s.opened ∧
        block.kind = kind ∧ block.path = path ∧ block.tag = ⟨s.pos, s.pos + width⟩
  closed : ∀ block outer s', s.opened = block :: outer → s.step reader = .next s' →
    s'.opened.length = outer.length → s.pos < reader.source.size →
      reader.Reads (.closer block.kind) ⟨s.pos, s'.pos⟩ ∧
        (reader.readBody block.kind block.tag.stop).closer =
          some (Piece.slice reader.source s.pos s'.pos, s'.pos)

variable {reader : Reader} {s s' : State} {frames : List Frame} {cur : Outline} {block : OpenBlock}
  {outer : List OpenBlock} {kind : BlockKind} {path : Path} {width : Nat} {tokens : List Token}

theorem turnsDown_ofText_iff {options : Options} {text : List Char} {stop : Nat} :
    s.TurnsDown (Reader.ofText options text) kind stop ↔
      s.pos ∈ s.unclosed ∨ (Reader.ofText options text).closers.reaches kind stop = false := by
  rw [TurnsDown, ← Bool.not_eq_true, Reader.reaches_ofText_iff]
  simp only [not_exists, not_and, ← not_le, imp_not_comm]

section Opener

variable (inv : s.Inv reader frames cur) (hlenient : reader.options.strict = false)
  (hscan : reader.scanAt? s.pos = some (.opener kind path, width))
include inv hlenient hscan

theorem Inv.turnedDown
    (hdown : s.pos ∈ s.unclosed ∨ reader.closers.reaches kind (s.pos + width) = false) :
    reader.Unclosable s.pos ∧
      ∃ s', s.step reader = .next s' ∧ s'.opened = s.opened ∧ s.pos ∈ s'.unclosed := by
  rw [step_tag inv.toPlaced hscan]
  by_cases hknown : s.pos ∈ s.unclosed
  · refine ⟨(inv.unclosable _ hknown).2, s.moveTo reader (s.pos + width), ?_, rfl, hknown⟩
    have hcontains : s.unclosed.contains s.pos = true := hknown
    simp [onTag, openBlock, moveTo, hcontains]
  · have hreaches := hdown.resolve_left hknown
    have hcloser : (reader.readBody kind (s.pos + width)).closer = none := by
      by_contra hne
      obtain ⟨found, hfound⟩ := Option.ne_none_iff_exists'.mp hne
      have hclosed := Reader.reaches_of_closed (inv.passes.skip_tag hscan) hfound
      exact absurd hclosed (by simp [hreaches])
    refine ⟨⟨kind, path, width, hscan, hcloser⟩,
      { s.moveTo reader (s.pos + width) with unclosed := s.unclosed.insert s.pos }, ?_, rfl,
      mem_insert_iff.mpr (.inl rfl)⟩
    have hcontains : s.unclosed.contains s.pos = false := Bool.eq_false_iff.mpr hknown
    simp [onTag, openBlock, moveTo, hcontains, hlenient, hreaches]

theorem Inv.takenUp (hknown : s.pos ∉ s.unclosed)
    (hreaches : reader.closers.reaches kind (s.pos + width) = true) :
    ∃ s' block, s.step reader = .next s' ∧ s'.opened = block :: s.opened ∧
      block.kind = kind ∧ block.path = path ∧ block.tag = ⟨s.pos, s.pos + width⟩ := by
  have hcontains : s.unclosed.contains s.pos = false := Bool.eq_false_iff.mpr hknown
  rw [step_tag inv.toPlaced hscan]
  simp only [onTag, openBlock, moveTo, hcontains, hlenient, hreaches, Bool.false_eq_true, if_false,
    if_true]
  exact ⟨_, _, rfl, rfl, rfl, rfl, rfl⟩

end Opener

section Closer

@[simp] theorem length_opened_updateBody (s : State) (change : Draft → Draft) :
    (s.updateBody change).opened.length = s.opened.length := by
  unfold updateBody
  split
  · rfl
  · next h => simp [h]

theorem length_opened_elseTag (s : State) (tag : Span) : (s.elseTag tag).opened.length = s.opened.length := by
  unfold elseTag
  split
  · next h =>
    split_ifs
    · simp [h]
    · exact length_opened_updateBody s _
  · exact length_opened_updateBody s _

-- Only the closing tag of the innermost block takes a block from the stack.
theorem length_opened_onTag {tag : Tag} {spelling : List Char} {span : Span}
    (h : s.onTag reader tag spelling span = .next s')
    (hother : ∀ block ∈ s.opened.head?, tag ≠ .closer block.kind) :
    s.opened.length ≤ s'.opened.length := by
  have hstray : s.strayCloser reader span spelling = .next s' → s.opened.length ≤ s'.opened.length := by
    intro h
    unfold strayCloser at h
    split_ifs at h
    cases h
    exact Nat.le_refl _
  unfold onTag at h
  split at h
  · cases h
    exact (length_opened_updateBody s _).ge
  · unfold openBlock at h
    simp only at h
    split_ifs at h <;> cases h <;> simp
  · cases h
    exact (length_opened_elseTag s span).ge
  · next kind =>
    split at h
    · next block outer hopened =>
      split_ifs at h with hkind
      · subst hkind
        exact absurd rfl (hother block (by simp [hopened]))
      · exact hstray h
    · exact hstray h

theorem Inv.closed (inv : s.Inv reader frames cur) (hopened : s.opened = block :: outer)
    (hstep : s.step reader = .next s') (hlength : s'.opened.length = outer.length)
    (hpos : s.pos < reader.source.size) :
    reader.Reads (.closer block.kind) ⟨s.pos, s'.pos⟩ ∧
      (reader.readBody block.kind block.tag.stop).closer =
        some (Piece.slice reader.source s.pos s'.pos, s'.pos) := by
  have hshorter : ¬s.opened.length ≤ s'.opened.length := by simp [hopened, hlength]
  rcases inv.next_cases hstep with ⟨tag, width, hscan, htag⟩ | ⟨-, rfl⟩ | ⟨_, _, hend, -, -⟩
  · have hcloser : tag = .closer block.kind := by
      by_contra hne
      have hle : (s.moveTo reader (s.pos + width)).opened.length ≤ s'.opened.length :=
        length_opened_onTag htag (by simpa [moveTo, hopened] using hne)
      exact hshorter hle
    subst hcloser
    have hpos' : s'.pos = s.pos + width := (move_onTag htag).2.1
    obtain ⟨frame, rest, rfl, hblock, -⟩ := (hopened ▸ inv.holds).of_cons
    rw [hpos']
    exact ⟨⟨width, hscan, rfl⟩, hblock.closer_readBody hscan⟩
  · exact absurd (Nat.le_refl _) hshorter
  · exact absurd hend hpos.ne

end Closer

theorem Inv.fair {options : Options} {text : List Char} (hlenient : options.strict = false)
    (inv : s.Inv (Reader.ofText options text) frames cur) (hsound : s.Sound tokens) :
    s.Fair (Reader.ofText options text) := by
  have hreads := inv.reads_opener
  constructor
  · exact fun offset hoffset => (inv.unclosable offset hoffset).2
  · exact fun block hblock => ⟨hreads block hblock, hsound.start_notMem hblock⟩
  · intro kind path width hscan hdown
    exact inv.turnedDown hlenient hscan (turnsDown_ofText_iff.mp hdown)
  · intro kind path width hscan hnot
    rw [turnsDown_ofText_iff, not_or, Bool.not_eq_false] at hnot
    exact inv.takenUp hlenient hscan hnot.1 hnot.2
  · intro block outer s' hopened hstep hlength hpos
    exact inv.closed hopened hstep hlength hpos

end State

namespace Node

-- Lenient reading turns down no opener that could be closed, and ends each block at the tag that ends it when it is
-- read alone.
theorem parse_shortcuts_fair {options : Options} (hlenient : options.strict = false) (text : List Char) :
    ∃ visited, State.Course (Reader.ofText options text)
        (.start (Token.ofText options.allowPadding text)) visited (parse options text) ∧
      ∀ s ∈ visited, s.Fair (Reader.ofText options text) := by
  obtain ⟨visited, hcourse⟩ := State.course_run (Reader.ofText options text)
    (.start (Token.ofText options.allowPadding text))
  refine ⟨visited, hcourse, ?_⟩
  have hinv := hcourse.forall_inv (Reader.inv_start options text)
  have hsound := hcourse.forall_mem
    (fun h hstep => h.step (fun _ => Token.width_pos_of_mem_ofText) hstep)
    (State.sound_start (Token.ofText options.allowPadding text))
  intro s hs
  obtain ⟨frames, cur, inv⟩ := hinv s hs
  exact inv.fair hlenient (hsound s hs)

-- The only closing tag is of another kind, so the opener is remembered at once.
theorem parse_shortcuts_fair_foreign_closer :
    (Reader.ofText {} (openerText .ifTrue ⟨"b"⟩ ++ closerText .each).toList).Unclosable 0 ∧
      ∃ s', (State.start (Token.ofText false (openerText .ifTrue ⟨"b"⟩ ++ closerText .each).toList)).step
          (Reader.ofText {} (openerText .ifTrue ⟨"b"⟩ ++ closerText .each).toList) = .next s' ∧
        s'.opened = [] ∧ 0 ∈ s'.unclosed := by
  have hlenient : ({} : Options).strict = false := rfl
  obtain ⟨visited, hcourse, hfair⟩ :=
    parse_shortcuts_fair hlenient (openerText .ifTrue ⟨"b"⟩ ++ closerText .each).toList
  obtain ⟨later, rfl⟩ := hcourse.exists_cons
  refine (hfair _ List.mem_cons_self).turnedDown .ifTrue ⟨"b"⟩ 9 (by decide) ?_
  exact State.turnsDown_ofText_iff.mpr (.inr (by with_unfolding_all rfl))

end Node

end Stencil

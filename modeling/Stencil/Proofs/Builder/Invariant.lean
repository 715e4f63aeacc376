import Stencil.Proofs.Builder.Closing

namespace Stencil

namespace Frame

-- All that was read so far fits, which is what strict reading has made sure of.
def AllFit (limit : Nat) : List Frame → Outline → Prop
  | [], cur => cur.Fits limit
  | frame :: frames, cur =>
    cur.Fits (limit - (frames.length + 1)) ∧ frame.first.Fits (limit - (frames.length + 1)) ∧
      frames.length < limit ∧ AllFit limit frames frame.before

variable {limit : Nat} {frames : List Frame} {cur more : Outline}

theorem AllFit.append (h : AllFit limit frames cur) (hmore : more.Fits (limit - frames.length)) :
    AllFit limit frames (cur ++ more) := by
  cases frames with
  | nil => exact Outline.fits_append.mpr ⟨h, hmore⟩
  | cons frame frames =>
      obtain ⟨hcur, hrest⟩ := h
      exact ⟨Outline.fits_append.mpr ⟨hcur, hmore⟩, hrest⟩

end Frame

namespace Reader

-- At this offset stands an opener which, read on its own, finds no closing tag.
def Unclosable (reader : Reader) (offset : Nat) : Prop :=
  ∃ kind path width, reader.scanAt? offset = some (.opener kind path, width) ∧
    (reader.readBody kind (offset + width)).closer = none

-- The answer that the plain reading of the whole source asks for.
def Answers (reader : Reader) : Except ParseError (List Node) → Prop
  | .ok nodes =>
    nodes = ((reader.readFrom none false 0).body.limit reader.options.maxDepth).toNodes ∧
      (reader.options.strict = true →
        (reader.readFrom none false 0).body.Fits reader.options.maxDepth)
  | .error _ =>
    reader.options.strict = true ∧
      ¬(reader.readFrom none false 0).body.Fits reader.options.maxDepth

end Reader

namespace State

-- The state is at the start of a token, and what it remembers of openers is right. Strict reading never
-- has to remember one.
structure Placed (reader : Reader) (s : State) : Prop where
  rest_eq : s.rest = reader.tokens s.pos
  pos_le : s.pos ≤ reader.source.size
  passes : reader.Passes s.pos
  unclosable : ∀ offset ∈ s.unclosed, reader.options.strict = false ∧ reader.Unclosable offset

structure Inv (reader : Reader) (s : State) (frames : List Frame) (cur : Outline) : Prop
    extends s.Placed reader where
  holds : reader.Holds s.root s.opened frames cur s.pos
  fits : reader.options.strict = true → Frame.AllFit reader.options.maxDepth frames cur

-- The state with reading gone on to an offset.
def moveTo (reader : Reader) (s : State) (offset : Nat) : State :=
  { s with pos := offset, rest := reader.tokens offset }

variable {reader : Reader} {s s' : State} {frames : List Frame} {cur more : Outline}
  {pos width : Nat} {tag : Tag}

@[simp] theorem updateBody_id (s : State) : s.updateBody id = s := by
  unfold updateBody
  split
  · rfl
  · next h => simp [← h]

@[simp] theorem pos_updateBody (s : State) (change : Draft → Draft) :
    (s.updateBody change).pos = s.pos := by
  unfold updateBody
  split <;> rfl

@[simp] theorem rest_updateBody (s : State) (change : Draft → Draft) :
    (s.updateBody change).rest = s.rest := by
  unfold updateBody
  split <;> rfl

@[simp] theorem unclosed_updateBody (s : State) (change : Draft → Draft) :
    (s.updateBody change).unclosed = s.unclosed := by
  unfold updateBody
  split <;> rfl

theorem unclosable_insert {unclosed : Std.TreeSet Nat} {remembered : Nat → Prop}
    (h : ∀ offset ∈ unclosed, remembered offset) (hnew : remembered pos) :
    ∀ offset ∈ unclosed.insert pos, remembered offset := by
  intro offset hoffset
  rcases Std.TreeSet.mem_insert.mp hoffset with heq | hmem
  · rw [Nat.compare_eq_eq] at heq
    exact heq ▸ hnew
  · exact h offset hmem

theorem Placed.moveTo (placed : s.Placed reader) (hsize : pos ≤ reader.source.size)
    (hpasses : reader.Passes pos) : (s.moveTo reader pos).Placed reader :=
  ⟨rfl, hsize, hpasses, placed.unclosable⟩

-- The innermost body has gone on from `pos` to where the state is.
theorem Placed.inv_updateBody {change : Draft → Draft} (placed : s.Placed reader)
    (hholds : reader.Holds s.root s.opened frames cur pos)
    (hread : reader.readTop s.opened pos = (reader.readTop s.opened s.pos).prepend more)
    (hdraft : ∀ start nodes draft, draft.Shows reader.source start pos nodes →
      (change draft).Shows reader.source start s.pos
        (nodes ++ (more.limit (reader.options.maxDepth - s.opened.length)).nodes))
    (hfits : reader.options.strict = true →
      Frame.AllFit reader.options.maxDepth frames (cur ++ more)) :
    (s.updateBody change).Inv reader frames (cur ++ more) := by
  constructor
  · constructor
    · simpa using placed.rest_eq
    · simpa using placed.pos_le
    · simpa using placed.passes
    · simpa using placed.unclosable
  · rw [pos_updateBody]
    exact hholds.updateBody hread hdraft
  · exact hfits

section Step

theorem step_end (placed : s.Placed reader) (hend : s.pos = reader.source.size) :
    s.step reader = s.onEnd reader := by
  have hrest : s.rest = [] := by rw [placed.rest_eq, Reader.tokens_end hend.ge]
  rw [step, hrest]

theorem step_tag (placed : s.Placed reader)
    (hscan : reader.scanAt? s.pos = some (tag, width)) :
    s.step reader = (s.moveTo reader (s.pos + width)).onTag reader tag
      (Piece.slice reader.source s.pos (s.pos + width)) ⟨s.pos, s.pos + width⟩ := by
  have hsize := Reader.le_size_of_scanAt? hscan
  have hwidth : (Piece.slice reader.source s.pos (s.pos + width)).length = width := by
    simp only [Piece.slice, Array.length_toList, Array.size_extract]
    omega
  have hrest := placed.rest_eq
  rw [Reader.tokens_tag hscan] at hrest
  rw [step, hrest]
  simp only [skip, moveTo, Token.width, Token.spelling, hwidth]

theorem step_literal (placed : s.Placed reader) {c : Char} {behind : List Char}
    (hrest : reader.rest s.pos = c :: behind) (hscan : reader.scanAt? s.pos = none) :
    s.step reader =
      if c = '{' ∧ behind.head? = some '{' ∧ reader.options.strict = true then
        .failed (reader.locate s.pos (.invalidTag (reader.quote s.pos)))
      else .next (s.moveTo reader (s.pos + 1)) := by
  have hstate := placed.rest_eq
  rw [Reader.tokens_literal hrest hscan] at hstate
  rw [step, hstate]
  by_cases hbrace : c = '{' ∧ behind.head? = some '{'
  · simp [hbrace, skip, moveTo, Token.width, Token.spelling]
  · have hbrace' : (c = '{' && behind.head? = some '{') = false := by simpa using hbrace
    have hnot : ¬(c = '{' ∧ behind.head? = some '{' ∧ reader.options.strict = true) :=
      fun h => hbrace ⟨h.1, h.2.1⟩
    rw [if_neg hnot]
    simp [hbrace', skip, moveTo, Token.width, Token.spelling]

-- A step that goes on takes up a tag or a character, or gives up the innermost block at the end.
theorem Placed.next_cases (placed : s.Placed reader) (hstep : s.step reader = .next s') :
    (∃ tag width, reader.scanAt? s.pos = some (tag, width) ∧
      (s.moveTo reader (s.pos + width)).onTag reader tag
        (Piece.slice reader.source s.pos (s.pos + width)) ⟨s.pos, s.pos + width⟩ = .next s') ∨
      (s.pos < reader.source.size ∧ s' = s.moveTo reader (s.pos + 1)) ∨
        ∃ block outer, s.pos = reader.source.size ∧ s.opened = block :: outer ∧
          s' = s.abandon block outer := by
  cases hrest : reader.rest s.pos with
  | nil =>
      have hend : s.pos = reader.source.size :=
        Nat.le_antisymm placed.pos_le (Reader.rest_eq_nil_iff.mp hrest)
      rw [step_end placed hend] at hstep
      unfold onEnd at hstep
      split at hstep
      · cases hstep
      · next block outer hopened =>
        split_ifs at hstep
        cases hstep
        exact .inr (.inr ⟨block, outer, hend, hopened, rfl⟩)
  | cons c behind =>
      cases hscan : reader.scanAt? s.pos with
      | none =>
          have hlt : s.pos < reader.source.size := by
            by_contra hge
            rw [Reader.rest_eq_nil_iff.mpr (not_lt.mp hge)] at hrest
            cases hrest
          rw [step_literal placed hrest hscan] at hstep
          split_ifs at hstep
          cases hstep
          exact .inr (.inl ⟨hlt, rfl⟩)
      | some found =>
          obtain ⟨tag, width⟩ := found
          rw [step_tag placed hscan] at hstep
          exact .inl ⟨tag, width, rfl, hstep⟩

end Step

end State

end Stencil

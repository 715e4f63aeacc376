import Stencil.Proofs.Builder.Course
import Mathlib.Data.Finset.Card

namespace Stencil

namespace Token

-- Where the openers start among tokens of which the first starts at `start`.
def openerStarts (start : Nat) : List Token → List Nat
  | [] => []
  | token :: rest =>
    if token.isOpener then start :: openerStarts (start + token.width) rest
    else openerStarts (start + token.width) rest

theorem length_openerStarts (start : Nat) (tokens : List Token) :
    (openerStarts start tokens).length = tokens.countP isOpener := by
  induction tokens generalizing start with
  | nil => rfl
  | cons token rest ih =>
      cases hopener : token.isOpener <;> simp [openerStarts, hopener, ih]

theorem mem_openerStarts_append {token : Token} (hopener : token.isOpener = true) (start : Nat)
    (passed rest : List Token) :
    start + (passed.flatMap spelling).length ∈ openerStarts start (passed ++ token :: rest) := by
  induction passed generalizing start with
  | nil => simp [openerStarts, hopener]
  | cons first passed ih =>
      have hmem := ih (start + first.width)
      rw [width, Nat.add_assoc, ← List.length_append, ← List.flatMap_cons] at hmem
      simp only [List.cons_append, openerStarts]
      split_ifs
      · exact List.mem_cons_of_mem _ hmem
      · exact hmem

theorem Behind.mem_openerStarts {tokens rest : List Token} {token : Token} {offset : Nat}
    (h : Behind tokens offset (token :: rest)) (hopener : token.isOpener = true) :
    offset ∈ openerStarts 0 tokens := by
  obtain ⟨passed, rfl, rfl⟩ := h
  simpa using mem_openerStarts_append hopener 0 passed rest

end Token

namespace State

-- The openers of these blocks stand one behind the other, the innermost last, all of them in front of `stop`
-- and none of them known to be unclosed.
def Stacked (tokens : List Token) (unclosed : Std.TreeSet Nat) : Nat → List (Span × List Token) → Prop
  | _, [] => True
  | stop, (tag, after) :: outer =>
    tag.stop ≤ stop ∧ tag.start ∉ unclosed ∧
      (∃ opener : Token, opener.isOpener = true ∧ Token.Behind tokens tag.start (opener :: after) ∧
        tag.stop = tag.start + opener.width) ∧
      Stacked tokens unclosed tag.start outer

-- Reading stands in front of the rest of the tokens, and can go back to any of the blocks that wait.
structure Sound (tokens : List Token) (s : State) : Prop where
  behind : Token.Behind tokens s.pos s.rest
  stacked : Stacked tokens s.unclosed s.pos s.waiting

variable {reader : Reader} {tokens : List Token} {unclosed : Std.TreeSet Nat} {stop offset : Nat}
  {waiting : List (Span × List Token)} {s s' : State} {visited : List State}
  {result : Except ParseError (List Node)}

theorem mem_insert_iff {other : Nat} :
    other ∈ unclosed.insert offset ↔ other = offset ∨ other ∈ unclosed := by
  rw [Std.TreeSet.mem_insert, Nat.compare_eq_eq, eq_comm]

theorem Stacked.mono {stop' : Nat} (h : Stacked tokens unclosed stop waiting) (hle : stop ≤ stop') :
    Stacked tokens unclosed stop' waiting := by
  cases waiting with
  | nil => trivial
  | cons block outer =>
      obtain ⟨hstop, hrest⟩ := h
      exact ⟨hstop.trans hle, hrest⟩

theorem Stacked.notMem (h : Stacked tokens unclosed stop waiting) :
    ∀ block ∈ waiting, block.1.start ∉ unclosed := by
  induction waiting generalizing stop with
  | nil => simp
  | cons block outer ih =>
      obtain ⟨-, hnew, -, houter⟩ := h
      exact List.forall_mem_cons.mpr ⟨hnew, ih houter⟩

section Wide

variable (hwide : ∀ token ∈ tokens, 0 < token.width)
include hwide

-- What starts behind the waiting blocks can be remembered.
theorem Stacked.insert (h : Stacked tokens unclosed stop waiting) (hle : stop ≤ offset) :
    Stacked tokens (unclosed.insert offset) stop waiting := by
  induction waiting generalizing stop with
  | nil => trivial
  | cons block outer ih =>
      obtain ⟨hstop, hnew, ⟨opener, hopener, hbehind, hwidth⟩, houter⟩ := h
      have hpos := hwide opener hbehind.mem
      refine ⟨hstop, ?_, ⟨opener, hopener, hbehind, hwidth⟩, ih houter (by omega)⟩
      rw [mem_insert_iff, not_or]
      exact ⟨by omega, hnew⟩

theorem Sound.past {token : Token} (h : Sound tokens s) (hpast : Past token s s') : Sound tokens s' := by
  have hbehind := h.behind
  rw [hpast.rest_eq] at hbehind
  have hle : s.pos ≤ s'.pos := by rw [hpast.pos_eq]; omega
  refine ⟨hpast.pos_eq ▸ hbehind.skip, ?_⟩
  cases hpast.move with
  | keep hwaiting hunclosed =>
      rw [hwaiting, hunclosed]
      exact h.stacked.mono hle
  | close block hwaiting hunclosed =>
      obtain ⟨hstop, -, ⟨opener, -, -, hwidth⟩, houter⟩ := hwaiting ▸ h.stacked
      rw [hunclosed]
      exact houter.mono (by omega)
  | push hopener hnew hwaiting hunclosed =>
      rw [hwaiting, hunclosed]
      exact ⟨Nat.le_refl _, hnew, ⟨token, hopener, hbehind, hpast.pos_eq⟩, h.stacked⟩
  | remember hopener hnew hwaiting hunclosed =>
      rw [hwaiting, hunclosed]
      exact (h.stacked.insert hwide (Nat.le_refl _)).mono hle

theorem Sound.abandon {block : OpenBlock} {outer : List OpenBlock} (h : Sound tokens s)
    (hopened : s.opened = block :: outer) : Sound tokens (s.abandon block outer) := by
  have hstacked := h.stacked
  rw [waiting, hopened] at hstacked
  obtain ⟨-, -, ⟨opener, -, hbehind, hwidth⟩, houter⟩ := hstacked
  refine ⟨?_, (houter.insert hwide (Nat.le_refl _)).mono (Nat.le.intro hwidth.symm)⟩
  have hskip := hbehind.skip
  rw [← hwidth] at hskip
  exact hskip

theorem Sound.step (h : Sound tokens s) (hstep : s.step reader = .next s') : Sound tokens s' := by
  rcases step_cases hstep with ⟨token, hpast⟩ | ⟨block, outer, -, hopened, -, rfl⟩
  · exact h.past hwide hpast
  · exact h.abandon hwide hopened

end Wide

-- Nothing that is known of an opener is forgotten.
theorem mem_unclosed_of_step (hstep : s.step reader = .next s') (h : offset ∈ s.unclosed) :
    offset ∈ s'.unclosed := by
  rcases step_cases hstep with ⟨token, hpast⟩ | ⟨block, outer, -, -, -, rfl⟩
  · cases hpast.move with
    | keep _ hunclosed => exact hunclosed ▸ h
    | close _ _ hunclosed => exact hunclosed ▸ h
    | push _ _ _ hunclosed => exact hunclosed ▸ h
    | remember _ _ _ hunclosed => exact hunclosed ▸ mem_insert_iff.mpr (.inr h)
  · exact mem_insert_iff.mpr (.inr h)

-- Where the opener starts that this turn gives up.
def givenUp? (reader : Reader) (s : State) : Option Nat :=
  match s.rest, s.opened with
  | [], block :: _ => if reader.options.strict then none else some block.tag.start
  | _, _ => none

-- One turn gives up the innermost block, of whose opener nothing was known, or goes forward.
def Turn (reader : Reader) (s s' : State) : Prop :=
  match s.givenUp? reader with
  | some offset =>
    offset ∉ s.unclosed ∧ (∀ other, other ∈ s'.unclosed ↔ other = offset ∨ other ∈ s.unclosed) ∧
      ∃ block outer, s.opened = block :: outer ∧ block.tag.start = offset ∧ s' = s.abandon block outer
  | none => s.pos < s'.pos ∧ ∀ offset ∈ s.unclosed, offset ∈ s'.unclosed

theorem givenUp?_of_past {token : Token} (h : Past token s s') : s.givenUp? reader = none := by
  simp [givenUp?, h.rest_eq]

theorem givenUp?_of_end {block : OpenBlock} {outer : List OpenBlock} (hrest : s.rest = [])
    (hopened : s.opened = block :: outer) (hlenient : reader.options.strict = false) :
    s.givenUp? reader = some block.tag.start := by
  simp [givenUp?, hrest, hopened, hlenient]

theorem exists_of_givenUp? (h : s.givenUp? reader = some offset) :
    ∃ block outer, s.opened = block :: outer ∧ block.tag.start = offset ∧
      s.step reader = .next (s.abandon block outer) := by
  unfold givenUp? at h
  split at h
  · next block outer hrest hopened =>
    split_ifs at h with hstrict
    cases h
    refine ⟨block, outer, hopened, rfl, ?_⟩
    simp [step, hrest, onEnd, hopened, hstrict]
  · cases h

-- The turn with the answer gives up nothing.
theorem givenUp?_of_stop (h : ∀ s', s.step reader ≠ .next s') : s.givenUp? reader = none := by
  by_contra hne
  obtain ⟨offset, hoffset⟩ := Option.ne_none_iff_exists'.mp hne
  obtain ⟨block, outer, -, -, hstep⟩ := exists_of_givenUp? hoffset
  exact h _ hstep

theorem Sound.start_notMem (h : Sound tokens s) {block : OpenBlock} (hblock : block ∈ s.opened) :
    block.tag.start ∉ s.unclosed :=
  h.stacked.notMem _ (List.mem_map_of_mem hblock)

theorem Sound.turn (hwide : ∀ token ∈ tokens, 0 < token.width) (h : Sound tokens s)
    (hstep : s.step reader = .next s') : Turn reader s s' := by
  unfold Turn
  rcases step_cases hstep with ⟨token, hpast⟩ | ⟨block, outer, hrest, hopened, hlenient, rfl⟩
  · rw [givenUp?_of_past hpast]
    have hbehind := h.behind
    rw [hpast.rest_eq] at hbehind
    have hpos := hwide token hbehind.mem
    exact ⟨by rw [hpast.pos_eq]; omega, fun _ => mem_unclosed_of_step hstep⟩
  · rw [givenUp?_of_end hrest hopened hlenient]
    have hnew : block.tag.start ∉ s.unclosed := h.start_notMem (by simp [hopened])
    exact ⟨hnew, fun _ => mem_insert_iff, block, outer, hopened, rfl, rfl⟩

-- A later turn finds the opener in the memo, and so among no blocks that wait.
theorem Course.notMem_of_mem_unclosed (hwide : ∀ token ∈ tokens, 0 < token.width)
    (hcourse : Course reader s visited result) (h : Sound tokens s) (hmem : offset ∈ s.unclosed) :
    ∀ later ∈ visited, later.givenUp? reader ≠ some offset ∧
      ∀ block ∈ later.opened, block.tag.start ≠ offset := by
  have hall : ∀ later ∈ visited, Sound tokens later ∧ offset ∈ later.unclosed :=
    hcourse.forall_mem (fun h hstep => ⟨h.1.step hwide hstep, mem_unclosed_of_step hstep h.2⟩) ⟨h, hmem⟩
  intro later hlater
  obtain ⟨hsound, hknown⟩ := hall later hlater
  have hne : ∀ block ∈ later.opened, block.tag.start ≠ offset := by
    rintro block hblock rfl
    exact hsound.start_notMem hblock hknown
  refine ⟨fun hgiven => ?_, hne⟩
  obtain ⟨block, outer, hopened, hstart, -⟩ := exists_of_givenUp? hgiven
  exact hne block (by simp [hopened]) hstart

section Course

variable (hwide : ∀ token ∈ tokens, 0 < token.width) (hcourse : Course reader s visited result)
  (h : Sound tokens s)
include hwide hcourse h

theorem Course.isChain : visited.IsChain (Turn reader) := by
  induction hcourse with
  | done _ => exact .singleton _
  | failed _ => exact .singleton _
  | next hstep hrest ih =>
      obtain ⟨later, rfl⟩ := hrest.exists_cons
      exact .cons_cons (h.turn hwide hstep) (ih (h.step hwide hstep))

theorem Course.pairwise :
    visited.Pairwise fun s later => ∀ offset ∈ s.givenUp? reader,
      later.givenUp? reader ≠ some offset ∧ ∀ block ∈ later.opened, block.tag.start ≠ offset := by
  induction hcourse with
  | done _ => exact List.pairwise_singleton _ _
  | failed _ => exact List.pairwise_singleton _ _
  | next hstep hrest ih =>
      have hnext := h.step hwide hstep
      refine List.pairwise_cons.mpr ⟨?_, ih hnext⟩
      intro later hlater offset hgiven
      have hturn := h.turn hwide hstep
      rw [Turn, Option.mem_def.mp hgiven] at hturn
      have hmem := (hturn.2.1 offset).mpr (.inl rfl)
      exact hrest.notMem_of_mem_unclosed hwide hnext hmem later hlater

end Course

-- The openers that may still be given up.
def untried (tokens : List Token) (unclosed : Std.TreeSet Nat) : Finset Nat :=
  (Token.openerStarts 0 tokens).toFinset.filter (· ∉ unclosed)

theorem card_untried_le (tokens : List Token) (unclosed : Std.TreeSet Nat) :
    (untried tokens unclosed).card ≤ tokens.countP Token.isOpener := by
  rw [← Token.length_openerStarts 0 tokens]
  exact (Finset.card_filter_le _ _).trans (List.toFinset_card_le _)

theorem untried_subset {unclosed' : Std.TreeSet Nat} (h : ∀ offset ∈ unclosed, offset ∈ unclosed') :
    untried tokens unclosed' ⊆ untried tokens unclosed :=
  Finset.monotone_filter_right _ fun offset _ hnew hmem => hnew (h offset hmem)

theorem card_untried_insert_lt (hstart : offset ∈ Token.openerStarts 0 tokens) (hnew : offset ∉ unclosed) :
    (untried tokens (unclosed.insert offset)).card < (untried tokens unclosed).card := by
  refine Finset.card_lt_card (Finset.ssubset_iff_subset_ne.mpr ⟨untried_subset ?_, ?_⟩)
  · exact fun other hother => mem_insert_iff.mpr (.inr hother)
  · intro heq
    have hmem : offset ∈ untried tokens unclosed := by simp [untried, hstart, hnew]
    rw [← heq] at hmem
    exact (Finset.mem_filter.mp hmem).2 (mem_insert_iff.mpr (.inl rfl))

-- Going back leaves one opener less to give up, and going forward one token less to read.
theorem Sound.measure (h : Sound tokens s) (hstep : s.step reader = .next s') :
    (s.givenUp? reader = none ∧ (untried tokens s'.unclosed).card ≤ (untried tokens s.unclosed).card ∧
        s'.rest.length < s.rest.length) ∨
      ((s.givenUp? reader).isSome = true ∧
        (untried tokens s'.unclosed).card < (untried tokens s.unclosed).card ∧
        s'.rest.length ≤ tokens.length) := by
  have hle : (untried tokens s'.unclosed).card ≤ (untried tokens s.unclosed).card :=
    Finset.card_le_card (untried_subset fun _ => mem_unclosed_of_step hstep)
  rcases step_cases hstep with ⟨token, hpast⟩ | ⟨block, outer, hrest, hopened, hlenient, rfl⟩
  · exact .inl ⟨givenUp?_of_past hpast, hle, by simp [hpast.rest_eq]⟩
  · have hstacked := h.stacked
    rw [waiting, hopened] at hstacked
    obtain ⟨-, hnew, ⟨opener, hopener, hbehind, -⟩, -⟩ := hstacked
    have hlength := hbehind.skip.length_le
    refine .inr ⟨by rw [givenUp?_of_end hrest hopened hlenient]; rfl, ?_, hlength⟩
    exact card_untried_insert_lt (hbehind.mem_openerStarts hopener) hnew

section Bounds

variable (hwide : ∀ token ∈ tokens, 0 < token.width) (hcourse : Course reader s visited result)
  (h : Sound tokens s)
include hwide hcourse h

theorem Course.rewinds_le :
    (visited.filterMap (givenUp? reader)).length ≤ (untried tokens s.unclosed).card := by
  induction hcourse with
  | done hstep =>
      rw [List.filterMap_cons_none (givenUp?_of_stop (by simp [hstep]))]
      exact Nat.zero_le _
  | failed hstep =>
      rw [List.filterMap_cons_none (givenUp?_of_stop (by simp [hstep]))]
      exact Nat.zero_le _
  | next hstep hrest ih =>
      have hlater := ih (h.step hwide hstep)
      rcases h.measure hstep with ⟨hgiven, hcard, -⟩ | ⟨hgiven, hcard, -⟩
      · rw [List.filterMap_cons_none hgiven]
        exact hlater.trans hcard
      · obtain ⟨offset, hoffset⟩ := Option.isSome_iff_exists.mp hgiven
        rw [List.filterMap_cons_some hoffset, List.length_cons]
        omega

theorem Course.length_le :
    visited.length ≤ (untried tokens s.unclosed).card * (tokens.length + 1) + s.rest.length + 1 := by
  induction hcourse with
  | done _ => simp
  | failed _ => simp
  | next hstep hrest ih =>
      have hlater := ih (h.step hwide hstep)
      rw [List.length_cons]
      rcases h.measure hstep with ⟨-, hcard, hlength⟩ | ⟨-, hcard, hlength⟩
      · have := Nat.mul_le_mul_right (tokens.length + 1) hcard
        omega
      · have := Nat.mul_le_mul_right (tokens.length + 1) hcard
        rw [Nat.succ_mul] at this
        omega

end Bounds

theorem sound_start (tokens : List Token) : Sound tokens (.start tokens) :=
  ⟨Token.behind_all tokens, trivial⟩

end State

namespace Node

-- No opener is given up twice, and one that was given up never waits again.
theorem parse_rewinds (options : Options) (text : List Char) :
    ∃ visited, State.Course (Reader.ofText options text)
        (.start (Token.ofText options.allowPadding text)) visited (parse options text) ∧
      visited.IsChain (State.Turn (Reader.ofText options text)) ∧
      (visited.Pairwise fun s later => ∀ offset ∈ s.givenUp? (Reader.ofText options text),
        later.givenUp? (Reader.ofText options text) ≠ some offset ∧
          ∀ block ∈ later.opened, block.tag.start ≠ offset) ∧
      (visited.filterMap (State.givenUp? (Reader.ofText options text))).length ≤
        (Token.ofText options.allowPadding text).countP Token.isOpener ∧
      visited.length ≤ ((Token.ofText options.allowPadding text).countP Token.isOpener + 1) *
        ((Token.ofText options.allowPadding text).length + 1) := by
  obtain ⟨visited, hcourse⟩ := State.course_run (Reader.ofText options text)
    (.start (Token.ofText options.allowPadding text))
  have hwide : ∀ token ∈ Token.ofText options.allowPadding text, 0 < token.width :=
    fun _ => Token.width_pos_of_mem_ofText
  have hsound := State.sound_start (Token.ofText options.allowPadding text)
  have hcard := State.card_untried_le (Token.ofText options.allowPadding text) ∅
  refine ⟨visited, hcourse, hcourse.isChain hwide hsound, hcourse.pairwise hwide hsound, ?_, ?_⟩
  · exact (hcourse.rewinds_le hwide hsound).trans hcard
  · refine (hcourse.length_le hwide hsound).trans ?_
    have hmul := Nat.mul_le_mul_right ((Token.ofText options.allowPadding text).length + 1) hcard
    rw [Nat.succ_mul, Nat.add_assoc]
    exact Nat.add_le_add_right hmul _

end Node

end Stencil

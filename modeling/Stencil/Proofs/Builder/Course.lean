import Stencil.Proofs.Builder.Run

namespace Stencil

namespace Token

def isOpener : Token → Bool
  | .tag (.opener _ _) _ => true
  | _ => false

-- These are the last of the tokens, with so many characters in front of them.
def Behind (tokens : List Token) (offset : Nat) (rest : List Token) : Prop :=
  ∃ passed, tokens = passed ++ rest ∧ offset = (passed.flatMap spelling).length

variable {tokens rest : List Token} {token : Token} {offset : Nat}

theorem behind_all (tokens : List Token) : Behind tokens 0 tokens :=
  ⟨[], rfl, rfl⟩

theorem Behind.skip (h : Behind tokens offset (token :: rest)) :
    Behind tokens (offset + token.width) rest := by
  obtain ⟨passed, rfl, rfl⟩ := h
  exact ⟨passed ++ [token], by simp, by simp [width]⟩

theorem Behind.length_le (h : Behind tokens offset rest) : rest.length ≤ tokens.length := by
  obtain ⟨passed, rfl, -⟩ := h
  simp

theorem Behind.mem (h : Behind tokens offset (token :: rest)) : token ∈ tokens := by
  obtain ⟨passed, rfl, -⟩ := h
  simp

theorem width_pos_of_mem_ofText {padded : Bool} {text : List Char} (h : token ∈ ofText padded text) :
    0 < token.width := by
  fun_induction ofText padded text with
  | case1 => cases h
  | case2 c rest found length hscan ih =>
      rcases List.mem_cons.mp h with rfl | h
      · have hlength := Tag.scan?_length hscan
        simp only [width, spelling, List.length_take_of_le hlength.2]
        omega
      · exact ih h
  | case3 c rest _ ih =>
      rcases List.mem_cons.mp h with rfl | h
      · split <;> simp [width, spelling]
      · exact ih h

end Token

namespace State

-- The states at which reading takes its turns, the last of them with the answer.
inductive Course (reader : Reader) : State → List State → Except ParseError (List Node) → Prop
  | done {s : State} {nodes : List Node} (h : s.step reader = .done nodes) : Course reader s [s] (.ok nodes)
  | failed {s : State} {error : ParseError} (h : s.step reader = .failed error) :
      Course reader s [s] (.error error)
  | next {s s' : State} {visited : List State} {result : Except ParseError (List Node)}
      (h : s.step reader = .next s') (rest : Course reader s' visited result) :
      Course reader s (s :: visited) result

variable {reader : Reader} {s s' : State} {visited : List State}
  {result : Except ParseError (List Node)}

theorem course_run (reader : Reader) (s : State) : ∃ visited, Course reader s visited (s.run reader) := by
  fun_induction run reader s with
  | case1 s s' hstep ih =>
      obtain ⟨visited, hcourse⟩ := ih
      exact ⟨_, .next hstep hcourse⟩
  | case2 s nodes hstep => exact ⟨_, .done hstep⟩
  | case3 s error hstep => exact ⟨_, .failed hstep⟩

theorem Course.exists_cons (h : Course reader s visited result) : ∃ later, visited = s :: later := by
  cases h <;> exact ⟨_, rfl⟩

-- What every step keeps holds throughout.
theorem Course.forall_mem {holds : State → Prop} (h : Course reader s visited result)
    (hstep : ∀ {s s'}, holds s → s.step reader = .next s' → holds s') (hstart : holds s) :
    ∀ s' ∈ visited, holds s' := by
  induction h with
  | done _ => simpa using hstart
  | failed _ => simpa using hstart
  | next hnext _ ih => exact List.forall_mem_cons.mpr ⟨hstart, ih (hstep hstart hnext)⟩

section Inv

variable {frames : List Frame} {cur : Outline}

theorem Inv.step (inv : s.Inv reader frames cur) (hstep : s.step reader = .next s') :
    ∃ frames' cur', s'.Inv reader frames' cur' := by
  have hkeeps := keeps_step inv
  rw [hstep] at hkeeps
  exact hkeeps

-- The invariant holds throughout, with whatever was read of the bodies up to there.
theorem Course.forall_inv (h : Course reader s visited result) (inv : s.Inv reader frames cur) :
    ∀ s' ∈ visited, ∃ frames' cur', s'.Inv reader frames' cur' := by
  refine h.forall_mem ?_ ⟨frames, cur, inv⟩
  rintro s s' ⟨frames, cur, inv⟩ hstep
  exact inv.step hstep

theorem Inv.reads_opener (inv : s.Inv reader frames cur) :
    ∀ block ∈ s.opened, reader.Reads (.opener block.kind block.path) block.tag := by
  have hreads : ∀ {opened frames cur pos}, reader.Holds s.root opened frames cur pos →
      ∀ block ∈ opened, reader.Reads (.opener block.kind block.path) block.tag := by
    intro opened
    induction opened with
    | nil => simp
    | cons block outer ih =>
        intro frames cur pos hholds
        obtain ⟨frame, rest, rfl, hblock, houter⟩ := hholds.of_cons
        exact List.forall_mem_cons.mpr ⟨hblock.opener, ih houter⟩
  exact hreads inv.holds

end Inv

-- The blocks that wait for a closing tag, with their openers and what stands behind these.
def waiting (s : State) : List (Span × List Token) :=
  s.opened.map fun block => (block.tag, block.after)

@[simp] theorem waiting_updateBody (s : State) (change : Draft → Draft) :
    (s.updateBody change).waiting = s.waiting := by
  unfold updateBody waiting
  split
  · rfl
  · next h => simp [h]

-- What becomes of the waiting blocks, and of what is known of openers, when the token at `start` is taken up.
inductive Move (token : Token) (start : Nat) (waiting : List (Span × List Token))
    (unclosed : Std.TreeSet Nat) (s' : State) : Prop
  | keep (hwaiting : s'.waiting = waiting) (hunclosed : s'.unclosed = unclosed)
  | close (block : Span × List Token) (hwaiting : waiting = block :: s'.waiting)
      (hunclosed : s'.unclosed = unclosed)
  | push (hopener : token.isOpener = true) (hnew : start ∉ unclosed)
      (hwaiting : s'.waiting = (⟨start, s'.pos⟩, s'.rest) :: waiting) (hunclosed : s'.unclosed = unclosed)
  | remember (hopener : token.isOpener = true) (hnew : start ∉ unclosed)
      (hwaiting : s'.waiting = waiting) (hunclosed : s'.unclosed = unclosed.insert start)

structure Past (token : Token) (s s' : State) : Prop where
  rest_eq : s.rest = token :: s'.rest
  pos_eq : s'.pos = s.pos + token.width
  move : Move token s.pos s.waiting s.unclosed s'

section Tag

variable {start : Nat} {token : Token}

theorem move_updateBody (token : Token) (start : Nat) (s : State) (change : Draft → Draft) :
    (s.updateBody change).rest = s.rest ∧ (s.updateBody change).pos = s.pos ∧
      Move token start s.waiting s.unclosed (s.updateBody change) :=
  ⟨by simp, by simp, .keep (by simp) (by simp)⟩

theorem move_elseTag (token : Token) (start : Nat) (s : State) (tag : Span) :
    (s.elseTag tag).rest = s.rest ∧ (s.elseTag tag).pos = s.pos ∧
      Move token start s.waiting s.unclosed (s.elseTag tag) := by
  unfold elseTag
  split
  · next block outer hopened =>
    split_ifs
    · exact ⟨rfl, rfl, .keep (by simp [waiting, hopened, OpenBlock.split]) rfl⟩
    · exact move_updateBody token start s _
  · exact move_updateBody token start s _

theorem move_closeBlock (token : Token) (start : Nat) {block : OpenBlock} {outer : List OpenBlock}
    (tag : Span) (hopened : s.opened = block :: outer) :
    (s.closeBlock reader block outer tag).rest = s.rest ∧
      (s.closeBlock reader block outer tag).pos = s.pos ∧
        Move token start s.waiting s.unclosed (s.closeBlock reader block outer tag) := by
  have hclose : ∀ change,
      (({ s with opened := outer } : State).updateBody change).rest = s.rest ∧
        (({ s with opened := outer } : State).updateBody change).pos = s.pos ∧
          Move token start s.waiting s.unclosed (({ s with opened := outer } : State).updateBody change) := by
    intro change
    refine ⟨by simp, by simp, .close (block.tag, block.after) ?_ (by simp)⟩
    rw [waiting_updateBody, waiting, hopened]
    rfl
  unfold closeBlock
  simp only
  split_ifs <;> exact hclose _

theorem move_openBlock {kind : BlockKind} {path : Path} {spelling : List Char}
    (h : s.openBlock reader kind path ⟨start, s.pos⟩ = .next s') :
    s'.rest = s.rest ∧ s'.pos = s.pos ∧ Move (.tag (.opener kind path) spelling) start s.waiting s.unclosed s' := by
  unfold openBlock at h
  simp only at h
  split_ifs at h with hmemo hstrict hdeep hreaches <;> cases h
  · exact ⟨rfl, rfl, .keep rfl rfl⟩
  · exact ⟨rfl, rfl, .push rfl (by simpa using hmemo) rfl rfl⟩
  · exact ⟨rfl, rfl, .push rfl (by simpa using hmemo) rfl rfl⟩
  · exact ⟨rfl, rfl, .remember rfl (by simpa using hmemo) rfl rfl⟩

theorem move_strayCloser {tag : Span} {spelling : List Char}
    (h : s.strayCloser reader tag spelling = .next s') :
    s'.rest = s.rest ∧ s'.pos = s.pos ∧ Move token start s.waiting s.unclosed s' := by
  unfold strayCloser at h
  split_ifs at h
  cases h
  exact ⟨rfl, rfl, .keep rfl rfl⟩

theorem move_onTag {tag : Tag} {spelling : List Char}
    (h : s.onTag reader tag spelling ⟨start, s.pos⟩ = .next s') :
    s'.rest = s.rest ∧ s'.pos = s.pos ∧ Move (.tag tag spelling) start s.waiting s.unclosed s' := by
  cases tag with
  | placeholder path escaped =>
      cases h
      exact move_updateBody _ start s _
  | opener kind path => exact move_openBlock h
  | otherwise =>
      cases h
      exact move_elseTag _ start s _
  | closer kind =>
      simp only [onTag] at h
      split at h
      · next block outer hopened =>
        split_ifs at h
        · cases h
          exact move_closeBlock _ start _ hopened
        · exact move_strayCloser h
      · exact move_strayCloser h

end Tag

-- A step that goes on goes past a token, or gives up the innermost block at the end of the text.
theorem step_cases (h : s.step reader = .next s') :
    (∃ token, Past token s s') ∨
      ∃ block outer, s.rest = [] ∧ s.opened = block :: outer ∧ reader.options.strict = false ∧
        s' = s.abandon block outer := by
  unfold step at h
  split at h
  · next hrest =>
    unfold onEnd at h
    split at h
    · cases h
    · next block outer hopened =>
      split_ifs at h with hstrict
      cases h
      exact .inr ⟨block, outer, hrest, hopened, by simpa using hstrict, rfl⟩
  · next token rest hrest =>
    refine .inl ⟨token, ?_⟩
    have hskip : Past token s (s.skip token rest) := ⟨hrest, rfl, .keep rfl rfl⟩
    simp only at h
    split at h
    · cases h
      exact hskip
    · split_ifs at h
      cases h
      exact hskip
    · next tag spelling =>
      obtain ⟨hrest', hpos, hmove⟩ := move_onTag h
      exact ⟨by rw [hrest', hrest]; rfl, hpos, hmove⟩

end State

end Stencil

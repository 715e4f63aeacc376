import Stencil.Proofs.Builder.Run

namespace Stencil

namespace ParseError

-- Line and column are those of this offset of the text.
def At (error : ParseError) (text : List Char) (offset : Nat) : Prop :=
  offset ≤ text.length ∧ error.line = (text.take offset).count '\n' + 1 ∧
    error.column = ((text.take offset).reverse.takeWhile (· ≠ '\n')).length + 1

variable {error : ParseError} {text : List Char} {offset other : Nat}

-- Farther on in the same line the column is higher.
theorem At.eq_of_le (h : error.At text offset) (hother : error.At text other) (hle : offset ≤ other) :
    offset = other := by
  obtain ⟨-, hline, hcolumn⟩ := h
  obtain ⟨hlength, hline', hcolumn'⟩ := hother
  obtain ⟨width, rfl⟩ := Nat.exists_eq_add_of_le hle
  have htake : text.take (offset + width) = text.take offset ++ (text.drop offset).take width :=
    List.take_add
  have hwidth : ((text.drop offset).take width).length = width := by
    rw [List.length_take, List.length_drop]
    omega
  rw [htake, List.count_append] at hline'
  have hsame : ∀ c ∈ ((text.drop offset).take width).reverse, decide (c ≠ '\n') = true := by
    intro c hc
    have hcount : ((text.drop offset).take width).count '\n' = 0 := by omega
    have hne : '\n' ∉ (text.drop offset).take width := List.count_eq_zero.mp hcount
    exact decide_eq_true (fun heq => hne (heq ▸ List.mem_reverse.mp hc))
  rw [htake, List.reverse_append, List.takeWhile_append_of_pos hsame, List.length_append,
    List.length_reverse, hwidth] at hcolumn'
  omega

theorem At.eq (h : error.At text offset) (hother : error.At text other) : offset = other := by
  rcases Nat.le_total offset other with hle | hle
  · exact h.eq_of_le hother hle
  · exact (hother.eq_of_le h hle).symm

theorem At.iff (h : error.At text offset) : error.At text other ↔ other = offset := by
  constructor
  · exact fun hother => hother.eq h
  · rintro rfl
    exact h

end ParseError

theorem Reader.at_locate (options : Options) {text : List Char} {offset : Nat} (fault : ParseFault)
    (h : offset ≤ text.length) :
    ((Reader.ofText options text).locate offset fault).At text offset := by
  refine ⟨h, ?_, ?_⟩ <;> simp [Reader.locate, Reader.ofText]

namespace Token

-- The kinds of the blocks open behind a token, the innermost first, or what strict reading finds wrong
-- with the token.
def enter (limit : Nat) (opened : List BlockKind) (token : Token) (rest : List Token) :
    Except ParseFault (List BlockKind) :=
  match token with
  | .text _ => .ok opened
  | .brace => .error (.invalidTag (String.ofList (((token :: rest).flatMap spelling).take 24)))
  | .tag found chars =>
    match found with
    | .placeholder _ _ => .ok opened
    | .opener kind _ =>
      if limit ≤ opened.length then .error (.nestingTooDeep limit) else .ok (kind :: opened)
    | .otherwise => .ok opened
    | .closer kind =>
      match opened with
      | innermost :: outer =>
        if innermost = kind then .ok outer else .error (.unexpectedTag (String.ofList chars))
      | [] => .error (.unexpectedTag (String.ofList chars))

-- The first fault, with the number of characters in front of it.
def firstFault (limit : Nat) (opened : List BlockKind) : List Token → Option (Nat × ParseFault)
  | [] => opened.head?.map fun kind => (0, .unclosedBlock kind.keyword)
  | token :: rest =>
    match token.enter limit opened rest with
    | .ok inside => (firstFault limit inside rest).map fun found => (token.width + found.1, found.2)
    | .error fault => some (0, fault)

variable {limit : Nat} {opened : List BlockKind} {tokens first second : List Token}

theorem firstFault_of_ok {token : Token} {rest : List Token} {inside : List BlockKind}
    (h : token.enter limit opened rest = .ok inside) :
    firstFault limit opened (token :: rest) =
      (firstFault limit inside rest).map fun found => (token.width + found.1, found.2) := by
  rw [firstFault, h]

theorem firstFault_of_error {token : Token} {rest : List Token} {fault : ParseFault}
    (h : token.enter limit opened rest = .error fault) :
    firstFault limit opened (token :: rest) = some (0, fault) := by
  rw [firstFault, h]

-- Whether a token is at fault does not depend on what follows, which shows only in what is quoted.
theorem enter_eq_ok_of_ok {token : Token} {rest : List Token} {inside : List BlockKind}
    (h : token.enter limit opened rest = .ok inside) (other : List Token) :
    token.enter limit opened other = .ok inside := by
  cases token with
  | text | tag => exact h
  | brace => cases h

theorem firstFault_le {found : Nat × ParseFault} (h : firstFault limit opened tokens = some found) :
    found.1 ≤ (tokens.flatMap spelling).length := by
  induction tokens generalizing opened found with
  | nil =>
      obtain ⟨kind, -, rfl⟩ := Option.map_eq_some_iff.mp h
      exact Nat.zero_le _
  | cons token rest ih =>
      cases henter : token.enter limit opened rest with
      | ok inside =>
          rw [firstFault_of_ok henter, Option.map_eq_some_iff] at h
          obtain ⟨later, hlater, rfl⟩ := h
          have := ih hlater
          simp only [List.flatMap_cons, List.length_append, width]
          omega
      | error fault =>
          rw [firstFault_of_error henter] at h
          cases h
          exact Nat.zero_le _

-- Tokens without a fault close all blocks they open, and so change nothing for what follows.
theorem firstFault_append (h : firstFault limit opened first = none) (second : List Token) :
    firstFault limit opened (first ++ second) =
      (firstFault limit [] second).map fun found =>
        ((first.flatMap spelling).length + found.1, found.2) := by
  induction first generalizing opened with
  | nil =>
      obtain rfl : opened = [] := by simpa [firstFault] using h
      simp
  | cons token rest ih =>
      cases henter : token.enter limit opened rest with
      | ok inside =>
          rw [firstFault_of_ok henter, Option.map_eq_none_iff] at h
          rw [List.cons_append, firstFault_of_ok (enter_eq_ok_of_ok henter _), ih h, Option.map_map]
          congr 1
          funext found
          simp [width, Nat.add_assoc]
      | error fault =>
          rw [firstFault_of_error henter] at h
          cases h

theorem brace_notMem_of_firstFault (h : firstFault limit opened tokens = none) : .brace ∉ tokens := by
  induction tokens generalizing opened with
  | nil => simp
  | cons token rest ih =>
      cases henter : token.enter limit opened rest with
      | ok inside =>
          rw [firstFault_of_ok henter, Option.map_eq_none_iff] at h
          have hne : Token.brace ≠ token := by
            rintro rfl
            cases henter
          exact List.not_mem_cons_of_ne_of_not_mem hne (ih h)
      | error fault =>
          rw [firstFault_of_error henter] at h
          cases h

end Token

namespace State

def kinds (s : State) : List BlockKind :=
  s.opened.map (·.kind)

-- Strict reading stands in front of the tokens that the source has there, and has given up no opener.
structure Ahead (reader : Reader) (s : State) : Prop where
  strict : reader.options.strict = true
  rest_eq : s.rest.flatMap Token.spelling = reader.rest s.pos
  unclosed : ∀ offset, s.unclosed.contains offset = false

-- It stands at this place, in front of these tokens and inside blocks of these kinds.
structure Ready (reader : Reader) (pos : Nat) (rest : List Token) (inside : List BlockKind)
    (s : State) : Prop extends s.Ahead reader where
  pos_eq : s.pos = pos
  tokens_eq : s.rest = rest
  kinds_eq : s.kinds = inside

variable {reader : Reader} {s : State} {token : Token} {rest : List Token}

@[simp] theorem kinds_updateBody (s : State) (change : Draft → Draft) :
    (s.updateBody change).kinds = s.kinds := by
  unfold updateBody kinds
  split
  · rfl
  · next h => simp [h]

theorem Ahead.skip (h : s.Ahead reader) (hrest : s.rest = token :: rest) :
    (s.skip token rest).Ahead reader := by
  refine ⟨h.strict, ?_, h.unclosed⟩
  have hall := h.rest_eq
  rw [hrest, List.flatMap_cons] at hall
  rw [State.skip, ← Reader.drop_rest, ← hall, Token.width, List.drop_left]

theorem Ahead.ready_updateBody (h : s.Ahead reader) (change : Draft → Draft) :
    Ready reader s.pos s.rest s.kinds (s.updateBody change) := by
  constructor
  · constructor
    · exact h.strict
    · simpa using h.rest_eq
    · simpa using h.unclosed
  all_goals simp

theorem Ahead.ready_elseTag (h : s.Ahead reader) (span : Span) :
    Ready reader s.pos s.rest s.kinds (s.elseTag span) := by
  unfold elseTag
  split
  · next block outer hopened =>
    split_ifs
    · exact ⟨⟨h.strict, h.rest_eq, h.unclosed⟩, rfl, rfl, by simp [kinds, hopened, OpenBlock.split]⟩
    · exact h.ready_updateBody _
  · exact h.ready_updateBody _

theorem Ahead.ready_closeBlock (h : s.Ahead reader) {block : OpenBlock} {outer : List OpenBlock}
    (span : Span) :
    Ready reader s.pos s.rest (outer.map (·.kind)) (s.closeBlock reader block outer span) := by
  have houter : ({ s with opened := outer } : State).Ahead reader := ⟨h.strict, h.rest_eq, h.unclosed⟩
  unfold closeBlock
  simp only
  split_ifs
  · exact houter.ready_updateBody _
  · exact houter.ready_updateBody _

theorem openBlock_enter (h : s.Ahead reader) (kind : BlockKind) (path : Path) (span : Span) :
    s.openBlock reader kind path span =
      if reader.options.maxDepth ≤ s.kinds.length then
        .failed (reader.locate span.start (.nestingTooDeep reader.options.maxDepth))
      else
        .next { s with
          opened :=
            { kind, path
              tag := span
              after := s.rest
              body := { textStart := span.stop } } :: s.opened } := by
  have hlength : s.kinds.length = s.opened.length := List.length_map _
  rw [hlength, openBlock]
  simp [h.unclosed, h.strict]

theorem strayCloser_enter (h : s.Ahead reader) (span : Span) (spelling : List Char) :
    s.strayCloser reader span spelling =
      .failed (reader.locate span.start (.unexpectedTag (String.ofList spelling))) := by
  rw [strayCloser, if_pos h.strict]

theorem onTag_enter (h : s.Ahead reader) (tag : Tag) (spelling : List Char) (span : Span) :
    match (Token.tag tag spelling).enter reader.options.maxDepth s.kinds s.rest with
    | .ok inside => ∃ s', s.onTag reader tag spelling span = .next s' ∧
        Ready reader s.pos s.rest inside s'
    | .error fault => s.onTag reader tag spelling span = .failed (reader.locate span.start fault) := by
  cases tag with
  | placeholder path escaped => exact ⟨_, rfl, h.ready_updateBody _⟩
  | otherwise => exact ⟨_, rfl, h.ready_elseTag _⟩
  | opener kind path =>
      simp only [Token.enter, onTag, openBlock_enter h]
      by_cases hdeep : reader.options.maxDepth ≤ s.kinds.length
      · simp only [hdeep, if_true]
      · simp only [hdeep, if_false]
        exact ⟨_, rfl, ⟨h.strict, h.rest_eq, h.unclosed⟩, rfl, rfl, rfl⟩
  | closer kind =>
      simp only [Token.enter, onTag, kinds, strayCloser_enter h]
      cases hopened : s.opened with
      | nil => rfl
      | cons block outer =>
          simp only [List.map_cons]
          by_cases hkind : block.kind = kind
          · simp only [hkind, if_true]
            exact ⟨_, rfl, h.ready_closeBlock span⟩
          · simp only [hkind, if_false]

-- One step of strict reading goes past a token or stops at its fault.
theorem step_enter (h : s.Ahead reader) (hrest : s.rest = token :: rest) :
    match token.enter reader.options.maxDepth s.kinds rest with
    | .ok inside => ∃ s', s.step reader = .next s' ∧
        Ready reader (s.pos + token.width) rest inside s'
    | .error fault => s.step reader = .failed (reader.locate s.pos fault) := by
  have hskip := h.skip hrest
  cases token with
  | text c =>
      have hstep : s.step reader = .next (s.skip (.text c) rest) := by rw [step, hrest]
      exact ⟨_, hstep, hskip, rfl, rfl, rfl⟩
  | brace =>
      have hquote : reader.quote s.pos = String.ofList ((s.rest.flatMap Token.spelling).take 24) := by
        rw [h.rest_eq, Reader.take_rest]
        rfl
      rw [hrest] at hquote
      simp only [Token.enter]
      rw [step, hrest]
      simp only [h.strict, if_true, hquote]
  | tag tag spelling =>
      have hstep : s.step reader = (s.skip (.tag tag spelling) rest).onTag reader tag spelling
          ⟨s.pos, s.pos + (Token.tag tag spelling).width⟩ := by
        rw [step, hrest]
        rfl
      rw [hstep]
      exact onTag_enter hskip tag spelling ⟨s.pos, s.pos + (Token.tag tag spelling).width⟩

theorem run_of_next {s' : State} (h : s.step reader = .next s') : s.run reader = s'.run reader := by
  rw [run]
  split <;> simp_all

theorem run_of_failed {error : ParseError} (h : s.step reader = .failed error) :
    s.run reader = .error error := by
  rw [run]
  split <;> simp_all

theorem run_of_done {nodes : List Node} (h : s.step reader = .done nodes) :
    s.run reader = .ok nodes := by
  rw [run]
  split <;> simp_all

end State

namespace Reader

-- The result that these findings ask for, behind so many characters.
def Reports (reader : Reader) (offset : Nat) (found : Option (Nat × ParseFault))
    (result : Except ParseError (List Node)) : Prop :=
  match found with
  | none => ∃ nodes, result = .ok nodes
  | some (width, fault) => result = .error (reader.locate (offset + width) fault)

end Reader

namespace State

variable {reader : Reader} {s : State} {token : Token} {rest : List Token}

-- By induction on the tokens: without a fault strict reading goes past each of them once.
theorem reports_run (h : s.Ahead reader) :
    reader.Reports s.pos (Token.firstFault reader.options.maxDepth s.kinds s.rest) (s.run reader) := by
  generalize hrest : s.rest = tokens
  induction tokens generalizing s with
  | nil =>
      cases hopened : s.opened with
      | nil =>
          have hstep : s.step reader = .done ((s.root.flush s.pos).toNodes reader.source) := by
            simp only [step, hrest, onEnd, hopened]
          rw [run_of_done hstep, kinds, hopened]
          exact ⟨_, rfl⟩
      | cons block outer =>
          have hstep : s.step reader =
              .failed (reader.locate s.pos (.unclosedBlock block.kind.keyword)) := by
            simp only [step, hrest, onEnd, hopened, h.strict, if_true]
          rw [run_of_failed hstep, kinds, hopened]
          rfl
  | cons token rest ih =>
      have hstep := step_enter h hrest
      cases henter : token.enter reader.options.maxDepth s.kinds rest with
      | ok inside =>
          rw [henter] at hstep
          obtain ⟨s', hnext, hready⟩ := hstep
          have hlater := ih hready.toAhead hready.tokens_eq
          rw [run_of_next hnext, Token.firstFault_of_ok henter]
          rw [hready.kinds_eq, hready.pos_eq] at hlater
          cases hfault : Token.firstFault reader.options.maxDepth inside rest with
          | none =>
              rw [hfault] at hlater
              exact hlater
          | some found =>
              rw [hfault] at hlater
              have hlater : s'.run reader = _ := hlater
              rw [hlater, Nat.add_assoc]
              rfl
      | error fault =>
          rw [henter] at hstep
          rw [run_of_failed hstep, Token.firstFault_of_error henter]
          rfl

end State

namespace Node

variable {options : Options} {text : List Char}

theorem reports_parse (hstrict : options.strict = true) (text : List Char) :
    (Reader.ofText options text).Reports 0
      (Token.firstFault options.maxDepth [] (Token.ofText options.allowPadding text))
      (parse options text) := by
  have hahead : (State.start (Token.ofText options.allowPadding text)).Ahead
      (Reader.ofText options text) := by
    refine ⟨hstrict, ?_, fun offset => by simp [State.start]⟩
    rw [State.start, Reader.rest_ofText]
    exact Token.flatMap_spelling_ofText options.allowPadding text
  exact State.reports_run hahead

theorem parse_strict_ok_iff (hstrict : options.strict = true) :
    (∃ nodes, parse options text = .ok nodes) ↔
      Token.firstFault options.maxDepth [] (Token.ofText options.allowPadding text) = none := by
  have hreports := reports_parse hstrict text
  cases hfault : Token.firstFault options.maxDepth [] (Token.ofText options.allowPadding text) with
  | none =>
      rw [hfault] at hreports
      exact iff_of_true hreports rfl
  | some found =>
      rw [hfault] at hreports
      have hreports : parse options text = _ := hreports
      simp [hreports]

theorem parse_strict_error_iff (hstrict : options.strict = true) {error : ParseError} :
    parse options text = .error error ↔
      ∃ offset fault, Token.firstFault options.maxDepth []
          (Token.ofText options.allowPadding text) = some (offset, fault) ∧
        error = (Reader.ofText options text).locate offset fault := by
  have hreports := reports_parse hstrict text
  cases hfault : Token.firstFault options.maxDepth [] (Token.ofText options.allowPadding text) with
  | none =>
      rw [hfault] at hreports
      obtain ⟨nodes, hok⟩ := hreports
      simp [hok]
  | some found =>
      rw [hfault] at hreports
      obtain ⟨offset, fault⟩ := found
      have hreports : parse options text = .error _ := hreports
      rw [Nat.zero_add] at hreports
      simp [hreports, eq_comm]

end Node

end Stencil

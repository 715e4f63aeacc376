import Stencil.Proofs.Builder.Course
import Stencil.Proofs.Strict.Faults
import Stencil.Proofs.Tokens

namespace Stencil

namespace Token

-- These tokens lead from the blocks of the first list into those of the last, without a fault.
inductive Enters (limit : Nat) : List BlockKind → List Token → List BlockKind → Prop
  | nil {opened : List BlockKind} : Enters limit opened [] opened
  | cons {opened inside last : List BlockKind} {token : Token} {rest : List Token}
      (h : token.enter limit opened rest = .ok inside) (hrest : Enters limit inside rest last) :
      Enters limit opened (token :: rest) last

variable {limit : Nat} {opened inside last : List BlockKind} {token : Token}
  {tokens rest first : List Token}

theorem Enters.concat (h : Enters limit opened first inside)
    (htoken : token.enter limit inside rest = .ok last) : Enters limit opened (first ++ [token]) last := by
  induction h with
  | nil => exact .cons (enter_eq_ok_of_ok htoken []) .nil
  | cons hfirst _ ih => exact .cons (enter_eq_ok_of_ok hfirst _) (ih htoken)

-- All that can be at fault in the text of these tokens is that it ends inside of blocks.
theorem Enters.firstFault_eq (h : Enters limit opened tokens last) :
    firstFault limit opened tokens =
      last.head?.map fun kind => ((tokens.flatMap spelling).length, .unclosedBlock kind.keyword) := by
  induction h with
  | nil => rfl
  | cons htoken _ ih =>
      rw [firstFault_of_ok htoken, ih, Option.map_map]
      congr 1
      funext kind
      simp [width]

theorem length_le_of_enter (h : token.enter limit opened rest = .ok inside)
    (hopened : opened.length ≤ limit) : inside.length ≤ limit := by
  unfold enter at h
  split at h
  · cases h
    exact hopened
  · cases h
  · split at h
    · cases h
      exact hopened
    · split_ifs at h with hroom
      cases h
      exact Nat.lt_of_not_le hroom
    · cases h
      exact hopened
    · split at h
      · split_ifs at h
        cases h
        exact Nat.le_of_succ_le hopened
      · cases h

theorem Enters.length_le (h : Enters limit opened tokens last) (hopened : opened.length ≤ limit) :
    last.length ≤ limit := by
  induction h with
  | nil => exact hopened
  | cons htoken _ ih => exact ih (length_le_of_enter htoken hopened)

theorem Enters.brace_notMem (h : Enters limit opened tokens last) : .brace ∉ tokens := by
  induction h with
  | nil => simp
  | @cons _ _ _ token _ htoken _ ih =>
      have hne : Token.brace ≠ token := by
        rintro rfl
        cases htoken
      exact List.not_mem_cons_of_ne_of_not_mem hne ih

end Token

namespace Node

-- Strict reading of the text ends where the text ends, inside of such a block or of none.
def EndsInside (options : Options) (text : List Char) : Option BlockKind → Prop
  | none => ∃ nodes, parse options text = .ok nodes
  | some kind =>
    ∃ error, parse options text = .error error ∧ error.fault = .unclosedBlock kind.keyword ∧
      error.At text text.length

end Node

-- What a fault says of the place in the text where it is found, and of the blocks open there.
def ParseFault.Explained (options : Options) (text : List Char) (offset : Nat) (opened : List OpenBlock) :
    ParseFault → Prop
  | .invalidTag found =>
    (∃ behind, text.drop offset = '{' :: '{' :: behind) ∧
      Tag.scan? options.allowPadding (text.drop offset) = none ∧
        found = String.ofList ((text.drop offset).take 24)
  | .unexpectedTag tag =>
    ∃ kind width, Tag.scan? options.allowPadding (text.drop offset) = some (.closer kind, width) ∧
      tag = String.ofList ((text.drop offset).take width) ∧
        ∀ block ∈ opened.head?, block.kind.keyword ≠ kind.keyword
  | .unclosedBlock keyword => offset = text.length ∧ ∃ block ∈ opened.head?, keyword = block.kind.keyword
  | .nestingTooDeep limit =>
    (∃ kind path width, Tag.scan? options.allowPadding (text.drop offset) = some (.opener kind path, width)) ∧
      limit = options.maxDepth ∧ opened.length = limit

namespace State

-- Strict reading has gone past some tokens of the text, into the blocks that wait.
structure Faultless (reader : Reader) (tokens : List Token) (s : State) : Prop extends s.Ahead reader where
  passed : ∃ first, tokens = first ++ s.rest ∧ s.pos = (first.flatMap Token.spelling).length ∧
    Token.Enters reader.options.maxDepth [] first s.kinds

section Step

variable {reader : Reader} {tokens : List Token} {s s' : State} {visited : List State}
  {result : Except ParseError (List Node)} {error : ParseError}

theorem step_strict_end (hstrict : reader.options.strict = true) (hrest : s.rest = []) :
    s.step reader =
      match s.opened with
      | [] => .done ((s.root.flush s.pos).toNodes reader.source)
      | block :: _ => .failed (reader.locate s.pos (.unclosedBlock block.kind.keyword)) := by
  unfold State.step onEnd
  rw [hrest]
  cases s.opened <;> simp only [hstrict, if_true]

theorem Faultless.step (h : s.Faultless reader tokens) (hstep : s.step reader = .next s') :
    s'.Faultless reader tokens := by
  obtain ⟨first, htokens, hpos, henters⟩ := h.passed
  cases hrest : s.rest with
  | nil =>
      rw [step_strict_end h.strict hrest] at hstep
      split at hstep <;> cases hstep
  | cons token rest =>
      have henter := step_enter h.toAhead hrest
      cases hfault : token.enter reader.options.maxDepth s.kinds rest with
      | ok inside =>
          rw [hfault] at henter
          obtain ⟨next, hnext, hready⟩ := henter
          obtain rfl : next = s' := by
            rw [hnext] at hstep
            cases hstep
            rfl
          refine ⟨hready.toAhead, first ++ [token], ?_, ?_, ?_⟩
          · rw [htokens, hrest, hready.tokens_eq]
            simp
          · rw [hready.pos_eq, hpos]
            simp [Token.width]
          · rw [hready.kinds_eq]
            exact henters.concat hfault
      | error fault =>
          rw [hfault] at henter
          rw [henter] at hstep
          cases hstep

theorem Course.exists_last (h : Course reader s visited result) (hresult : result = .error error) :
    ∃ last, visited.getLast? = some last ∧ last.step reader = .failed error := by
  induction h with
  | done _ => cases hresult
  | failed hstep =>
      cases hresult
      exact ⟨_, rfl, hstep⟩
  | next _ hrest ih =>
      obtain ⟨last, hlast, hstep⟩ := ih hresult
      obtain ⟨later, rfl⟩ := hrest.exists_cons
      exact ⟨last, by rw [List.getLast?_cons_cons, hlast], hstep⟩

end Step

section Failing

variable {options : Options} {text : List Char} {s : State} {error : ParseError}

theorem faultless_start (hstrict : options.strict = true) (text : List Char) :
    (start (Token.ofText options.allowPadding text)).Faultless (Reader.ofText options text)
      (Token.ofText options.allowPadding text) := by
  refine ⟨⟨hstrict, ?_, fun offset => by simp [start]⟩, [], rfl, rfl, .nil⟩
  rw [start, Reader.rest_ofText]
  exact Token.flatMap_spelling_ofText options.allowPadding text

theorem Faultless.endsInside
    (h : s.Faultless (Reader.ofText options text) (Token.ofText options.allowPadding text)) :
    Node.EndsInside options (text.take s.pos) (s.opened.head?.map (·.kind)) := by
  have hstrict : options.strict = true := h.strict
  obtain ⟨first, htokens, hpos, henters⟩ := h.passed
  have htake : text.take s.pos = first.flatMap Token.spelling := by
    rw [Token.spelling_of_ofText htokens, hpos, List.take_left]
  have hfault := henters.firstFault_eq
  rw [← Token.ofText_take htokens henters.brace_notMem, ← htake, kinds, List.head?_map] at hfault
  cases hopened : s.opened.head? with
  | none =>
      rw [hopened] at hfault
      exact (Node.parse_strict_ok_iff hstrict).mpr hfault
  | some block =>
      rw [hopened] at hfault
      rw [Token.flatMap_spelling_ofText] at hfault
      have herror := (Node.parse_strict_error_iff hstrict).mpr ⟨_, _, hfault, rfl⟩
      exact ⟨_, herror, rfl, Reader.at_locate options _ (Nat.le_refl _)⟩

theorem Faultless.length_le
    (h : s.Faultless (Reader.ofText options text) (Token.ofText options.allowPadding text)) :
    s.opened.length ≤ options.maxDepth := by
  obtain ⟨first, -, -, henters⟩ := h.passed
  have hlength := henters.length_le (Nat.zero_le _)
  rwa [kinds, List.length_map] at hlength

-- The token at fault is read in the text from where it stands.
theorem Faultless.explained_of_enter {token : Token} {rest : List Token} {fault : ParseFault}
    (h : s.Faultless (Reader.ofText options text) (Token.ofText options.allowPadding text))
    (hrest : s.rest = token :: rest)
    (henter : token.enter options.maxDepth s.kinds rest = .error fault) :
    fault.Explained options text s.pos s.opened := by
  have hlength := h.length_le
  obtain ⟨first, htokens, hpos, -⟩ := h.passed
  have hdrop := Token.ofText_drop htokens
  rw [← hpos, hrest] at hdrop
  cases token with
  | text c => cases henter
  | brace =>
      cases henter
      obtain ⟨hbraces, hscan⟩ := Token.of_ofText_brace hdrop
      refine ⟨hbraces, hscan, ?_⟩
      rw [← hdrop, Token.flatMap_spelling_ofText]
  | tag tag chars =>
      obtain ⟨width, hscan, rfl⟩ := Token.of_ofText_tag hdrop
      cases tag with
      | placeholder path escaped => cases henter
      | otherwise => cases henter
      | opener kind path =>
          simp only [Token.enter] at henter
          split_ifs at henter with hdeep
          cases henter
          rw [kinds, List.length_map] at hdeep
          exact ⟨⟨kind, path, width, hscan⟩, rfl, Nat.le_antisymm hlength hdeep⟩
      | closer kind =>
          simp only [Token.enter] at henter
          cases hopened : s.opened with
          | nil =>
              rw [kinds, hopened] at henter
              cases henter
              exact ⟨kind, width, hscan, rfl, by simp⟩
          | cons block outer =>
              rw [kinds, hopened, List.map_cons] at henter
              simp only at henter
              split_ifs at henter with hkind
              cases henter
              have hkeyword := BlockKind.keyword_injective.ne hkind
              exact ⟨kind, width, hscan, rfl, by simpa [hopened] using hkeyword⟩

theorem Faultless.explained
    (h : s.Faultless (Reader.ofText options text) (Token.ofText options.allowPadding text))
    (hstep : s.step (Reader.ofText options text) = .failed error) :
    error.At text s.pos ∧ error.fault.Explained options text s.pos s.opened := by
  obtain ⟨first, htokens, hpos, -⟩ := h.passed
  have htext := congrArg List.length (Token.spelling_of_ofText htokens)
  rw [List.length_append, ← hpos] at htext
  cases hrest : s.rest with
  | nil =>
      rw [step_strict_end h.strict hrest] at hstep
      rw [hrest] at htext
      cases hopened : s.opened with
      | nil =>
          rw [hopened] at hstep
          cases hstep
      | cons block outer =>
          rw [hopened] at hstep
          cases hstep
          exact ⟨Reader.at_locate options _ (by omega), htext.symm, block, rfl, rfl⟩
  | cons token rest =>
      have henter := step_enter h.toAhead hrest
      cases hfault : token.enter (Reader.ofText options text).options.maxDepth s.kinds rest with
      | ok inside =>
          rw [hfault] at henter
          obtain ⟨next, hnext, -⟩ := henter
          rw [hnext] at hstep
          cases hstep
      | error fault =>
          rw [hfault] at henter
          rw [henter] at hstep
          cases hstep
          exact ⟨Reader.at_locate options _ (by omega), h.explained_of_enter hrest hfault⟩

end Failing

end State

namespace Node

-- The last state of the reading is where the error arises, with the blocks that wait there.
theorem parse_strict_error {options : Options} {text : List Char} {error : ParseError}
    (hstrict : options.strict = true) (h : parse options text = .error error) :
    ∃ offset visited last,
      (∀ other, error.At text other ↔ other = offset) ∧
      State.Course (Reader.ofText options text) (.start (Token.ofText options.allowPadding text)) visited
        (.error error) ∧
      visited.getLast? = some last ∧ last.pos = offset ∧
      error.fault.Explained options text offset last.opened ∧
      EndsInside options (text.take offset) (last.opened.head?.map (·.kind)) := by
  obtain ⟨visited, hcourse⟩ := State.course_run (Reader.ofText options text)
    (.start (Token.ofText options.allowPadding text))
  have hresult : (State.start (Token.ofText options.allowPadding text)).run
      (Reader.ofText options text) = .error error := h
  rw [hresult] at hcourse
  obtain ⟨last, hlast, hstep⟩ := hcourse.exists_last rfl
  have hfaultless := hcourse.forall_mem State.Faultless.step (State.faultless_start hstrict text) last
    (List.mem_of_mem_getLast? hlast)
  obtain ⟨hat, hexplained⟩ := hfaultless.explained hstep
  exact ⟨last.pos, visited, last, fun _ => hat.iff, hcourse, hlast, rfl, hexplained,
    hfaultless.endsInside⟩

-- The column counts characters, and the closing tag does not match the block that it stands in.
theorem parse_strict_error_mismatch :
    ∃ error, parse { strict := true }
        ("é\n\t" ++ openerText .ifTrue ⟨"a"⟩ ++ "é" ++ closerText .each).toList = .error error ∧
      error.line = 2 ∧ error.column = 12 ∧ error.fault = .unexpectedTag (closerText .each) ∧
      ∃ last : State, (∀ block ∈ last.opened.head?, block.kind.keyword ≠ BlockKind.each.keyword) ∧
        EndsInside { strict := true } ("é\n\t" ++ openerText .ifTrue ⟨"a"⟩ ++ "é").toList
          (last.opened.head?.map (·.kind)) := by
  have herror : parse { strict := true }
      ("é\n\t" ++ openerText .ifTrue ⟨"a"⟩ ++ "é" ++ closerText .each).toList =
        .error ((Reader.ofText { strict := true }
          ("é\n\t" ++ openerText .ifTrue ⟨"a"⟩ ++ "é" ++ closerText .each).toList).locate 13
            (.unexpectedTag (closerText .each))) :=
    (parse_strict_error_iff rfl).mpr ⟨13, _, by with_unfolding_all rfl, rfl⟩
  obtain ⟨offset, visited, last, hat, -, -, -, hexplained, hends⟩ := parse_strict_error rfl herror
  obtain rfl : 13 = offset := (hat 13).mp (Reader.at_locate _ _ (by decide))
  obtain ⟨kind, width, hscan, -, hhead⟩ := hexplained
  have hcloser : Tag.scan? false
      (("é\n\t" ++ openerText .ifTrue ⟨"a"⟩ ++ "é" ++ closerText .each).toList.drop 13) =
        some (.closer .each, 9) := by
    decide
  cases hcloser.symm.trans hscan
  exact ⟨_, herror, rfl, rfl, rfl, last, hhead, hends⟩

end Node

end Stencil

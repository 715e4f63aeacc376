import Stencil.Proofs.Builder.Steps
import Stencil.Proofs.Outline.Whole

namespace Stencil

-- The state that reading goes on from keeps the invariant, and an answer is that of the plain reading.
def Progress.Keeps (reader : Reader) : Progress → Prop
  | .next s => ∃ frames cur, s.Inv reader frames cur
  | .done nodes => reader.Answers (.ok nodes)
  | .failed error => reader.Answers (.error error)

namespace Reading

theorem fits_toBlock {room : Nat} {kind : BlockKind} {path : Path} {opener closer : List Char}
    {r : Reading} (h : (r.toBlock kind path opener closer).Fits room) :
    0 < room ∧ r.body.Fits (room - 1) ∧ ∀ part ∈ r.elsePart, part.2.Fits (room - 1) := by
  unfold toBlock at h
  split at h
  · next elseTag elseBody helse =>
    obtain ⟨⟨hthen, helsePlain, -⟩, hroom, hthenWithin, helseWithin, -⟩ := h
    refine ⟨hroom, ⟨hthen, hthenWithin⟩, ?_⟩
    intro part hpart
    rw [helse] at hpart
    cases hpart
    exact ⟨helsePlain, helseWithin⟩
  · next helse =>
    obtain ⟨⟨hbody, -⟩, hroom, hwithin, -⟩ := h
    refine ⟨hroom, ⟨hbody, hwithin⟩, ?_⟩
    intro part hpart
    rw [helse] at hpart
    cases hpart

end Reading

namespace OpenBlock

-- The part of a body behind the `else` tag fits if the whole body does, and so does a body without one.
theorem fits_of_whole {source : Array Char} {block : OpenBlock} {first : Outline} {r : Reading}
    {room : Nat} (hbody : (block.whole source first r).body.Fits room)
    (helse : ∀ part ∈ (block.whole source first r).elsePart, part.2.Fits room) :
    r.body.Fits room := by
  unfold whole at hbody helse
  cases hthen : block.thenBranch with
  | none =>
      rw [hthen] at hbody
      exact hbody
  | some branch =>
      rw [hthen] at helse
      exact helse _ rfl

end OpenBlock

namespace Reader

variable {reader : Reader} {root : Draft} {opened : List OpenBlock} {frames : List Frame}
  {cur : Outline} {pos : Nat}

-- If the whole source can be read strictly, so can the rest of each body, and it ends at a closing tag.
theorem Holds.fits_top (h : reader.Holds root opened frames cur pos)
    (hfits : (reader.readFrom none false 0).body.Fits reader.options.maxDepth) :
    (reader.readTop opened pos).body.Fits (reader.options.maxDepth - opened.length) ∧
      (opened ≠ [] → (reader.readTop opened pos).closer ≠ none) := by
  induction opened generalizing frames cur pos with
  | nil =>
      obtain ⟨rfl, hroot, -⟩ := h.of_nil
      rw [hroot] at hfits
      exact ⟨(Outline.fits_append.mp hfits).2, fun hne => absurd rfl hne⟩
  | cons block outer ih =>
      obtain ⟨frame, rest, rfl, hblock, houter⟩ := h.of_cons
      obtain ⟨hfitsOuter, -⟩ := ih houter
      obtain ⟨width, hscan, hstop⟩ := hblock.opener
      have hreading := hblock.reading
      rw [hstop] at hreading
      cases hcloser : (reader.readBody block.kind (block.tag.start + width)).closer with
      | none =>
          rw [readTop, readFrom_opener_of_unclosed hscan hcloser] at hfitsOuter
          exact absurd hfitsOuter (Outline.not_fits_verbatim _ _ _)
      | some found =>
          rw [readTop, readFrom_opener_of_closed hscan hcloser] at hfitsOuter
          obtain ⟨-, hbody, helse⟩ :=
            Reading.fits_toBlock (Outline.fits_append.mp hfitsOuter).1
          rw [← readBody, hreading] at hbody helse
          rw [hreading, OpenBlock.closer_whole] at hcloser
          have hdepth : reader.options.maxDepth - (block :: outer).length =
              reader.options.maxDepth - outer.length - 1 := by
            rw [List.length_cons]
            omega
          rw [hdepth]
          refine ⟨(Outline.fits_append.mp (OpenBlock.fits_of_whole hbody helse)).2, ?_⟩
          intro _ hnone
          cases hcloser.symm.trans hnone

end Reader

namespace State

variable {reader : Reader} {s : State} {frames : List Frame} {cur : Outline}

theorem Inv.keeps_failed (inv : s.Inv reader frames cur) (error : ParseError)
    (hstrict : reader.options.strict = true)
    (h : (reader.readTop s.opened s.pos).body.Fits (reader.options.maxDepth - s.opened.length) →
      s.opened ≠ [] ∧ (reader.readTop s.opened s.pos).closer = none) :
    (Progress.failed error).Keeps reader := by
  refine ⟨hstrict, ?_⟩
  intro hfits
  obtain ⟨hbody, hcloser⟩ := inv.holds.fits_top hfits
  obtain ⟨hne, hnone⟩ := h hbody
  exact hcloser hne hnone

-- Where the plain reading leaves something as text, strict reading is right to fail.
theorem Inv.keeps_failed_of_verbatim (inv : s.Inv reader frames cur) (error : ParseError)
    {spelling : List Char} {r : Reading} (hstrict : reader.options.strict = true)
    (hread : reader.readTop s.opened s.pos = r.prepend (.verbatim spelling .nil)) :
    (Progress.failed error).Keeps reader := by
  refine inv.keeps_failed error hstrict ?_
  intro hfits
  rw [hread] at hfits
  exact absurd hfits (Outline.not_fits_verbatim _ _ _)

theorem keeps_onEnd (inv : s.Inv reader frames cur) (hend : s.pos = reader.source.size) :
    (s.onEnd reader).Keeps reader := by
  have hholds := inv.holds
  unfold onEnd
  cases hopened : s.opened with
  | nil =>
      rw [hopened] at hholds
      obtain ⟨rfl, hread, hshows⟩ := hholds.of_nil
      rw [Reader.readFrom_end hend.ge] at hread
      have hbody : (reader.readFrom none false 0).body = cur := by
        rw [hread]
        exact Outline.append_nil cur
      refine ⟨?_, ?_⟩
      · rw [hbody]
        exact hshows.flushed.nodesOf_eq
      · rw [hbody]
        exact inv.fits
  | cons block outer =>
      simp only
      split_ifs with hstrict
      · refine inv.keeps_failed _ hstrict ?_
        intro _
        refine ⟨by simp [hopened], ?_⟩
        rw [Reader.readTop, Reader.readFrom_end hend.ge]
      · exact inv.abandon hopened hend (by simpa using hstrict)

theorem keeps_literal (inv : s.Inv reader frames cur) {c : Char} {behind : List Char}
    (hrest : reader.rest s.pos = c :: behind) (hscan : reader.scanAt? s.pos = none) :
    (s.step reader).Keeps reader := by
  have hread : reader.readTop s.opened s.pos =
      (reader.readTop s.opened (s.pos + 1)).prepend (.literal c behind) :=
    Reader.readFrom_literal hrest hscan
  rw [step_literal inv.toPlaced hrest hscan]
  split_ifs with hbrace
  · obtain ⟨hc, hhead, hstrict⟩ := hbrace
    rw [Outline.literal, if_pos ⟨hc, hhead⟩] at hread
    exact inv.keeps_failed_of_verbatim _ hstrict hread
  · have hslice : Piece.slice reader.source s.pos (s.pos + 1) = [c] := by
      rw [← Reader.take_rest, hrest]
      rfl
    have hsize : s.pos < reader.source.size := by
      by_contra hge
      rw [Reader.rest_eq_nil_iff.mpr (by omega)] at hrest
      cases hrest
    refine ⟨frames, _, inv.pass hsize (inv.passes.skip_literal hrest hscan) hread ?_ ?_⟩
    · intro room
      rw [hslice, Outline.nodes_limit_literal]
    · intro hstrict room
      have hnot : ¬(c = '{' ∧ behind.head? = some '{') := fun h => hbrace ⟨h.1, h.2, hstrict⟩
      rw [Outline.literal, if_neg hnot]
      exact ⟨trivial, trivial⟩

-- Where there is no room for a block, an opener either begins one or is text.
theorem not_fits_opener {opened : List OpenBlock} {pos width : Nat} {kind : BlockKind} {path : Path}
    (hscan : reader.scanAt? pos = some (.opener kind path, width)) :
    ¬(reader.readTop opened pos).body.Fits 0 := by
  intro hfits
  cases hcloser : (reader.readBody kind (pos + width)).closer with
  | none =>
      rw [Reader.readTop, Reader.readFrom_opener_of_unclosed hscan hcloser] at hfits
      exact Outline.not_fits_verbatim _ _ _ hfits
  | some found =>
      rw [Reader.readTop, Reader.readFrom_opener_of_closed hscan hcloser] at hfits
      have hroom := (Reading.fits_toBlock (Outline.fits_append.mp hfits).1).1
      omega

theorem keeps_openBlock (inv : s.Inv reader frames cur) {kind : BlockKind} {path : Path}
    {width : Nat} (hscan : reader.scanAt? s.pos = some (.opener kind path, width)) :
    ((s.moveTo reader (s.pos + width)).openBlock reader kind path
      ⟨s.pos, s.pos + width⟩).Keeps reader := by
  have hpasses := inv.passes.skip_tag hscan
  -- An opener that finds no closing tag is text to the plain reading as well.
  have hskip : reader.options.strict = false →
      (reader.readBody kind (s.pos + width)).closer = none →
      (s.moveTo reader (s.pos + width)).Inv reader frames
        (cur ++ .verbatim (Piece.slice reader.source s.pos (s.pos + width)) .nil) :=
    fun hlenient hcloser =>
      inv.pass_tag hscan (Reader.readFrom_opener_of_unclosed hscan hcloser) hlenient
  unfold openBlock
  simp only
  split_ifs with hmemo hstrict hdeep hreaches
  · obtain ⟨hlenient, kind', path', width', hscan', hcloser⟩ :=
      inv.unclosable s.pos (Std.TreeSet.mem_iff_contains.mpr hmemo)
    rw [hscan] at hscan'
    cases hscan'
    exact ⟨frames, _, hskip hlenient hcloser⟩
  · refine inv.keeps_failed _ hstrict ?_
    intro hfits
    have hroom : reader.options.maxDepth - s.opened.length = 0 := Nat.sub_eq_zero_of_le hdeep
    rw [hroom] at hfits
    exact absurd hfits (not_fits_opener hscan)
  · exact ⟨_, _, inv.push_block hscan (fun _ => not_le.mp hdeep)⟩
  · refine ⟨_, _, inv.push_block hscan ?_⟩
    exact fun hstrict' => absurd hstrict' hstrict
  · have hlenient : reader.options.strict = false := by simpa using hstrict
    have hcloser : (reader.readBody kind (s.pos + width)).closer = none := by
      by_contra hne
      obtain ⟨found, hfound⟩ := Option.ne_none_iff_exists'.mp hne
      exact hreaches (Reader.reaches_of_closed hpasses hfound)
    have hinv := hskip hlenient hcloser
    refine ⟨frames, _, ⟨⟨hinv.rest_eq, hinv.pos_le, hinv.passes, ?_⟩, hinv.holds, hinv.fits⟩⟩
    exact unclosable_insert hinv.unclosable ⟨hlenient, kind, path, width, hscan, hcloser⟩

theorem keeps_elseTag (inv : s.Inv reader frames cur) {width : Nat}
    (hscan : reader.scanAt? s.pos = some (.otherwise, width)) :
    ∃ frames' cur', ((s.moveTo reader (s.pos + width)).elseTag ⟨s.pos, s.pos + width⟩).Inv reader
      frames' cur' := by
  unfold elseTag
  split
  · next block outer hopened =>
    have hopened : s.opened = block :: outer := hopened
    split_ifs with hsplits
    · exact inv.split hopened hsplits hscan
    · refine ⟨frames, _, inv.push_node hscan ?_⟩
      have hread : reader.readFrom (some block.kind) false s.pos = _ :=
        Reader.readFrom_else_path hscan
      rw [← Bool.eq_false_iff.mpr hsplits] at hread
      rw [hopened]
      exact hread
  · next hopened =>
    have hopened : s.opened = [] := hopened
    refine ⟨frames, _, inv.push_node hscan ?_⟩
    rw [hopened]
    exact Reader.readFrom_else_path hscan

theorem Inv.keeps_strayCloser (inv : s.Inv reader frames cur) {kind : BlockKind} {width : Nat}
    (hscan : reader.scanAt? s.pos = some (.closer kind, width))
    (hkind : s.opened.head?.map (·.kind) ≠ some kind) (spelling : List Char) :
    ((s.moveTo reader (s.pos + width)).strayCloser reader ⟨s.pos, s.pos + width⟩ spelling).Keeps
      reader := by
  have hread : reader.readTop s.opened s.pos = _ := Reader.readFrom_stray_closer hscan hkind
  unfold strayCloser
  split_ifs with hstrict
  · exact inv.keeps_failed_of_verbatim _ hstrict hread
  · exact ⟨frames, _, inv.pass_tag hscan hread (by simpa using hstrict)⟩

theorem keeps_closer (inv : s.Inv reader frames cur) {kind : BlockKind} {width : Nat}
    (hscan : reader.scanAt? s.pos = some (.closer kind, width)) (spelling : List Char) :
    ((s.moveTo reader (s.pos + width)).onTag reader (.closer kind) spelling
      ⟨s.pos, s.pos + width⟩).Keeps reader := by
  unfold onTag
  simp only
  split
  · next block outer hopened =>
    have hopened : s.opened = block :: outer := hopened
    split_ifs with hkind
    · subst hkind
      exact inv.close hopened hscan
    · refine inv.keeps_strayCloser hscan ?_ spelling
      simpa [hopened] using hkind
  · next hopened =>
    have hopened : s.opened = [] := hopened
    refine inv.keeps_strayCloser hscan ?_ spelling
    simp [hopened]

theorem keeps_step (inv : s.Inv reader frames cur) : (s.step reader).Keeps reader := by
  cases hrest : reader.rest s.pos with
  | nil =>
      have hend : s.pos = reader.source.size :=
        Nat.le_antisymm inv.pos_le (Reader.rest_eq_nil_iff.mp hrest)
      rw [step_end inv.toPlaced hend]
      exact keeps_onEnd inv hend
  | cons c behind =>
      cases hscan : reader.scanAt? s.pos with
      | none => exact keeps_literal inv hrest hscan
      | some found =>
          obtain ⟨tag, width⟩ := found
          rw [step_tag inv.toPlaced hscan]
          cases tag with
          | placeholder path escaped =>
              exact ⟨frames, _, inv.push_node hscan (Reader.readFrom_placeholder hscan)⟩
          | opener kind path => exact keeps_openBlock inv hscan
          | otherwise => exact keeps_elseTag inv hscan
          | closer kind => exact keeps_closer inv hscan _

theorem answers_run (inv : s.Inv reader frames cur) : reader.Answers (s.run reader) := by
  fun_induction run reader s generalizing frames cur with
  | case1 s s' hstep ih =>
      have hkeeps := keeps_step inv
      rw [hstep] at hkeeps
      obtain ⟨frames', cur', inv'⟩ := hkeeps
      exact ih inv'
  | case2 s nodes hstep =>
      have hkeeps := keeps_step inv
      rw [hstep] at hkeeps
      exact hkeeps
  | case3 s error hstep =>
      have hkeeps := keeps_step inv
      rw [hstep] at hkeeps
      exact hkeeps

end State

namespace Reader

-- The reader that a text is read with.
def ofText (options : Options) (text : List Char) : Reader :=
  { source := text.toArray
    options
    closers := ({} : Closers).scan 0 (Token.ofText options.allowPadding text) }

variable (options : Options) (text : List Char)

theorem rest_ofText : (ofText options text).rest 0 = text := by
  simp [ofText, rest]

theorem body_readFrom_ofText :
    ((ofText options text).readFrom none false 0).body = Outline.ofText options text := by
  rw [readFrom, rest_ofText]
  rfl

theorem inv_start :
    (State.start (Token.ofText options.allowPadding text)).Inv (ofText options text) [] .nil := by
  have htokens : (ofText options text).tokens 0 = Token.ofText options.allowPadding text := by
    rw [tokens, rest_ofText]
    rfl
  refine ⟨⟨htokens.symm, Nat.zero_le _, ⟨{}, ?_⟩, ?_⟩, ⟨rfl, ?_⟩, fun _ => Outline.fits_nil _⟩
  · exact congrArg _ htokens
  · intro offset hoffset
    simp [State.start] at hoffset
  · exact Draft.shows_start _ 0

end Reader

namespace Node

variable {options : Options} {text : List Char} {nodes : List Node}

theorem answers_parse (options : Options) (text : List Char) :
    (Reader.ofText options text).Answers (parse options text) :=
  State.answers_run (Reader.inv_start options text)

-- Whatever is read, read leniently or strictly, is the plain reading with blocks too deep as text.
theorem eq_of_parse_eq_ok (h : parse options text = .ok nodes) :
    nodes = ((Outline.ofText options text).limit options.maxDepth).toNodes := by
  have hanswers := answers_parse options text
  rw [h] at hanswers
  rw [← Reader.body_readFrom_ofText]
  exact hanswers.1

-- That tree spells the text.
theorem spells_of_parse (h : parse options text = .ok nodes) :
    Spells options.allowPadding nodes text := by
  have hspells := Outline.spells_limit (Outline.legible_ofText options text) options.maxDepth
  rw [Outline.spelling_ofText] at hspells
  rw [eq_of_parse_eq_ok h]
  exact hspells.joinText

theorem parse_lenient (hlenient : options.strict = false) (text : List Char) :
    parse options text = .ok ((Outline.ofText options text).limit options.maxDepth).toNodes := by
  cases hparse : parse options text with
  | ok nodes => rw [eq_of_parse_eq_ok hparse]
  | error error =>
      have hanswers := answers_parse options text
      rw [hparse] at hanswers
      have hstrict : options.strict = true := hanswers.1
      rw [hlenient] at hstrict
      cases hstrict

theorem parse_strict_iff (hstrict : options.strict = true) :
    parse options text = .ok nodes ↔
      (Outline.ofText options text).Fits options.maxDepth ∧
        nodes = (Outline.ofText options text).toNodes := by
  have hanswers := answers_parse options text
  constructor
  · intro h
    rw [h] at hanswers
    have hfits : (Outline.ofText options text).Fits options.maxDepth := by
      rw [← Reader.body_readFrom_ofText]
      exact hanswers.2 hstrict
    refine ⟨hfits, ?_⟩
    rw [eq_of_parse_eq_ok h, Outline.limit_of_within hfits.2]
  · rintro ⟨hfits, rfl⟩
    cases hparse : parse options text with
    | ok nodes => rw [eq_of_parse_eq_ok hparse, Outline.limit_of_within hfits.2]
    | error error =>
        rw [hparse] at hanswers
        rw [← Reader.body_readFrom_ofText] at hfits
        exact absurd hfits hanswers.2

-- Both ways of reading at once: strict reading asks in addition that nothing be given up.
theorem parse_eq_ok_iff :
    parse options text = .ok nodes ↔
      nodes = ((Outline.ofText options text).limit options.maxDepth).toNodes ∧
        (options.strict = true → (Outline.ofText options text).Fits options.maxDepth) := by
  constructor
  · exact fun h => ⟨eq_of_parse_eq_ok h, fun hstrict => ((parse_strict_iff hstrict).mp h).1⟩
  · rintro ⟨rfl, hfits⟩
    cases hstrict : options.strict with
    | false => exact parse_lenient hstrict text
    | true =>
        refine (parse_strict_iff hstrict).mpr ⟨hfits hstrict, ?_⟩
        rw [Outline.limit_of_within (hfits hstrict).2]

end Node

end Stencil

import Stencil.Proofs.Strict.WellFormed

namespace Stencil

namespace Outline

-- Plain characters.
def ofChars (chars : List Char) : Outline :=
  chars.foldr text nil

theorem fits_ofChars (room : Nat) (chars : List Char) : (ofChars chars).Fits room := by
  induction chars with
  | nil => exact fits_nil room
  | cons c chars ih => exact ih

theorem toNodes_ofChars_append (chars : List Char) (outline : Outline) :
    (ofChars chars ++ outline).toNodes = Node.addText (String.ofList chars) outline.toNodes := by
  induction chars with
  | nil => simp [ofChars]
  | cons c chars ih =>
      have hcons : (ofChars (c :: chars) ++ outline).toNodes =
          Node.addText (String.ofList [c]) (ofChars chars ++ outline).toNodes := rfl
      rw [hcons, ih, Node.addText_addText, ← String.ofList_append]
      rfl

section Read

variable {padded : Bool} {within : Option BlockKind} {splits : Bool} {behind tag : List Char}
  {path : Path} {kind : BlockKind}

-- Two texts that are each read as an outline, one in front of the other, are read as both.
theorem read_append_append {first second : List Char} {before after : Outline}
    (hfirst : read padded within splits (first ++ (second ++ behind)) =
      ((read padded within splits (second ++ behind)).prepend before).shift first.length)
    (hsecond : read padded within splits (second ++ behind) =
      ((read padded within splits behind).prepend after).shift second.length) :
    read padded within splits (first ++ second ++ behind) =
      ((read padded within splits behind).prepend (before ++ after)).shift (first ++ second).length := by
  rw [List.append_assoc, hfirst, hsecond, Reading.prepend_shift_prepend_shift, List.length_append]

-- A character that makes no pair of braces with the next one is read as it is.
theorem read_alone {c : Char} {rest : List Char} (halone : ¬(c = '{' ∧ rest.head? = some '{')) :
    read padded within splits (c :: rest) =
      ((read padded within splits rest).prepend (text c nil)).shift 1 := by
  rw [read_literal (Tag.scan?_eq_none halone), literal, if_neg halone]

-- Characters among which no tag can begin are read as they are.
theorem read_chars {chars : List Char} (hpair : ¬['{', '{'] <:+: chars)
    (hlast : chars.getLast? = some '{' → behind.head? ≠ some '{') :
    read padded within splits (chars ++ behind) =
      ((read padded within splits behind).prepend (ofChars chars)).shift chars.length := by
  induction chars with
  | nil => simp [ofChars]
  | cons c chars ih =>
      have halone : ¬(c = '{' ∧ (chars ++ behind).head? = some '{') := by
        rintro ⟨rfl, hhead⟩
        cases chars with
        | nil => exact hlast rfl hhead
        | cons next chars =>
            cases hhead
            exact hpair ⟨[], chars, rfl⟩
      have hread : read padded within splits (chars ++ behind) =
          ((read padded within splits behind).prepend (ofChars chars)).shift chars.length := by
        refine ih (fun hinfix => hpair (List.infix_cons hinfix)) ?_
        intro hbrace
        refine hlast ?_
        rw [List.getLast?_cons_of_ne_nil]
        · exact hbrace
        · rintro rfl
          cases hbrace
      have hfirst : read padded within splits ([c] ++ (chars ++ behind)) =
          ((read padded within splits (chars ++ behind)).prepend (text c nil)).shift [c].length :=
        read_alone halone
      exact read_append_append hfirst hread

theorem spelled_otherwise_of_placeholder
    (h : Tag.Spelled padded (.placeholder ⟨"else"⟩ true) tag) : Tag.Spelled padded .otherwise tag := by
  cases h with
  | escaped hleft hright => exact .otherwise hleft hright

-- The placeholder `else` is read as such where it cannot split anything.
theorem read_placeholder_append {escaped : Bool}
    (h : Tag.Spelled padded (.placeholder path escaped) tag) (hpath : path.isValid = true)
    (helse : splits = true → ¬(path = ⟨"else"⟩ ∧ escaped = true)) :
    read padded within splits (tag ++ behind) =
      ((read padded within splits behind).prepend (placeholder path escaped tag nil)).shift
        tag.length := by
  by_cases hpathElse : path = ⟨"else"⟩ ∧ escaped = true
  · obtain ⟨rfl, rfl⟩ := hpathElse
    obtain rfl : splits = false := by
      cases splits with
      | false => rfl
      | true => exact absurd ⟨rfl, rfl⟩ (helse rfl)
    have hscan := Tag.scan?_append (spelled_otherwise_of_placeholder h) trivial behind
    rw [read_else_path hscan, List.drop_left, List.take_left]
  · have hscan := Tag.scan?_append h ⟨hpath, hpathElse⟩ behind
    rw [read_placeholder hscan, List.drop_left, List.take_left]

theorem read_closer_append (h : Tag.Spelled padded (.closer kind) tag) :
    read padded (some kind) splits (tag ++ behind) =
      { body := nil, closer := some (tag, tag.length) } := by
  have hscan := Tag.scan?_append h trivial behind
  rw [read_closer hscan, List.take_left]

theorem read_else_append (h : Tag.Spelled padded .otherwise tag) :
    read padded within true (tag ++ behind) =
      ((read padded within false behind).split tag).shift tag.length := by
  have hscan := Tag.scan?_append h trivial behind
  rw [read_else_splits hscan, List.drop_left, List.take_left]

-- An opener whose closing tag is found after `content` begins a block.
theorem read_opener_append {content closer : List Char} {r : Reading}
    (hopener : Tag.Spelled padded (.opener kind path) tag) (hpath : path.isValid = true)
    (hread : read padded (some kind) (kind = .ifTrue) (content ++ behind) = r)
    (hcloser : r.closer = some (closer, content.length)) :
    read padded within splits (tag ++ content ++ behind) =
      ((read padded within splits behind).prepend (r.toBlock kind path tag closer)).shift
        (tag ++ content).length := by
  have hscan := Tag.scan?_append hopener hpath (content ++ behind)
  have hdrop : (tag ++ (content ++ behind)).drop tag.length = content ++ behind := List.drop_left
  have hinner : (read padded (some kind) (kind = .ifTrue)
      ((tag ++ (content ++ behind)).drop tag.length)).closer = some (closer, content.length) := by
    rw [hdrop, hread, hcloser]
  rw [List.append_assoc, read_opener_of_closed hscan hinner, hdrop, hread, List.drop_left,
    List.take_left, List.length_append]

-- A block is found again if its body is, in front of the closing tag.
theorem read_block_append {inner closer : List Char} {body : Outline}
    (hopener : Tag.Spelled padded (.opener kind path) tag) (hpath : path.isValid = true)
    (hcloser : Tag.Spelled padded (.closer kind) closer)
    (hbody : read padded (some kind) (kind = .ifTrue) (inner ++ (closer ++ behind)) =
      ((read padded (some kind) (kind = .ifTrue) (closer ++ behind)).prepend body).shift
        inner.length) :
    read padded within splits (tag ++ inner ++ closer ++ behind) =
      ((read padded within splits behind).prepend (block kind path tag body closer nil)).shift
        (tag ++ inner ++ closer).length := by
  have hinner : read padded (some kind) (kind = .ifTrue) (inner ++ closer ++ behind) =
      { body, closer := some (closer, (inner ++ closer).length) } := by
    rw [List.append_assoc, hbody, read_closer_append hcloser]
    simp [Reading.prepend, Reading.shift]
  have hblock : read padded within splits (tag ++ (inner ++ closer) ++ behind) =
      ((read padded within splits behind).prepend (block kind path tag body closer nil)).shift
        (tag ++ (inner ++ closer)).length :=
    read_opener_append hopener hpath hinner rfl
  rwa [← List.append_assoc] at hblock

theorem read_ifElse_append {thenInner elseTag elseInner closer : List Char}
    {thenBody elseBody : Outline} (hopener : Tag.Spelled padded (.opener .ifTrue path) tag)
    (hpath : path.isValid = true) (helseTag : Tag.Spelled padded .otherwise elseTag)
    (hcloser : Tag.Spelled padded (.closer .ifTrue) closer)
    (hthen : read padded (some .ifTrue) true
        (thenInner ++ (elseTag ++ (elseInner ++ (closer ++ behind)))) =
      ((read padded (some .ifTrue) true (elseTag ++ (elseInner ++ (closer ++ behind)))).prepend
        thenBody).shift thenInner.length)
    (helse : read padded (some .ifTrue) false (elseInner ++ (closer ++ behind)) =
      ((read padded (some .ifTrue) false (closer ++ behind)).prepend elseBody).shift
        elseInner.length) :
    read padded within splits (tag ++ thenInner ++ elseTag ++ elseInner ++ closer ++ behind) =
      ((read padded within splits behind).prepend
        (ifElse path tag thenBody elseTag elseBody closer nil)).shift
          (tag ++ thenInner ++ elseTag ++ elseInner ++ closer).length := by
  have hinner : read padded (some .ifTrue) true
      (thenInner ++ elseTag ++ elseInner ++ closer ++ behind) =
        { body := thenBody
          elsePart := some (elseTag, elseBody)
          closer := some (closer, (thenInner ++ elseTag ++ elseInner ++ closer).length) } := by
    simp only [List.append_assoc]
    rw [hthen, read_else_append helseTag, helse, read_closer_append hcloser]
    simp [Reading.prepend, Reading.shift, Reading.split]
  have hblock : read padded within splits
      (tag ++ (thenInner ++ elseTag ++ elseInner ++ closer) ++ behind) =
        ((read padded within splits behind).prepend
          (ifElse path tag thenBody elseTag elseBody closer nil)).shift
            (tag ++ (thenInner ++ elseTag ++ elseInner ++ closer)).length :=
    read_opener_append hopener hpath hinner rfl
  simpa only [List.append_assoc] using hblock

end Read

-- The text is read as the outline, which has these nodes, wherever no `else` among them can split a block.
-- If the text may end in a brace, nothing may follow it.
structure Rereads (padded : Bool) (room : Nat) (last : Prop) (nodes : List Node)
    (spelling : List Char) (outline : Outline) : Prop where
  toNodes_eq : outline.toNodes = nodes
  fits : outline.Fits room
  read_eq : ∀ within splits behind, (last → behind = []) →
    (splits = true → .placeholder ⟨"else"⟩ true ∉ nodes) →
      read padded within splits (spelling ++ behind) =
        ((read padded within splits behind).prepend outline).shift spelling.length

section Rereads

variable {padded : Bool} {room : Nat} {last lastThen lastElse : Prop}
  {nodes body thenBody elseBody : List Node} {path : Path} {kind : BlockKind}
  {spelling opener inner thenInner elseTag elseInner closer tag : List Char}
  {outline bodyOutline thenOutline elseOutline : Outline}

theorem rereads_nil (padded : Bool) (room : Nat) (last : Prop) :
    Rereads padded room last [] [] nil := by
  refine ⟨rfl, fits_nil room, ?_⟩
  intro within splits behind _ _
  simp

theorem Rereads.text {content : String} (h : Rereads padded room last nodes spelling outline)
    (htidy : Node.Tidy (.text content :: nodes)) (hpair : ¬['{', '{'] <:+: content.toList)
    (hbrace : content.toList.getLast? = some '{' → last ∧ spelling = []) :
    Rereads padded room last (.text content :: nodes) (content.toList ++ spelling)
      (ofChars content.toList ++ outline) := by
  refine ⟨?_, fits_append.mpr ⟨fits_ofChars _ _, h.fits⟩, ?_⟩
  · have hjoin := Node.joinText_of_tidy htidy
    rw [Node.joinText_cons, Node.joinText_of_tidy htidy.of_cons] at hjoin
    rw [toNodes_ofChars_append, String.ofList_toList, h.toNodes_eq]
    exact hjoin
  · intro within splits behind hbehind helse
    have hlast : content.toList.getLast? = some '{' → (spelling ++ behind).head? ≠ some '{' := by
      intro hgetLast
      obtain ⟨hend, rfl⟩ := hbrace hgetLast
      rw [hbehind hend]
      simp
    have hread := h.read_eq within splits behind hbehind
      (fun hsplits hmem => helse hsplits (List.mem_cons_of_mem _ hmem))
    exact read_append_append (read_chars hpair hlast) hread

theorem Rereads.placeholder {escaped : Bool} (h : Rereads padded room last nodes spelling outline)
    (htag : Tag.Spelled padded (.placeholder path escaped) tag) (hpath : path.isValid = true) :
    Rereads padded room last (.placeholder path escaped :: nodes) (tag ++ spelling)
      (placeholder path escaped tag outline) := by
  refine ⟨congrArg (_ :: ·) h.toNodes_eq, h.fits, ?_⟩
  intro within splits behind hbehind helse
  have htagElse : splits = true → ¬(path = ⟨"else"⟩ ∧ escaped = true) := by
    rintro hsplits ⟨rfl, rfl⟩
    exact helse hsplits List.mem_cons_self
  have hread := h.read_eq within splits behind hbehind
    (fun hsplits hmem => helse hsplits (List.mem_cons_of_mem _ hmem))
  exact read_append_append (read_placeholder_append htag hpath htagElse) hread

theorem Rereads.block (h : Rereads padded room last nodes spelling outline)
    (hbody : Rereads padded (room - 1) lastThen body inner bodyOutline) (hinside : ¬lastThen)
    (hroom : 0 < room) (hopener : Tag.Spelled padded (.opener kind path) opener)
    (hpath : path.isValid = true) (hcloser : Tag.Spelled padded (.closer kind) closer)
    (hbodyElse : kind = .ifTrue → .placeholder ⟨"else"⟩ true ∉ body) :
    Rereads padded room last (.block kind path body :: nodes)
      (opener ++ inner ++ closer ++ spelling)
        (block kind path opener bodyOutline closer outline) := by
  obtain ⟨rfl, ⟨hbodyPlain, hbodyWithin⟩, hbodyRead⟩ := hbody
  refine ⟨congrArg (_ :: ·) h.toNodes_eq, ⟨⟨hbodyPlain, h.fits.1⟩, hroom, hbodyWithin, h.fits.2⟩, ?_⟩
  intro within splits behind hbehind helse
  have hread := h.read_eq within splits behind hbehind
    (fun hsplits hmem => helse hsplits (List.mem_cons_of_mem _ hmem))
  have hbodyText := hbodyRead (some kind) (kind = .ifTrue) (closer ++ (spelling ++ behind))
    (fun hend => absurd hend hinside) (by simpa using hbodyElse)
  exact read_append_append (read_block_append hopener hpath hcloser hbodyText) hread

theorem Rereads.ifElse (h : Rereads padded room last nodes spelling outline)
    (hthen : Rereads padded (room - 1) lastThen thenBody thenInner thenOutline)
    (hinsideThen : ¬lastThen)
    (helse : Rereads padded (room - 1) lastElse elseBody elseInner elseOutline)
    (hinsideElse : ¬lastElse) (hroom : 0 < room)
    (hopener : Tag.Spelled padded (.opener .ifTrue path) opener) (hpath : path.isValid = true)
    (helseTag : Tag.Spelled padded .otherwise elseTag)
    (hcloser : Tag.Spelled padded (.closer .ifTrue) closer)
    (hthenElse : .placeholder ⟨"else"⟩ true ∉ thenBody) :
    Rereads padded room last (.ifElse path thenBody elseBody :: nodes)
      (opener ++ thenInner ++ elseTag ++ elseInner ++ closer ++ spelling)
        (ifElse path opener thenOutline elseTag elseOutline closer outline) := by
  obtain ⟨rfl, ⟨hthenPlain, hthenWithin⟩, hthenRead⟩ := hthen
  obtain ⟨rfl, ⟨helsePlain, helseWithin⟩, helseRead⟩ := helse
  refine ⟨congrArg (_ :: ·) h.toNodes_eq, ⟨⟨hthenPlain, helsePlain, h.fits.1⟩, hroom, hthenWithin,
    helseWithin, h.fits.2⟩, ?_⟩
  intro within splits behind hbehind helse
  have hread := h.read_eq within splits behind hbehind
    (fun hsplits hmem => helse hsplits (List.mem_cons_of_mem _ hmem))
  have hthenText := hthenRead (some .ifTrue) true
    (elseTag ++ (elseInner ++ (closer ++ (spelling ++ behind))))
    (fun hend => absurd hend hinsideThen) (fun _ => hthenElse)
  have helseText := helseRead (some .ifTrue) false (closer ++ (spelling ++ behind))
    (fun hend => absurd hend hinsideElse) (by simp)
  exact read_append_append (read_ifElse_append hopener hpath helseTag hcloser hthenText helseText)
    hread

end Rereads

-- The induction is on the spelling, and `nodes` is the end of a list in the tree. The text behind it
-- matters only at the root, whose last text may end in a brace.
theorem exists_rereads {padded : Bool} {maxDepth : Nat} {root nodes : List Node}
    {spelling : List Char} (hroot : Node.WellFormed maxDepth root)
    (h : Node.Spells padded nodes spelling) {depth : Nat} {before : List Node}
    (hlist : Node.ListIn root depth (before ++ nodes)) :
    ∃ outline, Rereads padded (maxDepth - depth) (depth = 0) nodes spelling outline := by
  induction h generalizing depth before with
  | nil => exact ⟨nil, rereads_nil _ _ _⟩
  | @text content rest spelling hrest ih =>
      have hpair := hroot.no_pair depth _ hlist content (by simp)
      have hbrace : content.toList.getLast? = some '{' → depth = 0 ∧ spelling = [] := by
        intro hgetLast
        obtain ⟨hdepth, rfl⟩ :=
          hroot.no_last_brace depth _ hlist content rest ⟨before, rfl⟩ hgetLast
        cases hrest
        exact ⟨hdepth, rfl⟩
      have htidy := (hroot.tidy depth _ hlist).of_append
      rw [List.append_cons] at hlist
      obtain ⟨outline, houtline⟩ := ih hlist
      exact ⟨_, houtline.text htidy hpair hbrace⟩
  | @placeholder path escaped rest tag spelling htag hrest ih =>
      have hpath : path.isValid = true :=
        hroot.path_valid depth _ hlist (.placeholder path escaped) (by simp)
      rw [List.append_cons] at hlist
      obtain ⟨outline, houtline⟩ := ih hlist
      exact ⟨_, houtline.placeholder htag hpath⟩
  | @block kind path body rest opener inner closer spelling hopener hbody hcloser hrest ihBody ih =>
      have hmem : .block kind path body ∈ before ++ .block kind path body :: rest := by simp
      have hpath : path.isValid = true := hroot.path_valid depth _ hlist _ hmem
      have hdepth := hroot.depth_lt depth _ hlist _ hmem rfl
      have hbodyElse : kind = .ifTrue → .placeholder ⟨"else"⟩ true ∉ body := by
        rintro rfl
        exact hroot.no_else depth _ hlist path body hmem
      have hbodyList : Node.ListIn root (depth + 1) ([] ++ body) := .body hlist hmem
      obtain ⟨bodyOutline, hbodyOutline⟩ := ihBody hbodyList
      rw [List.append_cons] at hlist
      obtain ⟨outline, houtline⟩ := ih hlist
      exact ⟨_, houtline.block hbodyOutline (by omega) (by omega) hopener hpath hcloser hbodyElse⟩
  | @ifElse path thenBody elseBody rest opener thenInner elseTag elseInner closer spelling hopener
      hthen helseTag helse hcloser hrest ihThen ihElse ih =>
      have hmem : .ifElse path thenBody elseBody ∈
          before ++ .ifElse path thenBody elseBody :: rest := by simp
      have hpath : path.isValid = true := hroot.path_valid depth _ hlist _ hmem
      have hdepth := hroot.depth_lt depth _ hlist _ hmem rfl
      have hthenElse := hroot.no_else_then depth _ hlist path thenBody elseBody hmem
      have hthenList : Node.ListIn root (depth + 1) ([] ++ thenBody) := .thenBody hlist hmem
      have helseList : Node.ListIn root (depth + 1) ([] ++ elseBody) := .elseBody hlist hmem
      obtain ⟨thenOutline, hthenOutline⟩ := ihThen hthenList
      obtain ⟨elseOutline, helseOutline⟩ := ihElse helseList
      rw [List.append_cons] at hlist
      obtain ⟨outline, houtline⟩ := ih hlist
      exact ⟨_, houtline.ifElse hthenOutline (by omega) helseOutline (by omega) (by omega) hopener
        hpath helseTag hcloser hthenElse⟩

end Outline

end Stencil

import Stencil.Proofs.Strict.Completeness

namespace Stencil

namespace Outline

-- No closing tag of this kind stands here as text, blocks apart.
def OpenTo (padded : Bool) (kind : BlockKind) : Outline → Prop
  | nil => True
  | text _ rest => rest.OpenTo padded kind
  | verbatim spelling rest =>
    ¬Tag.Spelled padded (.closer kind) spelling ∧ rest.OpenTo padded kind
  | placeholder _ _ _ rest => rest.OpenTo padded kind
  | block _ _ _ _ _ rest => rest.OpenTo padded kind
  | ifElse _ _ _ _ _ _ rest => rest.OpenTo padded kind

-- The text does not close a block of this kind whose opener stands in front of it.
def Unclosed (padded : Bool) (kind : BlockKind) (text : List Char) : Prop :=
  (read padded (some kind) (kind = .ifTrue) text).closer = none

-- Why these characters are no more than text in front of `behind`.
inductive LeftAsText (padded : Bool) : List Char → List Char → Prop
  | brace {behind : List Char} (hhead : behind.head? = some '{')
      (hscan : Tag.scan? padded ('{' :: behind) = none) : LeftAsText padded ['{'] behind
  | opener {kind : BlockKind} {path : Path} {spelling behind : List Char}
      (hspelled : Tag.Spelled padded (.opener kind path) spelling) (hpath : path.isValid = true)
      (hunclosed : Unclosed padded kind behind) : LeftAsText padded spelling behind
  | closer {kind : BlockKind} {spelling behind : List Char}
      (hspelled : Tag.Spelled padded (.closer kind) spelling) : LeftAsText padded spelling behind

-- Nothing in the outline would be read otherwise in front of `behind`.
def Settled (padded : Bool) (behind : List Char) : Outline → Prop
  | nil => True
  | text c rest =>
    (c = '{' → (rest.spelling ++ behind).head? ≠ some '{') ∧ rest.Settled padded behind
  | verbatim spelling rest =>
    LeftAsText padded spelling (rest.spelling ++ behind) ∧ rest.Settled padded behind
  | placeholder path escaped spelling rest =>
    Tag.Spelled padded (.placeholder path escaped) spelling ∧ path.isValid = true ∧
      rest.Settled padded behind
  | block kind path opener body closer rest =>
    Tag.Spelled padded (.opener kind path) opener ∧ path.isValid = true ∧
      (body.Settled padded (closer ++ (rest.spelling ++ behind)) ∧ body.OpenTo padded kind ∧
        (kind = .ifTrue → body.NoElse)) ∧
      Tag.Spelled padded (.closer kind) closer ∧ rest.Settled padded behind
  | ifElse path opener thenBody elseTag elseBody closer rest =>
    Tag.Spelled padded (.opener .ifTrue path) opener ∧ path.isValid = true ∧
      (thenBody.Settled padded
          (elseTag ++ (elseBody.spelling ++ (closer ++ (rest.spelling ++ behind)))) ∧
        thenBody.OpenTo padded .ifTrue ∧ thenBody.NoElse) ∧
      Tag.Spelled padded .otherwise elseTag ∧
      (elseBody.Settled padded (closer ++ (rest.spelling ++ behind)) ∧
        elseBody.OpenTo padded .ifTrue) ∧
      Tag.Spelled padded (.closer .ifTrue) closer ∧ rest.Settled padded behind

variable {padded : Bool} {within : Option BlockKind} {splits : Bool} {behind spelling : List Char}
  {kind : BlockKind} {outline first second : Outline}

@[simp] theorem openTo_append :
    (first ++ second).OpenTo padded kind ↔ first.OpenTo padded kind ∧ second.OpenTo padded kind := by
  induction first <;> simp_all [OpenTo, and_assoc]

theorem settled_append :
    (first ++ second).Settled padded behind ↔
      first.Settled padded (second.spelling ++ behind) ∧ second.Settled padded behind := by
  induction first <;> simp_all [Settled, and_assoc]

-- Where nothing was left as text, what follows matters only to a last brace.
theorem Settled.of_plain {more : List Char} (h : outline.Settled padded behind)
    (hplain : outline.Plain)
    (hlast : outline.spelling.getLast? = some '{' → more.head? = behind.head?) :
    outline.Settled padded more := by
  have htag : ∀ {tag : Tag} {spelling : List Char} (last last' : List Char),
      Tag.Spelled padded tag spelling → (spelling ++ last).head? = (spelling ++ last').head? := by
    intro tag spelling last last' hspelled
    rw [Tag.head?_of_spelled hspelled, Tag.head?_of_spelled hspelled]
  induction outline generalizing behind more with
  | nil => trivial
  | text c rest ih =>
      obtain ⟨hc, hrest⟩ := h
      refine ⟨?_, ih hrest hplain
        (fun hbrace => hlast (by simp [Outline.spelling, List.getLast?_cons, hbrace]))⟩
      intro hbrace
      have halone := hc hbrace
      cases hspelling : rest.spelling with
      | nil =>
          rw [hspelling] at halone
          rwa [List.nil_append, hlast (by simp [Outline.spelling, hspelling, hbrace])]
      | cons next last =>
          rw [hspelling] at halone
          exact halone
  | verbatim => exact hplain.elim
  | placeholder path escaped spelling rest ih =>
      obtain ⟨hspelled, hpath, hrest⟩ := h
      exact ⟨hspelled, hpath, ih hrest hplain
        (fun hbrace => hlast (by simp [Outline.spelling, List.getLast?_append, hbrace]))⟩
  | block kind path opener body closer rest ihBody ihRest =>
      obtain ⟨hopener, hpath, ⟨hbody, hinside⟩, hcloser, hrest⟩ := h
      have hrest' : rest.Settled padded more := ihRest hrest hplain.2
        (fun hbrace => hlast (by simp [Outline.spelling, List.getLast?_append, hbrace]))
      exact ⟨hopener, hpath, ⟨ihBody hbody hplain.1 (fun _ => htag _ _ hcloser), hinside⟩, hcloser,
        hrest'⟩
  | ifElse path opener thenBody elseTag elseBody closer rest ihThen ihElse ihRest =>
      obtain ⟨hopener, hpath, ⟨hthen, hinside⟩, helseTag, ⟨helse, helseOpen⟩, hcloser, hrest⟩ := h
      have hrest' : rest.Settled padded more := ihRest hrest hplain.2.2
        (fun hbrace => hlast (by simp [Outline.spelling, List.getLast?_append, hbrace]))
      exact ⟨hopener, hpath, ⟨ihThen hthen hplain.1 (fun _ => htag _ _ helseTag), hinside⟩, helseTag,
        ⟨ihElse helse hplain.2.1 (fun _ => htag _ _ hcloser), helseOpen⟩, hcloser, hrest'⟩

section Reread

theorem LeftAsText.read_append (h : LeftAsText padded spelling behind)
    (hwithin : ∀ kind, within = some kind → ¬Tag.Spelled padded (.closer kind) spelling) :
    read padded within splits (spelling ++ behind) =
      ((read padded within splits behind).prepend (verbatim spelling nil)).shift
        spelling.length := by
  cases h with
  | brace hhead hscan =>
      rw [List.singleton_append, read_literal hscan, literal, if_pos ⟨rfl, hhead⟩]
      rfl
  | @opener kind path _ _ hspelled hpath hunclosed =>
      have hscan := Tag.scan?_append hspelled hpath behind
      have hdrop : (spelling ++ behind).drop spelling.length = behind := List.drop_left
      rw [read_opener_of_unclosed hscan (by rwa [hdrop]), hdrop, List.take_left]
  | @closer kind _ _ hspelled =>
      have hscan := Tag.scan?_append hspelled trivial behind
      have hkind : within ≠ some kind := fun hkind => hwithin kind hkind hspelled
      rw [read_stray_closer hscan hkind, List.drop_left, List.take_left]

theorem Settled.read_append (h : outline.Settled padded behind)
    (hwithin : ∀ kind, within = some kind → outline.OpenTo padded kind)
    (hsplits : splits = true → outline.NoElse) :
    read padded within splits (outline.spelling ++ behind) =
      ((read padded within splits behind).prepend outline).shift outline.spelling.length := by
  induction outline generalizing within splits behind with
  | nil => simp [Outline.spelling]
  | text c rest ih =>
      obtain ⟨hc, hrest⟩ := h
      have hfirst : read padded within splits ([c] ++ (rest.spelling ++ behind)) =
          ((read padded within splits (rest.spelling ++ behind)).prepend (text c nil)).shift
            [c].length :=
        read_alone (fun hbrace => hc hbrace.1 hbrace.2)
      exact read_append_append hfirst (ih hrest hwithin hsplits)
  | verbatim spelling rest ih =>
      obtain ⟨hleft, hrest⟩ := h
      exact read_append_append (hleft.read_append (fun kind hkind => (hwithin kind hkind).1))
        (ih hrest (fun kind hkind => (hwithin kind hkind).2) hsplits)
  | placeholder path escaped spelling rest ih =>
      obtain ⟨hspelled, hpath, hrest⟩ := h
      exact read_append_append
        (read_placeholder_append hspelled hpath (fun hsplit => (hsplits hsplit).1))
        (ih hrest hwithin (fun hsplit => (hsplits hsplit).2))
  | block kind path opener body closer rest ihBody ihRest =>
      obtain ⟨hopener, hpath, ⟨hbody, hopen, hnoElse⟩, hcloser, hrest⟩ := h
      have hinner : read padded (some kind) (kind = .ifTrue)
          (body.spelling ++ (closer ++ (rest.spelling ++ behind))) = _ :=
        ihBody hbody (by rintro _ ⟨⟩; exact hopen) (by simpa using hnoElse)
      exact read_append_append (read_block_append hopener hpath hcloser hinner)
        (ihRest hrest hwithin hsplits)
  | ifElse path opener thenBody elseTag elseBody closer rest ihThen ihElse ihRest =>
      obtain ⟨hopener, hpath, ⟨hthen, hthenOpen, hnoElse⟩, helseTag, ⟨helse, helseOpen⟩, hcloser,
        hrest⟩ := h
      have hthenText : read padded (some .ifTrue) true (thenBody.spelling ++
          (elseTag ++ (elseBody.spelling ++ (closer ++ (rest.spelling ++ behind))))) = _ :=
        ihThen hthen (by rintro _ ⟨⟩; exact hthenOpen) (fun _ => hnoElse)
      have helseText : read padded (some .ifTrue) false
          (elseBody.spelling ++ (closer ++ (rest.spelling ++ behind))) = _ :=
        ihElse helse (by rintro _ ⟨⟩; exact helseOpen) (by simp)
      exact read_append_append (read_ifElse_append hopener hpath helseTag hcloser hthenText helseText)
        (ihRest hrest hwithin hsplits)

end Reread

section Unclosed

-- An `else` tag changes what a body becomes, but not where it ends.
theorem closer_read_splits (padded : Bool) (within : Option BlockKind) (splits : Bool)
    (text : List Char) :
    (read padded within splits text).closer = (read padded within false text).closer := by
  fun_induction read padded within splits text with
  | case1 => simp
  | case2 within splits c rest hscan ih => simp [read_literal hscan, ih]
  | case3 within splits c rest width spelling behind path escaped _ hscan ih =>
      simp [read_placeholder hscan, ih, behind]
  | case4 within splits c rest width spelling behind kind path _ inner closer used hcloser hscan _
      ih =>
      rw [read_opener_of_closed hscan hcloser]
      simp only [Reading.closer_shift, Reading.closer_prepend, ih]
      rfl
  | case5 within splits c rest width spelling behind kind path _ inner hcloser hscan _ ih =>
      rw [read_opener_of_unclosed hscan hcloser]
      simp [ih, behind]
  | case6 within c rest width spelling behind _ hscan ih => simp [read_else_path hscan, behind]
  | case7 within splits c rest width spelling behind _ hsplits hscan ih =>
      simp [read_else_path hscan, ih, behind]
  | case8 splits c rest width spelling kind _ hscan => rw [read_closer hscan]
  | case9 within splits c rest width spelling behind kind _ hkind hscan ih =>
      simp [read_stray_closer hscan hkind, ih, behind]

theorem unclosed_iff {text : List Char} :
    Unclosed padded kind text ↔ (read padded (some kind) false text).closer = none := by
  rw [Unclosed, closer_read_splits]

-- The first closing tag of the kind that stands here as text.
theorem exists_of_not_openTo (h : ¬outline.OpenTo padded kind) :
    ∃ first closer rest, outline = first ++ verbatim closer rest ∧ first.OpenTo padded kind ∧
      Tag.Spelled padded (.closer kind) closer := by
  induction outline with
  | nil => exact absurd trivial h
  | text c rest ih =>
      obtain ⟨first, closer, last, rfl, hfirst, hcloser⟩ := ih h
      exact ⟨text c first, closer, last, rfl, hfirst, hcloser⟩
  | verbatim spelling rest ih =>
      by_cases hspelled : Tag.Spelled padded (.closer kind) spelling
      · exact ⟨nil, spelling, rest, rfl, trivial, hspelled⟩
      · obtain ⟨first, closer, last, rfl, hfirst, hcloser⟩ := ih (fun hrest => h ⟨hspelled, hrest⟩)
        exact ⟨verbatim spelling first, closer, last, rfl, ⟨hspelled, hfirst⟩, hcloser⟩
  | placeholder path escaped spelling rest ih =>
      obtain ⟨first, closer, last, rfl, hfirst, hcloser⟩ := ih h
      exact ⟨placeholder path escaped spelling first, closer, last, rfl, hfirst, hcloser⟩
  | block other path opener body tag rest _ ih =>
      obtain ⟨first, closer, last, rfl, hfirst, hcloser⟩ := ih h
      exact ⟨block other path opener body tag first, closer, last, rfl, hfirst, hcloser⟩
  | ifElse path opener thenBody elseTag elseBody tag rest _ _ ih =>
      obtain ⟨first, closer, last, rfl, hfirst, hcloser⟩ := ih h
      exact ⟨ifElse path opener thenBody elseTag elseBody tag first, closer, last, rfl, hfirst, hcloser⟩

theorem unclosed_closer_append_iff {other : BlockKind} {tag : List Char}
    (h : Tag.Spelled padded (.closer other) tag) :
    Unclosed padded kind (tag ++ behind) ↔ other ≠ kind ∧ Unclosed padded kind behind := by
  by_cases hkind : other = kind
  · subst hkind
    simp [Unclosed, read_closer_append h]
  · have hwithin : some kind ≠ some other := fun heq => hkind (Option.some.inj heq).symm
    rw [unclosed_iff, unclosed_iff, read_stray_closer (Tag.scan?_append h trivial behind) hwithin]
    simp [hkind]

theorem unclosed_else_append_iff {tag : List Char} (h : Tag.Spelled padded .otherwise tag) :
    Unclosed padded kind (tag ++ behind) ↔ Unclosed padded kind behind := by
  rw [unclosed_iff, unclosed_iff, read_else_path (Tag.scan?_append h trivial behind)]
  simp

theorem Settled.unclosed_append_of_openTo (h : outline.Settled padded behind)
    (hopen : outline.OpenTo padded kind) :
    Unclosed padded kind (outline.spelling ++ behind) ↔ Unclosed padded kind behind := by
  have hwithin : ∀ other, some kind = some other → outline.OpenTo padded other := by
    rintro _ ⟨⟩
    exact hopen
  rw [unclosed_iff, unclosed_iff, h.read_append hwithin (by simp)]
  simp

-- An opener of the kind in front of the outline is closed in it or behind it, or not at all.
theorem Settled.unclosed_append_iff (h : outline.Settled padded behind) :
    Unclosed padded kind (outline.spelling ++ behind) ↔
      outline.OpenTo padded kind ∧ Unclosed padded kind behind := by
  by_cases hopen : outline.OpenTo padded kind
  · rw [h.unclosed_append_of_openTo hopen]
    exact (and_iff_right hopen).symm
  · obtain ⟨first, closer, rest, rfl, hfirst, hcloser⟩ := exists_of_not_openTo hopen
    have htext : (first ++ verbatim closer rest).spelling ++ behind =
        first.spelling ++ (closer ++ (rest.spelling ++ behind)) := by simp [Outline.spelling]
    have hsettled : first.Settled padded (closer ++ (rest.spelling ++ behind)) := by
      simpa [Outline.spelling] using (settled_append.mp h).1
    rw [htext, hsettled.unclosed_append_of_openTo hfirst, unclosed_closer_append_iff hcloser]
    simp [hopen]

end Unclosed

end Outline

namespace Reading

-- What stands behind the first part of the body, up to the end of the closing tag.
def tail (r : Reading) : List Char :=
  match r.elsePart with
  | some (elseTag, elseBody) => elseTag ++ (elseBody.spelling ++ r.closing)
  | none => r.closing

-- Is each part of the body settled in front of what follows it, and no closing tag in it one of the body?
structure Settled (padded : Bool) (within : Option BlockKind) (text after : List Char) (r : Reading) :
    Prop where
  text_eq : text = r.spelling ++ after
  body : r.body.Settled padded (r.tail ++ after)
  elsePart : ∀ part ∈ r.elsePart, part.2.Settled padded (r.closing ++ after)
  openTo : ∀ kind, within = some kind →
    r.body.OpenTo padded kind ∧ ∀ part ∈ r.elsePart, part.2.OpenTo padded kind

variable {padded : Bool} {within : Option BlockKind} {splits : Bool} {text after : List Char}
  {r : Reading} {before : Outline} {width : Nat}

theorem spelling_eq_append_tail (r : Reading) : r.spelling = r.body.spelling ++ r.tail := by
  cases helse : r.elsePart <;> simp [spelling, tail, helse]

@[simp] theorem tail_prepend (before : Outline) (r : Reading) : (r.prepend before).tail = r.tail := rfl

@[simp] theorem tail_shift (width : Nat) (r : Reading) : (r.shift width).tail = r.tail := by
  simp only [tail, closing_shift]
  rfl

theorem Settled.prepend (h : r.Settled padded within (text.drop width) after)
    (hspelling : before.spelling = text.take width) (hbefore : before.Settled padded (text.drop width))
    (hopen : ∀ kind, within = some kind → before.OpenTo padded kind) :
    ((r.prepend before).shift width).Settled padded within text after := by
  have hbody : (before ++ r.body).Settled padded (r.tail ++ after) := by
    refine Outline.settled_append.mpr ⟨?_, h.body⟩
    rwa [← List.append_assoc, ← spelling_eq_append_tail, ← h.text_eq]
  constructor
  case text_eq =>
    rw [spelling_shift, spelling_prepend, List.append_assoc, ← h.text_eq, hspelling,
      List.take_append_drop]
  case body =>
    rw [tail_shift, tail_prepend]
    exact hbody
  case elsePart =>
    rw [closing_shift]
    exact h.elsePart
  case openTo =>
    intro kind hkind
    obtain ⟨hrest, helse⟩ := h.openTo kind hkind
    exact ⟨Outline.openTo_append.mpr ⟨hopen kind hkind, hrest⟩, helse⟩

theorem Settled.prepend_verbatim (h : r.Settled padded within (text.drop width) after)
    (hleft : Outline.LeftAsText padded (text.take width) (text.drop width))
    (hcloser : ∀ kind, within = some kind → ¬Tag.Spelled padded (.closer kind) (text.take width)) :
    ((r.prepend (.verbatim (text.take width) .nil)).shift width).Settled padded within text after :=
  h.prepend (List.append_nil _) ⟨hleft, trivial⟩ (fun kind hkind => ⟨hcloser kind hkind, trivial⟩)

theorem Settled.split (h : r.Settled padded within (text.drop width) after)
    (hpart : r.elsePart = none) :
    ((r.split (text.take width)).shift width).Settled padded within text after := by
  have htail : r.tail = r.closing := by rw [tail, hpart]
  constructor
  case text_eq =>
    rw [spelling_shift, spelling_split _ hpart, List.append_assoc, ← h.text_eq,
      List.take_append_drop]
  case body => trivial
  case elsePart =>
    rintro part ⟨⟩
    simpa [htail] using h.body
  case openTo =>
    intro kind hkind
    refine ⟨trivial, ?_⟩
    rintro part ⟨⟩
    exact (h.openTo kind hkind).1

theorem Settled.toBlock {kind : BlockKind} {path : Path} {opener closer : List Char} {used : Nat}
    (h : r.Settled padded (some kind) text after)
    (hsound : r.Sound padded (some kind) (kind = .ifTrue) text) (hcloser : r.closer = some (closer, used))
    (hopener : Tag.Spelled padded (.opener kind path) opener) (hpath : path.isValid = true) :
    (r.toBlock kind path opener closer).Settled padded after := by
  obtain ⟨-, -, other, hother, hspelled⟩ := hsound.closed closer used hcloser
  obtain rfl := Option.some.inj hother
  obtain ⟨hopen, hopenElse⟩ := h.openTo kind rfl
  have hbody := h.body
  have hclosing : r.closing = closer := by rw [closing, hcloser]
  unfold Reading.toBlock
  split
  · next elseTag elseBody helse =>
    obtain ⟨hkind, helseTag, -, -⟩ := hsound.elsePart elseTag elseBody helse
    obtain rfl : kind = .ifTrue := of_decide_eq_true hkind
    have helseBody := h.elsePart _ helse
    rw [hclosing] at helseBody
    simp only [tail, helse, hclosing, List.append_assoc] at hbody
    exact ⟨hopener, hpath, ⟨hbody, hopen, hsound.noElse hkind⟩, helseTag,
      ⟨helseBody, hopenElse _ helse⟩, hspelled, trivial⟩
  · next helse =>
    rw [tail, helse, hclosing] at hbody
    exact ⟨hopener, hpath, ⟨hbody, hopen, fun hkind => hsound.noElse (decide_eq_true hkind)⟩, hspelled,
      trivial⟩

theorem openTo_toBlock {kind : BlockKind} (other : BlockKind) (path : Path)
    (opener closer : List Char) : (r.toBlock other path opener closer).OpenTo padded kind := by
  unfold Reading.toBlock
  split <;> trivial

-- The text behind a body is what its closing tag leaves.
theorem Settled.drop_eq {closer : List Char} {used : Nat} (h : r.Settled padded within text after)
    (hsound : r.Sound padded within splits text) (hcloser : r.closer = some (closer, used)) :
    text.drop used = after := by
  obtain ⟨-, htake, -⟩ := hsound.closed closer used hcloser
  have htext := h.text_eq
  rw [htake] at htext
  nth_rewrite 1 [← List.take_append_drop used text] at htext
  exact List.append_cancel_left htext

end Reading

namespace Outline

theorem settled_literal {c : Char} {rest : List Char} (hscan : Tag.scan? padded (c :: rest) = none) :
    (literal c rest).Settled padded rest := by
  unfold literal
  split_ifs with hbrace
  · obtain ⟨rfl, hhead⟩ := hbrace
    exact ⟨.brace hhead hscan, trivial⟩
  · exact ⟨fun hc hhead => hbrace ⟨hc, hhead⟩, trivial⟩

theorem openTo_literal (c : Char) (rest : List Char) : (literal c rest).OpenTo padded kind := by
  unfold literal
  split_ifs
  · refine ⟨?_, trivial⟩
    intro hspelled
    obtain ⟨more, hmore⟩ := Tag.exists_braced_of_spelled hspelled
    cases hmore
  · trivial

theorem settled_read (padded : Bool) (within : Option BlockKind) (splits : Bool) (text : List Char) :
    ∃ after, (read padded within splits text).Settled padded within text after := by
  fun_induction read padded within splits text with
  | case1 within splits =>
      exact ⟨[], ⟨rfl, trivial, by simp, fun _ _ => ⟨trivial, by simp⟩⟩⟩
  | case2 within splits c rest hscan ih =>
      obtain ⟨after, hafter⟩ := ih
      exact ⟨after, Reading.Settled.prepend hafter (spelling_literal c rest) (settled_literal hscan)
        (fun kind _ => openTo_literal c rest)⟩
  | case3 within splits c rest width spelling behind path escaped _ hscan ih =>
      obtain ⟨after, hafter⟩ := ih
      obtain ⟨hspelled, hpath, -⟩ := Tag.spelled_of_scan? hscan
      exact ⟨after, hafter.prepend (List.append_nil _) ⟨hspelled, hpath, trivial⟩ (fun _ _ => trivial)⟩
  | case4 within splits c rest width spelling behind kind path _ inner closer used hcloser hscan
      ihInner ihRest =>
      obtain ⟨between, hinner⟩ := ihInner
      obtain ⟨after, hafter⟩ := ihRest
      obtain ⟨hspelled, hpath⟩ := Tag.spelled_of_scan? hscan
      have hsound := sound_read padded (some kind) (kind = .ifTrue) behind
      have htake := (hsound.closed closer used hcloser).2.1
      have hdrop := hinner.drop_eq hsound hcloser
      refine ⟨after, Reading.Settled.prepend ?_ ?_ ?_ ?_⟩
      · simpa [behind, List.drop_drop] using hafter
      · rw [Reading.spelling_toBlock hcloser, htake, List.take_add]
      · rw [← List.drop_drop, hdrop]
        exact hinner.toBlock hsound hcloser hspelled hpath
      · exact fun _ _ => Reading.openTo_toBlock kind path spelling closer
  | case5 within splits c rest width spelling behind kind path _ inner hcloser hscan _ ih =>
      obtain ⟨after, hafter⟩ := ih
      obtain ⟨hspelled, hpath⟩ := Tag.spelled_of_scan? hscan
      refine ⟨after, hafter.prepend_verbatim (.opener hspelled hpath hcloser) ?_⟩
      intro other _ hcloserTag
      cases Tag.eq_of_spelled hspelled hpath hcloserTag trivial
  | case6 within c rest width spelling behind _ hscan ih =>
      obtain ⟨after, hafter⟩ := ih
      exact ⟨after, hafter.split (sound_read padded within false behind).elsePart_eq_none⟩
  | case7 within splits c rest width spelling behind _ hsplits hscan ih =>
      obtain ⟨after, hafter⟩ := ih
      have hspelled := spelled_placeholder_of_otherwise (Tag.spelled_of_scan? hscan).1
      exact ⟨after, hafter.prepend (List.append_nil _) ⟨hspelled, by decide, trivial⟩
        (fun _ _ => trivial)⟩
  | case8 splits c rest width spelling kind _ hscan =>
      exact ⟨(c :: rest).drop width, ⟨(List.take_append_drop _ _).symm, trivial, by simp,
        fun _ _ => ⟨trivial, by simp⟩⟩⟩
  | case9 within splits c rest width spelling behind kind _ hkind hscan ih =>
      obtain ⟨after, hafter⟩ := ih
      have hspelled := (Tag.spelled_of_scan? hscan).1
      refine ⟨after, hafter.prepend_verbatim (.closer hspelled) ?_⟩
      intro other hwithin hother
      cases Tag.eq_of_spelled hspelled trivial hother trivial
      exact hkind hwithin

theorem settled_ofText (options : Options) (text : List Char) :
    (ofText options text).Settled options.allowPadding [] := by
  obtain ⟨after, hafter⟩ := settled_read options.allowPadding none false text
  obtain ⟨hcloser, helse⟩ := read_whole options.allowPadding text
  have hclosing : (read options.allowPadding none false text).closing = [] := by
    rw [Reading.closing, hcloser]
  have hspelling : (read options.allowPadding none false text).spelling = text := by
    rw [Reading.spelling, helse, hclosing, List.append_nil]
    exact spelling_ofText options text
  obtain rfl : after = [] := by
    have htext := hafter.text_eq
    rwa [hspelling, List.self_eq_append_right] at htext
  have hbody := hafter.body
  rw [Reading.tail, helse, hclosing] at hbody
  exact hbody

end Outline

end Stencil

import Stencil.Proofs.Reading

namespace Stencil

namespace Outline

-- What stands at `spelling` begins with a pair of braces.
def StartsTag (spelling : List Char) : Prop :=
  ∃ rest, spelling = '{' :: '{' :: rest

-- Every tag is spelled as one, and the literal characters are those at which no tag can begin, when the
-- outline is followed by `behind`.
def Legible (padded : Bool) (behind : List Char) : Outline → Prop
  | nil => True
  | text c rest =>
    (c = '{' → (rest.spelling ++ behind).head? ≠ some '{') ∧ rest.Legible padded behind
  | verbatim spelling rest =>
    StartsTag (spelling ++ rest.spelling ++ behind) ∧ rest.Legible padded behind
  | placeholder path escaped spelling rest =>
    Tag.Spelled padded (.placeholder path escaped) spelling ∧ path.isValid = true ∧
      rest.Legible padded behind
  | block kind path opener body closer rest =>
    Tag.Spelled padded (.opener kind path) opener ∧ path.isValid = true ∧
      body.Legible padded closer ∧ Tag.Spelled padded (.closer kind) closer ∧
        rest.Legible padded behind
  | ifElse path opener thenBody elseTag elseBody closer rest =>
    Tag.Spelled padded (.opener .ifTrue path) opener ∧ path.isValid = true ∧
      thenBody.Legible padded elseTag ∧ Tag.Spelled padded .otherwise elseTag ∧
        elseBody.Legible padded closer ∧ Tag.Spelled padded (.closer .ifTrue) closer ∧
          rest.Legible padded behind

-- No escaped placeholder `else` stands here, blocks apart.
def NoElse : Outline → Prop
  | nil => True
  | text _ rest => rest.NoElse
  | verbatim _ rest => rest.NoElse
  | placeholder path escaped _ rest => ¬(path = ⟨"else"⟩ ∧ escaped = true) ∧ rest.NoElse
  | block _ _ _ _ _ rest => rest.NoElse
  | ifElse _ _ _ _ _ _ rest => rest.NoElse

-- No `else` is left over in the first branch of an `if`, however deep.
def ElseSplits : Outline → Prop
  | nil => True
  | text _ rest => rest.ElseSplits
  | verbatim _ rest => rest.ElseSplits
  | placeholder _ _ _ rest => rest.ElseSplits
  | block kind _ _ body _ rest =>
    (kind = .ifTrue → body.NoElse) ∧ body.ElseSplits ∧ rest.ElseSplits
  | ifElse _ _ thenBody _ elseBody _ rest =>
    thenBody.NoElse ∧ thenBody.ElseSplits ∧ elseBody.ElseSplits ∧ rest.ElseSplits

theorem startsTag_of_spelled {padded : Bool} {tag : Tag} {spelling : List Char}
    (h : Tag.Spelled padded tag spelling) (behind : List Char) : StartsTag (spelling ++ behind) := by
  obtain ⟨rest, rfl⟩ := Tag.exists_braced_of_spelled h
  exact ⟨rest ++ behind, rfl⟩

theorem legible_append {padded : Bool} {behind : List Char} {first second : Outline} :
    (first ++ second).Legible padded behind ↔
      first.Legible padded (second.spelling ++ behind) ∧ second.Legible padded behind := by
  induction first with
  | nil => simp [Legible]
  | text c rest ih => simp [Legible, ih, and_assoc]
  | verbatim spelling rest ih => simp [Legible, ih, and_assoc]
  | placeholder path escaped spelling rest ih => simp [Legible, ih, and_assoc]
  | block kind path opener body closer rest ihBody ihRest => simp [Legible, ihRest, and_assoc]
  | ifElse path opener thenBody elseTag elseBody closer rest ihThen ihElse ihRest =>
      simp [Legible, ihRest, and_assoc]

@[simp] theorem noElse_append {first second : Outline} :
    (first ++ second).NoElse ↔ first.NoElse ∧ second.NoElse := by
  induction first <;> simp_all [NoElse, and_assoc]

@[simp] theorem elseSplits_append {first second : Outline} :
    (first ++ second).ElseSplits ↔ first.ElseSplits ∧ second.ElseSplits := by
  induction first <;> simp_all [ElseSplits, and_assoc]

theorem spelling_literal (c : Char) (rest : List Char) : (literal c rest).spelling = [c] := by
  unfold literal
  split_ifs with h
  · rw [h.1]
    rfl
  · rfl

theorem legible_literal {padded : Bool} {c : Char} {rest behind : List Char}
    (h : behind.head? = rest.head?) : (literal c rest).Legible padded behind := by
  unfold literal
  split_ifs with hbrace
  · rw [← h] at hbrace
    obtain ⟨more, rfl⟩ := List.head?_eq_some_iff.mp hbrace.2
    exact ⟨⟨more, rfl⟩, trivial⟩
  · refine ⟨?_, trivial⟩
    rintro rfl
    simpa [spelling, h] using hbrace

end Outline

namespace Reading

-- The closing tag, if there is one.
def closing (r : Reading) : List Char :=
  match r.closer with
  | some (closer, _) => closer
  | none => []

-- What ends the first part of the body.
def next (r : Reading) : List Char :=
  match r.elsePart with
  | some (elseTag, _) => elseTag
  | none => r.closing

def spelling (r : Reading) : List Char :=
  match r.elsePart with
  | some (elseTag, elseBody) => r.body.spelling ++ elseTag ++ elseBody.spelling ++ r.closing
  | none => r.body.spelling ++ r.closing

@[simp] theorem closing_prepend (before : Outline) (r : Reading) :
    (r.prepend before).closing = r.closing := rfl

@[simp] theorem closing_shift (width : Nat) (r : Reading) : (r.shift width).closing = r.closing := by
  simp only [closing, closer_shift]
  cases r.closer <;> rfl

@[simp] theorem closing_split (elseTag : List Char) (r : Reading) :
    (r.split elseTag).closing = r.closing := rfl

@[simp] theorem spelling_prepend (before : Outline) (r : Reading) :
    (r.prepend before).spelling = before.spelling ++ r.spelling := by
  simp only [spelling, closing_prepend]
  cases helse : r.elsePart <;> simp [Reading.prepend, helse]

@[simp] theorem spelling_shift (width : Nat) (r : Reading) : (r.shift width).spelling = r.spelling := by
  simp only [spelling, closing_shift]
  rfl

theorem spelling_split (elseTag : List Char) {r : Reading} (helse : r.elsePart = none) :
    (r.split elseTag).spelling = elseTag ++ r.spelling := by
  simp [spelling, helse, Reading.split, closing, Outline.spelling]

-- Does the reading end before the text, at a closing tag of the right kind, and is it all legible?
structure Sound (padded : Bool) (within : Option BlockKind) (splits : Bool) (text : List Char)
    (r : Reading) : Prop where
  spelling_eq : r.closer = none → text = r.spelling
  closed : ∀ closer used, r.closer = some (closer, used) →
    used ≤ text.length ∧ r.spelling = text.take used ∧
      ∃ kind, within = some kind ∧ Tag.Spelled padded (.closer kind) closer
  legible : r.body.Legible padded r.next
  elsePart : ∀ elseTag elseBody, r.elsePart = some (elseTag, elseBody) →
    splits = true ∧ Tag.Spelled padded .otherwise elseTag ∧ elseBody.Legible padded r.closing ∧
      elseBody.ElseSplits
  noElse : splits = true → r.body.NoElse
  elseSplits : r.body.ElseSplits

variable {padded : Bool} {within : Option BlockKind} {splits : Bool} {text : List Char} {r : Reading}

theorem Sound.elsePart_eq_none (h : r.Sound padded within false text) : r.elsePart = none := by
  by_contra hne
  obtain ⟨part, hpart⟩ := Option.ne_none_iff_exists'.mp hne
  exact absurd (h.elsePart part.1 part.2 hpart).1 (by simp)

theorem Sound.spelling_prefix (h : r.Sound padded within splits text) : r.spelling <+: text := by
  cases hcloser : r.closer with
  | none => exact h.spelling_eq hcloser ▸ List.prefix_refl _
  | some found =>
      rw [(h.closed found.1 found.2 hcloser).2.1]
      exact List.take_prefix _ _

-- The first character behind what was put in front of a reading is the first one of its text.
theorem Sound.head?_eq (h : r.Sound padded within splits text) :
    (r.body.spelling ++ r.next).head? = text.head? := by
  have hprefix : r.body.spelling ++ r.next <+: text := by
    refine List.IsPrefix.trans ?_ h.spelling_prefix
    unfold next spelling
    split
    · next elseTag elseBody _ => exact ⟨elseBody.spelling ++ r.closing, by simp⟩
    · exact List.prefix_refl _
  by_cases hnil : r.body.spelling ++ r.next = []
  · obtain ⟨hbody, hnext⟩ := List.append_eq_nil_iff.mp hnil
    have hend : text = [] := by
      cases helse : r.elsePart with
      | some part =>
          have hspelled := (h.elsePart part.1 part.2 helse).2.1
          obtain ⟨_, helseTag⟩ := Tag.exists_braced_of_spelled hspelled
          simp [next, helse, helseTag] at hnext
      | none =>
          cases hcloser : r.closer with
          | none => rw [h.spelling_eq hcloser, spelling, helse, hbody]; simpa [next, helse] using hnext
          | some found =>
              obtain ⟨-, -, kind, -, hspelled⟩ := h.closed found.1 found.2 hcloser
              obtain ⟨_, hcloserTag⟩ := Tag.exists_braced_of_spelled hspelled
              simp [next, helse, closing, hcloser, hcloserTag] at hnext
    rw [hnil, hend]
  · obtain ⟨behind, rfl⟩ := hprefix
    rw [List.head?_append_of_ne_nil _ hnil]

theorem Sound.prepend {before : Outline} {width : Nat} (hwidth : width ≤ text.length)
    (h : r.Sound padded within splits (text.drop width)) (hspelling : before.spelling = text.take width)
    (hlegible : before.Legible padded (r.body.spelling ++ r.next))
    (hnoElse : splits = true → before.NoElse) (helseSplits : before.ElseSplits) :
    ((r.prepend before).shift width).Sound padded within splits text := by
  have hcloser : ((r.prepend before).shift width).closing = r.closing := by simp
  have hspell : ((r.prepend before).shift width).spelling = text.take width ++ r.spelling := by
    simp [hspelling]
  constructor
  case spelling_eq =>
    intro hnone
    rw [hspell, ← h.spelling_eq (by simpa [Reading.prepend, shift] using hnone),
      List.take_append_drop]
  case closed =>
    intro closer used hsome
    simp only [Reading.prepend, shift, Option.map_eq_some_iff, Prod.mk.injEq] at hsome
    obtain ⟨⟨found, used'⟩, hfound, rfl, rfl⟩ := hsome
    obtain ⟨hle, htake, hkind⟩ := h.closed found used' hfound
    simp only [List.length_drop] at hle
    refine ⟨by omega, ?_, hkind⟩
    rw [hspell, htake, List.take_add]
  case legible =>
    have hnext : ((r.prepend before).shift width).next = r.next := by
      simp only [next, hcloser]
      rfl
    rw [hnext]
    exact Outline.legible_append.mpr ⟨hlegible, h.legible⟩
  case elsePart =>
    intro elseTag elseBody helse
    rw [hcloser]
    exact h.elsePart elseTag elseBody helse
  case noElse => exact fun hsplits => Outline.noElse_append.mpr ⟨hnoElse hsplits, h.noElse hsplits⟩
  case elseSplits => exact Outline.elseSplits_append.mpr ⟨helseSplits, h.elseSplits⟩

theorem spelling_toBlock {kind : BlockKind} {path : Path} {opener closer : List Char} {used : Nat}
    (hcloser : r.closer = some (closer, used)) :
    (r.toBlock kind path opener closer).spelling = opener ++ r.spelling := by
  unfold toBlock spelling closing
  rw [hcloser]
  cases r.elsePart <;> simp [Outline.spelling]

theorem noElse_toBlock (kind : BlockKind) (path : Path) (opener closer : List Char) :
    (r.toBlock kind path opener closer).NoElse := by
  unfold toBlock
  split <;> trivial

theorem Sound.legible_toBlock {kind : BlockKind} {path : Path} {opener closer behind : List Char}
    {used : Nat} (h : r.Sound padded (some kind) (kind = .ifTrue) text)
    (hcloser : r.closer = some (closer, used)) (hopener : Tag.Spelled padded (.opener kind path) opener)
    (hpath : path.isValid = true) :
    (r.toBlock kind path opener closer).Legible padded behind := by
  obtain ⟨-, -, other, hother, hspelled⟩ := h.closed closer used hcloser
  obtain rfl := Option.some.inj hother
  have hlegible := h.legible
  unfold toBlock
  split
  · next elseTag elseBody helse =>
    obtain ⟨hkind, helseTag, helseBody, -⟩ := h.elsePart elseTag elseBody helse
    obtain rfl : kind = .ifTrue := of_decide_eq_true hkind
    simp only [next, helse] at hlegible
    simp only [closing, hcloser] at helseBody
    exact ⟨hopener, hpath, hlegible, helseTag, helseBody, hspelled, trivial⟩
  · next helse =>
    simp only [next, helse, closing, hcloser] at hlegible
    exact ⟨hopener, hpath, hlegible, hspelled, trivial⟩

theorem Sound.elseSplits_toBlock {kind : BlockKind} (path : Path) (opener closer : List Char)
    (h : r.Sound padded (some kind) (kind = .ifTrue) text) :
    (r.toBlock kind path opener closer).ElseSplits := by
  unfold toBlock
  split
  · next elseTag elseBody helse =>
    obtain ⟨hkind, -, -, helseBody⟩ := h.elsePart elseTag elseBody helse
    exact ⟨h.noElse hkind, h.elseSplits, helseBody, trivial⟩
  · exact ⟨fun hkind => h.noElse (decide_eq_true hkind), h.elseSplits, trivial⟩

-- A tag that is read as text is followed by what the text behind it is read as.
theorem Sound.prepend_verbatim {tag : Tag} {width : Nat}
    (hscan : Tag.scan? padded text = some (tag, width))
    (h : r.Sound padded within splits (text.drop width)) :
    ((r.prepend (.verbatim (text.take width) .nil)).shift width).Sound padded within splits text := by
  have hspelled := (Tag.spelled_of_scan? hscan).1
  refine h.prepend (Tag.scan?_length hscan).2 (List.append_nil _) ⟨?_, trivial⟩ (fun _ => trivial) trivial
  rw [Outline.spelling, List.append_nil]
  exact Outline.startsTag_of_spelled hspelled _

theorem Sound.prepend_placeholder {path : Path} {escaped : Bool} {width : Nat}
    (hwidth : width ≤ text.length)
    (hspelled : Tag.Spelled padded (.placeholder path escaped) (text.take width))
    (hpath : path.isValid = true) (helse : splits = true → ¬(path = ⟨"else"⟩ ∧ escaped = true))
    (h : r.Sound padded within splits (text.drop width)) :
    ((r.prepend (.placeholder path escaped (text.take width) .nil)).shift width).Sound padded within
      splits text :=
  h.prepend hwidth (List.append_nil _) ⟨hspelled, hpath, trivial⟩
    (fun hsplits => ⟨helse hsplits, trivial⟩) trivial

-- The reading of a body that begins with the `else` tag which splits it.
theorem Sound.split {width : Nat} (hscan : Tag.scan? padded text = some (.otherwise, width))
    (h : r.Sound padded within false (text.drop width)) :
    ((r.split (text.take width)).shift width).Sound padded within true text := by
  have hspelled := (Tag.spelled_of_scan? hscan).1
  have hwidth := (Tag.scan?_length hscan).2
  have hpart := h.elsePart_eq_none
  have hbody : r.body.Legible padded r.closing := by
    have hlegible := h.legible
    rwa [next, hpart] at hlegible
  have hcloser : ((r.split (text.take width)).shift width).closing = r.closing := by simp
  have hsplit : ((r.split (text.take width)).shift width).spelling =
      text.take width ++ r.spelling := by
    rw [spelling_shift, spelling_split _ hpart]
  constructor
  case spelling_eq =>
    intro hnone
    rw [hsplit, ← h.spelling_eq (by simpa [Reading.split, shift] using hnone),
      List.take_append_drop]
  case closed =>
    intro closer used hsome
    simp only [Reading.split, shift, Option.map_eq_some_iff, Prod.mk.injEq] at hsome
    obtain ⟨⟨found, used'⟩, hfound, rfl, rfl⟩ := hsome
    obtain ⟨hle, htake, hkind⟩ := h.closed found used' hfound
    simp only [List.length_drop] at hle
    refine ⟨by omega, ?_, hkind⟩
    rw [hsplit, htake, List.take_add]
  case legible => trivial
  case elsePart =>
    intro elseTag elseBody helse
    obtain ⟨rfl, rfl⟩ := Prod.mk.inj (Option.some.inj helse)
    rw [hcloser]
    exact ⟨rfl, hspelled, hbody, h.elseSplits⟩
  case noElse => exact fun _ => trivial
  case elseSplits => trivial

end Reading

namespace Outline

open Reading

-- A spelling of the `else` tag is a spelling of the placeholder `else`.
theorem spelled_placeholder_of_otherwise {padded : Bool} {spelling : List Char}
    (h : Tag.Spelled padded .otherwise spelling) :
    Tag.Spelled padded (.placeholder ⟨"else"⟩ true) spelling := by
  cases h with
  | otherwise hleft hright => exact .escaped hleft hright

theorem sound_read (padded : Bool) (within : Option BlockKind) (splits : Bool) (text : List Char) :
    (read padded within splits text).Sound padded within splits text := by
  fun_induction read padded within splits text with
  | case1 within splits =>
      exact ⟨fun _ => rfl, by simp, trivial, by simp, fun _ => trivial, trivial⟩
  | case2 within splits c rest hscan ih =>
      refine Sound.prepend (by simp) ih (spelling_literal c rest) (legible_literal ih.head?_eq) ?_ ?_
      · intro _
        unfold literal
        split <;> trivial
      · unfold literal
        split <;> trivial
  | case3 within splits c rest width spelling behind path escaped _ hscan ih =>
      obtain ⟨hspelled, hpath, helse⟩ := Tag.spelled_of_scan? hscan
      exact ih.prepend_placeholder (Tag.scan?_length hscan).2 hspelled hpath (fun _ => helse)
  | case4 within splits c rest width spelling behind kind path _ inner closer used hcloser hscan
      ihInner ihRest =>
      obtain ⟨hspelled, hpath⟩ := Tag.spelled_of_scan? hscan
      obtain ⟨hused, htake, -⟩ := ihInner.closed closer used hcloser
      have hwidth := (Tag.scan?_length hscan).2
      rw [List.drop_drop] at ihRest
      refine Sound.prepend ?_ ?_ ?_ ?_ ?_ ?_
      · simp only [behind, List.length_drop] at hused
        omega
      · simpa [behind] using ihRest
      · rw [spelling_toBlock hcloser, htake, List.take_add]
      · exact ihInner.legible_toBlock hcloser hspelled hpath
      · exact fun _ => noElse_toBlock kind path spelling closer
      · exact ihInner.elseSplits_toBlock path spelling closer
  | case5 within splits c rest width spelling behind kind path _ inner hcloser hscan _ ihRest =>
      exact ihRest.prepend_verbatim hscan
  | case6 within c rest width spelling behind _ hscan ih => exact ih.split hscan
  | case7 within splits c rest width spelling behind _ hsplits hscan ih =>
      have hspelled := (Tag.spelled_of_scan? hscan).1
      exact ih.prepend_placeholder (Tag.scan?_length hscan).2
        (spelled_placeholder_of_otherwise hspelled) (by decide) (fun h => absurd h hsplits)
  | case8 splits c rest width spelling kind _ hscan =>
      have hspelled := (Tag.spelled_of_scan? hscan).1
      refine ⟨by simp, ?_, trivial, by simp, fun _ => trivial, trivial⟩
      intro closer used hcloser
      obtain ⟨rfl, rfl⟩ := Prod.mk.inj (Option.some.inj hcloser)
      exact ⟨(Tag.scan?_length hscan).2, rfl, kind, rfl, hspelled⟩
  | case9 within splits c rest width spelling behind kind _ hkind hscan ih =>
      exact ih.prepend_verbatim hscan

end Outline

end Stencil

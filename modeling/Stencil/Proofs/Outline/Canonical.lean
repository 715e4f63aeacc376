import Stencil.Proofs.Outline.Settled
import Stencil.Proofs.Tag.Repadded

namespace Stencil

namespace Outline

open Tag (Repadded)

-- The outline with every tag in its only spelling without padding. Tags that are text stay as they are, and
-- are no tags any more if they have padding.
def canonical : Outline → Outline
  | nil => nil
  | text c rest => text c rest.canonical
  | verbatim spelling rest =>
    if (Tag.scan? false spelling).isSome then verbatim spelling rest.canonical
    else verbatim (spelling.take 1) (ofChars (spelling.drop 1) ++ rest.canonical)
  | placeholder path escaped _ rest =>
    placeholder path escaped (Tag.placeholder path escaped).canonical rest.canonical
  | block kind path _ body _ rest =>
    block kind path (Tag.opener kind path).canonical body.canonical (Tag.closer kind).canonical
      rest.canonical
  | ifElse path _ thenBody _ elseBody _ rest =>
    ifElse path (Tag.opener .ifTrue path).canonical thenBody.canonical Tag.otherwise.canonical
      elseBody.canonical (Tag.closer .ifTrue).canonical rest.canonical

variable {outline rest : Outline} {behind behind' : List Char} {room : Nat} {kind : BlockKind}

@[simp] theorem spelling_ofChars (chars : List Char) : (ofChars chars).spelling = chars := by
  induction chars with
  | nil => rfl
  | cons c chars ih => exact congrArg (c :: ·) ih

section Kept

theorem toNodes_canonical (outline : Outline) : outline.canonical.toNodes = outline.toNodes := by
  induction outline with
  | nil => rfl
  | text c rest ih => exact Node.joinText_cons_congr _ ih
  | verbatim spelling rest ih =>
      rw [canonical]
      split_ifs
      · exact Node.joinText_cons_congr _ ih
      · have hcut : (verbatim (spelling.take 1) (ofChars (spelling.drop 1) ++ rest.canonical)).toNodes =
            Node.addText (String.ofList (spelling.take 1))
              (ofChars (spelling.drop 1) ++ rest.canonical).toNodes := rfl
        rw [hcut, toNodes_ofChars_append, ih, Node.addText_addText, ← String.ofList_append,
          List.take_append_drop]
        rfl
  | placeholder path escaped spelling rest ih => exact Node.joinText_cons_congr _ ih
  | block kind path opener body closer rest ihBody ihRest =>
      have hbody : Node.joinText body.canonical.nodes = Node.joinText body.nodes := ihBody
      simp only [toNodes, canonical, nodes, hbody]
      exact Node.joinText_cons_congr _ ihRest
  | ifElse path opener thenBody elseTag elseBody closer rest ihThen ihElse ihRest =>
      have hthen : Node.joinText thenBody.canonical.nodes = Node.joinText thenBody.nodes := ihThen
      have helse : Node.joinText elseBody.canonical.nodes = Node.joinText elseBody.nodes := ihElse
      simp only [toNodes, canonical, nodes, hthen, helse]
      exact Node.joinText_cons_congr _ ihRest

theorem Plain.canonical (h : outline.Plain) : outline.canonical.Plain := by
  induction outline with
  | nil => trivial
  | text c rest ih => exact ih h
  | verbatim => exact h.elim
  | placeholder path escaped spelling rest ih => exact ih h
  | block kind path opener body closer rest ihBody ihRest => exact ⟨ihBody h.1, ihRest h.2⟩
  | ifElse path opener thenBody elseTag elseBody closer rest ihThen ihElse ihRest =>
      exact ⟨ihThen h.1, ihElse h.2.1, ihRest h.2.2⟩

theorem Within.canonical (h : outline.Within room) : outline.canonical.Within room := by
  induction outline generalizing room with
  | nil => trivial
  | text c rest ih => exact ih h
  | verbatim spelling rest ih =>
      rw [Outline.canonical]
      split_ifs
      · exact ih h
      · exact within_append.mpr ⟨(fits_ofChars room _).2, ih h⟩
  | placeholder path escaped spelling rest ih => exact ih h
  | block kind path opener body closer rest ihBody ihRest =>
      exact ⟨h.1, ihBody h.2.1, ihRest h.2.2⟩
  | ifElse path opener thenBody elseTag elseBody closer rest ihThen ihElse ihRest =>
      exact ⟨h.1, ihThen h.2.1, ihElse h.2.2.1, ihRest h.2.2.2⟩

theorem noElse_ofChars (chars : List Char) : (ofChars chars).NoElse := by
  induction chars with
  | nil => trivial
  | cons c chars ih => exact ih

theorem NoElse.canonical (h : outline.NoElse) : outline.canonical.NoElse := by
  induction outline with
  | nil => trivial
  | text c rest ih => exact ih h
  | verbatim spelling rest ih =>
      rw [Outline.canonical]
      split_ifs
      · exact ih h
      · exact noElse_append.mpr ⟨noElse_ofChars _, ih h⟩
  | placeholder path escaped spelling rest ih => exact ⟨h.1, ih h.2⟩
  | block kind path opener body closer rest _ ihRest => exact ihRest h
  | ifElse path opener thenBody elseTag elseBody closer rest _ _ ihRest => exact ihRest h

theorem openTo_ofChars {padded : Bool} (chars : List Char) : (ofChars chars).OpenTo padded kind := by
  induction chars with
  | nil => trivial
  | cons c chars ih => exact ih

theorem OpenTo.canonical (h : outline.OpenTo true kind) : outline.canonical.OpenTo false kind := by
  induction outline with
  | nil => trivial
  | text c rest ih => exact ih h
  | verbatim spelling rest ih =>
      rw [Outline.canonical]
      split_ifs
      · exact ⟨fun hspelled => h.1 (hspelled.allowed true), ih h.2⟩
      · refine ⟨?_, openTo_append.mpr ⟨openTo_ofChars _, ih h.2⟩⟩
        intro hspelled
        obtain ⟨more, hmore⟩ := Tag.exists_braced_of_spelled hspelled
        have hlength := congrArg List.length hmore
        simp only [List.length_take, List.length_cons] at hlength
        omega
  | placeholder path escaped spelling rest ih => exact ih h
  | block kind path opener body closer rest _ ihRest => exact ihRest h
  | ifElse path opener thenBody elseTag elseBody closer rest _ _ ihRest => exact ihRest h

end Kept

section Spelling

-- A placeholder loses its padding like any other tag, also where it is `else`.
theorem repadded_placeholder {path : Path} {escaped : Bool} {spelling : List Char}
    (hspelled : Tag.Spelled true (.placeholder path escaped) spelling) (hpath : path.isValid = true)
    (h : Repadded behind behind') :
    Repadded (spelling ++ behind) ((Tag.placeholder path escaped).canonical ++ behind') := by
  by_cases helse : path = ⟨"else"⟩ ∧ escaped = true
  · obtain ⟨rfl, rfl⟩ := helse
    have htag : Repadded (spelling ++ behind) (Tag.otherwise.canonical ++ behind') :=
      .tag (spelled_otherwise_of_placeholder hspelled) trivial h
    exact htag
  · exact .tag hspelled ⟨hpath, helse⟩ h

theorem spelling_canonical_verbatim (spelling : List Char) (rest : Outline) :
    (verbatim spelling rest).canonical.spelling = spelling ++ rest.canonical.spelling := by
  rw [canonical]
  split_ifs
  · rfl
  · rw [Outline.spelling, spelling_append, spelling_ofChars, ← List.append_assoc,
      List.take_append_drop]

theorem Settled.repadded (h : outline.Settled true behind) (hbehind : Repadded behind behind') :
    Repadded (outline.spelling ++ behind) (outline.canonical.spelling ++ behind') := by
  induction outline generalizing behind behind' with
  | nil => exact hbehind
  | text c rest ih => exact .char c (ih h.2 hbehind)
  | verbatim spelling rest ih =>
      rw [spelling_canonical_verbatim, List.append_assoc, Outline.spelling, List.append_assoc]
      exact (ih h.2 hbehind).chars spelling
  | placeholder path escaped spelling rest ih =>
      obtain ⟨hspelled, hpath, hrest⟩ := h
      simp only [Outline.spelling, canonical, List.append_assoc]
      exact repadded_placeholder hspelled hpath (ih hrest hbehind)
  | block kind path opener body closer rest ihBody ihRest =>
      obtain ⟨hopener, hpath, ⟨hbody, -⟩, hcloser, hrest⟩ := h
      have hlast := Repadded.tag hcloser trivial (ihRest hrest hbehind)
      simp only [Outline.spelling, canonical, List.append_assoc]
      exact .tag hopener hpath (ihBody hbody hlast)
  | ifElse path opener thenBody elseTag elseBody closer rest ihThen ihElse ihRest =>
      obtain ⟨hopener, hpath, ⟨hthen, -⟩, helseTag, ⟨helse, -⟩, hcloser, hrest⟩ := h
      have hlast := Repadded.tag hcloser trivial (ihRest hrest hbehind)
      have hsecond := Repadded.tag helseTag trivial (ihElse helse hlast)
      simp only [Outline.spelling, canonical, List.append_assoc]
      exact .tag hopener hpath (ihThen hthen hsecond)

end Spelling

-- The first text becomes the second when some tags lose their padding, and no more openers in front of it are
-- closed then.
structure Unpads (behind behind' : List Char) : Prop where
  repadded : Repadded behind behind'
  unclosed : ∀ kind, Unclosed true kind behind → Unclosed false kind behind'

theorem unpads_nil : Unpads [] [] := by
  refine ⟨.nil, ?_⟩
  intro kind _
  rw [Unclosed, read_nil]

theorem Unpads.closer {spelling : List Char} (h : Unpads behind behind')
    (hspelled : Tag.Spelled true (.closer kind) spelling) :
    Unpads (spelling ++ behind) ((Tag.closer kind).canonical ++ behind') := by
  refine ⟨.tag hspelled trivial h.repadded, ?_⟩
  intro other hunclosed
  obtain ⟨hkind, hbehind⟩ := (unclosed_closer_append_iff hspelled).mp hunclosed
  exact (unclosed_closer_append_iff (Tag.spelled_canonical _)).mpr ⟨hkind, h.unclosed other hbehind⟩

theorem Unpads.elseTag {spelling : List Char} (h : Unpads behind behind')
    (hspelled : Tag.Spelled true .otherwise spelling) :
    Unpads (spelling ++ behind) (Tag.otherwise.canonical ++ behind') := by
  refine ⟨.tag hspelled trivial h.repadded, ?_⟩
  intro other hunclosed
  have hbehind := (unclosed_else_append_iff hspelled).mp hunclosed
  exact (unclosed_else_append_iff (Tag.spelled_canonical _)).mpr (h.unclosed other hbehind)

theorem Unpads.prepend (h : Unpads behind behind') (hsettled : outline.Settled true behind)
    (hcanonical : outline.canonical.Settled false behind') :
    Unpads (outline.spelling ++ behind) (outline.canonical.spelling ++ behind') := by
  refine ⟨hsettled.repadded h.repadded, ?_⟩
  intro kind hunclosed
  obtain ⟨hopen, hbehind⟩ := hsettled.unclosed_append_iff.mp hunclosed
  exact hcanonical.unclosed_append_iff.mpr ⟨hopen.canonical, h.unclosed kind hbehind⟩

section Verbatim

theorem settled_ofChars {padded : Bool} {chars : List Char} (hchars : '{' ∉ chars)
    (h : rest.Settled padded behind) : (ofChars chars ++ rest).Settled padded behind := by
  induction chars with
  | nil => exact h
  | cons c chars ih =>
      refine ⟨?_, ih (fun hmem => hchars (List.mem_cons_of_mem _ hmem))⟩
      rintro rfl
      exact absurd List.mem_cons_self hchars

-- A tag that cannot be read without padding is a brace and plain characters then.
theorem settled_unread {content : List Char} (hcontent : ∀ c ∈ content, Tag.isBrace c = false)
    (hscan : Tag.scan? false (Tag.braced 2 content) = none) (h : rest.Settled false behind) :
    (verbatim ['{'] (ofChars ((Tag.braced 2 content).drop 1) ++ rest)).Settled false behind := by
  have hdrop : (Tag.braced 2 content).drop 1 = '{' :: (content ++ ['}', '}']) := rfl
  have hchars : '{' ∉ content ++ ['}', '}'] := by
    intro hmem
    rcases List.mem_append.mp hmem with hmem | hmem
    · exact absurd (hcontent _ hmem) (by decide)
    · exact absurd hmem (by decide)
  have hscan' : Tag.scan? false (Tag.braced 2 content ++ (rest.spelling ++ behind)) = none := by
    have hnone := hscan
    rw [← List.append_nil (Tag.braced 2 content), Tag.scan?_braced_two hcontent] at hnone
    rw [Tag.scan?_braced_two hcontent, hnone]
  have htext : '{' :: ((ofChars ('{' :: (content ++ ['}', '}'])) ++ rest).spelling ++ behind) =
      Tag.braced 2 content ++ (rest.spelling ++ behind) := by
    simp [Tag.braced, List.replicate]
  rw [hdrop]
  refine ⟨.brace rfl (by rw [htext, hscan']), ?_, settled_ofChars hchars h⟩
  intro _ hhead
  change ((ofChars (content ++ ['}', '}']) ++ rest).spelling ++ behind).head? = some '{' at hhead
  have hne : content ++ ['}', '}'] ≠ [] := by simp
  rw [spelling_append, spelling_ofChars, List.append_assoc, List.head?_append_of_ne_nil _ hne] at hhead
  exact hchars (List.mem_of_mem_head? hhead)

-- A tag that is text still is one without padding, or the canonical spelling of the same tag.
theorem settled_canonical_verbatim {tag : Tag} {spelling : List Char}
    (hspelled : Tag.Spelled true tag spelling) (htag : tag.WellFormed)
    (hraw : ∀ path, tag ≠ .placeholder path false) (h : rest.canonical.Settled false behind)
    (hleft : Tag.Spelled false tag spelling →
      LeftAsText false spelling (rest.canonical.spelling ++ behind)) :
    (verbatim spelling rest).canonical.Settled false behind := by
  rw [canonical]
  cases hscan : Tag.scan? false spelling with
  | some found =>
      obtain ⟨found, width⟩ := found
      have hpadded := Tag.scan?_append hspelled htag []
      rw [List.append_nil, Tag.scan?_allowed hscan] at hpadded
      obtain ⟨rfl, rfl⟩ := Prod.mk.inj (Option.some.inj hpadded)
      have hunpadded := (Tag.spelled_of_scan? hscan).1
      rw [List.take_length] at hunpadded
      exact ⟨hleft hunpadded, h⟩
  | none =>
      have hpadded := Tag.scan?_append hspelled htag []
      rw [List.append_nil] at hpadded
      obtain ⟨count, content, last, htext, hwidth, hcontent, hcount⟩ :=
        Tag.exists_braced_of_scan? hpadded
      obtain rfl : last = [] := by
        have hlength := congrArg List.length htext
        rw [List.length_append, hwidth] at hlength
        exact List.length_eq_zero_iff.mp (by omega)
      rw [List.append_nil] at htext
      subst htext
      rcases hcount with ⟨rfl, hfound⟩ | ⟨rfl, -⟩
      · obtain ⟨path, -, rfl⟩ := Option.map_eq_some_iff.mp hfound
        exact absurd rfl (hraw path)
      · exact settled_unread hcontent hscan h

end Verbatim

theorem Settled.canonical (h : outline.Settled true behind) (hbehind : Unpads behind behind') :
    outline.canonical.Settled false behind' := by
  induction outline generalizing behind behind' with
  | nil => trivial
  | text c rest ih =>
      obtain ⟨hc, hrest⟩ := h
      refine ⟨?_, ih hrest hbehind⟩
      rw [(hrest.repadded hbehind.repadded).head?_eq]
      exact hc
  | verbatim spelling rest ih =>
      obtain ⟨hleft, hrest⟩ := h
      have hcanonical := ih hrest hbehind
      have hafter := hbehind.prepend hrest hcanonical
      cases hleft with
      | brace hhead hscan =>
          refine ⟨.brace ?_ ?_, hcanonical⟩
          · change (rest.canonical.spelling ++ behind').head? = some '{'
            rw [hafter.repadded.head?_eq, hhead]
          · change Tag.scan? false ('{' :: (rest.canonical.spelling ++ behind')) = none
            by_contra hne
            have hscan' := hafter.repadded.isSome_scan? (Option.isSome_iff_ne_none.mpr hne)
            rw [hscan] at hscan'
            cases hscan'
      | opener hspelled hpath hunclosed =>
          exact settled_canonical_verbatim hspelled hpath (by simp) hcanonical
            (fun hunpadded => .opener hunpadded hpath (hafter.unclosed _ hunclosed))
      | closer hspelled =>
          exact settled_canonical_verbatim hspelled trivial (by simp) hcanonical
            (fun hunpadded => .closer hunpadded)
  | placeholder path escaped spelling rest ih =>
      exact ⟨Tag.spelled_canonical _, h.2.1, ih h.2.2 hbehind⟩
  | block kind path opener body closer rest ihBody ihRest =>
      obtain ⟨hopener, hpath, ⟨hbody, hopen, hnoElse⟩, hcloser, hrest⟩ := h
      have hcanonical := ihRest hrest hbehind
      have hafter := (hbehind.prepend hrest hcanonical).closer hcloser
      exact ⟨Tag.spelled_canonical _, hpath,
        ⟨ihBody hbody hafter, hopen.canonical, fun hkind => (hnoElse hkind).canonical⟩,
        Tag.spelled_canonical _, hcanonical⟩
  | ifElse path opener thenBody elseTag elseBody closer rest ihThen ihElse ihRest =>
      obtain ⟨hopener, hpath, ⟨hthen, hthenOpen, hnoElse⟩, helseTag, ⟨helse, helseOpen⟩, hcloser,
        hrest⟩ := h
      have hcanonical := ihRest hrest hbehind
      have hafter := (hbehind.prepend hrest hcanonical).closer hcloser
      have helseCanonical := ihElse helse hafter
      have hsecond := (hafter.prepend helse helseCanonical).elseTag helseTag
      exact ⟨Tag.spelled_canonical _, hpath,
        ⟨ihThen hthen hsecond, hthenOpen.canonical, hnoElse.canonical⟩, Tag.spelled_canonical _,
        ⟨helseCanonical, helseOpen.canonical⟩, Tag.spelled_canonical _, hcanonical⟩

end Outline

end Stencil

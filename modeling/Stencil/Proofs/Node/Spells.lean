import Stencil.Proofs.Node.Tidy
import Stencil.Proofs.Tag.Spelling

namespace Stencil

namespace Node

-- The text is made of the contents of the texts and of one spelling for every tag, all in order.
inductive Spells (padded : Bool) : List Node → List Char → Prop
  | nil : Spells padded [] []
  | text (content : String) {rest : List Node} {spelling : List Char}
      (hrest : Spells padded rest spelling) :
      Spells padded (.text content :: rest) (content.toList ++ spelling)
  | placeholder {path : Path} {escaped : Bool} {rest : List Node} {tag spelling : List Char}
      (htag : Tag.Spelled padded (.placeholder path escaped) tag)
      (hrest : Spells padded rest spelling) :
      Spells padded (.placeholder path escaped :: rest) (tag ++ spelling)
  | block {kind : BlockKind} {path : Path} {body rest : List Node}
      {opener inner closer spelling : List Char}
      (hopener : Tag.Spelled padded (.opener kind path) opener) (hbody : Spells padded body inner)
      (hcloser : Tag.Spelled padded (.closer kind) closer) (hrest : Spells padded rest spelling) :
      Spells padded (.block kind path body :: rest) (opener ++ inner ++ closer ++ spelling)
  | ifElse {path : Path} {thenBody elseBody rest : List Node}
      {opener thenInner elseTag elseInner closer spelling : List Char}
      (hopener : Tag.Spelled padded (.opener .ifTrue path) opener)
      (hthen : Spells padded thenBody thenInner) (helseTag : Tag.Spelled padded .otherwise elseTag)
      (helse : Spells padded elseBody elseInner)
      (hcloser : Tag.Spelled padded (.closer .ifTrue) closer)
      (hrest : Spells padded rest spelling) :
      Spells padded (.ifElse path thenBody elseBody :: rest)
        (opener ++ thenInner ++ elseTag ++ elseInner ++ closer ++ spelling)

variable {padded : Bool} {nodes first second : List Node} {spelling : List Char}

theorem Spells.exists_of_text {content : String}
    (h : Spells padded (.text content :: nodes) spelling) :
    ∃ rest, spelling = content.toList ++ rest := by
  cases h
  exact ⟨_, rfl⟩

theorem Spells.addText (h : Spells padded nodes spelling) (content : String) :
    Spells padded (addText content nodes) (content.toList ++ spelling) := by
  by_cases hempty : content = ""
  · subst hempty
    simpa using h
  obtain ⟨more, rest, rfl, hadd⟩ | ⟨-, hadd⟩ := addText_cases hempty nodes
  · rw [hadd]
    cases h with
    | text _ hrest =>
        rw [← List.append_assoc, ← String.toList_append]
        exact .text (content ++ more) hrest
  · rw [hadd]
    exact .text content h

theorem Spells.joinText (h : Spells padded nodes spelling) :
    Spells padded (joinText nodes) spelling := by
  induction h with
  | nil => exact .nil
  | text content _ ih => exact ih.addText content
  | placeholder htag _ ih => exact .placeholder htag ih
  | block hopener hbody hcloser _ _ ih => exact .block hopener hbody hcloser ih
  | ifElse hopener hthen helseTag helse hcloser _ _ _ ih =>
      exact .ifElse hopener hthen helseTag helse hcloser ih

theorem Spells.append {last : List Char} (hfirst : Spells padded first spelling)
    (hsecond : Spells padded second last) : Spells padded (first ++ second) (spelling ++ last) := by
  induction hfirst with
  | nil => exact hsecond
  | text content _ ih =>
      rw [List.append_assoc]
      exact .text content ih
  | placeholder htag _ ih =>
      rw [List.append_assoc]
      exact .placeholder htag ih
  | block hopener hbody hcloser _ _ ih =>
      rw [List.append_assoc]
      exact .block hopener hbody hcloser ih
  | ifElse hopener hthen helseTag helse hcloser _ _ _ ih =>
      rw [List.append_assoc]
      exact .ifElse hopener hthen helseTag helse hcloser ih

section Canonical

theorem toList_openerText (kind : BlockKind) (path : Path) :
    (openerText kind path).toList = (Tag.opener kind path).canonical := by
  simp [openerText, Tag.canonical, Tag.braced, List.replicate]

theorem toList_closerText (kind : BlockKind) :
    (closerText kind).toList = (Tag.closer kind).canonical := by
  simp [closerText, Tag.canonical, Tag.braced, List.replicate]

theorem toList_elseText : elseText.toList = Tag.otherwise.canonical := by
  decide

theorem toList_placeholderText (path : Path) (escaped : Bool) :
    (placeholderText path escaped).toList = (Tag.placeholder path escaped).canonical := by
  cases escaped <;> simp [placeholderText, Tag.canonical, Tag.braced, List.replicate]

theorem spelled_placeholderText (path : Path) (escaped : Bool) :
    Tag.Spelled false (.placeholder path escaped) (placeholderText path escaped).toList :=
  Tag.spelled_unpadded_iff.mpr (toList_placeholderText path escaped)

theorem spelled_openerText (kind : BlockKind) (path : Path) :
    Tag.Spelled false (.opener kind path) (openerText kind path).toList :=
  Tag.spelled_unpadded_iff.mpr (toList_openerText kind path)

theorem spelled_closerText (kind : BlockKind) :
    Tag.Spelled false (.closer kind) (closerText kind).toList :=
  Tag.spelled_unpadded_iff.mpr (toList_closerText kind)

-- Without padding there is one spelling.
theorem toList_spellAll_of_spells (h : Spells false nodes spelling) :
    (spellAll nodes).toList = spelling := by
  induction h with
  | nil => rfl
  | text content _ ih => simp [spellAll, spell, ih]
  | placeholder htag _ ih =>
      obtain rfl := Tag.spelled_unpadded_iff.mp htag
      simp [spellAll, spell, toList_placeholderText, ih]
  | block hopener _ hcloser _ ihBody ih =>
      obtain rfl := Tag.spelled_unpadded_iff.mp hopener
      obtain rfl := Tag.spelled_unpadded_iff.mp hcloser
      simp [spellAll, spell, toList_openerText, toList_closerText, ihBody, ih]
  | ifElse hopener _ helseTag _ hcloser _ ihThen ihElse ih =>
      obtain rfl := Tag.spelled_unpadded_iff.mp hopener
      obtain rfl := Tag.spelled_unpadded_iff.mp helseTag
      obtain rfl := Tag.spelled_unpadded_iff.mp hcloser
      simp [spellAll, spell, toList_openerText, toList_elseText, toList_closerText, ihThen, ihElse, ih]

end Canonical

end Node

end Stencil

import Stencil.Proofs.Tag.Recogniser

namespace Stencil

namespace Tag

-- What stands in front of the first place where the delimiter begins.
def before? (delimiter : List Char) : List Char → Option (List Char)
  | [] => if delimiter = [] then some [] else none
  | c :: rest =>
    if delimiter.isPrefixOf (c :: rest) then some [] else (before? delimiter rest).map (c :: ·)

-- The tag whose opening braces have been read.
def close? (count : Nat) (classify : List Char → Option Tag) (inner : List Char) : Option (Tag × Nat) :=
  (before? (List.replicate count '}') inner).bind fun content =>
    (classify content).map (·, content.length + 2 * count)

def search? (padded : Bool) : List Char → Option (Tag × Nat)
  | '{' :: '{' :: '{' :: inner => close? 3 (ofRawContent? padded) inner
  | '{' :: '{' :: inner => close? 2 (ofContent? padded) inner
  | _ => none

theorem exists_of_before? {delimiter text content : List Char}
    (h : before? delimiter text = some content) : ∃ rest, text = content ++ delimiter ++ rest := by
  induction text generalizing content with
  | nil =>
      unfold before? at h
      split_ifs at h with hnil
      cases h
      exact ⟨[], by simp [hnil]⟩
  | cons c text ih =>
      unfold before? at h
      split_ifs at h with hprefix
      · cases h
        obtain ⟨rest, hrest⟩ := List.isPrefixOf_iff_prefix.mp hprefix
        exact ⟨rest, by simp [hrest]⟩
      · obtain ⟨behind, hbehind, rfl⟩ := Option.map_eq_some_iff.mp h
        obtain ⟨rest, rfl⟩ := ih hbehind
        exact ⟨rest, rfl⟩

-- Without the first character of the delimiter in it, the content ends at the delimiter behind it.
theorem before?_append {mark : Char} {more content : List Char} (h : mark ∉ content)
    (rest : List Char) : before? (mark :: more) (content ++ (mark :: more ++ rest)) = some content := by
  induction content with
  | nil => simp [before?, List.isPrefixOf_iff_prefix]
  | cons c content ih =>
      have hc : mark ≠ c := List.ne_of_not_mem_cons h
      have hprefix : (mark :: more).isPrefixOf (c :: (content ++ (mark :: more ++ rest))) = false := by
        simp [List.isPrefixOf, hc]
      rw [List.cons_append, before?, hprefix, ih (List.not_mem_of_not_mem_cons h)]
      rfl

theorem close?_append {count : Nat} {content : List Char} (classify : List Char → Option Tag)
    (hcount : 0 < count) (hcontent : ∀ c ∈ content, isBrace c = false) (rest : List Char) :
    close? count classify (content ++ (List.replicate count '}' ++ rest)) =
      (classify content).map (·, (braced count content).length) := by
  obtain ⟨more, rfl⟩ := Nat.exists_eq_succ_of_ne_zero (Nat.pos_iff_ne_zero.mp hcount)
  have hnotMem : '}' ∉ content := fun hmem => absurd (hcontent _ hmem) (by decide)
  rw [close?, List.replicate_succ, before?_append hnotMem, length_braced]
  rfl

theorem search?_braced_three {padded : Bool} {content : List Char}
    (hcontent : ∀ c ∈ content, isBrace c = false) (rest : List Char) :
    search? padded (braced 3 content ++ rest) =
      (ofRawContent? padded content).map (·, (braced 3 content).length) := by
  have hsplit : braced 3 content ++ rest =
      '{' :: '{' :: '{' :: (content ++ (List.replicate 3 '}' ++ rest)) := by
    simp [braced, List.replicate_succ]
  rw [hsplit, search?, close?_append _ (by decide) hcontent]

theorem search?_braced_two {padded : Bool} {content : List Char}
    (hcontent : ∀ c ∈ content, isBrace c = false) (rest : List Char) :
    search? padded (braced 2 content ++ rest) =
      (ofContent? padded content).map (·, (braced 2 content).length) := by
  have hsplit : braced 2 content ++ rest =
      '{' :: '{' :: (content ++ (List.replicate 2 '}' ++ rest)) := by
    simp [braced, List.replicate_succ]
  have hbrace : ∀ inner, content ++ (List.replicate 2 '}' ++ rest) ≠ '{' :: inner := by
    intro inner hinner
    cases content with
    | nil => simp [List.replicate_succ] at hinner
    | cons c content =>
        obtain ⟨rfl, -⟩ := List.cons.inj hinner
        exact absurd (hcontent _ List.mem_cons_self) (by decide)
  rw [hsplit, search?]
  · exact close?_append _ (by decide) hcontent rest
  · exact hbrace

theorem exists_of_close? {count : Nat} {classify : List Char → Option Tag} {inner : List Char}
    {tag : Tag} {width : Nat} (h : close? count classify inner = some (tag, width)) :
    ∃ content rest, List.replicate count '{' ++ inner = braced count content ++ rest ∧
      classify content = some tag ∧ width = (braced count content).length := by
  obtain ⟨content, hbefore, hclassify⟩ := Option.bind_eq_some_iff.mp h
  obtain ⟨found, hfound, hpair⟩ := Option.map_eq_some_iff.mp hclassify
  obtain ⟨rfl, rfl⟩ := Prod.mk.inj hpair
  obtain ⟨rest, rfl⟩ := exists_of_before? hbefore
  exact ⟨content, rest, by simp [braced], hfound, (length_braced count content).symm⟩

-- No tag holds a brace between its own, so the first closing braces are those of the tag.
theorem search?_eq_scan? (padded : Bool) (text : List Char) : search? padded text = scan? padded text := by
  apply Option.ext
  rintro ⟨tag, width⟩
  constructor
  · intro h
    unfold search? at h
    split at h
    · next inner =>
      obtain ⟨content, rest, htext, htag, rfl⟩ := exists_of_close? h
      obtain ⟨hspelled, hformed⟩ := spelled_of_ofRawContent? htag
      rw [← scan?_append hspelled hformed rest, ← htext]
      rfl
    · next inner _ =>
      obtain ⟨content, rest, htext, htag, rfl⟩ := exists_of_close? h
      obtain ⟨hspelled, hformed⟩ := spelled_of_ofContent? htag
      rw [← scan?_append hspelled hformed rest, ← htext]
      rfl
    · cases h
  · intro h
    obtain ⟨count, content, rest, rfl, rfl, hcontent, hcount⟩ := exists_braced_of_scan? h
    rcases hcount with ⟨rfl, htag⟩ | ⟨rfl, htag⟩
    · rw [search?_braced_three hcontent, htag, Option.map_some]
    · rw [search?_braced_two hcontent, htag, Option.map_some]

end Tag

end Stencil

import Stencil.Proofs.Tag.Recogniser

namespace Stencil

namespace Tag

variable {tag : Tag} {spelling text text' : List Char}

theorem Padding.allowed {blanks : List Char} (h : Padding false blanks) (padded : Bool) :
    Padding padded blanks := by
  rw [h.2 rfl]
  exact padding_nil padded

-- What needs no padding is a spelling with padding, too.
theorem Spelled.allowed (h : Spelled false tag spelling) (padded : Bool) :
    Spelled padded tag spelling := by
  cases h with
  | raw hleft hright => exact .raw (hleft.allowed padded) (hright.allowed padded)
  | escaped hleft hright => exact .escaped (hleft.allowed padded) (hright.allowed padded)
  | opener hleft hgap hright =>
      have hgap' : Gap padded _ := ⟨hgap.1, hgap.2.1, fun _ => hgap.2.2 rfl⟩
      exact .opener (hleft.allowed padded) hgap' (hright.allowed padded)
  | otherwise hleft hright => exact .otherwise (hleft.allowed padded) (hright.allowed padded)
  | closer hleft hinner hright =>
      exact .closer (hleft.allowed padded) (hinner.allowed padded) (hright.allowed padded)

theorem spelled_canonical (tag : Tag) : Spelled false tag tag.canonical :=
  spelled_unpadded_iff.mpr rfl

theorem scan?_allowed {width : Nat} (h : scan? false text = some (tag, width)) :
    scan? true text = some (tag, width) := by
  obtain ⟨hspelled, htag⟩ := spelled_of_scan? h
  have hscan := scan?_append (hspelled.allowed true) htag (text.drop width)
  rwa [List.take_append_drop, List.length_take_of_le (scan?_length h).2] at hscan

theorem braced_inj {count : Nat} {first second : List Char}
    (h : braced count first = braced count second) : first = second :=
  List.append_cancel_left (List.append_cancel_right h)

-- The first text becomes the second when some of its tags lose their padding.
inductive Repadded : List Char → List Char → Prop
  | nil : Repadded [] []
  | char (c : Char) {text text' : List Char} (h : Repadded text text') : Repadded (c :: text) (c :: text')
  | tag {tag : Tag} {spelling text text' : List Char} (hspelled : Spelled true tag spelling)
      (htag : tag.WellFormed) (h : Repadded text text') :
      Repadded (spelling ++ text) (tag.canonical ++ text')

theorem Repadded.chars (h : Repadded text text') (chars : List Char) :
    Repadded (chars ++ text) (chars ++ text') := by
  induction chars with
  | nil => exact h
  | cons c chars ih => exact .char c ih

theorem Repadded.head?_eq (h : Repadded text text') : text'.head? = text.head? := by
  cases h with
  | nil => rfl
  | char c _ => rfl
  | tag hspelled _ _ =>
      rw [head?_of_spelled hspelled, head?_of_spelled (spelled_canonical _)]

-- Each tag begins with two braces, so nothing else was changed.
theorem Repadded.exists_of_chars {chars rest : List Char} (h : Repadded text (chars ++ rest))
    (hchars : '{' ∉ chars) : ∃ last, text = chars ++ last ∧ Repadded last rest := by
  induction chars generalizing text with
  | nil => exact ⟨text, rfl, h⟩
  | cons c chars ih =>
      generalize hall : c :: chars ++ rest = all at h
      cases h with
      | nil => cases hall
      | char c' h =>
          obtain ⟨rfl, rfl⟩ := List.cons.inj hall
          obtain ⟨last, rfl, hlast⟩ := ih h (fun hmem => hchars (List.mem_cons_of_mem _ hmem))
          exact ⟨last, rfl, hlast⟩
      | @tag tag spelling text text' _ _ _ =>
          obtain ⟨more, hcanonical⟩ := exists_braced_of_spelled (spelled_canonical tag)
          rw [hcanonical] at hall
          obtain ⟨rfl, -⟩ := List.cons.inj hall
          exact absurd List.mem_cons_self hchars

-- A single brace was there before, and so were the characters behind it.
theorem Repadded.exists_of_brace {chars rest : List Char} (h : Repadded text ('{' :: (chars ++ rest)))
    (hchars : '{' ∉ chars) (hne : chars ≠ []) :
    ∃ last, text = '{' :: (chars ++ last) ∧ Repadded last rest := by
  generalize hall : '{' :: (chars ++ rest) = all at h
  cases h with
  | nil => cases hall
  | char c h =>
      obtain ⟨rfl, rfl⟩ := List.cons.inj hall
      obtain ⟨last, rfl, hlast⟩ := h.exists_of_chars hchars
      exact ⟨last, rfl, hlast⟩
  | @tag tag spelling text text' _ _ _ =>
      obtain ⟨more, hcanonical⟩ := exists_braced_of_spelled (spelled_canonical tag)
      rw [hcanonical] at hall
      obtain ⟨c, chars, rfl⟩ := List.exists_cons_of_ne_nil hne
      obtain ⟨rfl, -⟩ := List.cons.inj (List.cons.inj hall).2
      exact absurd List.mem_cons_self hchars

-- The tag whose canonical form is a path between two braces has this path in it.
theorem exists_padding_of_canonical {path : Path} (hspelled : Spelled true tag spelling)
    (hpath : path.isValid = true) (h : tag.canonical = braced 2 path.text.toList) :
    ∃ left right, Padding true left ∧ Padding true right ∧
      spelling = braced 2 (left ++ path.text.toList ++ right) := by
  have hchars := Path.isPathChar_of_isValid hpath
  cases hspelled with
  | @raw other left right hleft hright =>
      have hcontent : braced 2 ('{' :: other.text.toList ++ ['}']) = braced 2 path.text.toList := by
        rw [← h]
        simp [canonical, braced, List.replicate]
      have hbrace : '{' ∈ path.text.toList := by simp [← braced_inj hcontent]
      exact absurd (hchars _ hbrace) (by decide)
  | @escaped other left right hleft hright =>
      have hcontent : braced 2 other.text.toList = braced 2 path.text.toList := h
      exact ⟨left, right, hleft, hright, by rw [braced_inj hcontent]⟩
  | @opener kind other left gap right hleft hgap hright =>
      have hmark : '#' ∈ path.text.toList := by simp [← braced_inj h]
      exact absurd (hchars _ hmark) (by decide)
  | @otherwise left right hleft hright =>
      exact ⟨left, right, hleft, hright, by rw [braced_inj h]⟩
  | @closer kind left inner right hleft hinner hright =>
      have hmark : '/' ∈ path.text.toList := by simp [← braced_inj h]
      exact absurd (hchars _ hmark) (by decide)

-- A brace in front of a tag with padding belonged to a tag itself, if it belongs to one without.
theorem Repadded.isSome_scan?_of_tag {content rest : List Char} (hspelled : Spelled true tag spelling)
    (htag : tag.WellFormed) (h : Repadded text text') (hcontent : ∀ c ∈ content, isBrace c = false)
    (hraw : (ofRawContent? false content).isSome = true)
    (htext : tag.canonical ++ text' = braced 2 content ++ '}' :: rest) :
    (scan? true ('{' :: (spelling ++ text))).isSome = true := by
  obtain ⟨path, hpath⟩ : ∃ path, path? content = some path := by
    simpa [ofRawContent?, unpad, Option.isSome_iff_exists] using hraw
  obtain ⟨rfl, hvalid⟩ := eq_of_path? hpath
  have hlength : tag.canonical.length = (braced 2 path.text.toList).length := by
    have hscan := scan?_append (spelled_canonical tag) htag text'
    rw [htext, scan?_braced_two hcontent] at hscan
    obtain ⟨found, -, hfound⟩ := Option.map_eq_some_iff.mp hscan
    exact (Prod.mk.inj hfound).2.symm
  obtain ⟨hcanonical, hrest⟩ := List.append_inj htext hlength
  obtain ⟨left, right, hleft, hright, rfl⟩ := exists_padding_of_canonical hspelled hvalid hcanonical
  rw [hrest] at h
  have hclose : Repadded text (['}'] ++ rest) := h
  obtain ⟨last, rfl, -⟩ := hclose.exists_of_chars (by decide)
  have hscan := scan?_append (.raw hleft hright) ⟨hvalid, by simp⟩ last
  have hsplit : '{' :: (braced 2 (left ++ path.text.toList ++ right) ++ (['}'] ++ last)) =
      braced 3 (left ++ path.text.toList ++ right) ++ last := by
    simp [braced, List.replicate]
  rw [hsplit, hscan]
  rfl

-- Losing padding makes no tag out of a brace that began none.
theorem Repadded.isSome_scan? (h : Repadded text text')
    (hscan : (scan? false ('{' :: text')).isSome = true) :
    (scan? true ('{' :: text)).isSome = true := by
  obtain ⟨⟨tag, width⟩, hfound⟩ := Option.isSome_iff_exists.mp hscan
  obtain ⟨hspelled, htag⟩ := spelled_of_scan? hfound
  obtain ⟨count, content, rest, htext, hwidth, hcontent, hcount⟩ := exists_braced_of_scan? hfound
  rw [htext, hwidth, List.take_left] at hspelled
  have hsame : ∀ last, '{' :: text = braced count content ++ last →
      (scan? true ('{' :: text)).isSome = true := by
    intro last hlast
    rw [hlast, scan?_append (hspelled.allowed true) htag]
    rfl
  have hchars : ∀ closing, '{' ∉ content ++ List.replicate closing '}' := by
    intro closing hmem
    rcases List.mem_append.mp hmem with hmem | hmem
    · exact absurd (hcontent _ hmem) (by decide)
    · exact absurd (List.eq_of_mem_replicate hmem) (by decide)
  rcases hcount with ⟨rfl, hraw⟩ | ⟨rfl, -⟩
  · have htext' : text' = '{' :: '{' :: (content ++ List.replicate 3 '}' ++ rest) :=
      (List.cons.inj htext).2
    generalize text' = all at h htext'
    cases h with
    | nil => cases htext'
    | char c h =>
        obtain ⟨rfl, rfl⟩ := List.cons.inj htext'
        obtain ⟨last, rfl, -⟩ := h.exists_of_brace (hchars 3) (by simp)
        exact hsame last rfl
    | @tag other spelling last last' hother hotherTag h =>
        have hsplit : other.canonical ++ last' = braced 2 content ++ '}' :: rest := by
          rw [htext']
          simp [braced, List.replicate]
        exact h.isSome_scan?_of_tag hother hotherTag hcontent (by rw [hraw]; rfl) hsplit
  · have htext' : text' = '{' :: (content ++ List.replicate 2 '}' ++ rest) := (List.cons.inj htext).2
    rw [htext'] at h
    obtain ⟨last, rfl, -⟩ := h.exists_of_brace (hchars 2) (by simp)
    exact hsame last rfl

end Tag

end Stencil

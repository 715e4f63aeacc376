import Stencil.Proofs.Builder.ReadFrom

namespace Stencil

namespace Token

variable {padded : Bool} {text : List Char} {token : Token} {rest first second : List Token}

-- A text begins with a tag that can be read there, or with a character of its own.
theorem of_ofText_cons (h : ofText padded text = token :: rest) :
    (∃ tag width, Tag.scan? padded text = some (tag, width) ∧ token = .tag tag (text.take width) ∧
        rest = ofText padded (text.drop width)) ∨
      ∃ c behind, text = c :: behind ∧ Tag.scan? padded text = none ∧
        token = (if c = '{' && behind.head? = some '{' then .brace else .text c) ∧
        rest = ofText padded behind := by
  cases text with
  | nil =>
      rw [ofText] at h
      cases h
  | cons c behind =>
      cases hscan : Tag.scan? padded (c :: behind) with
      | none =>
          rw [ofText_literal hscan] at h
          obtain ⟨rfl, rfl⟩ := List.cons.inj h
          exact .inr ⟨c, behind, rfl, rfl, rfl, rfl⟩
      | some found =>
          rw [ofText_tag hscan] at h
          obtain ⟨rfl, rfl⟩ := List.cons.inj h
          exact .inl ⟨found.1, found.2, rfl, rfl, rfl⟩

theorem of_ofText_brace (h : ofText padded text = .brace :: rest) :
    (∃ behind, text = '{' :: '{' :: behind) ∧ Tag.scan? padded text = none := by
  rcases of_ofText_cons h with ⟨_, _, _, htoken, _⟩ | ⟨c, behind, rfl, hscan, htoken, _⟩
  · cases htoken
  · split_ifs at htoken with hpair
    simp only [Bool.and_eq_true, decide_eq_true_eq] at hpair
    obtain ⟨rfl, hhead⟩ := hpair
    obtain ⟨more, rfl⟩ := List.head?_eq_some_iff.mp hhead
    exact ⟨⟨more, rfl⟩, hscan⟩

theorem of_ofText_tag {tag : Tag} {chars : List Char} (h : ofText padded text = .tag tag chars :: rest) :
    ∃ width, Tag.scan? padded text = some (tag, width) ∧ chars = text.take width := by
  rcases of_ofText_cons h with ⟨_, width, hscan, htoken, _⟩ | ⟨c, behind, rfl, hscan, htoken, _⟩
  · cases htoken
    exact ⟨width, hscan, rfl⟩
  · split_ifs at htoken

theorem spelling_of_ofText (h : ofText padded text = first ++ second) :
    text = first.flatMap spelling ++ second.flatMap spelling := by
  rw [← flatMap_spelling_ofText padded text, h, List.flatMap_append]

theorem ofText_drop (h : ofText padded text = first ++ second) :
    ofText padded (text.drop (first.flatMap spelling).length) = second := by
  induction first generalizing text with
  | nil => exact h
  | cons token first ih =>
      rw [List.flatMap_cons, List.length_append, ← List.drop_drop]
      apply ih
      rw [List.cons_append] at h
      rcases of_ofText_cons h with ⟨tag, width, hscan, rfl, hrest⟩ | ⟨c, behind, rfl, -, rfl, hrest⟩
      · rw [hrest, spelling, List.length_take_of_le (Tag.scan?_length hscan).2]
      · rw [hrest]
        split <;> rfl

-- What is read in the part in front of the cut is read as far as it reaches.
theorem ofText_take (h : ofText padded text = first ++ second) (hbrace : .brace ∉ first) :
    ofText padded (first.flatMap spelling) = first := by
  induction first generalizing text with
  | nil => rw [List.flatMap_nil, ofText]
  | cons token first ih =>
      have hlater : ofText padded text = [token] ++ (first ++ second) := h
      have hfirst := ih (ofText_drop hlater)
        (fun hmem => hbrace (List.mem_cons_of_mem _ hmem))
      have htext := spelling_of_ofText h
      rw [List.flatMap_cons, List.append_assoc] at htext
      rw [List.flatMap_cons]
      rcases of_ofText_cons h with ⟨tag, width, hscan, rfl, -⟩ | ⟨c, behind, rfl, -, rfl, -⟩
      · obtain ⟨hspelled, htag⟩ := Tag.spelled_of_scan? hscan
        have htokens := ofText_tag (Tag.scan?_append hspelled htag (first.flatMap spelling))
        rw [List.take_left, List.drop_left, hfirst] at htokens
        exact htokens
      · split_ifs at hbrace htext ⊢ with hpair
        · exact absurd List.mem_cons_self hbrace
        · have hbehind : behind = first.flatMap spelling ++ second.flatMap spelling :=
            (List.cons.inj htext).2
          have halone : ¬(c = '{' ∧ (first.flatMap spelling).head? = some '{') := by
            rintro ⟨rfl, hhead⟩
            simp [hbehind, List.head?_append, hhead] at hpair
          have hnone : Tag.scan? padded (c :: first.flatMap spelling) = none := Tag.scan?_eq_none halone
          have htokens := ofText_literal hnone
          rw [if_neg (by simpa using halone), hfirst] at htokens
          exact htokens

end Token

end Stencil

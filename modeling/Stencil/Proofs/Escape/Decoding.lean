import Stencil.Proofs.Escape

namespace Stencil

variable {c : Char} {entity : String} {text : List Char}

section Decoding

theorem unescapeChars_cons (h : c ≠ '&') (rest : List Char) :
    unescapeChars (c :: rest) = c :: unescapeChars rest := by
  simp [unescapeChars, h]

-- What is written for a character is read as that character, whatever follows it.
theorem unescapeChars_escapeChar_append (c : Char) (rest : List Char) :
    unescapeChars (escapeChar c ++ rest) = c :: unescapeChars rest := by
  unfold escapeChar entity?
  split
  · next entity hentity =>
    split at hentity <;> cases hentity <;> simp [unescapeChars]
  · next hnone =>
    have hc : c ≠ '&' := by
      rintro rfl
      cases hnone
    exact unescapeChars_cons hc rest

theorem unescapeChars_escapeChars (text : List Char) : unescapeChars (escapeChars text) = text := by
  induction text with
  | nil => rfl
  | cons c rest ih =>
      have hcons : escapeChars (c :: rest) = escapeChar c ++ escapeChars rest := List.flatMap_cons
      rw [hcons, unescapeChars_escapeChar_append, ih]

end Decoding

section Length

theorem one_lt_length_entity : ∀ entity ∈ entities, 1 < entity.toList.length := by
  simp [entities]

theorem length_escapeChar_pos (c : Char) : 0 < (escapeChar c).length := by
  unfold escapeChar
  split
  · next entity hentity =>
    have := one_lt_length_entity entity (mem_entities_of_entity? hentity)
    omega
  · simp

theorem one_lt_length_escapeChar (h : entity? c = some entity) : 1 < (escapeChar c).length := by
  rw [escapeChar, h]
  exact one_lt_length_entity entity (mem_entities_of_entity? h)

theorem length_le_length_escapeChars (text : List Char) : text.length ≤ (escapeChars text).length := by
  induction text with
  | nil => simp
  | cons c rest ih =>
      have hc := length_escapeChar_pos c
      simp only [escapeChars, List.flatMap_cons, List.length_append, List.length_cons] at ih ⊢
      omega

-- An entity is longer than its character, and nothing written later makes up for that.
theorem escapeChars_eq_self_iff : escapeChars text = text ↔ ∀ c ∈ text, entity? c = none := by
  refine ⟨?_, escapeChars_of_plain⟩
  intro h
  induction text with
  | nil => simp
  | cons c rest ih =>
      have hcons : escapeChar c ++ escapeChars rest = c :: rest := h
      cases hentity : entity? c with
      | some entity =>
          have hc := one_lt_length_escapeChar hentity
          have hrest := length_le_length_escapeChars rest
          have hlength := congrArg List.length hcons
          simp only [List.length_append, List.length_cons] at hlength
          omega
      | none =>
          simp only [escapeChar, hentity, List.singleton_append, List.cons.injEq, true_and] at hcons
          exact List.forall_mem_cons.mpr ⟨hentity, ih hcons⟩

end Length

theorem escape_append (a b : String) : escape (a ++ b) = escape a ++ escape b := by
  rw [← String.toList_inj, String.toList_append, toList_escape, toList_escape, toList_escape,
    String.toList_append, escapeChars_append]

theorem appendEscaped_eq (output text : String) : appendEscaped output text = output ++ escape text := by
  rw [← String.toList_inj, String.toList_append, toList_appendEscaped, toList_escape]

theorem escape_eq_self_iff (text : String) :
    escape text = text ↔ ∀ c ∈ text.toList, c ∉ '&' :: markup := by
  rw [← String.toList_inj, toList_escape, escapeChars_eq_self_iff]
  exact forall₂_congr fun c _ => entity?_eq_none_iff

theorem escape_reversible (output a b : String) :
    appendEscaped output a = output ++ escape a ∧
    escape (a ++ b) = escape a ++ escape b ∧
    unescapeChars (escape a).toList = a.toList ∧
    (escape a = escape b → a = b) ∧
    (∀ c ∈ (escape a).toList, c ∉ markup) ∧
    (∀ after, '&' :: after <:+ (escape a).toList → StartsEntity ('&' :: after)) ∧
    (escape a = a ↔ ∀ c ∈ a.toList, c ∉ '&' :: markup) := by
  have hread : ∀ text : String, unescapeChars (escape text).toList = text.toList := by
    intro text
    rw [toList_escape, unescapeChars_escapeChars]
  refine ⟨appendEscaped_eq output a, escape_append a b, hread a, ?_, ?_, ?_, escape_eq_self_iff a⟩
  · intro h
    rw [← String.toList_inj, ← hread a, h, hread b]
  · rw [toList_escape]
    exact fun c => not_mem_markup_of_mem_escapeChars
  · rw [toList_escape]
    exact fun after => startsEntity_of_suffix_escapeChars

end Stencil

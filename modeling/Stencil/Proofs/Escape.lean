import Stencil.Escape
import Mathlib.Data.List.Infix

namespace Stencil

-- The characters that begin or end tags and quoted attributes.
def markup : List Char :=
  ['<', '>', '"', '\'']

def entities : List String :=
  ["&amp;", "&lt;", "&gt;", "&quot;", "&#39;"]

def StartsEntity (text : List Char) : Prop :=
  ∃ entity ∈ entities, entity.toList <+: text

variable {c d : Char} {entity : String} {text after first second : List Char}

theorem mem_entities_of_entity? (h : entity? c = some entity) : entity ∈ entities := by
  unfold entity? at h
  split at h <;> simp_all [entities]

theorem isSome_entity?_of_mem_markup : ∀ c ∈ markup, (entity? c).isSome = true := by
  simp [markup, entity?]

theorem not_mem_markup_of_mem_entity :
    ∀ entity ∈ entities, ∀ c ∈ entity.toList, c ∉ markup := by
  simp [entities, markup]

-- An entity has one ampersand, its first character.
theorem eq_entity_of_suffix (h : entity ∈ entities) (hsuffix : '&' :: after <:+ entity.toList) :
    '&' :: after = entity.toList := by
  simp only [entities, List.mem_cons, List.not_mem_nil, or_false] at h
  rcases h with rfl | rfl | rfl | rfl | rfl <;> simpa [List.suffix_cons_iff] using hsuffix

theorem not_mem_markup_of_mem_escapeChar (h : d ∈ escapeChar c) : d ∉ markup := by
  unfold escapeChar at h
  split at h
  · next hentity => exact not_mem_markup_of_mem_entity _ (mem_entities_of_entity? hentity) d h
  · next hnone =>
    obtain rfl := List.mem_singleton.mp h
    intro hmarkup
    simpa [hnone] using isSome_entity?_of_mem_markup d hmarkup

theorem startsEntity_of_suffix_escapeChar (h : '&' :: after <:+ escapeChar c) :
    StartsEntity ('&' :: after) := by
  unfold escapeChar at h
  split at h
  · next entity hentity =>
    have hmem := mem_entities_of_entity? hentity
    rw [eq_entity_of_suffix hmem h]
    exact ⟨entity, hmem, List.prefix_refl _⟩
  · next hnone =>
    obtain rfl := List.mem_singleton.mp (h.subset List.mem_cons_self)
    cases hnone

-- An entity stays one in a longer text.
theorem startsEntity_of_suffix_append
    (hfirst : ∀ after, '&' :: after <:+ first → StartsEntity ('&' :: after))
    (hsecond : ∀ after, '&' :: after <:+ second → StartsEntity ('&' :: after))
    (h : '&' :: after <:+ first ++ second) : StartsEntity ('&' :: after) := by
  rcases List.suffix_or_suffix_of_suffix h (List.suffix_append first second) with hinside | hacross
  · exact hsecond after hinside
  · obtain ⟨part, hpart⟩ := hacross
    rw [← hpart, List.suffix_append_self_iff] at h
    cases part with
    | nil => exact hsecond after (hpart ▸ List.suffix_refl _)
    | cons c part =>
        obtain ⟨rfl, rfl⟩ := List.cons.inj hpart
        obtain ⟨entity, hmem, hprefix⟩ := hfirst part h
        exact ⟨entity, hmem, hprefix.trans (List.prefix_append ('&' :: part) second)⟩

theorem not_mem_markup_of_mem_escapeChars (h : c ∈ escapeChars text) : c ∉ markup := by
  obtain ⟨d, -, hd⟩ := List.mem_flatMap.mp h
  exact not_mem_markup_of_mem_escapeChar hd

theorem startsEntity_of_suffix_escapeChars (h : '&' :: after <:+ escapeChars text) :
    StartsEntity ('&' :: after) := by
  induction text generalizing after with
  | nil => cases List.suffix_nil.mp h
  | cons c rest ih =>
      have hcons : escapeChars (c :: rest) = escapeChar c ++ escapeChars rest := List.flatMap_cons
      rw [hcons] at h
      exact startsEntity_of_suffix_append (fun _ => startsEntity_of_suffix_escapeChar) (fun _ => ih) h

end Stencil

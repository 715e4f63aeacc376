import Stencil.Proofs.Builder.Run
import Stencil.Proofs.Outline.Canonical
import Stencil.Template

namespace Stencil

namespace Outline

-- The printed form is read as the outline without padding, tag by tag.
theorem ofText_canonical (options : Options) (text : List Char) :
    ofText { options with allowPadding := false }
        (ofText { options with allowPadding := true } text).canonical.spelling =
      (ofText { options with allowPadding := true } text).canonical := by
  have hsettled := (settled_ofText { options with allowPadding := true } text).canonical unpads_nil
  have hread : read false none false
      ((ofText { options with allowPadding := true } text).canonical.spelling ++ []) = _ :=
    hsettled.read_append (by simp) (by simp)
  rw [List.append_nil, read_nil] at hread
  rw [ofText, hread]
  simp [Reading.prepend, Reading.shift]

end Outline

namespace Node

theorem parse_canonical (options : Options) (source : String) {nodes : List Node}
    (hdepth : braces source.toList ≤ options.maxDepth)
    (h : parse { options with allowPadding := true } source.toList = .ok nodes) :
    parse { options with allowPadding := false } (spellAll nodes).toList = .ok nodes ∧
    ∀ context, renderWith { options with allowPadding := true } source context =
      renderWith { options with allowPadding := false } (spellAll nodes) context := by
  obtain ⟨hnodes, hfits⟩ := parse_eq_ok_iff.mp h
  have hwithin := Outline.within_ofText { options with allowPadding := true } source.toList hdepth
  have hparse : parse { options with allowPadding := false }
      (Outline.ofText { options with allowPadding := true } source.toList).canonical.spelling =
        .ok nodes := by
    rw [parse_eq_ok_iff, Outline.ofText_canonical, Outline.limit_of_within hwithin.canonical,
      Outline.toNodes_canonical, hnodes, Outline.limit_of_within hwithin]
    exact ⟨rfl, fun hstrict => ⟨(hfits hstrict).1.canonical, hwithin.canonical⟩⟩
  have hprinted := toList_spellAll_of_spells (spells_of_parse hparse)
  rw [← hprinted] at hparse
  refine ⟨hparse, ?_⟩
  intro context
  rw [renderWith_of_parse h, renderWith_of_parse hparse]

-- The opener and the closing tag do not match. As text they keep their padding, and are no tags without it.
theorem parse_canonical_mismatch :
    parse { allowPadding := true }
        "\x7b\x7b #if a \x7d\x7d\x7b\x7b /each \x7d\x7d\x7b\x7b b \x7d\x7d".toList =
      .ok [.text "\x7b\x7b #if a \x7d\x7d\x7b\x7b /each \x7d\x7d", .placeholder ⟨"b"⟩ true] ∧
    parse {} ("\x7b\x7b #if a \x7d\x7d\x7b\x7b /each \x7d\x7d" ++ placeholderText ⟨"b"⟩ true).toList =
      .ok [.text "\x7b\x7b #if a \x7d\x7d\x7b\x7b /each \x7d\x7d", .placeholder ⟨"b"⟩ true] := by
  have hparse : parse { allowPadding := true }
      "\x7b\x7b #if a \x7d\x7d\x7b\x7b /each \x7d\x7d\x7b\x7b b \x7d\x7d".toList =
        .ok [.text "\x7b\x7b #if a \x7d\x7d\x7b\x7b /each \x7d\x7d", .placeholder ⟨"b"⟩ true] := by
    rw [parse_lenient rfl]
    with_unfolding_all rfl
  have hcanonical := (parse_canonical {} _ (by decide) hparse).1
  exact ⟨hparse, hcanonical⟩

end Node

end Stencil

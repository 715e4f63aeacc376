import Stencil.Proofs.Builder.Run
import Stencil.Proofs.Strict.Completeness

namespace Stencil

namespace Outline

variable {options : Options} {last : Prop} {nodes : List Node} {text : List Char} {outline : Outline}

-- What is read as an outline wherever it stands is read so on its own.
theorem Rereads.ofText_eq
    (h : Rereads options.allowPadding options.maxDepth last nodes text outline) :
    ofText options text = outline := by
  have hread := h.read_eq none false [] (fun _ => rfl) (by simp)
  rw [List.append_nil] at hread
  rw [ofText, hread, read_nil]
  simp [Reading.prepend, Reading.shift]

theorem Rereads.parse_eq
    (h : Rereads options.allowPadding options.maxDepth last nodes text outline) :
    Node.parse options text = .ok nodes := by
  rw [Node.parse_eq_ok_iff, h.ofText_eq, limit_of_within h.fits.2, h.toNodes_eq]
  exact ⟨rfl, fun _ => h.fits⟩

end Outline

namespace Node

variable {options : Options} {text : List Char} {nodes : List Node}

theorem wellFormed_of_parse (hstrict : options.strict = true) (h : parse options text = .ok nodes) :
    WellFormed options.maxDepth nodes := by
  obtain ⟨⟨hplain, hwithin⟩, rfl⟩ := (parse_strict_iff hstrict).mp h
  exact Outline.wellFormed_toNodes ⟨Outline.legible_ofText options text, hplain, hwithin,
    Outline.elseSplits_ofText options text⟩

theorem parse_of_spells (hstrict : options.strict = true)
    (hspells : Spells options.allowPadding nodes text) (hnodes : WellFormed options.maxDepth nodes) :
    parse options text = .ok nodes := by
  have hroot : ListIn nodes 0 ([] ++ nodes) := .root
  obtain ⟨outline, houtline⟩ := Outline.exists_rereads hnodes hspells hroot
  refine (parse_strict_iff hstrict).mpr ?_
  rw [houtline.ofText_eq]
  exact ⟨houtline.fits, houtline.toNodes_eq.symm⟩

theorem parse_strict_iff_spells (hstrict : options.strict = true) (text : List Char)
    (nodes : List Node) :
    parse options text = .ok nodes ↔
      Spells options.allowPadding nodes text ∧ WellFormed options.maxDepth nodes := by
  constructor
  · exact fun h => ⟨spells_of_parse h, wellFormed_of_parse hstrict h⟩
  · exact fun ⟨hspells, hnodes⟩ => parse_of_spells hstrict hspells hnodes

-- A padded block without contents, and a brace behind it that begins nothing.
theorem parse_strict_iff_spells_padded :
    Spells true [.block .each ⟨"a"⟩ [], .text (String.ofList ['x', '{'])]
        (Tag.braced 2 " #each a".toList ++ Tag.braced 2 "/ each ".toList ++ ['x', '{']) ∧
      WellFormed 1 [.block .each ⟨"a"⟩ [], .text (String.ofList ['x', '{'])] := by
  have houtline : Outline.ofText { strict := true, maxDepth := 1, allowPadding := true }
      (Tag.braced 2 " #each a".toList ++ Tag.braced 2 "/ each ".toList ++ ['x', '{']) =
        .block .each ⟨"a"⟩ (Tag.braced 2 " #each a".toList) .nil (Tag.braced 2 "/ each ".toList)
          (.text 'x' (.text '{' .nil)) := by
    with_unfolding_all rfl
  have hparse : parse { strict := true, maxDepth := 1, allowPadding := true }
      (Tag.braced 2 " #each a".toList ++ Tag.braced 2 "/ each ".toList ++ ['x', '{']) =
        .ok [.block .each ⟨"a"⟩ [], .text (String.ofList ['x', '{'])] := by
    rw [parse_strict_iff rfl, houtline]
    exact ⟨⟨⟨trivial, trivial⟩, Nat.one_pos, trivial, trivial⟩, rfl⟩
  exact (parse_strict_iff_spells rfl _ _).mp hparse

end Node

end Stencil

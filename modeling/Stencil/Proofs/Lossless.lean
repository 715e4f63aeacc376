import Stencil.Proofs.Builder.Run
import Stencil.Proofs.Outline.Lists

namespace Stencil

namespace Node

-- Reading loses, doubles and reorders nothing.
theorem parse_lossless (options : Options) (text : List Char) :
    (options.strict = false → ∃ nodes, parse options text = .ok nodes) ∧
      ∀ nodes, parse options text = .ok nodes →
        Spells options.allowPadding nodes text ∧
          (options.allowPadding = false → spellAll nodes = String.ofList text) ∧
            ∀ depth list, ListIn nodes depth list → Tidy list := by
  constructor
  · exact fun hlenient => ⟨_, parse_lenient hlenient text⟩
  · intro nodes h
    have hspells := spells_of_parse h
    refine ⟨hspells, ?_, ?_⟩
    · intro hpadded
      rw [hpadded] at hspells
      rw [← toList_spellAll_of_spells hspells, String.ofList_toList]
    · intro depth list hlist
      rw [eq_of_parse_eq_ok h] at hlist
      exact Outline.tidy_of_listIn hlist (Outline.within_limit _ _)

-- Both blocks are given up: the outer one has no closing tag, the inner one lies too deep.
theorem parse_lossless_given_up :
    ∃ nodes,
      parse { maxDepth := 0 }
        (openerText .ifTrue ⟨"a"⟩ ++ openerText .each ⟨"b"⟩ ++ closerText .each).toList =
          .ok nodes ∧
      spellAll nodes = openerText .ifTrue ⟨"a"⟩ ++ openerText .each ⟨"b"⟩ ++ closerText .each ∧
        Tidy nodes := by
  obtain ⟨hok, hall⟩ := parse_lossless { maxDepth := 0 }
    (openerText .ifTrue ⟨"a"⟩ ++ openerText .each ⟨"b"⟩ ++ closerText .each).toList
  obtain ⟨nodes, hnodes⟩ := hok rfl
  obtain ⟨-, hspell, htidy⟩ := hall nodes hnodes
  refine ⟨nodes, hnodes, ?_, htidy 0 nodes .root⟩
  rw [hspell rfl, String.ofList_toList]

end Node

end Stencil

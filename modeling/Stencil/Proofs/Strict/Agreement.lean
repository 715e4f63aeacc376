import Stencil.Proofs.Builder.Run
import Stencil.Proofs.Strict.Traces
import Stencil.Template

namespace Stencil

namespace Node

-- No text holds a pair of braces, and only the last one of the root may end in a brace.
structure Clean (root : List Node) : Prop where
  no_pair : ∀ depth nodes, ListIn root depth nodes → ∀ content, .text content ∈ nodes →
    ¬['{', '{'] <:+: content.toList
  no_last_brace : ∀ depth nodes, ListIn root depth nodes → ∀ content after,
    .text content :: after <:+ nodes → content.toList.getLast? = some '{' → depth = 0 ∧ after = []

variable {options : Options} {text : List Char}

theorem WellFormed.clean {maxDepth : Nat} {root : List Node} (h : WellFormed maxDepth root) :
    Clean root :=
  ⟨h.no_pair, h.no_last_brace⟩

-- Behind the root there is nothing, and behind every other list there is a tag.
theorem Clean.apart {root nodes : List Node} {depth : Nat} {behind : List Char} (h : Clean root)
    (hlist : ListIn root depth nodes) (hbehind : depth = 0 → behind.head? ≠ some '{') :
    Outline.Apart behind nodes := by
  intro content after hsuffix
  refine ⟨h.no_pair depth nodes hlist content (hsuffix.subset List.mem_cons_self), ?_⟩
  intro hbrace
  obtain ⟨hdepth, hafter⟩ := h.no_last_brace depth nodes hlist content after hsuffix hbrace
  exact ⟨hafter, hbehind hdepth⟩

end Node

namespace Outline

open Node

theorem fits_iff_clean (options : Options) (text : List Char) :
    (ofText options text).Fits options.maxDepth ↔
      Clean ((ofText options text).limit options.maxDepth).toNodes := by
  have hlegible := legible_ofText options text
  constructor
  · rintro ⟨hplain, hwithin⟩
    rw [limit_of_within hwithin]
    exact (wellFormed_toNodes ⟨hlegible, hplain, hwithin, elseSplits_ofText options text⟩).clean
  · intro hclean
    have hsolid : (ofText options text).Solid := (solid_read _ _ _ _).1
    refine plain_limit_iff.mp (plain_of_apart (solid_limit hsolid hlegible _)
      (legible_limit hlegible _) (hclean.apart .root (by simp)) ?_)
    exact fun depth list hlist => hclean.apart hlist (fun hzero => absurd hzero (Nat.succ_ne_zero depth))

end Outline

namespace Node

theorem parse_strict_iff_clean (options : Options) (text : List Char) {nodes found : List Node}
    (hlenient : parse { options with strict := false } text = .ok nodes) :
    parse { options with strict := true } text = .ok found ↔ Clean nodes ∧ found = nodes := by
  have heq : nodes = ((Outline.ofText options text).limit options.maxDepth).toNodes := by
    have hlimited := eq_of_parse_eq_ok hlenient
    exact hlimited
  have hstrict : parse { options with strict := true } text = .ok found ↔
      (Outline.ofText options text).Fits options.maxDepth ∧
        found = (Outline.ofText options text).toNodes := parse_strict_iff rfl
  rw [hstrict, heq, ← Outline.fits_iff_clean]
  refine and_congr_right ?_
  intro hfits
  rw [Outline.limit_of_within hfits.2]

theorem parse_strict_agrees (options : Options) (source : String) :
    ∃ nodes, parse { options with strict := false } source.toList = .ok nodes ∧
      ((∃ found, parse { options with strict := true } source.toList = .ok found) ↔ Clean nodes) ∧
        ∀ found, parse { options with strict := true } source.toList = .ok found →
          found = nodes ∧ ∀ context, renderWith { options with strict := true } source context =
            renderWith { options with strict := false } source context := by
  have hlenient : ∃ nodes, parse { options with strict := false } source.toList = .ok nodes :=
    ⟨_, parse_lenient rfl source.toList⟩
  obtain ⟨nodes, hnodes⟩ := hlenient
  refine ⟨nodes, hnodes, ?_, ?_⟩
  · constructor
    · rintro ⟨found, hfound⟩
      exact ((parse_strict_iff_clean options _ hnodes).mp hfound).1
    · exact fun hclean => ⟨nodes, (parse_strict_iff_clean options _ hnodes).mpr ⟨hclean, rfl⟩⟩
  · intro found hfound
    obtain rfl := ((parse_strict_iff_clean options _ hnodes).mp hfound).2
    refine ⟨rfl, ?_⟩
    intro context
    rw [renderWith_of_parse hfound, renderWith_of_parse hnodes]

-- The block lies as deep as it may, and the brace behind it is the last character.
theorem parse_strict_agrees_last_brace :
    parse { strict := true, maxDepth := 1 }
        (openerText .each ⟨"a"⟩ ++ closerText .each ++ String.ofList ['{']).toList =
      .ok [.block .each ⟨"a"⟩ [], .text (String.ofList ['{'])] ∧
    Clean [.block .each ⟨"a"⟩ [], .text (String.ofList ['{'])] ∧
    ∀ context, renderWith { strict := true, maxDepth := 1 }
        (openerText .each ⟨"a"⟩ ++ closerText .each ++ String.ofList ['{']) context =
      renderWith { strict := false, maxDepth := 1 }
        (openerText .each ⟨"a"⟩ ++ closerText .each ++ String.ofList ['{']) context := by
  have hstrict : parse { strict := true, maxDepth := 1 }
      (openerText .each ⟨"a"⟩ ++ closerText .each ++ String.ofList ['{']).toList =
        .ok [.block .each ⟨"a"⟩ [], .text (String.ofList ['{'])] := by
    have houtline : Outline.ofText { strict := true, maxDepth := 1 }
        (openerText .each ⟨"a"⟩ ++ closerText .each ++ String.ofList ['{']).toList =
          .block .each ⟨"a"⟩ (openerText .each ⟨"a"⟩).toList .nil (closerText .each).toList
            (.text '{' .nil) := by
      with_unfolding_all rfl
    rw [parse_strict_iff rfl, houtline]
    exact ⟨⟨⟨trivial, trivial⟩, Nat.one_pos, trivial, trivial⟩, rfl⟩
  obtain ⟨nodes, -, hclean, hagree⟩ := parse_strict_agrees { maxDepth := 1 }
    (openerText .each ⟨"a"⟩ ++ closerText .each ++ String.ofList ['{'])
  obtain ⟨rfl, hrender⟩ := hagree _ hstrict
  exact ⟨hstrict, hclean.mp ⟨_, hstrict⟩, hrender⟩

end Node

end Stencil

import Stencil.Proofs.Outline.Settled
import Stencil.Proofs.Strict.Faults
import Stencil.Template

namespace Stencil

namespace Node

-- One list behind another. Texts that meet become one.
def concat : List Node → List Node → List Node
  | [], later => later
  | [.text content], .text more :: later => .text (content ++ more) :: later
  | node :: rest, later => node :: concat rest later

theorem concat_of_not_isText {node : Node} (h : node.isText = false) (rest later : List Node) :
    concat (node :: rest) later = node :: concat rest later := by
  cases node with
  | text content => cases h
  | placeholder | block | ifElse => rfl

-- Behind a tidy list only its last text can meet another.
theorem joinText_append_of_tidy {first second : List Node} (hfirst : Tidy first)
    (hsecond : Tidy second) : joinText (first ++ second) = concat first second := by
  fun_induction concat first second with
  | case1 later => exact joinText_of_tidy hsecond
  | case2 content more later =>
      rw [List.singleton_append, joinText_cons, joinText_of_tidy hsecond]
      rfl
  | case3 node rest later hapart ih =>
      rw [List.cons_append, joinText_cons, ih hfirst.of_cons hsecond]
      cases node with
      | placeholder | block | ifElse => rfl
      | text content =>
          refine addText_of_head (hfirst.text_ne content List.mem_cons_self) ?_
          cases rest with
          | nil =>
              intro node hnode
              cases node with
              | text more =>
                  obtain ⟨last, hlater⟩ := List.head?_eq_some_iff.mp hnode
                  exact (hapart content more last hlater rfl rfl).elim
              | placeholder | block | ifElse => rfl
          | cons next rest =>
              have hnext := hfirst.head?_of_text next rfl
              rw [concat_of_not_isText hnext]
              simpa using hnext

theorem renderAll_concat (scope : Scope) (first second : List Node) :
    renderAll scope (concat first second) = renderAll scope first ++ renderAll scope second := by
  fun_induction concat first second with
  | case1 later => simp [renderAll]
  | case2 content more later => simp [renderAll, render, String.append_assoc]
  | case3 node rest later _ ih => simp [renderAll, ih, String.append_assoc]

end Node

theorem Token.ofText_append {padded : Bool} {first : List Char} (hbrace : .brace ∉ ofText padded first)
    (hlast : first.getLast? ≠ some '{') (second : List Char) :
    ofText padded (first ++ second) = ofText padded first ++ ofText padded second := by
  fun_induction ofText padded first with
  | case1 => rfl
  | case2 c rest found width hscan ih =>
      obtain ⟨hspelled, htag⟩ := Tag.spelled_of_scan? hscan
      have hwidth := (Tag.scan?_length hscan).2
      have hscan' : Tag.scan? padded (c :: rest ++ second) = some (found, width) := by
        have happend := Tag.scan?_append hspelled htag ((c :: rest).drop width ++ second)
        rwa [← List.append_assoc, List.take_append_drop, List.length_take_of_le hwidth] at happend
      have hlater : (List.drop width (c :: rest)).getLast? ≠ some '{' := by
        rw [List.getLast?_drop]
        split_ifs
        · simp
        · exact hlast
      rw [ofText_tag hscan', List.take_append_of_le_length hwidth, List.drop_append_of_le_length hwidth,
        ih (fun hmem => hbrace (List.mem_cons_of_mem _ hmem)) hlater, List.cons_append]
  | case3 c rest hscan ih =>
      have halone : ¬(c = '{' ∧ rest.head? = some '{') := by
        rintro ⟨rfl, hhead⟩
        simp [hhead] at hbrace
      have halone' : ¬(c = '{' ∧ (rest ++ second).head? = some '{') := by
        rintro ⟨rfl, hhead⟩
        cases rest with
        | nil => exact hlast rfl
        | cons next rest => exact halone ⟨rfl, hhead⟩
      have hlater : rest.getLast? ≠ some '{' := by
        intro hbraceLast
        exact hlast (by simp [List.getLast?_cons, hbraceLast])
      rw [List.cons_append, ofText_literal (Tag.scan?_eq_none halone'),
        ih (fun hmem => hbrace (List.mem_cons_of_mem _ hmem)) hlater]
      rw [List.cons_append, if_neg (by simpa using halone'), if_neg (by simpa using halone)]

namespace Outline

theorem toNodes_append (first second : Outline) :
    (first ++ second).toNodes = Node.concat first.toNodes second.toNodes := by
  rw [toNodes, nodes_append, ← Node.joinText_append_left, ← Node.joinText_append_right]
  exact Node.joinText_append_of_tidy (Node.tidy_joinText _) (Node.tidy_joinText _)

-- A brace at the end of the first text could begin a tag with the second.
theorem ofText_append {options : Options} {first : List Char} (hplain : (ofText options first).Plain)
    (hlast : first.getLast? ≠ some '{') (second : List Char) :
    ofText options (first ++ second) = ofText options first ++ ofText options second := by
  have hsettled : (ofText options first).Settled options.allowPadding second :=
    (settled_ofText options first).of_plain hplain
      (fun hbrace => absurd (spelling_ofText options first ▸ hbrace) hlast)
  have hread : read options.allowPadding none false
      ((ofText options first).spelling ++ second) = _ :=
    hsettled.read_append (by simp) (by simp)
  rw [spelling_ofText] at hread
  rw [ofText, hread]
  rfl

end Outline

namespace Node

section Seam

variable {options : Options} {first : List Char} {before : List Node}

-- Reading without strictness gives what strict reading gives, where that succeeds.
theorem parse_lenient_of_strict {text : List Char} {nodes : List Node}
    (h : parse { options with strict := true } text = .ok nodes) :
    parse { options with strict := false } text = .ok nodes := by
  rw [parse_lenient rfl, eq_of_parse_eq_ok h]
  rfl

theorem parse_lenient_append (hfirst : parse { options with strict := true } first = .ok before)
    (hlast : first.getLast? ≠ some '{') {second : List Char} {after : List Node}
    (hsecond : parse { options with strict := false } second = .ok after) :
    parse { options with strict := false } (first ++ second) = .ok (concat before after) := by
  obtain ⟨⟨hplain, -⟩, -⟩ := (parse_strict_iff rfl).mp hfirst
  have houtline : Outline.ofText { options with strict := false } (first ++ second) = _ :=
    Outline.ofText_append hplain hlast second
  rw [parse_lenient rfl, houtline, Outline.limit_append, Outline.toNodes_append,
    eq_of_parse_eq_ok hfirst, eq_of_parse_eq_ok hsecond]
  rfl

theorem firstFault_append_of_parse
    (hfirst : parse { options with strict := true } first = .ok before)
    (hlast : first.getLast? ≠ some '{') (second : List Char) :
    Token.firstFault options.maxDepth [] (Token.ofText options.allowPadding (first ++ second)) =
      (Token.firstFault options.maxDepth [] (Token.ofText options.allowPadding second)).map
        fun found => (first.length + found.1, found.2) := by
  have hnone : Token.firstFault options.maxDepth [] (Token.ofText options.allowPadding first) = none := by
    have hok := (parse_strict_ok_iff rfl).mp ⟨before, hfirst⟩
    exact hok
  rw [Token.ofText_append (Token.brace_notMem_of_firstFault hnone) hlast,
    Token.firstFault_append hnone, Token.flatMap_spelling_ofText]

theorem parse_strict_append_iff (hfirst : parse { options with strict := true } first = .ok before)
    (hlast : first.getLast? ≠ some '{') {second : List Char} {nodes : List Node} :
    parse { options with strict := true } (first ++ second) = .ok nodes ↔
      ∃ after, parse { options with strict := true } second = .ok after ∧
        nodes = concat before after := by
  have hfault := firstFault_append_of_parse hfirst hlast second
  have hok : (∃ after, parse { options with strict := true } second = .ok after) ↔
      ∃ nodes, parse { options with strict := true } (first ++ second) = .ok nodes := by
    rw [parse_strict_ok_iff rfl, parse_strict_ok_iff rfl, hfault, Option.map_eq_none_iff]
  constructor
  · intro h
    obtain ⟨after, hafter⟩ := hok.mpr ⟨nodes, h⟩
    have hconcat := parse_lenient_append hfirst hlast (parse_lenient_of_strict hafter)
    rw [parse_lenient_of_strict h] at hconcat
    exact ⟨after, hafter, Except.ok.inj hconcat⟩
  · rintro ⟨after, hafter, rfl⟩
    obtain ⟨nodes, h⟩ := hok.mp ⟨after, hafter⟩
    have hconcat := parse_lenient_append hfirst hlast (parse_lenient_of_strict hafter)
    rw [parse_lenient_of_strict h] at hconcat
    rw [h, Except.ok.inj hconcat]

-- A fault of the second text is reported where that text stands behind the first.
theorem parse_strict_append_error (hfirst : parse { options with strict := true } first = .ok before)
    (hlast : first.getLast? ≠ some '{') {second : List Char} {error : ParseError}
    (h : parse { options with strict := true } second = .error error) :
    ∃ shifted offset, parse { options with strict := true } (first ++ second) = .error shifted ∧
      shifted.fault = error.fault ∧ error.At second offset ∧
        shifted.At (first ++ second) (first.length + offset) := by
  obtain ⟨offset, fault, hfault, rfl⟩ := (parse_strict_error_iff rfl).mp h
  have hlength := Token.firstFault_le hfault
  rw [Token.flatMap_spelling_ofText] at hlength
  have hshifted := firstFault_append_of_parse hfirst hlast second
  rw [hfault] at hshifted
  refine ⟨_, offset, (parse_strict_error_iff rfl).mpr ⟨_, fault, hshifted, rfl⟩, rfl, ?_, ?_⟩
  · exact Reader.at_locate _ fault hlength
  · refine Reader.at_locate _ fault ?_
    rw [List.length_append]
    omega

end Seam

-- Behind a text that strict reading accepts and that does not end in a brace, any text is read as on its own.
theorem parse_append (options : Options) (first second : String) {before : List Node}
    (hfirst : parse { options with strict := true } first.toList = .ok before)
    (hlast : first.toList.getLast? ≠ some '{') :
    (∃ after, parse { options with strict := false } first.toList = .ok before ∧
      parse { options with strict := false } second.toList = .ok after ∧
      parse { options with strict := false } (first ++ second).toList = .ok (concat before after)) ∧
    (∀ context, ∃ left right,
      renderWith { options with strict := false } first context = .ok left ∧
      renderWith { options with strict := false } second context = .ok right ∧
      renderWith { options with strict := false } (first ++ second) context = .ok (left ++ right)) ∧
    (∀ nodes, parse { options with strict := true } (first ++ second).toList = .ok nodes ↔
      ∃ after, parse { options with strict := true } second.toList = .ok after ∧
        nodes = concat before after) ∧
    ∀ error, parse { options with strict := true } second.toList = .error error →
      ∃ shifted offset, parse { options with strict := true } (first ++ second).toList = .error shifted ∧
        shifted.fault = error.fault ∧
        (∀ other, error.At second.toList other ↔ other = offset) ∧
        ∀ other, shifted.At (first ++ second).toList other ↔ other = first.toList.length + offset := by
  obtain ⟨after, hafter⟩ : ∃ after, parse { options with strict := false } second.toList = .ok after :=
    ⟨_, parse_lenient rfl _⟩
  have hbefore := parse_lenient_of_strict hfirst
  have hconcat := parse_lenient_append hfirst hlast hafter
  rw [String.toList_append]
  refine ⟨⟨after, hbefore, hafter, hconcat⟩, ?_, ?_, ?_⟩
  · intro context
    refine ⟨_, _, renderWith_of_parse hbefore context, renderWith_of_parse hafter context, ?_⟩
    rw [← String.toList_append] at hconcat
    rw [renderWith_of_parse hconcat, renderAll_concat]
  · exact fun nodes => parse_strict_append_iff hfirst hlast
  · intro error herror
    obtain ⟨shifted, offset, hshifted, hfault, hat, hshiftedAt⟩ :=
      parse_strict_append_error hfirst hlast herror
    exact ⟨shifted, offset, hshifted, hfault, fun _ => hat.iff, fun _ => hshiftedAt.iff⟩

-- The closing tag behind the block is text, or the fault of the second part.
theorem parse_append_stray_closer :
    parse {} (openerText .each ⟨"a"⟩ ++ closerText .each ++ "x" ++ closerText .each).toList =
      .ok [.block .each ⟨"a"⟩ [], .text ("x" ++ closerText .each)] ∧
    ∃ error, parse { strict := true }
        (openerText .each ⟨"a"⟩ ++ closerText .each ++ "x" ++ closerText .each).toList = .error error ∧
      error.fault = .unexpectedTag (closerText .each) ∧
      ∀ offset, error.At
          (openerText .each ⟨"a"⟩ ++ closerText .each ++ "x" ++ closerText .each).toList offset ↔
        offset = (openerText .each ⟨"a"⟩ ++ closerText .each ++ "x").toList.length := by
  have hfirst : parse { strict := true } (openerText .each ⟨"a"⟩ ++ closerText .each ++ "x").toList =
      .ok [.block .each ⟨"a"⟩ [], .text "x"] := by
    have houtline : Outline.ofText { strict := true }
        (openerText .each ⟨"a"⟩ ++ closerText .each ++ "x").toList =
          .block .each ⟨"a"⟩ (openerText .each ⟨"a"⟩).toList .nil (closerText .each).toList
            (.text 'x' .nil) := by
      with_unfolding_all rfl
    rw [parse_strict_iff rfl, houtline]
    exact ⟨⟨⟨trivial, trivial⟩, by decide, trivial, trivial⟩, rfl⟩
  have hsecond : parse { strict := true } (closerText .each).toList =
      .error ((Reader.ofText { strict := true } (closerText .each).toList).locate 0
        (.unexpectedTag (closerText .each))) := by
    refine (parse_strict_error_iff rfl).mpr ⟨0, _, ?_, rfl⟩
    with_unfolding_all rfl
  obtain ⟨⟨after, -, hafter, hconcat⟩, -, -, herror⟩ := parse_append {}
    (openerText .each ⟨"a"⟩ ++ closerText .each ++ "x") (closerText .each) hfirst (by decide)
  obtain ⟨shifted, offset, hshifted, hfault, hat, hshiftedAt⟩ := herror _ hsecond
  have hstart : 0 = offset := (hat 0).mp (Reader.at_locate _ _ (Nat.zero_le _))
  subst hstart
  refine ⟨?_, shifted, hshifted, hfault, hshiftedAt⟩
  have htext : after = [.text (closerText .each)] := by
    rw [parse_lenient rfl] at hafter
    rw [← Except.ok.inj hafter]
    with_unfolding_all rfl
  rw [htext] at hconcat
  exact hconcat

end Node

end Stencil

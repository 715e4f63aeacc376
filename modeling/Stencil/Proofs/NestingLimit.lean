import Stencil.Proofs.Lossless

namespace Stencil

namespace Node

mutual

-- What stays of a node in a place with room for that many blocks inside each other.
def limit (room : Nat) : Node → List Node
  | text content => [text content]
  | placeholder path escaped => [placeholder path escaped]
  | block kind path body =>
    match room with
    | 0 => text (openerText kind path) :: (limitAll 0 body ++ [text (closerText kind)])
    | room + 1 => [block kind path (joinText (limitAll room body))]
  | ifElse path thenBody elseBody =>
    match room with
    | 0 =>
      text (openerText .ifTrue path) :: (limitAll 0 thenBody ++
        text elseText :: (limitAll 0 elseBody ++ [text (closerText .ifTrue)]))
    | room + 1 =>
      [ifElse path (joinText (limitAll room thenBody)) (joinText (limitAll room elseBody))]

def limitAll (room : Nat) : List Node → List Node
  | [] => []
  | node :: rest => limit room node ++ limitAll room rest

end

variable {room : Nat}

theorem joinText_limitAll_addText (content : String) (nodes : List Node) :
    joinText (limitAll room (addText content nodes)) =
      addText content (joinText (limitAll room nodes)) := by
  by_cases hempty : content = ""
  · rw [hempty, addText_empty, addText_empty]
  obtain ⟨more, rest, rfl, hadd⟩ | ⟨-, hadd⟩ := addText_cases hempty nodes
  · rw [hadd]
    simp [limitAll, limit, addText_addText]
  · rw [hadd, limitAll, limit]
    rfl

-- Texts may be joined before the limit is put on.
theorem joinText_limitAll_joinText (nodes : List Node) :
    joinText (limitAll room (joinText nodes)) = joinText (limitAll room nodes) := by
  induction nodes with
  | nil => rfl
  | cons node rest ih =>
      cases node with
      | text content =>
          rw [joinText_cons, add_text, joinText_limitAll_addText, ih]
          rfl
      | placeholder | block | ifElse =>
          rw [joinText_cons, add_of_not_isText rfl, limitAll, limitAll, ← joinText_append_right, ih,
            joinText_append_right]

end Node

namespace Outline

-- Without padding the tags of the tree are the ones that were read.
theorem ofList_spelled {tag : Tag} {spelling : List Char} {printed : String}
    (h : Tag.Spelled false tag spelling) (hprinted : printed.toList = tag.canonical) :
    String.ofList spelling = printed := by
  rw [Tag.spelled_unpadded_iff.mp h, ← hprinted, String.ofList_toList]

theorem joinText_limitAll_nodes {outline : Outline} {behind : List Char}
    (h : outline.Legible false behind) (room : Nat) :
    Node.joinText (Node.limitAll room outline.nodes) = (outline.limit room).toNodes := by
  unfold toNodes
  induction outline generalizing room behind with
  | nil => rfl
  | text c rest ih => exact Node.joinText_cons_congr _ (ih h.2 room)
  | verbatim spelling rest ih => exact Node.joinText_cons_congr _ (ih h.2 room)
  | placeholder path escaped spelling rest ih => exact Node.joinText_cons_congr _ (ih h.2.2 room)
  | block kind path opener body closer rest ihBody ihRest =>
      obtain ⟨hopener, -, hbody, hcloser, hrest⟩ := h
      have hinner := fun room =>
        (Node.joinText_limitAll_joinText body.nodes).trans (ihBody hbody room)
      cases room with
      | zero =>
          have hopenerText := ofList_spelled hopener (Node.toList_openerText kind path)
          have hcloserText := ofList_spelled hcloser (Node.toList_closerText kind)
          have hlast := Node.joinText_cons_congr (.text (Node.closerText kind)) (ihRest hrest 0)
          have hall := Node.joinText_cons_congr (.text (Node.openerText kind path))
            (Node.joinText_append_congr (hinner 0) hlast)
          simpa [nodes, limit, Node.limitAll, Node.limit, hopenerText, hcloserText] using hall
      | succ room =>
          have hall := Node.joinText_cons_congr (.block kind path (Node.joinText (body.limit room).nodes))
            (ihRest hrest (room + 1))
          simpa [nodes, limit, Node.limitAll, Node.limit, hinner room] using hall
  | ifElse path opener thenBody elseTag elseBody closer rest ihThen ihElse ihRest =>
      obtain ⟨hopener, -, hthen, helseTag, helse, hcloser, hrest⟩ := h
      have hthenInner := fun room =>
        (Node.joinText_limitAll_joinText thenBody.nodes).trans (ihThen hthen room)
      have helseInner := fun room =>
        (Node.joinText_limitAll_joinText elseBody.nodes).trans (ihElse helse room)
      cases room with
      | zero =>
          have hopenerText := ofList_spelled hopener (Node.toList_openerText .ifTrue path)
          have helseText := ofList_spelled helseTag Node.toList_elseText
          have hcloserText := ofList_spelled hcloser (Node.toList_closerText .ifTrue)
          have hlast := Node.joinText_cons_congr (.text (Node.closerText .ifTrue)) (ihRest hrest 0)
          have helsePart := Node.joinText_cons_congr (.text Node.elseText)
            (Node.joinText_append_congr (helseInner 0) hlast)
          have hall := Node.joinText_cons_congr (.text (Node.openerText .ifTrue path))
            (Node.joinText_append_congr (hthenInner 0) helsePart)
          simpa [nodes, limit, Node.limitAll, Node.limit, hopenerText, helseText, hcloserText]
            using hall
      | succ room =>
          have hall := Node.joinText_cons_congr (.ifElse path (Node.joinText (thenBody.limit room).nodes)
            (Node.joinText (elseBody.limit room).nodes)) (ihRest hrest (room + 1))
          simpa [nodes, limit, Node.limitAll, Node.limit, hthenInner room, helseInner room] using hall

end Outline

namespace Node

theorem parse_nesting_limit (options : Options) (text : List Char) :
    (options.strict = false → options.allowPadding = false → ∀ full, braces text ≤ full →
      ∃ nodes, parse { options with maxDepth := full } text = .ok nodes ∧
        parse options text = .ok (joinText (limitAll options.maxDepth nodes))) ∧
    ∀ nodes, parse options text = .ok nodes → ∀ depth list, ListIn nodes depth list →
      ∀ node ∈ list, node.isBlock = true → depth < options.maxDepth := by
  constructor
  · intro hlenient hpadded full hfull
    have hwithin := Outline.within_ofText options text hfull
    have hlegible := Outline.legible_ofText options text
    rw [hpadded] at hlegible
    refine ⟨(Outline.ofText options text).toNodes, ?_, ?_⟩
    · have hfullLenient : ({ options with maxDepth := full } : Options).strict = false := hlenient
      rw [parse_lenient hfullLenient]
      exact congrArg (fun outline => Except.ok outline.toNodes) (Outline.limit_of_within hwithin)
    · rw [parse_lenient hlenient, ← Outline.joinText_limitAll_nodes hlegible, Outline.toNodes,
        joinText_limitAll_joinText]
  · intro nodes h depth list hlist node hmem hblock
    rw [eq_of_parse_eq_ok h] at hlist
    exact Outline.depth_lt_of_isBlock hlist (Outline.within_limit _ _) hmem hblock

-- The inner block has to go; what it holds stays, and its tags join the text in front of them.
theorem parse_nesting_limit_one :
    ∃ nodes,
      parse { maxDepth := 1 } (spellAll [.block .each ⟨"a"⟩ [.text "x",
        .block .ifFalse ⟨"b"⟩ [.placeholder ⟨"c"⟩ true]]]).toList = .ok nodes ∧
      nodes = [.block .each ⟨"a"⟩ [.text ("x" ++ openerText .ifFalse ⟨"b"⟩),
        .placeholder ⟨"c"⟩ true, .text (closerText .ifFalse)]] ∧
      ∀ depth list, ListIn nodes depth list → ∀ node ∈ list, node.isBlock = true → depth < 1 := by
  obtain ⟨hlimit, hdepth⟩ := parse_nesting_limit { maxDepth := 1 } (spellAll [.block .each ⟨"a"⟩
    [.text "x", .block .ifFalse ⟨"b"⟩ [.placeholder ⟨"c"⟩ true]]]).toList
  obtain ⟨nodes, hfull, hlimited⟩ := hlimit rfl rfl 5 (by decide)
  have hnodes : nodes = [.block .each ⟨"a"⟩ [.text "x",
      .block .ifFalse ⟨"b"⟩ [.placeholder ⟨"c"⟩ true]]] := by
    rw [parse_lenient rfl] at hfull
    rw [← Except.ok.inj hfull]
    with_unfolding_all rfl
  refine ⟨_, hlimited, ?_, hdepth _ hlimited⟩
  rw [hnodes]
  rfl

end Node

end Stencil

import Stencil.Proofs.Outline

namespace Stencil

namespace Node

-- The lists of nodes in the tree `root`, with the number of blocks that enclose them.
inductive ListIn (root : List Node) : Nat → List Node → Prop
  | root : ListIn root 0 root
  | body {depth : Nat} {nodes body : List Node} {kind : BlockKind} {path : Path}
      (h : ListIn root depth nodes) (hblock : .block kind path body ∈ nodes) :
      ListIn root (depth + 1) body
  | thenBody {depth : Nat} {nodes thenBody elseBody : List Node} {path : Path}
      (h : ListIn root depth nodes) (hblock : .ifElse path thenBody elseBody ∈ nodes) :
      ListIn root (depth + 1) thenBody
  | elseBody {depth : Nat} {nodes thenBody elseBody : List Node} {path : Path}
      (h : ListIn root depth nodes) (hblock : .ifElse path thenBody elseBody ∈ nodes) :
      ListIn root (depth + 1) elseBody

def isBlock : Node → Bool
  | text _ => false
  | placeholder _ _ => false
  | block _ _ _ => true
  | ifElse _ _ _ => true

variable {node : Node} {nodes : List Node}

theorem mem_addText {content : String} (h : node.isText = false) :
    node ∈ addText content nodes ↔ node ∈ nodes := by
  have hne : ∀ text : String, node ≠ .text text := by
    rintro text rfl
    cases h
  unfold addText
  split
  · simp [hne]
  · split <;> simp [hne]

-- Joining texts neither adds nor removes a tag.
theorem mem_joinText (h : node.isText = false) : node ∈ joinText nodes ↔ node ∈ nodes := by
  induction nodes with
  | nil => rfl
  | cons first rest ih =>
      cases hfirst : first.isText with
      | false => rw [joinText_cons, add_of_not_isText hfirst, List.mem_cons, List.mem_cons, ih]
      | true =>
          cases first with
          | text content =>
              have hne : node ≠ .text content := by
                rintro rfl
                cases h
              rw [joinText_cons, add_text, mem_addText h, ih, List.mem_cons]
              simp [hne]
          | placeholder | block | ifElse => cases hfirst

end Node

namespace Outline

variable {outline : Outline} {node : Node} {kind : BlockKind} {path : Path}
  {body thenBody elseBody : List Node} {room : Nat}

-- Every node begins a part of the outline.
theorem exists_append_of_mem (h : node ∈ outline.nodes) :
    ∃ first last, outline = first ++ last ∧ last.nodes.head? = some node := by
  induction outline with
  | nil => cases h
  | text c rest ih =>
      rcases List.mem_cons.mp h with rfl | hrest
      · exact ⟨nil, _, rfl, rfl⟩
      · obtain ⟨first, last, rfl, hhead⟩ := ih hrest
        exact ⟨text c first, last, rfl, hhead⟩
  | verbatim spelling rest ih =>
      rcases List.mem_cons.mp h with rfl | hrest
      · exact ⟨nil, _, rfl, rfl⟩
      · obtain ⟨first, last, rfl, hhead⟩ := ih hrest
        exact ⟨verbatim spelling first, last, rfl, hhead⟩
  | placeholder path escaped spelling rest ih =>
      rcases List.mem_cons.mp h with rfl | hrest
      · exact ⟨nil, _, rfl, rfl⟩
      · obtain ⟨first, last, rfl, hhead⟩ := ih hrest
        exact ⟨placeholder path escaped spelling first, last, rfl, hhead⟩
  | block kind path opener body closer rest _ ih =>
      rcases List.mem_cons.mp h with rfl | hrest
      · exact ⟨nil, _, rfl, rfl⟩
      · obtain ⟨first, last, rfl, hhead⟩ := ih hrest
        exact ⟨block kind path opener body closer first, last, rfl, hhead⟩
  | ifElse path opener thenBody elseTag elseBody closer rest _ _ ih =>
      rcases List.mem_cons.mp h with rfl | hrest
      · exact ⟨nil, _, rfl, rfl⟩
      · obtain ⟨first, last, rfl, hhead⟩ := ih hrest
        exact ⟨ifElse path opener thenBody elseTag elseBody closer first, last, rfl, hhead⟩

theorem exists_append_of_block_mem (h : .block kind path body ∈ outline.toNodes) :
    ∃ first opener inner closer rest,
      outline = first ++ block kind path opener inner closer rest ∧ body = inner.toNodes := by
  obtain ⟨first, last, rfl, hhead⟩ := exists_append_of_mem ((Node.mem_joinText rfl).mp h)
  cases last with
  | block =>
      cases hhead
      exact ⟨first, _, _, _, _, rfl, rfl⟩
  | nil | text | verbatim | placeholder | ifElse => cases hhead

theorem exists_append_of_ifElse_mem (h : .ifElse path thenBody elseBody ∈ outline.toNodes) :
    ∃ first opener thenInner elseTag elseInner closer rest,
      outline = first ++ ifElse path opener thenInner elseTag elseInner closer rest ∧
        thenBody = thenInner.toNodes ∧ elseBody = elseInner.toNodes := by
  obtain ⟨first, last, rfl, hhead⟩ := exists_append_of_mem ((Node.mem_joinText rfl).mp h)
  cases last with
  | ifElse =>
      cases hhead
      exact ⟨first, _, _, _, _, _, _, rfl, rfl, rfl⟩
  | nil | text | verbatim | placeholder | block => cases hhead

-- Every list in the tree is that of an outline, which has the room that the blocks around it leave.
theorem exists_of_listIn {nodes : List Node} {depth : Nat} (h : Node.ListIn outline.toNodes depth nodes)
    (hwithin : outline.Within room) :
    ∃ inner : Outline, nodes = inner.toNodes ∧ inner.Within (room - depth) := by
  induction h with
  | root => exact ⟨outline, rfl, hwithin⟩
  | body _ hblock ih =>
      obtain ⟨inner, rfl, hinner⟩ := ih
      obtain ⟨first, opener, body, closer, rest, rfl, rfl⟩ := exists_append_of_block_mem hblock
      obtain ⟨-, -, hbody, -⟩ := within_append.mp hinner
      exact ⟨body, rfl, hbody⟩
  | thenBody _ hblock ih =>
      obtain ⟨inner, rfl, hinner⟩ := ih
      obtain ⟨first, opener, thenBody, elseTag, elseBody, closer, rest, rfl, rfl, rfl⟩ :=
        exists_append_of_ifElse_mem hblock
      obtain ⟨-, -, hthen, -, -⟩ := within_append.mp hinner
      exact ⟨thenBody, rfl, hthen⟩
  | elseBody _ hblock ih =>
      obtain ⟨inner, rfl, hinner⟩ := ih
      obtain ⟨first, opener, thenBody, elseTag, elseBody, closer, rest, rfl, rfl, rfl⟩ :=
        exists_append_of_ifElse_mem hblock
      obtain ⟨-, -, -, helse, -⟩ := within_append.mp hinner
      exact ⟨elseBody, rfl, helse⟩

theorem pos_of_isBlock_mem (hwithin : outline.Within room) (hmem : node ∈ outline.toNodes)
    (hblock : node.isBlock = true) : 0 < room := by
  cases node with
  | text | placeholder => cases hblock
  | block kind path body =>
      obtain ⟨first, opener, inner, closer, rest, rfl, -⟩ := exists_append_of_block_mem hmem
      exact (within_append.mp hwithin).2.1
  | ifElse path thenBody elseBody =>
      obtain ⟨first, opener, thenInner, elseTag, elseInner, closer, rest, rfl, -, -⟩ :=
        exists_append_of_ifElse_mem hmem
      exact (within_append.mp hwithin).2.1

-- A block lies inside fewer others than there is room for.
theorem depth_lt_of_isBlock {nodes : List Node} {depth : Nat}
    (h : Node.ListIn outline.toNodes depth nodes) (hwithin : outline.Within room)
    (hmem : node ∈ nodes) (hblock : node.isBlock = true) : depth < room := by
  obtain ⟨inner, rfl, hinner⟩ := exists_of_listIn h hwithin
  have := pos_of_isBlock_mem hinner hmem hblock
  omega

theorem tidy_of_listIn {nodes : List Node} {depth : Nat} (h : Node.ListIn outline.toNodes depth nodes)
    (hwithin : outline.Within room) : Node.Tidy nodes := by
  obtain ⟨inner, rfl, -⟩ := exists_of_listIn h hwithin
  exact Node.tidy_joinText inner.nodes

end Outline

end Stencil

import Stencil.Node
import Mathlib.Data.List.Chain

namespace Stencil

namespace Node

def isText : Node → Bool
  | .text _ => true
  | .placeholder _ _ => false
  | .block _ _ _ => false
  | .ifElse _ _ _ => false

-- Puts text in front of nodes. It becomes one with text that stands there; empty text vanishes.
def addText (content : String) : List Node → List Node
  | .text more :: rest => .text (content ++ more) :: rest
  | nodes => if content = "" then nodes else .text content :: nodes

def add (node : Node) (nodes : List Node) : List Node :=
  match node with
  | .text content => addText content nodes
  | _ => node :: nodes

-- Joins texts that touch, and drops empty ones.
def joinText (nodes : List Node) : List Node :=
  nodes.foldr add []

-- No text is empty, and no text stands beside another.
structure Tidy (nodes : List Node) : Prop where
  text_ne : ∀ content, .text content ∈ nodes → content ≠ ""
  apart : nodes.IsChain fun a b => ¬(a.isText = true ∧ b.isText = true)

@[simp] theorem joinText_nil : joinText [] = [] := rfl

@[simp] theorem joinText_cons (node : Node) (nodes : List Node) :
    joinText (node :: nodes) = add node (joinText nodes) := rfl

@[simp] theorem add_text (content : String) (nodes : List Node) :
    add (.text content) nodes = addText content nodes := rfl

theorem add_of_not_isText {node : Node} (h : node.isText = false) (nodes : List Node) :
    add node nodes = node :: nodes := by
  cases node with
  | text content => cases h
  | placeholder | block | ifElse => rfl

@[simp] theorem addText_empty (nodes : List Node) : addText "" nodes = nodes := by
  cases nodes with
  | nil => rfl
  | cons node rest => cases node <;> simp [addText]

@[simp] theorem addText_text (first second : String) (rest : List Node) :
    addText first (.text second :: rest) = .text (first ++ second) :: rest := rfl

theorem addText_of_head {content : String} {nodes : List Node} (hne : content ≠ "")
    (hhead : ∀ node ∈ nodes.head?, node.isText = false) :
    addText content nodes = .text content :: nodes := by
  cases nodes with
  | nil => simp [addText, hne]
  | cons node rest =>
      have hnode := hhead node rfl
      cases node with
      | text more => cases hnode
      | placeholder | block | ifElse => simp [addText, hne]

-- Text put in front of a list joins the text that stands there, if one does.
theorem addText_cases {content : String} (hne : content ≠ "") (nodes : List Node) :
    (∃ more rest, nodes = .text more :: rest ∧
      addText content nodes = .text (content ++ more) :: rest) ∨
        (∀ node ∈ nodes.head?, node.isText = false) ∧
          addText content nodes = .text content :: nodes := by
  cases nodes with
  | nil =>
      have hhead : ∀ node ∈ ([] : List Node).head?, node.isText = false := by simp
      exact .inr ⟨hhead, addText_of_head hne hhead⟩
  | cons node rest =>
      cases hnode : node.isText with
      | true =>
          cases node with
          | text more => exact .inl ⟨more, rest, rfl, rfl⟩
          | placeholder | block | ifElse => cases hnode
      | false =>
          have hhead : ∀ other ∈ (node :: rest).head?, other.isText = false := by simpa using hnode
          exact .inr ⟨hhead, addText_of_head hne hhead⟩

theorem addText_addText (first second : String) (nodes : List Node) :
    addText first (addText second nodes) = addText (first ++ second) nodes := by
  by_cases hsecond : second = ""
  · rw [hsecond, addText_empty, String.append_empty]
  · cases nodes with
    | nil => simp [addText, hsecond]
    | cons node rest => cases node <;> simp [addText, hsecond, String.append_assoc]

private theorem joinText_addText_append (content : String) (first second : List Node) :
    joinText (addText content first ++ second) = addText content (joinText (first ++ second)) := by
  by_cases hcontent : content = ""
  · rw [hcontent, addText_empty, addText_empty]
  obtain ⟨more, rest, rfl, hadd⟩ | ⟨-, hadd⟩ := addText_cases hcontent first
  · rw [hadd]
    exact (addText_addText content more _).symm
  · rw [hadd]
    rfl

theorem joinText_add_append (node : Node) (first second : List Node) :
    joinText (add node first ++ second) = add node (joinText (first ++ second)) := by
  cases node with
  | text content => exact joinText_addText_append content first second
  | placeholder | block | ifElse => rfl

@[simp] theorem joinText_append_left (first second : List Node) :
    joinText (joinText first ++ second) = joinText (first ++ second) := by
  induction first with
  | nil => rfl
  | cons node first ih => rw [joinText_cons, joinText_add_append, ih, List.cons_append, joinText_cons]

@[simp] theorem joinText_joinText (nodes : List Node) : joinText (joinText nodes) = joinText nodes := by
  simpa using joinText_append_left nodes []

@[simp] theorem joinText_append_right (first second : List Node) :
    joinText (first ++ joinText second) = joinText (first ++ second) := by
  induction first with
  | nil => exact joinText_joinText second
  | cons node first ih => rw [List.cons_append, joinText_cons, ih, List.cons_append, joinText_cons]

theorem joinText_append_congr {first first' second second' : List Node}
    (hfirst : joinText first = joinText first') (hsecond : joinText second = joinText second') :
    joinText (first ++ second) = joinText (first' ++ second') := by
  rw [← joinText_append_left, ← joinText_append_right, hfirst, hsecond, joinText_append_left,
    joinText_append_right]

theorem joinText_cons_congr (node : Node) {first second : List Node}
    (h : joinText first = joinText second) :
    joinText (node :: first) = joinText (node :: second) := by
  rw [joinText_cons, joinText_cons, h]

-- Two texts beside each other are as good as one.
theorem joinText_text_text (first second : String) (before after : List Node) :
    joinText (before ++ .text first :: .text second :: after) =
      joinText (before ++ .text (first ++ second) :: after) := by
  apply joinText_append_congr rfl
  exact addText_addText first second (joinText after)

theorem Tidy.of_cons {node : Node} {nodes : List Node} (h : Tidy (node :: nodes)) : Tidy nodes :=
  ⟨fun content hmem => h.text_ne content (List.mem_cons_of_mem _ hmem),
    (List.isChain_cons.mp h.apart).2⟩

theorem Tidy.cons_node {node : Node} {nodes : List Node} (h : Tidy nodes)
    (hnode : node.isText = false) : Tidy (node :: nodes) := by
  constructor
  · intro content hcontent
    rcases List.mem_cons.mp hcontent with rfl | hcontent
    · cases hnode
    · exact h.text_ne content hcontent
  · refine List.isChain_cons.mpr ⟨?_, h.apart⟩
    intro next _
    simp [hnode]

theorem Tidy.cons_text {content : String} {nodes : List Node} (h : Tidy nodes) (hne : content ≠ "")
    (hhead : ∀ node ∈ nodes.head?, node.isText = false) : Tidy (.text content :: nodes) := by
  constructor
  · intro other hother
    rcases List.mem_cons.mp hother with heq | hother
    · cases heq
      exact hne
    · exact h.text_ne other hother
  · refine List.isChain_cons.mpr ⟨?_, h.apart⟩
    intro next hnext
    simp [hhead next hnext]

theorem Tidy.head?_of_text {content : String} {nodes : List Node} (h : Tidy (.text content :: nodes)) :
    ∀ node ∈ nodes.head?, node.isText = false := by
  intro node hnode
  simpa [isText] using (List.isChain_cons.mp h.apart).1 node hnode

theorem Tidy.addText {nodes : List Node} (h : Tidy nodes) (content : String) :
    Tidy (addText content nodes) := by
  by_cases hcontent : content = ""
  · rwa [hcontent, addText_empty]
  obtain ⟨more, rest, rfl, hadd⟩ | ⟨hhead, hadd⟩ := addText_cases hcontent nodes
  · rw [hadd]
    exact h.of_cons.cons_text (by simp [hcontent]) h.head?_of_text
  · rw [hadd]
    exact h.cons_text hcontent hhead

theorem tidy_add {node : Node} {nodes : List Node} (h : Tidy nodes) : Tidy (add node nodes) := by
  cases node with
  | text content => exact h.addText content
  | placeholder | block | ifElse => exact h.cons_node rfl

theorem tidy_joinText (nodes : List Node) : Tidy (joinText nodes) := by
  induction nodes with
  | nil => exact ⟨by simp, by simp⟩
  | cons node nodes ih => exact tidy_add ih

theorem Tidy.of_append {before nodes : List Node} (h : Tidy (before ++ nodes)) : Tidy nodes := by
  induction before with
  | nil => exact h
  | cons node before ih => exact ih h.of_cons

theorem joinText_of_tidy {nodes : List Node} (h : Tidy nodes) : joinText nodes = nodes := by
  induction nodes with
  | nil => rfl
  | cons node nodes ih =>
      rw [joinText_cons, ih h.of_cons]
      cases node with
      | text content => exact addText_of_head (h.text_ne content (by simp)) h.head?_of_text
      | placeholder | block | ifElse => rfl

theorem add_append_node {node : Node} (h : node.isText = false) (first : Node)
    (nodes : List Node) : add first (nodes ++ [node]) = add first nodes ++ [node] := by
  cases first with
  | placeholder | block | ifElse => rfl
  | text content =>
      by_cases hne : content = ""
      · simp [hne]
      obtain ⟨more, rest, rfl, -⟩ | ⟨hhead, hadd⟩ := addText_cases hne nodes
      · rfl
      · have hall : ∀ other ∈ (nodes ++ [node]).head?, other.isText = false := by
          cases nodes with
          | nil => simpa using h
          | cons head rest => exact hhead
        rw [add_text, add_text, hadd, addText_of_head hne hall]
        rfl

theorem joinText_append_node {node : Node} (h : node.isText = false) (before : List Node) :
    joinText (before ++ [node]) = joinText before ++ [node] := by
  induction before with
  | nil => exact add_of_not_isText h []
  | cons first before ih =>
      rw [List.cons_append, joinText_cons, ih, add_append_node h, joinText_cons]

theorem Tidy.append_text {before : List Node} {content : String} (h : Tidy before)
    (hne : content ≠ "") (hlast : ∀ node ∈ before.getLast?, node.isText = false) :
    Tidy (before ++ [.text content]) := by
  constructor
  · intro other hother
    rcases List.mem_append.mp hother with hother | hother
    · exact h.text_ne other hother
    · cases List.mem_singleton.mp hother
      exact hne
  · refine List.isChain_append.mpr ⟨h.apart, List.isChain_singleton _, ?_⟩
    intro last hmem _ _
    simp [hlast last hmem]

theorem Tidy.of_append_text {before : List Node} {content : String}
    (h : Tidy (before ++ [.text content])) :
    Tidy before ∧ ∀ node ∈ before.getLast?, node.isText = false := by
  obtain ⟨hbefore, -, hlast⟩ := List.isChain_append.mp h.apart
  refine ⟨⟨fun other hother => h.text_ne other (List.mem_append_left _ hother), hbefore⟩, ?_⟩
  intro last hmem
  simpa [isText] using hlast last hmem (.text content) rfl

end Node

end Stencil

import Stencil.Draft
import Stencil.Proofs.Node.Tidy

namespace Stencil

namespace Piece

def slice (source : Array Char) (start stop : Nat) : List Char :=
  (source.extract start stop).toList

-- The nodes of pieces that are listed with the latest first.
def nodesOf (source : Array Char) (pieces : List Piece) : List Node :=
  (pieces.map (toNode source)).reverse

-- Literal text is kept as a span, never as a finished node.
def Proper : Piece → Prop
  | .text _ => True
  | .node built _ => built.isText = false

-- The pieces, latest first, follow each other without gap or overlap from `start` to `stop`.
def Covers (start : Nat) : List Piece → Nat → Prop
  | [], stop => start = stop
  | piece :: earlier, stop =>
    piece.span.stop = stop ∧ piece.span.start ≤ stop ∧ Covers start earlier piece.span.start

-- The pieces tile the source between two places, and are these nodes when touching texts are joined.
structure Shows (source : Array Char) (start stop : Nat) (nodes : List Node)
    (pieces : List Piece) : Prop where
  covers : Covers start pieces stop
  proper : ∀ piece ∈ pieces, piece.Proper
  nodesOf_eq : nodesOf source pieces = Node.joinText nodes

@[simp] theorem nodesOf_cons (source : Array Char) (piece : Piece) (pieces : List Piece) :
    nodesOf source (piece :: pieces) = nodesOf source pieces ++ [piece.toNode source] := by
  simp [nodesOf]

theorem Covers.le {start stop : Nat} {pieces : List Piece} (h : Covers start pieces stop) :
    start ≤ stop := by
  induction pieces generalizing stop with
  | nil => exact Nat.le_of_eq h
  | cons piece earlier ih =>
      obtain ⟨-, hle, hearlier⟩ := h
      exact (ih hearlier).trans hle

@[simp] theorem slice_self (source : Array Char) (start : Nat) : slice source start start = [] := by
  simp [slice]

theorem slice_append_slice (source : Array Char) {start mid stop : Nat} (hstart : start ≤ mid)
    (hstop : mid ≤ stop) :
    slice source start mid ++ slice source mid stop = slice source start stop := by
  simp only [slice, Array.toList_extract, List.extract_eq_take_drop]
  have hdrop : source.toList.drop mid = (source.toList.drop start).drop (mid - start) := by
    rw [List.drop_drop]
    congr 1
    omega
  have htake : stop - start = (mid - start) + (stop - mid) := by omega
  rw [hdrop, htake, List.take_add]

theorem slice_ne_nil {source : Array Char} {start stop : Nat} (hlt : start < stop)
    (hsize : stop ≤ source.size) : slice source start stop ≠ [] := by
  intro hnil
  have := congrArg List.length hnil
  simp only [slice, Array.length_toList, Array.size_extract, List.length_nil] at this
  omega

theorem shows_nil (source : Array Char) (start : Nat) : Shows source start start [] [] :=
  ⟨rfl, by simp, rfl⟩

theorem Shows.congr {source : Array Char} {start stop : Nat} {nodes nodes' : List Node}
    {pieces : List Piece} (h : Shows source start stop nodes pieces)
    (hnodes : Node.joinText nodes = Node.joinText nodes') : Shows source start stop nodes' pieces :=
  ⟨h.covers, h.proper, h.nodesOf_eq.trans hnodes⟩

theorem Shows.cons_node {source : Array Char} {start mid stop : Nat} {nodes : List Node}
    {pieces : List Piece} (h : Shows source start mid nodes pieces) {built : Node}
    (hbuilt : built.isText = false) (hle : mid ≤ stop) :
    Shows source start stop (nodes ++ [built]) (.node built ⟨mid, stop⟩ :: pieces) := by
  refine ⟨⟨rfl, hle, h.covers⟩, ?_, ?_⟩
  · intro piece hpiece
    rcases List.mem_cons.mp hpiece with rfl | hpiece
    · exact hbuilt
    · exact h.proper piece hpiece
  · rw [nodesOf_cons, h.nodesOf_eq, Node.joinText_append_node hbuilt]
    rfl

-- Text that touches the last text makes one span with it.
theorem Shows.extend_text {source : Array Char} {start mid stop : Nat} {nodes : List Node}
    {last : Span} {earlier : List Piece}
    (h : Shows source start mid nodes (.text last :: earlier)) (hle : mid ≤ stop) :
    Shows source start stop (nodes ++ [.text (String.ofList (slice source mid stop))])
      (.text ⟨last.start, stop⟩ :: earlier) := by
  obtain ⟨⟨hstop, hstart, hearlier⟩, hproper, hnodes⟩ := h
  have hstop : last.stop = mid := hstop
  have hstart : last.start ≤ mid := hstart
  have hlast : (Piece.text last).toNode source =
      .text (String.ofList (slice source last.start mid)) := by
    rw [← hstop]
    rfl
  have hjoined : String.ofList (slice source last.start mid) ++
      String.ofList (slice source mid stop) =
        String.ofList (slice source last.start stop) := by
    rw [← String.ofList_append, slice_append_slice source hstart hle]
  have htidy : Node.Tidy (nodesOf source (.text last :: earlier)) :=
    hnodes ▸ Node.tidy_joinText nodes
  rw [nodesOf_cons, hlast] at hnodes htidy
  obtain ⟨hbefore, hapart⟩ := htidy.of_append_text
  have hne : String.ofList (slice source last.start stop) ≠ "" := by
    have hlastNe := htidy.text_ne _ (List.mem_append_right _ List.mem_cons_self)
    rw [← hjoined]
    simp [hlastNe]
  refine ⟨⟨rfl, hstart.trans hle, hearlier⟩, ?_, ?_⟩
  · intro piece hpiece
    rcases List.mem_cons.mp hpiece with rfl | hpiece
    · trivial
    · exact hproper piece (List.mem_cons_of_mem _ hpiece)
  · calc
      nodesOf source (.text ⟨last.start, stop⟩ :: earlier) =
          nodesOf source earlier ++ [.text (String.ofList (slice source last.start stop))] :=
        nodesOf_cons source _ earlier
      _ = Node.joinText (nodesOf source earlier ++
          [.text (String.ofList (slice source last.start stop))]) :=
        (Node.joinText_of_tidy (hbefore.append_text hne hapart)).symm
      _ = Node.joinText (nodesOf source earlier ++
          [.text (String.ofList (slice source last.start mid)),
            .text (String.ofList (slice source mid stop))]) := by
        rw [Node.joinText_text_text, hjoined]
      _ = Node.joinText (nodes ++ [.text (String.ofList (slice source mid stop))]) := by
        rw [← Node.joinText_append_left nodes, ← hnodes, List.append_assoc]
        rfl

-- Any other piece in front of text stays apart from it.
theorem Shows.cons_text {source : Array Char} {start mid stop : Nat} {nodes : List Node}
    {pieces : List Piece} (h : Shows source start mid nodes pieces) (hlt : mid < stop)
    (hsize : stop ≤ source.size) (hpieces : ∀ last earlier, pieces ≠ .text last :: earlier) :
    Shows source start stop (nodes ++ [.text (String.ofList (slice source mid stop))])
      (.text ⟨mid, stop⟩ :: pieces) := by
  have htidy : Node.Tidy (nodesOf source pieces) := h.nodesOf_eq ▸ Node.tidy_joinText nodes
  have hne : String.ofList (slice source mid stop) ≠ "" := by
    have := slice_ne_nil hlt hsize
    simpa [← String.toList_inj] using this
  have hlast : ∀ node ∈ (nodesOf source pieces).getLast?, node.isText = false := by
    intro node hnode
    cases pieces with
    | nil => simp [nodesOf] at hnode
    | cons piece earlier =>
        rw [nodesOf_cons, List.getLast?_concat] at hnode
        cases hnode
        cases piece with
        | text span => exact absurd rfl (hpieces span earlier)
        | node built span => exact h.proper _ List.mem_cons_self
  refine ⟨⟨rfl, hlt.le, h.covers⟩, ?_, ?_⟩
  · intro piece hpiece
    rcases List.mem_cons.mp hpiece with rfl | hpiece
    · trivial
    · exact h.proper piece hpiece
  · rw [← Node.joinText_append_left nodes, ← h.nodesOf_eq,
      Node.joinText_of_tidy (htidy.append_text hne hlast)]
    exact nodesOf_cons source _ pieces

end Piece

namespace Draft

open Piece

variable {source : Array Char} {start mid stop : Nat} {nodes more : List Node} {draft : Draft}

-- Text that is pushed onto the end of the pieces is joined to the text there, if there is any.
theorem shows_pushText (h : Shows source start mid nodes draft.pieces) (hle : mid ≤ stop)
    (hsize : stop ≤ source.size) :
    Shows source start stop (nodes ++ [.text (String.ofList (slice source mid stop))])
      (draft.pushText ⟨mid, stop⟩).pieces := by
  unfold pushText
  split_ifs with hempty
  · obtain rfl : mid = stop := Nat.le_antisymm hle hempty
    refine h.congr ?_
    rw [slice_self, ← Node.joinText_append_right]
    simp
  split
  · next last earlier hpieces =>
    rw [hpieces] at h
    have hstop : last.stop = mid := h.covers.1
    rw [if_pos hstop]
    exact h.extend_text hle
  · next pieces hnot => exact h.cons_text (not_le.mp hempty) hsize hnot

@[simp] theorem pushText_empty (start : Nat) : draft.pushText ⟨start, start⟩ = draft := by
  simp [pushText]

theorem shows_append {pieces : List Piece} (h : Piece.Shows source start mid nodes draft.pieces)
    (hpieces : Piece.Shows source mid stop more pieces) (hsize : stop ≤ source.size) :
    Piece.Shows source start stop (nodes ++ more) (draft.append pieces).pieces := by
  obtain ⟨hcovers, hproper, hnodes⟩ := hpieces
  have hgoal : Piece.Shows source start stop (nodes ++ nodesOf source pieces)
      (draft.append pieces).pieces := by
    clear hnodes
    induction pieces generalizing stop with
    | nil =>
        obtain rfl : mid = stop := hcovers
        simpa [append, nodesOf] using h
    | cons piece earlier ih =>
        obtain ⟨hstop, hstart, hearlier⟩ := hcovers
        have hrest := ih (hstart.trans hsize) hearlier
          (fun other hother => hproper other (List.mem_cons_of_mem _ hother))
        have hpush : draft.append (piece :: earlier) = (draft.append earlier).push piece := rfl
        rw [hpush, nodesOf_cons, ← List.append_assoc]
        subst hstop
        cases piece with
        | text span => exact shows_pushText hrest hstart hsize
        | node built span => exact hrest.cons_node (hproper _ List.mem_cons_self) hstart
  exact hgoal.congr (by rw [hnodes, Node.joinText_append_right])

-- The draft shows these nodes, when the literal text that waits is taken up to `stop`.
structure Shows (source : Array Char) (start stop : Nat) (nodes : List Node) (draft : Draft) :
    Prop where
  textStart_le : draft.textStart ≤ stop
  flushed : Piece.Shows source start stop nodes (draft.flush stop).pieces

theorem flush_flush (hmid : draft.textStart ≤ mid) (hstop : mid ≤ stop) :
    draft.flush stop = (draft.flush mid).pushText ⟨mid, stop⟩ := by
  by_cases hstart : draft.textStart = mid
  · rw [flush, flush, hstart, pushText_empty]
  by_cases hend : mid = stop
  · rw [hend, pushText_empty]
  have hlt : ¬mid ≤ draft.textStart := by omega
  have hlt' : ¬stop ≤ mid := by omega
  have hlt'' : ¬stop ≤ draft.textStart := by omega
  simp only [flush, pushText, hlt, hlt'', ite_false]
  split
  · split_ifs <;> simp
  · simp [hlt']

theorem shows_start (source : Array Char) (start : Nat) :
    Shows source start start [] { textStart := start } := by
  refine ⟨Nat.le_refl _, ?_⟩
  rw [flush, pushText_empty]
  exact shows_nil source start

theorem Shows.congr {nodes' : List Node} (h : Shows source start stop nodes draft)
    (hnodes : Node.joinText nodes = Node.joinText nodes') : Shows source start stop nodes' draft :=
  ⟨h.textStart_le, h.flushed.congr hnodes⟩

theorem Shows.le (h : Shows source start stop nodes draft) : start ≤ stop :=
  h.flushed.covers.le

-- What stands behind the draft is literal text until something else is made of it.
theorem Shows.skip (h : Shows source start mid nodes draft) (hle : mid ≤ stop)
    (hsize : stop ≤ source.size) :
    Shows source start stop (nodes ++ [.text (String.ofList (slice source mid stop))]) draft := by
  refine ⟨h.textStart_le.trans hle, ?_⟩
  rw [flush_flush h.textStart_le hle]
  exact shows_pushText h.flushed hle hsize

theorem Shows.pushNode (h : Shows source start mid nodes draft) {built : Node}
    (hbuilt : built.isText = false) (hle : mid ≤ stop) :
    Shows source start stop (nodes ++ [built]) (draft.pushNode built ⟨mid, stop⟩) := by
  refine ⟨Nat.le_refl _, ?_⟩
  have hflush : (draft.pushNode built ⟨mid, stop⟩).flush stop = draft.pushNode built ⟨mid, stop⟩ :=
    pushText_empty _
  rw [hflush]
  exact h.flushed.cons_node hbuilt hle

-- Pieces that reach up to `mid` may be followed by literal text that has yet to be taken up.
theorem shows_of_pieces (h : Piece.Shows source start mid nodes draft.pieces) (hle : mid ≤ stop)
    (hsize : stop ≤ source.size) :
    Shows source start stop (nodes ++ [.text (String.ofList (slice source mid stop))])
      { draft with textStart := mid } :=
  ⟨hle, shows_pushText h hle hsize⟩

end Draft

end Stencil

import Stencil.Proofs.Draft.Tiles
import Stencil.Proofs.Node.Spells

namespace Stencil

namespace Piece

-- A finished node stands for its tag, or for its whole block. Text is never empty.
def Filled (padded : Bool) (source : Array Char) : Piece → Prop
  | .text span => span.start < span.stop
  | .node built span =>
    built.isText = false ∧ Node.Spells padded [built] (slice source span.start span.stop)

-- The pieces, latest first, cover the source from `start` to `stop`, each with what stands there.
structure Fills (padded : Bool) (source : Array Char) (start : Nat) (pieces : List Piece) (stop : Nat) :
    Prop where
  covers : Covers start pieces stop
  filled : ∀ piece ∈ pieces, piece.Filled padded source

variable {padded : Bool} {source : Array Char} {start mid stop : Nat} {piece : Piece}
  {pieces earlier : List Piece}

theorem fills_nil : Fills padded source start [] start :=
  ⟨rfl, by simp⟩

theorem fills_cons : Fills padded source start (piece :: earlier) stop ↔
    piece.span.stop = stop ∧ piece.span.start ≤ stop ∧ piece.Filled padded source ∧
      Fills padded source start earlier piece.span.start := by
  constructor
  · rintro ⟨⟨hstop, hstart, hcovers⟩, hfilled⟩
    obtain ⟨hpiece, hearlier⟩ := List.forall_mem_cons.mp hfilled
    exact ⟨hstop, hstart, hpiece, hcovers, hearlier⟩
  · rintro ⟨hstop, hstart, hpiece, hcovers, hearlier⟩
    exact ⟨⟨hstop, hstart, hcovers⟩, List.forall_mem_cons.mpr ⟨hpiece, hearlier⟩⟩

-- No span goes beyond the stretch that is covered.
theorem Covers.span_le (h : Covers start pieces stop) :
    ∀ piece ∈ pieces, piece.span.start ≤ piece.span.stop ∧ piece.span.stop ≤ stop := by
  induction pieces generalizing stop with
  | nil => simp
  | cons piece earlier ih =>
      obtain ⟨rfl, hstart, hearlier⟩ := h
      refine List.forall_mem_cons.mpr ⟨⟨hstart, Nat.le_refl _⟩, fun other hother => ?_⟩
      exact (ih hearlier other hother).imp_right hstart.trans'

theorem Fills.spells (h : Fills padded source start pieces stop) :
    Node.Spells padded (nodesOf source pieces) (slice source start stop) := by
  induction pieces generalizing stop with
  | nil =>
      obtain rfl : start = stop := h.covers
      rw [slice_self]
      exact .nil
  | cons piece earlier ih =>
      obtain ⟨rfl, hstart, hpiece, hearlier⟩ := fills_cons.mp h
      have hlast : Node.Spells padded [piece.toNode source]
          (slice source piece.span.start piece.span.stop) := by
        cases piece with
        | text span =>
            have htext : Node.Spells padded [.text (String.ofList (slice source span.start span.stop))] _ :=
              .text _ .nil
            rw [String.toList_ofList, List.append_nil] at htext
            exact htext
        | node built span => exact hpiece.2
      rw [nodesOf_cons, ← slice_append_slice source hearlier.covers.le hstart]
      exact (ih hearlier).append hlast

end Piece

namespace Draft

open Piece

variable {padded : Bool} {source : Array Char} {start mid stop : Nat} {draft : Draft}

theorem fills_pushText (h : Fills padded source start draft.pieces mid) (hle : mid ≤ stop) :
    Fills padded source start (draft.pushText ⟨mid, stop⟩).pieces stop := by
  unfold pushText
  split_ifs with hempty
  · obtain rfl : mid = stop := Nat.le_antisymm hle hempty
    exact h
  have hlt : mid < stop := not_le.mp hempty
  split
  · next last earlier hpieces =>
    rw [hpieces] at h
    obtain ⟨hstop, hstart, hlast, hearlier⟩ := fills_cons.mp h
    have hstop : last.stop = mid := hstop
    have hstart : last.start ≤ mid := hstart
    rw [if_pos hstop]
    exact fills_cons.mpr ⟨rfl, hstart.trans hle, Nat.lt_of_le_of_lt hstart hlt, hearlier⟩
  · exact fills_cons.mpr ⟨rfl, hle, hlt, h⟩

theorem fills_append {pieces : List Piece} (h : Fills padded source start draft.pieces mid)
    (hpieces : Fills padded source mid pieces stop) :
    Fills padded source start (draft.append pieces).pieces stop := by
  induction pieces generalizing stop with
  | nil =>
      obtain rfl : mid = stop := hpieces.covers
      exact h
  | cons piece earlier ih =>
      obtain ⟨rfl, hstart, hpiece, hearlier⟩ := fills_cons.mp hpieces
      have hrest := ih hearlier
      have hpush : draft.append (piece :: earlier) = (draft.append earlier).push piece := rfl
      rw [hpush]
      cases piece with
      | text span => exact fills_pushText hrest hstart
      | node built span => exact fills_cons.mpr ⟨rfl, hstart, hpiece, hrest⟩

-- The pieces reach from where the body begins to where its waiting text does.
def Fills (padded : Bool) (source : Array Char) (start : Nat) (draft : Draft) : Prop :=
  Piece.Fills padded source start draft.pieces draft.textStart

theorem Fills.flush (h : draft.Fills padded source start) (hle : draft.textStart ≤ stop) :
    Piece.Fills padded source start (draft.flush stop).pieces stop :=
  fills_pushText h hle

theorem Fills.pushNode {built : Node} (h : draft.Fills padded source start)
    (hmid : draft.textStart ≤ mid) (hle : mid ≤ stop) (hbuilt : built.isText = false)
    (hspells : Node.Spells padded [built] (slice source mid stop)) :
    (draft.pushNode built ⟨mid, stop⟩).Fills padded source start :=
  fills_cons.mpr ⟨rfl, hle, ⟨hbuilt, hspells⟩, h.flush hmid⟩

end Draft

end Stencil

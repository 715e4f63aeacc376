import Mathlib.Data.String.Basic
import Mathlib.Order.Monotone.Basic

namespace Stencil

-- The number of bytes in front of a character. Behind the end of the text every step counts one more.
def bytesBefore : List Char → Nat → Nat
  | _, 0 => 0
  | [], n + 1 => n + 1
  | c :: rest, n + 1 => c.utf8Size + bytesBefore rest n

-- The part of a text between two numbers of bytes, if both lie between characters and in this order.
def byteSlice? (text : String) (start stop : Nat) : Option String := do
  let first ← text.pos? ⟨start⟩
  let last ← text.pos? ⟨stop⟩
  let part ← text.slice? first last
  return part.copy

theorem bytesBefore_nil (n : Nat) : bytesBefore [] n = n := by
  cases n <;> rfl

theorem bytesBefore_add (text : List Char) (n m : Nat) :
    bytesBefore text (n + m) = bytesBefore text n + bytesBefore (text.drop n) m := by
  induction n generalizing text with
  | zero => simp [bytesBefore]
  | succ n ih =>
      cases text with
      | nil => simp only [List.drop_nil, bytesBefore_nil]
      | cons c rest =>
          rw [Nat.add_right_comm, bytesBefore, bytesBefore, List.drop_succ_cons, ih, Nat.add_assoc]

theorem bytesBefore_of_le {text : List Char} {n : Nat} (h : n ≤ text.length) :
    bytesBefore text n = (String.ofList (text.take n)).utf8ByteSize := by
  rw [String.utf8ByteSize_ofList]
  induction n generalizing text with
  | zero => simp [bytesBefore]
  | succ n ih =>
      cases text with
      | nil => cases h
      | cons c rest =>
          rw [bytesBefore, ih (Nat.le_of_succ_le_succ h), List.take_succ_cons, String.utf8Len_cons,
            Nat.add_comm]

-- The number of bytes in front of a character is one that the text can be cut at.
theorem isValid_bytesBefore {text : List Char} {n : Nat} (h : n ≤ text.length) :
    String.Pos.Raw.IsValid (String.ofList text) ⟨bytesBefore text n⟩ := by
  refine String.Pos.Raw.isValid_iff_exists_append.mpr
    ⟨String.ofList (text.take n), String.ofList (text.drop n), ?_, ?_⟩
  · rw [← String.ofList_append, List.take_append_drop]
  · rw [bytesBefore_of_le h, String.rawEndPos]

theorem bytesBefore_strictMono (text : List Char) : StrictMono (bytesBefore text) := by
  refine strictMono_nat_of_lt_succ fun n => ?_
  rw [bytesBefore_add]
  cases text.drop n with
  | nil => simp [bytesBefore]
  | cons c rest => simpa [bytesBefore] using c.utf8Size_pos

theorem pos?_eq_some_iff {text : String} {offset : Nat} {p : text.Pos} :
    text.pos? ⟨offset⟩ = some p ↔ p.offset = ⟨offset⟩ := by
  unfold String.pos? String.Slice.pos?
  constructor
  · intro h
    split at h
    · cases h
      rfl
    · cases h
  · intro h
    have hvalid : String.Pos.Raw.isValidForSlice text.toSlice ⟨offset⟩ = true :=
      String.Pos.Raw.isValidForSlice_eq_true_iff.mpr (h ▸ p.isValid.toSlice)
    rw [dif_pos hvalid, Option.map_some, Option.some_inj]
    exact String.Pos.ext h.symm

theorem byteSlice?_eq_some_iff {text part : String} {start stop : Nat} :
    byteSlice? text start stop = some part ↔
      ∃ front back, text = front ++ part ++ back ∧ start = front.utf8ByteSize ∧
        stop = start + part.utf8ByteSize := by
  have hslice : ∀ first last : text.Pos, (∃ s, text.slice? first last = some s ∧ s.copy = part) ↔
      ∃ h, (text.slice first last h).copy = part := by
    intro first last
    unfold String.slice?
    split <;> simp [*]
  simp only [byteSlice?, Option.bind_eq_bind, Option.bind_eq_some_iff, Option.pure_def, Option.some_inj,
    pos?_eq_some_iff, hslice, String.copy_slice_eq_iff_splits]
  constructor
  · rintro ⟨first, hfirst, last, hlast, front, back, ⟨-, hstart⟩, ⟨htext, hstop⟩⟩
    rw [hfirst] at hstart
    rw [hlast] at hstop
    have hstart : start = front.utf8ByteSize := congrArg String.Pos.Raw.byteIdx hstart
    have hstop : stop = (front ++ part).utf8ByteSize := congrArg String.Pos.Raw.byteIdx hstop
    rw [String.utf8ByteSize_append, ← hstart] at hstop
    exact ⟨front, back, htext, hstart, hstop⟩
  · rintro ⟨front, back, rfl, rfl, rfl⟩
    have hfirst : String.Pos.Raw.IsValid (front ++ part ++ back) ⟨front.utf8ByteSize⟩ :=
      String.Pos.Raw.isValid_iff_exists_append.mpr ⟨front, part ++ back, String.append_assoc, rfl⟩
    have hlast : String.Pos.Raw.IsValid (front ++ part ++ back)
        ⟨front.utf8ByteSize + part.utf8ByteSize⟩ :=
      String.Pos.Raw.isValid_iff_exists_append.mpr
        ⟨front ++ part, back, rfl, by simp [String.rawEndPos]⟩
    refine ⟨String.pos _ _ hfirst, String.offset_pos, String.pos _ _ hlast, String.offset_pos,
      front, back, ⟨String.append_assoc, String.offset_pos⟩, ⟨rfl, ?_⟩⟩
    rw [String.offset_pos, String.rawEndPos, String.utf8ByteSize_append]

-- Between the numbers of bytes in front of two characters stand just the characters between them.
theorem byteSlice?_bytesBefore {text : List Char} {start stop : Nat} (hstart : start ≤ stop)
    (hstop : stop ≤ text.length) :
    byteSlice? (String.ofList text) (bytesBefore text start) (bytesBefore text stop) =
      some (String.ofList ((text.drop start).take (stop - start))) := by
  obtain ⟨width, rfl⟩ := Nat.exists_eq_add_of_le hstart
  have hwidth : width ≤ (text.drop start).length := by
    rw [List.length_drop]
    omega
  refine byteSlice?_eq_some_iff.mpr ⟨String.ofList (text.take start),
    String.ofList (text.drop (start + width)), ?_, bytesBefore_of_le (hstart.trans hstop), ?_⟩
  · rw [← String.ofList_append, ← String.ofList_append, Nat.add_sub_cancel_left, ← List.take_add,
      List.take_append_drop]
  · rw [bytesBefore_add, bytesBefore_of_le hwidth, Nat.add_sub_cancel_left]

-- The first character takes up two bytes, and the text cannot be cut between them.
example : byteSlice? "éa" 2 3 = some "a" ∧ byteSlice? "éa" 1 3 = none := by decide

end Stencil

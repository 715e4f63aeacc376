namespace Stencil

-- The characters before the first separator, and the pieces behind it. There is one piece more than
-- there are separators, so the first always exists.
def pieces (separator : Char) : List Char → List Char × List (List Char)
  | [] => ([], [])
  | c :: rest =>
    let (first, others) := pieces separator rest
    if c = separator then ([], first :: others) else (c :: first, others)

def joinPieces (separator : Char) (first : List Char) (others : List (List Char)) : List Char :=
  first ++ others.flatMap (separator :: ·)

theorem joinPieces_pieces (separator : Char) (text : List Char) :
    joinPieces separator (pieces separator text).1 (pieces separator text).2 = text := by
  induction text with
  | nil => rfl
  | cons c rest ih =>
    simp only [joinPieces] at ih
    simp only [pieces]
    split
    · next h => simp [joinPieces, h, ih]
    · simp [joinPieces, ih]

theorem separator_not_mem_pieces (separator : Char) (text : List Char) :
    separator ∉ (pieces separator text).1 ∧ ∀ piece ∈ (pieces separator text).2, separator ∉ piece := by
  induction text with
  | nil => simp [pieces]
  | cons c rest ih =>
    obtain ⟨hfirst, hothers⟩ := ih
    simp only [pieces]
    split
    · simpa using ⟨hfirst, hothers⟩
    · next h => exact ⟨by simp [Ne.symm h, hfirst], hothers⟩

theorem pieces_of_notMem {separator : Char} {text : List Char} (h : separator ∉ text) :
    pieces separator text = (text, []) := by
  induction text with
  | nil => rfl
  | cons c rest ih =>
    have hc := List.ne_of_not_mem_cons h
    have hrest := List.not_mem_of_not_mem_cons h
    simp [pieces, ih hrest, Ne.symm hc]

theorem pieces_append (separator : Char) (text more : List Char) :
    pieces separator (text ++ separator :: more) =
      ((pieces separator text).1,
        (pieces separator text).2 ++ (pieces separator more).1 :: (pieces separator more).2) := by
  induction text with
  | nil => simp [pieces]
  | cons c rest ih =>
    simp only [List.cons_append, pieces, ih]
    split <;> rfl

theorem pieces_joinPieces {separator : Char} {first : List Char} {others : List (List Char)}
    (hfirst : separator ∉ first) (hothers : ∀ piece ∈ others, separator ∉ piece) :
    pieces separator (joinPieces separator first others) = (first, others) := by
  induction others generalizing first with
  | nil => simpa [joinPieces] using pieces_of_notMem hfirst
  | cons second others ih =>
    have hjoin : joinPieces separator first (second :: others) =
        first ++ separator :: joinPieces separator second others := by simp [joinPieces]
    have hsecond := ih (hothers second List.mem_cons_self)
      (fun piece hpiece => hothers piece (List.mem_cons_of_mem _ hpiece))
    rw [hjoin, pieces_append, pieces_of_notMem hfirst, hsecond]
    rfl

end Stencil

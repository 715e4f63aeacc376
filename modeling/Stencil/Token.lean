import Stencil.Tag

namespace Stencil

-- Every character belongs to exactly one token, and which token starts at a place depends on nothing before it.
inductive Token where
  | text (c : Char)
  -- The first of two braces that begin no tag.
  | brace
  | tag (tag : Tag) (spelling : List Char)
deriving DecidableEq, Repr

namespace Token

def spelling : Token → List Char
  | .text c => [c]
  | .brace => ['{']
  | .tag _ spelling => spelling

def width (token : Token) : Nat :=
  token.spelling.length

-- Cuts a text into tokens. Where a tag can be read it is; behind a brace that begins none, reading goes
-- on one character later.
def ofText (padded : Bool) (text : List Char) : List Token :=
  match text with
  | [] => []
  | c :: rest =>
    match _scanned : Tag.scan? padded (c :: rest) with
    | some (found, length) =>
      .tag found ((c :: rest).take length) :: ofText padded ((c :: rest).drop length)
    | none =>
      (if c = '{' && rest.head? = some '{' then .brace else .text c) :: ofText padded rest
termination_by text.length
decreasing_by
  · have := Tag.scan?_length _scanned
    simp only [List.length_drop, List.length_cons] at this ⊢
    omega
  · simp

theorem flatMap_spelling_ofText (padded : Bool) (text : List Char) :
    (ofText padded text).flatMap spelling = text := by
  fun_induction ofText padded text with
  | case1 => rfl
  | case2 c rest found length _ ih => simp [spelling, ih]
  | case3 c rest _ ih =>
    rw [List.flatMap_cons, ih]
    split
    · next h => simp only [Bool.and_eq_true, decide_eq_true_eq] at h; simp [spelling, h.1]
    · rfl

end Token

end Stencil

import Stencil.Tag
import Mathlib.Data.List.Basic

namespace Stencil

namespace Path

def isPathChar (c : Char) : Bool :=
  isNameChar c || c = '.' || c = '@'

private theorem isPathChar_of_isName {segment : List Char} (h : isName segment = true) :
    ∀ c ∈ segment, isPathChar c = true := by
  intro c hc
  simp only [isName, Bool.and_eq_true, List.all_eq_true] at h
  simp [isPathChar, h.2 c hc]

private theorem isPathChar_of_isName_dropMark {segment : List Char}
    (h : isName (dropMark segment) = true) : ∀ c ∈ segment, isPathChar c = true := by
  unfold dropMark at h
  split at h
  · intro c hc
    rcases List.mem_cons.mp hc with rfl | hc
    · decide
    · exact isPathChar_of_isName h c hc
  · exact isPathChar_of_isName h

theorem isPathChar_of_isValid {path : Path} (h : path.isValid = true) :
    ∀ c ∈ path.text.toList, isPathChar c = true := by
  simp only [isValid, Bool.and_eq_true, List.all_eq_true] at h
  obtain ⟨hfirst, hothers⟩ := h
  intro c hc
  rw [← joinPieces_pieces '.' path.text.toList, joinPieces, List.mem_append,
    List.mem_flatMap] at hc
  rcases hc with hc | ⟨piece, hpiece, hc⟩
  · exact isPathChar_of_isName_dropMark hfirst c hc
  · rcases List.mem_cons.mp hc with rfl | hc
    · decide
    · exact isPathChar_of_isName (hothers piece hpiece) c hc

theorem toList_ne_nil_of_isValid {path : Path} (h : path.isValid = true) :
    path.text.toList ≠ [] := by
  intro hnil
  simp [isValid, hnil, pieces, dropMark, isName] at h

end Path

namespace BlockKind

theorem ofKeyword?_keyword (kind : BlockKind) : ofKeyword? kind.keyword.toList = some kind := by
  cases kind <;> decide

theorem eq_keyword_of_ofKeyword? {word : List Char} {kind : BlockKind}
    (h : ofKeyword? word = some kind) : word = kind.keyword.toList := by
  unfold ofKeyword? at h
  split_ifs at h with hif hunless heach <;> cases h
  · exact hif
  · exact hunless
  · exact heach

theorem isPathChar_of_mem_keyword {kind : BlockKind} {c : Char} (h : c ∈ kind.keyword.toList) :
    Path.isPathChar c = true := by
  have hall : kind.keyword.toList.all Path.isPathChar = true := by cases kind <;> decide
  exact List.all_eq_true.mp hall c h

theorem keyword_injective : Function.Injective keyword := by
  intro kind other h
  revert h
  cases kind <;> cases other <;> decide

theorem keyword_ne_nil (kind : BlockKind) : kind.keyword.toList ≠ [] := by
  cases kind <;> decide

end BlockKind

namespace Tag

-- Blanks just inside the braces, which only padding allows.
def Padding (padded : Bool) (blanks : List Char) : Prop :=
  (∀ c ∈ blanks, isBlank c = true) ∧ (padded = false → blanks = [])

-- What divides the keyword of an opener from its path.
def Gap (padded : Bool) (blanks : List Char) : Prop :=
  (∀ c ∈ blanks, isBlank c = true) ∧ blanks ≠ [] ∧ (padded = false → blanks = [' '])

def braced (count : Nat) (content : List Char) : List Char :=
  List.replicate count '{' ++ content ++ List.replicate count '}'

-- The spellings of a tag. Without padding each tag has exactly one.
inductive Spelled (padded : Bool) : Tag → List Char → Prop
  | raw {path : Path} {left right : List Char} (hleft : Padding padded left)
      (hright : Padding padded right) :
      Spelled padded (.placeholder path false) (braced 3 (left ++ path.text.toList ++ right))
  | escaped {path : Path} {left right : List Char} (hleft : Padding padded left)
      (hright : Padding padded right) :
      Spelled padded (.placeholder path true) (braced 2 (left ++ path.text.toList ++ right))
  | opener {kind : BlockKind} {path : Path} {left gap right : List Char}
      (hleft : Padding padded left) (hgap : Gap padded gap) (hright : Padding padded right) :
      Spelled padded (.opener kind path)
        (braced 2 (left ++ ('#' :: kind.keyword.toList ++ gap ++ path.text.toList) ++ right))
  | otherwise {left right : List Char} (hleft : Padding padded left)
      (hright : Padding padded right) :
      Spelled padded .otherwise (braced 2 (left ++ "else".toList ++ right))
  | closer {kind : BlockKind} {left inner right : List Char} (hleft : Padding padded left)
      (hinner : Padding padded inner) (hright : Padding padded right) :
      Spelled padded (.closer kind)
        (braced 2 (left ++ ('/' :: inner ++ kind.keyword.toList) ++ right))

-- The conditions on a path. An escaped `else` is never a placeholder to the recogniser.
def WellFormed : Tag → Prop
  | .placeholder path escaped => path.isValid = true ∧ ¬(path = ⟨"else"⟩ ∧ escaped = true)
  | .opener _ path => path.isValid = true
  | .otherwise => True
  | .closer _ => True

theorem isBlank_iff {c : Char} :
    isBlank c = true ↔ c = ' ' ∨ c = '\t' ∨ c = '\n' ∨ c = '\x0c' ∨ c = '\r' := by
  simp [isBlank, or_assoc]

theorem isBlank_eq_false_of_isPathChar {c : Char} (h : Path.isPathChar c = true) :
    isBlank c = false := by
  by_contra hb
  rw [Bool.not_eq_false, isBlank_iff] at hb
  rcases hb with rfl | rfl | rfl | rfl | rfl <;> exact absurd h (by decide)

theorem isBrace_eq_false_of_isPathChar {c : Char} (h : Path.isPathChar c = true) :
    isBrace c = false := by
  by_contra hb
  simp only [isBrace, Bool.or_eq_true, decide_eq_true_eq, Bool.not_eq_false] at hb
  rcases hb with rfl | rfl <;> exact absurd h (by decide)

theorem isBrace_eq_false_of_isBlank {c : Char} (h : isBlank c = true) : isBrace c = false := by
  rcases isBlank_iff.mp h with rfl | rfl | rfl | rfl | rfl <;> decide

theorem padding_nil (padded : Bool) : Padding padded [] := by
  simp [Padding]

theorem padding_append {padded : Bool} {first second : List Char} (hfirst : Padding padded first)
    (hsecond : Padding padded second) : Padding padded (first ++ second) := by
  constructor
  · intro c hc
    exact (List.mem_append.mp hc).elim (hfirst.1 c) (hsecond.1 c)
  · intro hpadded
    rw [hfirst.2 hpadded, hsecond.2 hpadded, List.append_nil]

theorem Padding.isBrace_eq_false {padded : Bool} {blanks : List Char} (h : Padding padded blanks)
    {c : Char} (hc : c ∈ blanks) : isBrace c = false :=
  isBrace_eq_false_of_isBlank (h.1 c hc)

@[simp] theorem length_braced (count : Nat) (content : List Char) :
    (braced count content).length = content.length + 2 * count := by
  simp only [braced, List.length_append, List.length_replicate]
  omega

theorem exists_braced_of_spelled {padded : Bool} {tag : Tag} {spelling : List Char}
    (h : Spelled padded tag spelling) : ∃ rest, spelling = '{' :: '{' :: rest := by
  cases h <;> exact ⟨_, rfl⟩

theorem head?_of_spelled {padded : Bool} {tag : Tag} {spelling : List Char}
    (h : Spelled padded tag spelling) (behind : List Char) :
    (spelling ++ behind).head? = some '{' := by
  obtain ⟨rest, rfl⟩ := exists_braced_of_spelled h
  rfl

-- Without padding a tag is written in one way only.
def canonical : Tag → List Char
  | .placeholder path escaped => braced (if escaped then 2 else 3) path.text.toList
  | .opener kind path => braced 2 ('#' :: kind.keyword.toList ++ ' ' :: path.text.toList)
  | .otherwise => braced 2 "else".toList
  | .closer kind => braced 2 ('/' :: kind.keyword.toList)

theorem spelled_unpadded_iff {tag : Tag} {spelling : List Char} :
    Spelled false tag spelling ↔ spelling = tag.canonical := by
  constructor
  · intro h
    cases h with
    | raw hleft hright => simp [canonical, hleft.2 rfl, hright.2 rfl]
    | escaped hleft hright => simp [canonical, hleft.2 rfl, hright.2 rfl]
    | opener hleft hgap hright => simp [canonical, hleft.2 rfl, hgap.2.2 rfl, hright.2 rfl]
    | otherwise hleft hright => simp [canonical, hleft.2 rfl, hright.2 rfl]
    | closer hleft hinner hright => simp [canonical, hleft.2 rfl, hinner.2 rfl, hright.2 rfl]
  · rintro rfl
    have hnil := padding_nil false
    cases tag with
    | placeholder path escaped =>
        cases escaped with
        | false =>
            have h : Spelled false (.placeholder path false) _ := .raw hnil hnil
            simpa [canonical] using h
        | true =>
            have h : Spelled false (.placeholder path true) _ := .escaped hnil hnil
            simpa [canonical] using h
    | opener kind path =>
        have hgap : Gap false [' '] := ⟨by simp [isBlank], by simp, fun _ => rfl⟩
        have h : Spelled false (.opener kind path) _ := .opener hnil hgap hnil
        simpa [canonical] using h
    | otherwise => simpa [canonical] using Spelled.otherwise hnil hnil
    | closer kind =>
        have h : Spelled false (.closer kind) _ := .closer hnil hnil hnil
        simpa [canonical] using h

end Tag

end Stencil

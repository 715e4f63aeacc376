import Stencil.Proofs.Outline
import Stencil.Proofs.Tag.Recogniser

namespace Stencil

-- What was read of a body: all of it, or the part in front of its `else` tag; that tag with the part
-- behind it; and the closing tag with the number of characters up to its end, if the text has one.
structure Reading where
  body : Outline
  elsePart : Option (List Char × Outline) := none
  closer : Option (List Char × Nat) := none

namespace Reading

-- The reading of a longer body, which begins with what is put in front.
def prepend (before : Outline) (r : Reading) : Reading :=
  { r with body := before ++ r.body }

-- The reading of a body that starts this many characters further in front.
def shift (width : Nat) (r : Reading) : Reading :=
  { r with closer := r.closer.map fun found => (found.1, width + found.2) }

-- The reading of a body that begins with the `else` tag which splits it.
def split (elseTag : List Char) (r : Reading) : Reading :=
  { body := .nil, elsePart := some (elseTag, r.body), closer := r.closer }

-- The block with this body.
def toBlock (kind : BlockKind) (path : Path) (opener closer : List Char) (r : Reading) : Outline :=
  match r.elsePart with
  | some (elseTag, elseBody) => .ifElse path opener r.body elseTag elseBody closer .nil
  | none => .block kind path opener r.body closer .nil

@[simp] theorem prepend_nil (r : Reading) : r.prepend .nil = r := rfl

theorem prepend_prepend (r : Reading) (first second : Outline) :
    (r.prepend second).prepend first = r.prepend (first ++ second) := by
  simp only [prepend, Outline.append_assoc]

@[simp] theorem shift_zero (r : Reading) : r.shift 0 = r := by
  simp [shift]

theorem shift_shift (r : Reading) (first second : Nat) :
    (r.shift second).shift first = r.shift (first + second) := by
  simp only [shift, Option.map_map]
  congr 2
  funext found
  simp [Nat.add_assoc]

@[simp] theorem closer_prepend (before : Outline) (r : Reading) :
    (r.prepend before).closer = r.closer := rfl

@[simp] theorem closer_shift (width : Nat) (r : Reading) :
    (r.shift width).closer = r.closer.map fun found => (found.1, width + found.2) := rfl

@[simp] theorem closer_split (elseTag : List Char) (r : Reading) :
    (r.split elseTag).closer = r.closer := rfl

-- Two parts that are read one behind the other are read as one.
theorem prepend_shift_prepend_shift (r : Reading) (first second : Outline) (width more : Nat) :
    (((r.prepend second).shift more).prepend first).shift width =
      (r.prepend (first ++ second)).shift (width + more) := by
  rw [← prepend_prepend, ← shift_shift]
  rfl

end Reading

namespace Outline

-- A character at which no tag can be read.
def literal (c : Char) (rest : List Char) : Outline :=
  if c = '{' ∧ rest.head? = some '{' then verbatim ['{'] nil else text c nil

-- Reads the body of a block of the kind `within`, or of no block. An `else` tag can split the body of an
-- `if` block once, and is a path anywhere else.
def read (padded : Bool) (within : Option BlockKind) (splits : Bool) (text : List Char) : Reading :=
  match text with
  | [] => { body := nil }
  | c :: rest =>
    match _scanned : Tag.scan? padded (c :: rest) with
    | none => ((read padded within splits rest).prepend (literal c rest)).shift 1
    | some (tag, width) =>
      let spelling := (c :: rest).take width
      let behind := (c :: rest).drop width
      match tag with
      | .placeholder path escaped =>
        ((read padded within splits behind).prepend
          (placeholder path escaped spelling nil)).shift width
      | .opener kind path =>
        let inner := read padded (some kind) (kind = .ifTrue) behind
        match inner.closer with
        | some (closer, used) =>
          ((read padded within splits (behind.drop used)).prepend
            (inner.toBlock kind path spelling closer)).shift (width + used)
        | none => ((read padded within splits behind).prepend (verbatim spelling nil)).shift width
      | .otherwise =>
        if splits then ((read padded within false behind).split spelling).shift width
        else
          ((read padded within splits behind).prepend
            (placeholder ⟨"else"⟩ true spelling nil)).shift width
      | .closer kind =>
        if within = some kind then { body := nil, closer := some (spelling, width) }
        else ((read padded within splits behind).prepend (verbatim spelling nil)).shift width
termination_by text.length
decreasing_by
  all_goals
    first
    | simp only [List.length_cons]; omega
    | have := Tag.scan?_length _scanned
      simp only [List.length_drop, List.length_cons] at this ⊢
      omega

variable {padded : Bool} {within : Option BlockKind} {splits : Bool} {text : List Char} {width : Nat}

@[simp] theorem read_nil : read padded within splits [] = { body := nil } := by
  rw [read]

theorem read_literal {c : Char} {rest : List Char} (h : Tag.scan? padded (c :: rest) = none) :
    read padded within splits (c :: rest) =
      ((read padded within splits rest).prepend (literal c rest)).shift 1 := by
  rw [read]
  split
  · rfl
  · next hscan => rw [h] at hscan; cases hscan

-- All that a tag can do to the reading of the body it stands in.
private theorem read_tag {tag : Tag} (h : Tag.scan? padded text = some (tag, width)) :
    read padded within splits text =
      match tag with
      | .placeholder path escaped =>
        ((read padded within splits (text.drop width)).prepend
          (placeholder path escaped (text.take width) nil)).shift width
      | .opener kind path =>
        match (read padded (some kind) (kind = .ifTrue) (text.drop width)).closer with
        | some (closer, used) =>
          ((read padded within splits ((text.drop width).drop used)).prepend
            ((read padded (some kind) (kind = .ifTrue) (text.drop width)).toBlock kind path
              (text.take width) closer)).shift (width + used)
        | none =>
          ((read padded within splits (text.drop width)).prepend
            (verbatim (text.take width) nil)).shift width
      | .otherwise =>
        if splits then
          ((read padded within false (text.drop width)).split (text.take width)).shift width
        else
          ((read padded within splits (text.drop width)).prepend
            (placeholder ⟨"else"⟩ true (text.take width) nil)).shift width
      | .closer kind =>
        if within = some kind then { body := nil, closer := some (text.take width, width) }
        else
          ((read padded within splits (text.drop width)).prepend
            (verbatim (text.take width) nil)).shift width := by
  cases text with
  | nil => cases h
  | cons c rest =>
      rw [read]
      split
      · next hscan => rw [h] at hscan; cases hscan
      · next hscan => rw [h] at hscan; cases hscan; cases tag <;> rfl

theorem read_placeholder {path : Path} {escaped : Bool}
    (h : Tag.scan? padded text = some (.placeholder path escaped, width)) :
    read padded within splits text =
      ((read padded within splits (text.drop width)).prepend
        (placeholder path escaped (text.take width) nil)).shift width :=
  read_tag h

theorem read_opener_of_closed {kind : BlockKind} {path : Path} {closer : List Char} {used : Nat}
    (h : Tag.scan? padded text = some (.opener kind path, width))
    (hcloser : (read padded (some kind) (kind = .ifTrue) (text.drop width)).closer =
      some (closer, used)) :
    read padded within splits text =
      ((read padded within splits ((text.drop width).drop used)).prepend
        ((read padded (some kind) (kind = .ifTrue) (text.drop width)).toBlock kind path
          (text.take width) closer)).shift (width + used) := by
  rw [read_tag h]
  simp only [hcloser]

theorem read_opener_of_unclosed {kind : BlockKind} {path : Path}
    (h : Tag.scan? padded text = some (.opener kind path, width))
    (hcloser : (read padded (some kind) (kind = .ifTrue) (text.drop width)).closer = none) :
    read padded within splits text =
      ((read padded within splits (text.drop width)).prepend
        (verbatim (text.take width) nil)).shift width := by
  rw [read_tag h]
  simp only [hcloser]

theorem read_else_splits (h : Tag.scan? padded text = some (.otherwise, width)) :
    read padded within true text =
      ((read padded within false (text.drop width)).split (text.take width)).shift width := by
  rw [read_tag h]
  rfl

theorem read_else_path (h : Tag.scan? padded text = some (.otherwise, width)) :
    read padded within false text =
      ((read padded within false (text.drop width)).prepend
        (placeholder ⟨"else"⟩ true (text.take width) nil)).shift width := by
  rw [read_tag h]
  rfl

theorem read_closer {kind : BlockKind} (h : Tag.scan? padded text = some (.closer kind, width)) :
    read padded (some kind) splits text =
      { body := nil, closer := some (text.take width, width) } := by
  rw [read_tag h]
  exact if_pos rfl

theorem read_stray_closer {kind : BlockKind}
    (h : Tag.scan? padded text = some (.closer kind, width)) (hkind : within ≠ some kind) :
    read padded within splits text =
      ((read padded within splits (text.drop width)).prepend
        (verbatim (text.take width) nil)).shift width := by
  rw [read_tag h]
  exact if_neg hkind

end Outline

end Stencil

import Stencil.Builder
import Stencil.Proofs.Draft.Tiles
import Stencil.Proofs.Outline.Legible

namespace Stencil

namespace Token

variable {padded : Bool} {text : List Char}

theorem ofText_literal {c : Char} {rest : List Char} (h : Tag.scan? padded (c :: rest) = none) :
    ofText padded (c :: rest) =
      (if c = '{' && rest.head? = some '{' then .brace else .text c) :: ofText padded rest := by
  rw [ofText]
  split
  · next hfound => rw [h] at hfound; cases hfound
  · rfl

theorem ofText_tag {tag : Tag} {width : Nat} (h : Tag.scan? padded text = some (tag, width)) :
    ofText padded text = .tag tag (text.take width) :: ofText padded (text.drop width) := by
  cases text with
  | nil => cases h
  | cons c rest =>
      rw [ofText]
      split
      · next hfound => rw [h] at hfound; cases hfound; rfl
      · next hfound => rw [h] at hfound; cases hfound

end Token

namespace Reader

variable (reader : Reader)

-- What stands in the source from an offset on.
def rest (offset : Nat) : List Char :=
  reader.source.toList.drop offset

def tokens (offset : Nat) : List Token :=
  Token.ofText reader.options.allowPadding (reader.rest offset)

def scanAt? (offset : Nat) : Option (Tag × Nat) :=
  Tag.scan? reader.options.allowPadding (reader.rest offset)

-- The plain reading from an offset on. A closing tag is found by the offset of its end.
def readFrom (within : Option BlockKind) (splits : Bool) (offset : Nat) : Reading :=
  (Outline.read reader.options.allowPadding within splits (reader.rest offset)).shift offset

variable {reader} {offset width : Nat}

theorem drop_rest : (reader.rest offset).drop width = reader.rest (offset + width) := by
  rw [rest, rest, List.drop_drop]

theorem take_rest : (reader.rest offset).take width =
    Piece.slice reader.source offset (offset + width) := by
  simp [rest, Piece.slice, List.extract_eq_take_drop]

theorem rest_eq_nil_iff : reader.rest offset = [] ↔ reader.source.size ≤ offset := by
  simp [rest, List.drop_eq_nil_iff]

theorem le_size_of_scanAt? {tag : Tag} (h : reader.scanAt? offset = some (tag, width)) :
    offset + width ≤ reader.source.size := by
  have hlength := Tag.scan?_length h
  simp only [rest, List.length_drop, Array.length_toList] at hlength
  omega

section Reads

-- The tag is read where the span begins, and takes up the span.
def Reads (reader : Reader) (tag : Tag) (span : Span) : Prop :=
  ∃ width, reader.scanAt? span.start = some (tag, width) ∧ span.stop = span.start + width

variable {tag : Tag} {span : Span}

theorem Reads.lt (h : reader.Reads tag span) : span.start < span.stop := by
  obtain ⟨width, hscan, hstop⟩ := h
  have := (Tag.scan?_length hscan).1
  omega

theorem Reads.stop_le (h : reader.Reads tag span) : span.stop ≤ reader.source.size := by
  obtain ⟨width, hscan, hstop⟩ := h
  rw [hstop]
  exact le_size_of_scanAt? hscan

theorem Reads.spelled (h : reader.Reads tag span) :
    Tag.Spelled reader.options.allowPadding tag (Piece.slice reader.source span.start span.stop) := by
  obtain ⟨width, hscan, hstop⟩ := h
  rw [hstop, ← take_rest]
  exact (Tag.spelled_of_scan? hscan).1

end Reads

section Tokens

theorem tokens_end (h : reader.source.size ≤ offset) : reader.tokens offset = [] := by
  rw [tokens, rest_eq_nil_iff.mpr h, Token.ofText]

theorem tokens_literal {c : Char} {behind : List Char} (hrest : reader.rest offset = c :: behind)
    (hscan : reader.scanAt? offset = none) :
    reader.tokens offset =
      (if c = '{' && behind.head? = some '{' then .brace else .text c) ::
        reader.tokens (offset + 1) := by
  have hdrop : reader.rest (offset + 1) = behind := by
    rw [← drop_rest, hrest]
    rfl
  rw [scanAt?, hrest] at hscan
  rw [tokens, tokens, hrest, hdrop, Token.ofText_literal hscan]

theorem tokens_tag {tag : Tag} (h : reader.scanAt? offset = some (tag, width)) :
    reader.tokens offset =
      .tag tag (Piece.slice reader.source offset (offset + width)) ::
        reader.tokens (offset + width) := by
  rw [tokens, tokens, Token.ofText_tag h, take_rest, drop_rest]

end Tokens

section ReadFrom

variable {within : Option BlockKind} {splits : Bool}

-- What begins at an offset decides how the reading from there goes on, one equation for each case.
theorem readFrom_end (h : reader.source.size ≤ offset) :
    reader.readFrom within splits offset = { body := .nil } := by
  rw [readFrom, rest_eq_nil_iff.mpr h, Outline.read_nil]
  rfl

theorem readFrom_literal {c : Char} {behind : List Char} (hrest : reader.rest offset = c :: behind)
    (hscan : reader.scanAt? offset = none) :
    reader.readFrom within splits offset =
      (reader.readFrom within splits (offset + 1)).prepend (Outline.literal c behind) := by
  have hdrop : reader.rest (offset + 1) = behind := by
    rw [← drop_rest, hrest]
    rfl
  rw [scanAt?, hrest] at hscan
  rw [readFrom, hrest, Outline.read_literal hscan, Reading.shift_shift, readFrom, hdrop]
  rfl

theorem readFrom_placeholder {path : Path} {escaped : Bool}
    (h : reader.scanAt? offset = some (.placeholder path escaped, width)) :
    reader.readFrom within splits offset =
      (reader.readFrom within splits (offset + width)).prepend
        (.placeholder path escaped (Piece.slice reader.source offset (offset + width)) .nil) := by
  rw [readFrom, Outline.read_placeholder h, Reading.shift_shift, drop_rest, take_rest]
  rfl

theorem readFrom_opener_of_closed {kind : BlockKind} {path : Path} {closer : List Char} {stop : Nat}
    (h : reader.scanAt? offset = some (.opener kind path, width))
    (hcloser : (reader.readFrom (some kind) (kind = .ifTrue) (offset + width)).closer =
      some (closer, stop)) :
    reader.readFrom within splits offset =
      (reader.readFrom within splits stop).prepend
        ((reader.readFrom (some kind) (kind = .ifTrue) (offset + width)).toBlock kind path
          (Piece.slice reader.source offset (offset + width)) closer) := by
  simp only [readFrom, Reading.shift, Option.map_eq_some_iff, Prod.mk.injEq] at hcloser
  obtain ⟨⟨found, used⟩, hfound, rfl, rfl⟩ := hcloser
  rw [← drop_rest] at hfound
  rw [readFrom, Outline.read_opener_of_closed h hfound, Reading.shift_shift, drop_rest, drop_rest,
    take_rest, Nat.add_assoc]
  rfl

theorem readFrom_opener_of_unclosed {kind : BlockKind} {path : Path}
    (h : reader.scanAt? offset = some (.opener kind path, width))
    (hcloser : (reader.readFrom (some kind) (kind = .ifTrue) (offset + width)).closer = none) :
    reader.readFrom within splits offset =
      (reader.readFrom within splits (offset + width)).prepend
        (.verbatim (Piece.slice reader.source offset (offset + width)) .nil) := by
  simp only [readFrom, Reading.shift, Option.map_eq_none_iff, ← drop_rest] at hcloser
  rw [readFrom, Outline.read_opener_of_unclosed h hcloser, Reading.shift_shift, drop_rest, take_rest]
  rfl

theorem readFrom_else_splits (h : reader.scanAt? offset = some (.otherwise, width)) :
    reader.readFrom within true offset =
      (reader.readFrom within false (offset + width)).split
        (Piece.slice reader.source offset (offset + width)) := by
  rw [readFrom, Outline.read_else_splits h, Reading.shift_shift, drop_rest, take_rest]
  rfl

theorem readFrom_else_path (h : reader.scanAt? offset = some (.otherwise, width)) :
    reader.readFrom within false offset =
      (reader.readFrom within false (offset + width)).prepend
        (.placeholder ⟨"else"⟩ true (Piece.slice reader.source offset (offset + width)) .nil) := by
  rw [readFrom, Outline.read_else_path h, Reading.shift_shift, drop_rest, take_rest]
  rfl

theorem readFrom_closer {kind : BlockKind} (h : reader.scanAt? offset = some (.closer kind, width)) :
    reader.readFrom (some kind) splits offset =
      { body := .nil
        closer := some (Piece.slice reader.source offset (offset + width), offset + width) } := by
  rw [readFrom, Outline.read_closer h, take_rest]
  rfl

theorem readFrom_stray_closer {kind : BlockKind}
    (h : reader.scanAt? offset = some (.closer kind, width)) (hkind : within ≠ some kind) :
    reader.readFrom within splits offset =
      (reader.readFrom within splits (offset + width)).prepend
        (.verbatim (Piece.slice reader.source offset (offset + width)) .nil) := by
  rw [readFrom, Outline.read_stray_closer h hkind, Reading.shift_shift, drop_rest, take_rest]
  rfl

end ReadFrom

end Reader

end Stencil

import Stencil.Proofs.Tag.Repadded
import Stencil.Proofs.Tag.Search
import Mathlib.Data.String.Basic

namespace Stencil

namespace Path

-- Names joined by single points, the first perhaps marked.
def Dotted (path : Path) : Prop :=
  ∃ mark first others, (mark = [] ∨ mark = ['@']) ∧
    (∀ name ∈ first :: others, name ≠ [] ∧ ∀ c ∈ name, isNameChar c = true) ∧
    path.text.toList = mark ++ joinPieces '.' first others

theorem isName_iff {segment : List Char} :
    isName segment = true ↔ segment ≠ [] ∧ ∀ c ∈ segment, isNameChar c = true := by
  simp [isName]

theorem dropMark_spec (segment : List Char) :
    ∃ mark, (mark = [] ∨ mark = ['@']) ∧ segment = mark ++ dropMark segment := by
  unfold dropMark
  split
  · exact ⟨['@'], .inr rfl, rfl⟩
  · exact ⟨[], .inl rfl, rfl⟩

theorem dropMark_append {mark name : List Char} (hmark : mark = [] ∨ mark = ['@'])
    (hname : ∀ c ∈ name, isNameChar c = true) : dropMark (mark ++ name) = name := by
  rcases hmark with rfl | rfl
  · unfold dropMark
    split
    · next rest hrest =>
      have hat := hname '@' (by rw [← List.nil_append name, hrest]; exact List.mem_cons_self)
      exact absurd hat (by decide)
    · rfl
  · rfl

theorem isValid_iff_dotted (path : Path) : path.isValid = true ↔ path.Dotted := by
  constructor
  · intro h
    simp only [isValid, Bool.and_eq_true, List.all_eq_true] at h
    obtain ⟨hfirst, hothers⟩ := h
    obtain ⟨mark, hmark, hsplit⟩ := dropMark_spec (pieces '.' path.text.toList).1
    refine ⟨mark, dropMark (pieces '.' path.text.toList).1, (pieces '.' path.text.toList).2, hmark, ?_, ?_⟩
    · intro name hname
      rcases List.mem_cons.mp hname with rfl | hname
      · exact isName_iff.mp hfirst
      · exact isName_iff.mp (hothers name hname)
    · have hjoin := joinPieces_pieces '.' path.text.toList
      rw [joinPieces, hsplit, List.append_assoc] at hjoin
      exact hjoin.symm
  · rintro ⟨mark, first, others, hmark, hnames, htext⟩
    obtain ⟨hfirst, hothers⟩ := List.forall_mem_cons.mp hnames
    have hdot : ∀ name : List Char, (∀ c ∈ name, isNameChar c = true) → '.' ∉ name :=
      fun name hname hmem => absurd (hname '.' hmem) (by decide)
    have hhead : '.' ∉ mark ++ first := by
      rcases hmark with rfl | rfl
      · exact hdot first hfirst.2
      · simpa using hdot first hfirst.2
    have hpieces : pieces '.' path.text.toList = (mark ++ first, others) := by
      have hjoin : path.text.toList = joinPieces '.' (mark ++ first) others := by
        rw [htext, joinPieces, joinPieces, List.append_assoc]
      rw [hjoin]
      exact pieces_joinPieces hhead (fun name hname => hdot name (hothers name hname).2)
    simp only [isValid, hpieces, dropMark_append hmark hfirst.2, Bool.and_eq_true, List.all_eq_true]
    exact ⟨isName_iff.mpr hfirst, fun name hname => isName_iff.mpr (hothers name hname)⟩

theorem utf8Size_of_isPathChar {c : Char} (h : isPathChar c = true) : c.utf8Size = 1 := by
  rw [Char.utf8Size_eq_one_iff]
  simp only [isPathChar, isNameChar, Bool.or_eq_true, decide_eq_true_eq] at h
  rcases h with ((halphanum | rfl) | rfl) | rfl
  · have hranges : (decide (c.val ≥ 'A'.val ∧ c.val ≤ 'Z'.val) ||
        decide (c.val ≥ 'a'.val) && decide (c.val ≤ 'z'.val) ||
        decide (c.val ≥ '0'.val) && decide (c.val ≤ '9'.val)) = true := halphanum
    simp only [Bool.or_eq_true, Bool.and_eq_true, decide_eq_true_eq] at hranges
    grind
  all_goals decide

end Path

namespace Tag

-- The tag has a path of this form, if any. Between two braces `else` is no path but a tag of its own.
def Grammatical : Tag → Prop
  | .placeholder path escaped => path.Dotted ∧ ¬(path = ⟨"else"⟩ ∧ escaped = true)
  | .opener _ path => path.Dotted
  | .otherwise => True
  | .closer _ => True

-- The text is this tag, written as the grammar allows.
def Spells (padded : Bool) (tag : Tag) (text : List Char) : Prop :=
  Spelled padded tag text ∧ tag.Grammatical

variable {padded : Bool} {tag : Tag} {text : List Char} {width : Nat}

theorem wellFormed_iff : tag.WellFormed ↔ tag.Grammatical := by
  cases tag with
  | placeholder path escaped => simp only [WellFormed, Grammatical, Path.isValid_iff_dotted]
  | opener kind path => simp only [WellFormed, Grammatical, Path.isValid_iff_dotted]
  | otherwise => exact Iff.rfl
  | closer kind => exact Iff.rfl

theorem scan?_eq_some_iff :
    scan? padded text = some (tag, width) ↔ width ≤ text.length ∧ Spells padded tag (text.take width) := by
  constructor
  · intro h
    obtain ⟨hspelled, htag⟩ := spelled_of_scan? h
    exact ⟨(scan?_length h).2, hspelled, wellFormed_iff.mp htag⟩
  · rintro ⟨hwidth, hspelled, htag⟩
    have hscan := scan?_append hspelled (wellFormed_iff.mpr htag) (text.drop width)
    rwa [List.take_append_drop, List.length_take_of_le hwidth] at hscan

section Bytes

-- Outside ASCII there is nothing that a tag could be written with.
def Ascii (text : List Char) : Prop :=
  ∀ c ∈ text, c.utf8Size = 1

theorem ascii_append {first second : List Char} :
    Ascii (first ++ second) ↔ Ascii first ∧ Ascii second :=
  List.forall_mem_append

theorem ascii_cons {c : Char} {rest : List Char} :
    Ascii (c :: rest) ↔ c.utf8Size = 1 ∧ Ascii rest :=
  List.forall_mem_cons

theorem ascii_of_blank {blanks : List Char} (h : ∀ c ∈ blanks, isBlank c = true) : Ascii blanks := by
  intro c hc
  rcases isBlank_iff.mp (h c hc) with rfl | rfl | rfl | rfl | rfl <;> decide

theorem ascii_of_isPathChar (h : ∀ c ∈ text, Path.isPathChar c = true) : Ascii text :=
  fun c hc => Path.utf8Size_of_isPathChar (h c hc)

theorem ascii_braced {count : Nat} {content : List Char} (h : Ascii content) :
    Ascii (braced count content) := by
  have hreplicate : ∀ brace : Char, brace.utf8Size = 1 → Ascii (List.replicate count brace) :=
    fun brace hbrace c hc => List.eq_of_mem_replicate hc ▸ hbrace
  exact ascii_append.mpr
    ⟨ascii_append.mpr ⟨hreplicate '{' (by decide), h⟩, hreplicate '}' (by decide)⟩

theorem ascii_padded {left right : List Char} (hleft : Padding padded left)
    (hright : Padding padded right) (htext : Ascii text) : Ascii (left ++ text ++ right) :=
  ascii_append.mpr ⟨ascii_append.mpr ⟨ascii_of_blank hleft.1, htext⟩, ascii_of_blank hright.1⟩

theorem ascii_of_spelled (h : Spelled padded tag text) (htag : tag.WellFormed) : Ascii text := by
  have hkeyword : ∀ kind : BlockKind, Ascii kind.keyword.toList :=
    fun kind => ascii_of_isPathChar fun c hc => BlockKind.isPathChar_of_mem_keyword hc
  cases h with
  | raw hleft hright =>
      have hpath := ascii_of_isPathChar (Path.isPathChar_of_isValid htag.1)
      exact ascii_braced (ascii_padded hleft hright hpath)
  | escaped hleft hright =>
      have hpath := ascii_of_isPathChar (Path.isPathChar_of_isValid htag.1)
      exact ascii_braced (ascii_padded hleft hright hpath)
  | @opener kind path left gap right hleft hgap hright =>
      have hpath := ascii_of_isPathChar (Path.isPathChar_of_isValid htag)
      have hword := ascii_append.mpr ⟨hkeyword kind, ascii_of_blank hgap.1⟩
      exact ascii_braced (ascii_padded hleft hright
        (ascii_cons.mpr ⟨by decide, ascii_append.mpr ⟨hword, hpath⟩⟩))
  | otherwise hleft hright =>
      exact ascii_braced (ascii_padded hleft hright (by simp [Ascii]; decide))
  | @closer kind left inner right hleft hinner hright =>
      have hword := ascii_append.mpr ⟨ascii_of_blank hinner.1, hkeyword kind⟩
      exact ascii_braced (ascii_padded hleft hright (ascii_cons.mpr ⟨by decide, hword⟩))

theorem Ascii.utf8ByteSize_eq (h : Ascii text) : (String.ofList text).utf8ByteSize = text.length := by
  rw [String.utf8ByteSize_ofList]
  induction text with
  | nil => rfl
  | cons c rest ih =>
      obtain ⟨hc, hrest⟩ := ascii_cons.mp h
      rw [String.utf8Len_cons, ih hrest, hc, List.length_cons]

end Bytes

-- At any offset. The width counts bytes as well as characters.
theorem recognised_iff_spelled (padded : Bool) (text : List Char) (offset : Nat) :
    (∀ tag width, scan? padded (text.drop offset) = some (tag, width) ↔
      width ≤ (text.drop offset).length ∧ Spells padded tag ((text.drop offset).take width)) ∧
    (∀ tag width other otherWidth,
      width ≤ (text.drop offset).length → Spells padded tag ((text.drop offset).take width) →
      otherWidth ≤ (text.drop offset).length → Spells padded other ((text.drop offset).take otherWidth) →
        tag = other ∧ width = otherWidth) ∧
    (∀ tag width, scan? padded (text.drop offset) = some (tag, width) →
      (String.ofList ((text.drop offset).take width)).utf8ByteSize = width) ∧
    (∀ found, scan? false (text.drop offset) = some found →
      scan? padded (text.drop offset) = some found) ∧
    search? padded (text.drop offset) = scan? padded (text.drop offset) := by
  refine ⟨fun tag width => scan?_eq_some_iff, ?_, ?_, ?_, search?_eq_scan? padded _⟩
  · intro tag width other otherWidth hwidth hspells hother hotherSpells
    have hscan := scan?_eq_some_iff.mpr ⟨hwidth, hspells⟩
    rw [scan?_eq_some_iff.mpr ⟨hother, hotherSpells⟩] at hscan
    obtain ⟨rfl, rfl⟩ := Prod.mk.inj (Option.some.inj hscan)
    exact ⟨rfl, rfl⟩
  · intro tag width hscan
    obtain ⟨hspelled, htag⟩ := spelled_of_scan? hscan
    rw [(ascii_of_spelled hspelled htag).utf8ByteSize_eq, List.length_take_of_le (scan?_length hscan).2]
  · intro found hscan
    cases padded with
    | false => exact hscan
    | true => exact scan?_allowed hscan

-- Behind the first of three braces there is an opener, though at that brace there is no tag.
theorem recognised_behind_brace :
    Spells false (.opener .ifTrue ⟨"@a.b"⟩) (("é\x7b\x7b\x7b#if @a.b\x7d\x7d".toList.drop 2).take 12) ∧
    scan? false ("é\x7b\x7b\x7b#if @a.b\x7d\x7d".toList.drop 2) = some (.opener .ifTrue ⟨"@a.b"⟩, 12) ∧
    ∀ tag, ¬Spells false tag (("é\x7b\x7b\x7b#if @a.b\x7d\x7d".toList.drop 1).take 13) := by
  have hnil := padding_nil false
  have hgap : Gap false [' '] := ⟨by simp [isBlank], by simp, fun _ => rfl⟩
  have hspelled : Spelled false (.opener .ifTrue ⟨"@a.b"⟩) _ := .opener hnil hgap hnil
  have hspells : Spells false (.opener .ifTrue ⟨"@a.b"⟩)
      (("é\x7b\x7b\x7b#if @a.b\x7d\x7d".toList.drop 2).take 12) :=
    ⟨hspelled, (Path.isValid_iff_dotted ⟨"@a.b"⟩).mp (by decide)⟩
  have hopener := recognised_iff_spelled false "é\x7b\x7b\x7b#if @a.b\x7d\x7d".toList 2
  have hbrace := recognised_iff_spelled false "é\x7b\x7b\x7b#if @a.b\x7d\x7d".toList 1
  refine ⟨hspells, (hopener.1 _ 12).mpr ⟨by decide, hspells⟩, ?_⟩
  intro tag htag
  have hscan := (hbrace.1 tag 13).mpr ⟨by decide, htag⟩
  have hnone : scan? false ("é\x7b\x7b\x7b#if @a.b\x7d\x7d".toList.drop 1) = none := by decide
  rw [hnone] at hscan
  cases hscan

end Tag

end Stencil

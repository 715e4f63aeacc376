import Stencil.Proofs.Builder.Run

namespace Stencil

namespace Tag

variable {padded : Bool} {text content : List Char} {tag : Tag} {count width index skipped : Nat}

-- Inside of three braces stands a path. With two of them taken it is still read as one.
theorem ofContent?_ne_closer (h : ofRawContent? padded content = some tag) (kind : BlockKind) :
    ofContent? padded content ≠ some (.closer kind) := by
  obtain ⟨path, hpath, -⟩ := Option.map_eq_some_iff.mp h
  obtain ⟨htext, hvalid⟩ := eq_of_path? hpath
  have hmark : ∀ mark word, unpad padded content = mark :: word → Path.isPathChar mark = true := by
    intro mark word hword
    apply Path.isPathChar_of_isValid hvalid
    rw [← htext, hword]
    exact List.mem_cons_self
  unfold ofContent?
  split
  · next hword => exact absurd (hmark _ _ hword) (by decide)
  · next hword => exact absurd (hmark _ _ hword) (by decide)
  · split_ifs <;> simp

-- All opening braces of a tag stand in front of its content.
theorem getElem?_braced_ne (hcontent : ∀ c ∈ content, isBrace c = false) (hcount : count ≤ index)
    (hindex : index < (braced count content).length) (rest : List Char) :
    (braced count content ++ rest)[index]? ≠ some '{' := by
  intro h
  rw [List.getElem?_append_left hindex, braced, List.append_assoc,
    List.getElem?_append_right (by simpa using hcount)] at h
  rcases List.mem_append.mp (List.mem_of_getElem? h) with hmem | hmem
  · exact absurd (hcontent _ hmem) (by decide)
  · exact absurd (List.eq_of_mem_replicate hmem) (by decide)

-- No closing tag begins inside of another tag.
theorem scan?_drop_ne_closer (h : scan? padded text = some (tag, width)) (hpos : 0 < skipped)
    (hlt : skipped < width) (kind : BlockKind) (other : Nat) :
    scan? padded (text.drop skipped) ≠ some (.closer kind, other) := by
  intro hscan
  obtain ⟨count, content, rest, rfl, rfl, hcontent, hfound⟩ := exists_braced_of_scan? h
  obtain ⟨more, hmore⟩ := exists_braces_of_scan? hscan
  have hfirst : (braced count content ++ rest)[skipped]? = some '{' := by
    rw [← Nat.add_zero skipped, ← List.getElem?_drop, hmore]
    rfl
  have hsecond : (braced count content ++ rest)[skipped + 1]? = some '{' := by
    rw [← List.getElem?_drop, hmore]
    rfl
  have hlength := length_braced count content
  have hfront : skipped < count := by
    by_contra hge
    exact getElem?_braced_ne hcontent (not_lt.mp hge) hlt rest hfirst
  have hnext : skipped + 1 < count := by
    by_contra hge
    exact getElem?_braced_ne hcontent (not_lt.mp hge) (by omega) rest hsecond
  -- Only three braces leave room for two more behind the first.
  rcases hfound with ⟨rfl, hraw⟩ | ⟨rfl, -⟩
  · obtain rfl : skipped = 1 := by omega
    have htwo : (braced 3 content ++ rest).drop 1 = braced 2 content ++ '}' :: rest := by
      simp [braced, List.replicate_succ]
    rw [htwo, scan?_braced_two hcontent] at hscan
    obtain ⟨found, hcloser, heq⟩ := Option.map_eq_some_iff.mp hscan
    obtain ⟨rfl, -⟩ := Prod.mk.inj heq
    exact ofContent?_ne_closer hraw kind hcloser
  · omega

-- A closing tag of this kind is recognised in the text, with so many characters in front of it or more.
def CloserFrom (padded : Bool) (kind : BlockKind) (text : List Char) (first : Nat) : Prop :=
  ∃ skipped width, first ≤ skipped ∧ scan? padded (text.drop skipped) = some (.closer kind, width)

variable {kind : BlockKind} {first : Nat}

theorem not_closerFrom_nil : ¬CloserFrom padded kind [] first := by
  rintro ⟨skipped, width, -, hscan⟩
  rw [List.drop_nil] at hscan
  cases hscan

theorem closerFrom_literal {c : Char} {rest : List Char} (h : scan? padded (c :: rest) = none) :
    CloserFrom padded kind (c :: rest) first ↔ CloserFrom padded kind rest (first - 1) := by
  constructor
  · rintro ⟨skipped, width, hle, hscan⟩
    cases skipped with
    | zero => cases h.symm.trans hscan
    | succ skipped => exact ⟨skipped, width, by omega, hscan⟩
  · rintro ⟨skipped, width, hle, hscan⟩
    exact ⟨skipped + 1, width, by omega, hscan⟩

theorem closerFrom_tag (h : scan? padded text = some (tag, width)) :
    CloserFrom padded kind text first ↔
      (tag = .closer kind ∧ first = 0) ∨ CloserFrom padded kind (text.drop width) (first - width) := by
  constructor
  · rintro ⟨skipped, other, hle, hscan⟩
    by_cases hzero : skipped = 0
    · subst hzero
      cases h.symm.trans hscan
      exact .inl ⟨rfl, by omega⟩
    · have hge : width ≤ skipped := by
        by_contra hlt
        exact scan?_drop_ne_closer h (by omega) (by omega) kind other hscan
      refine .inr ⟨skipped - width, other, by omega, ?_⟩
      rw [List.drop_drop, Nat.add_sub_of_le hge]
      exact hscan
  · rintro (⟨rfl, rfl⟩ | ⟨skipped, other, hle, hscan⟩)
    · exact ⟨0, width, Nat.le_refl 0, h⟩
    · refine ⟨width + skipped, other, by omega, ?_⟩
      rw [← List.drop_drop]
      exact hscan

end Tag

namespace Closers

-- Keeps where a tag starts if it is a closing tag.
def note (closers : Closers) (start : Nat) : Tag → Closers
  | .closer kind => closers.set kind start
  | _ => closers

variable {padded : Bool} {text : List Char} {closers : Closers} {kind : BlockKind} {offset start : Nat}
  {tag : Tag}

theorem scan_tag (closers : Closers) (start : Nat) (tag : Tag) (spelling : List Char) (rest : List Token) :
    closers.scan start (.tag tag spelling :: rest) =
      (closers.note start tag).scan (start + spelling.length) rest := by
  cases tag <;> rfl

theorem le_of_mem_note (hfront : ∀ last ∈ closers.get kind, last ≤ start) :
    ∀ last ∈ (closers.note start tag).get kind, last ≤ start := by
  intro last hlast
  unfold note at hlast
  split at hlast
  · next found =>
    by_cases hkind : found = kind
    · subst hkind
      rw [get_set_self] at hlast
      cases hlast
      exact Nat.le_refl _
    · rw [get_set_of_ne hkind] at hlast
      exact hfront last hlast
  · exact hfront last hlast

-- The tag takes the place of one in front of it, which reached less far.
theorem reaches_note (hfront : ∀ last ∈ closers.get kind, last ≤ start) :
    (closers.note start tag).reaches kind offset = true ↔
      closers.reaches kind offset = true ∨ tag = .closer kind ∧ offset ≤ start := by
  unfold note
  split
  · next found =>
    by_cases hkind : found = kind
    · subst hkind
      simp only [reaches, get_set_self, Option.any_some, decide_eq_true_eq, true_and, Option.any_eq_true]
      constructor
      · exact .inr
      · rintro (⟨last, hlast, hle⟩ | hle)
        · exact hle.trans (hfront last hlast)
        · exact hle
    · simp [reaches, get_set_of_ne hkind, hkind]
  · next hnot =>
    have hne : tag ≠ .closer kind := hnot kind
    simp [hne]

theorem reaches_scan_ofText (hfront : ∀ last ∈ closers.get kind, last ≤ start) :
    (closers.scan start (Token.ofText padded text)).reaches kind offset = true ↔
      closers.reaches kind offset = true ∨ Tag.CloserFrom padded kind text (offset - start) := by
  fun_induction Token.ofText padded text generalizing closers start with
  | case1 => simp [scan, Tag.not_closerFrom_nil]
  | case2 c rest found length hscan ih =>
      have hlength : ((c :: rest).take length).length = length :=
        List.length_take_of_le (Tag.scan?_length hscan).2
      have hnote : ∀ last ∈ (closers.note start found).get kind, last ≤ start := le_of_mem_note hfront
      rw [scan_tag, hlength, ih (fun last hlast => (hnote last hlast).trans (Nat.le_add_right _ _)),
        reaches_note hfront, Tag.closerFrom_tag hscan, Nat.sub_sub, Nat.sub_eq_zero_iff_le, or_assoc]
  | case3 c rest hscan ih =>
      have htext : closers.scan start ((if c = '{' && rest.head? = some '{' then .brace else .text c) ::
          Token.ofText padded rest) = closers.scan (start + 1) (Token.ofText padded rest) := by
        split <;> rfl
      rw [htext, ih (fun last hlast => (hfront last hlast).trans (Nat.le_succ start)),
        Tag.closerFrom_literal hscan, Nat.sub_sub]

end Closers

namespace Reader

-- The look-up knows of every place in the text where a closing tag of this kind can be read.
theorem reaches_ofText_iff {options : Options} {text : List Char} {kind : BlockKind} {offset : Nat} :
    (ofText options text).closers.reaches kind offset = true ↔
      ∃ start width, offset ≤ start ∧
        (ofText options text).scanAt? start = some (.closer kind, width) := by
  have hfront : ∀ last ∈ ({} : Closers).get kind, last ≤ 0 := by
    intro last hlast
    cases kind <;> cases hlast
  have hnone : ({} : Closers).reaches kind offset = false := by
    cases kind <;> rfl
  rw [ofText, Closers.reaches_scan_ofText hfront, hnone]
  simp [Tag.CloserFrom, scanAt?, rest]

end Reader

end Stencil

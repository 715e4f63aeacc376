import Stencil.Proofs.Tag.Spelling

namespace Stencil

namespace Tag

section Trim
theorem trimStart_spec (text : List Char) :
    ∃ left, text = left ++ trimStart text ∧ ∀ c ∈ left, isBlank c = true := by
  refine ⟨text.takeWhile isBlank, List.takeWhile_append_dropWhile.symm, ?_⟩
  exact List.all_eq_true.mp List.all_takeWhile

theorem trim_spec (text : List Char) :
    ∃ left right, text = left ++ trim text ++ right ∧
      (∀ c ∈ left, isBlank c = true) ∧ ∀ c ∈ right, isBlank c = true := by
  obtain ⟨left, hleft, hblank⟩ := trimStart_spec text
  have hright : trimStart text =
      trim text ++ ((trimStart text).reverse.takeWhile isBlank).reverse := by
    rw [trim, trimEnd, ← List.reverse_append, List.takeWhile_append_dropWhile, List.reverse_reverse]
  refine ⟨left, ((trimStart text).reverse.takeWhile isBlank).reverse, ?_, hblank, ?_⟩
  · rw [List.append_assoc, ← hright]
    exact hleft
  · intro c hc
    exact List.all_eq_true.mp List.all_takeWhile c (List.mem_reverse.mp hc)

theorem unpad_spec (padded : Bool) (text : List Char) :
    ∃ left right, text = left ++ unpad padded text ++ right ∧
      Padding padded left ∧ Padding padded right := by
  cases padded with
  | false => exact ⟨[], [], by simp [unpad], padding_nil _, padding_nil _⟩
  | true =>
      obtain ⟨left, right, htext, hleft, hright⟩ := trim_spec text
      exact ⟨left, right, by simpa [unpad] using htext, ⟨hleft, by simp⟩, ⟨hright, by simp⟩⟩

-- No blank stands at either end.
def Solid (text : List Char) : Prop :=
  (∀ c ∈ text.head?, isBlank c = false) ∧ ∀ c ∈ text.getLast?, isBlank c = false

theorem solid_of_isPathChar {text : List Char} (h : ∀ c ∈ text, Path.isPathChar c = true) :
    Solid text := by
  constructor <;> intro c hc <;> apply isBlank_eq_false_of_isPathChar
  · exact h c (List.mem_of_mem_head? hc)
  · exact h c (List.mem_of_mem_getLast? hc)

theorem trimStart_append {left text : List Char} (hleft : ∀ c ∈ left, isBlank c = true)
    (htext : ∀ c ∈ text.head?, isBlank c = false) : trimStart (left ++ text) = text := by
  rw [trimStart, List.dropWhile_append_of_pos hleft]
  cases text with
  | nil => rfl
  | cons c rest => exact List.dropWhile_cons_of_neg (by simp [htext c rfl])

theorem trimEnd_append {text right : List Char} (hright : ∀ c ∈ right, isBlank c = true)
    (htext : ∀ c ∈ text.getLast?, isBlank c = false) : trimEnd (text ++ right) = text := by
  have hreverse : ∀ c ∈ right.reverse, isBlank c = true :=
    fun c hc => hright c (List.mem_reverse.mp hc)
  have hhead : ∀ c ∈ text.reverse.head?, isBlank c = false := by simpa using htext
  have h := trimStart_append hreverse hhead
  rw [trimStart, ← List.reverse_append] at h
  rw [trimEnd, h, List.reverse_reverse]

theorem trim_append {left text right : List Char} (hleft : ∀ c ∈ left, isBlank c = true)
    (hright : ∀ c ∈ right, isBlank c = true) (htext : Solid text) (hne : text ≠ []) :
    trim (left ++ text ++ right) = text := by
  have hhead : ∀ c ∈ (text ++ right).head?, isBlank c = false := by
    intro c hc
    rw [List.head?_append_of_ne_nil _ hne] at hc
    exact htext.1 c hc
  rw [trim, List.append_assoc, trimStart_append hleft hhead, trimEnd_append hright htext.2]

theorem unpad_append {padded : Bool} {left text right : List Char} (hleft : Padding padded left)
    (hright : Padding padded right) (htext : Solid text) (hne : text ≠ []) :
    unpad padded (left ++ text ++ right) = text := by
  cases padded with
  | false => simp [unpad, hleft.2 rfl, hright.2 rfl]
  | true => exact trim_append hleft.1 hright.1 htext hne

end Trim

-- The content runs to the first brace, so it is found again behind any other text.
private theorem takeWhile_content {content rest : List Char}
    (hcontent : ∀ c ∈ content, isBrace c = false) :
    (content ++ '}' :: rest).takeWhile (!isBrace ·) = content := by
  rw [List.takeWhile_append_of_pos (by simpa using hcontent)]
  simp [isBrace]

theorem scan?_braced_three {padded : Bool} {content rest : List Char}
    (hcontent : ∀ c ∈ content, isBrace c = false) :
    scan? padded (braced 3 content ++ rest) =
      (ofRawContent? padded content).map (·, (braced 3 content).length) := by
  have hsplit : braced 3 content ++ rest =
      '{' :: '{' :: '{' :: (content ++ '}' :: '}' :: '}' :: rest) := by
    simp [braced, List.replicate_succ]
  rw [hsplit, scan?]
  simp only [takeWhile_content hcontent, List.drop_left, length_braced]

theorem scan?_braced_two {padded : Bool} {content rest : List Char}
    (hcontent : ∀ c ∈ content, isBrace c = false) :
    scan? padded (braced 2 content ++ rest) =
      (ofContent? padded content).map (·, (braced 2 content).length) := by
  have hsplit : braced 2 content ++ rest =
      '{' :: '{' :: (content ++ '}' :: '}' :: rest) := by
    simp [braced, List.replicate_succ]
  have hbrace : ∀ inner, content ++ '}' :: '}' :: rest ≠ '{' :: inner := by
    intro inner hinner
    cases content with
    | nil => simp at hinner
    | cons c content =>
        have hc := hcontent c (by simp)
        have : c = '{' := (List.cons.inj hinner).1
        subst this
        exact absurd hc (by decide)
  rw [hsplit, scan?]
  · simp only [takeWhile_content hcontent, List.drop_left, length_braced]
  · exact hbrace

-- What the recogniser finds is a content between braces that itself holds none.
theorem exists_braced_of_scan? {padded : Bool} {text : List Char} {tag : Tag} {width : Nat}
    (h : scan? padded text = some (tag, width)) :
    ∃ count content rest, text = braced count content ++ rest ∧
      width = (braced count content).length ∧ (∀ c ∈ content, isBrace c = false) ∧
      (count = 3 ∧ ofRawContent? padded content = some tag ∨
        count = 2 ∧ ofContent? padded content = some tag) := by
  have hcontent : ∀ inner : List Char, ∀ c ∈ inner.takeWhile (!isBrace ·), isBrace c = false :=
    fun inner c hc => by simpa using List.all_eq_true.mp List.all_takeWhile c hc
  have hsplit : ∀ inner : List Char, inner = inner.takeWhile (!isBrace ·) ++
      inner.drop (inner.takeWhile (!isBrace ·)).length := by
    intro inner
    nth_rewrite 1 [← List.take_append_drop (inner.takeWhile (!isBrace ·)).length inner]
    rw [← List.prefix_iff_eq_take.mp (List.takeWhile_prefix _)]
  unfold scan? at h
  split at h
  · next inner =>
    simp only at h
    split at h
    · next rest hrest =>
      obtain ⟨found, hfound, hpair⟩ := Option.map_eq_some_iff.mp h
      obtain ⟨rfl, rfl⟩ := Prod.mk.inj hpair
      refine ⟨3, inner.takeWhile (!isBrace ·), rest, ?_, by simp, hcontent inner, .inl ⟨rfl, hfound⟩⟩
      conv => lhs; rw [hsplit inner, hrest]
      simp [braced, List.replicate_succ]
    · cases h
  · next inner _ =>
    simp only at h
    split at h
    · next rest hrest =>
      obtain ⟨found, hfound, hpair⟩ := Option.map_eq_some_iff.mp h
      obtain ⟨rfl, rfl⟩ := Prod.mk.inj hpair
      refine ⟨2, inner.takeWhile (!isBrace ·), rest, ?_, by simp, hcontent inner, .inr ⟨rfl, hfound⟩⟩
      conv => lhs; rw [hsplit inner, hrest]
      simp [braced, List.replicate_succ]
    · cases h
  · cases h

theorem eq_of_path? {text : List Char} {path : Path} (h : path? text = some path) :
    text = path.text.toList ∧ path.isValid = true := by
  unfold path? at h
  simp only at h
  split at h
  · next hvalid =>
    obtain rfl := Option.some.inj h
    exact ⟨by simp, hvalid⟩
  · cases h

theorem path?_toList {path : Path} (h : path.isValid = true) :
    path? path.text.toList = some path := by
  simp [path?, h]

-- Does the character still belong to the keyword of an opener?
def inKeyword (padded : Bool) (c : Char) : Bool :=
  if padded then !isBlank c else c ≠ ' '

private theorem opener?_eq (padded : Bool) (directive : List Char) :
    opener? padded directive =
      match directive.dropWhile (inKeyword padded) with
      | [] => none
      | _ :: path => do
        let kind ← BlockKind.ofKeyword? (directive.takeWhile (inKeyword padded))
        return Tag.opener kind (← path? (unpad padded path)) :=
  rfl

theorem opener?_append {padded : Bool} {kind : BlockKind} {path : Path} {gap : List Char}
    (hgap : Gap padded gap) (hpath : path.isValid = true) :
    opener? padded (kind.keyword.toList ++ gap ++ path.text.toList) = some (.opener kind path) := by
  obtain ⟨hblank, hne, hexact⟩ := hgap
  obtain ⟨first, rest, rfl⟩ := List.exists_cons_of_ne_nil hne
  have hword : ∀ c ∈ kind.keyword.toList, inKeyword padded c = true := by
    intro c hc
    have hc := isBlank_eq_false_of_isPathChar (BlockKind.isPathChar_of_mem_keyword hc)
    have hspace : c ≠ ' ' := by
      rintro rfl
      exact absurd hc (by decide)
    simp [inKeyword, hc, hspace]
  have hfirst : inKeyword padded first = false := by
    cases padded with
    | false => simp [inKeyword, (List.cons.inj (hexact rfl)).1]
    | true => simp [inKeyword, hblank first (by simp)]
  have hsplit : kind.keyword.toList ++ first :: rest ++ path.text.toList =
      kind.keyword.toList ++ first :: (rest ++ path.text.toList) := by simp
  have htake : (kind.keyword.toList ++ first :: (rest ++ path.text.toList)).takeWhile
      (inKeyword padded) = kind.keyword.toList := by
    rw [List.takeWhile_append_of_pos hword, List.takeWhile_cons_of_neg (by simp [hfirst]),
      List.append_nil]
  have hdrop : (kind.keyword.toList ++ first :: (rest ++ path.text.toList)).dropWhile
      (inKeyword padded) = first :: (rest ++ path.text.toList) := by
    rw [List.dropWhile_append_of_pos hword, List.dropWhile_cons_of_neg (by simp [hfirst])]
  have hrest : Padding padded rest := by
    refine ⟨fun c hc => hblank c (List.mem_cons_of_mem _ hc), ?_⟩
    intro hpadded
    exact (List.cons.inj (hexact hpadded)).2
  have hunpad : unpad padded (rest ++ path.text.toList) = path.text.toList := by
    have h := unpad_append hrest (padding_nil padded)
      (solid_of_isPathChar (Path.isPathChar_of_isValid hpath)) (Path.toList_ne_nil_of_isValid hpath)
    rwa [List.append_nil] at h
  rw [opener?_eq, hsplit, htake, hdrop]
  simp [hunpad, BlockKind.ofKeyword?_keyword, path?_toList hpath]

theorem exists_of_opener? {padded : Bool} {directive : List Char} {tag : Tag}
    (h : opener? padded directive = some tag) :
    ∃ kind path gap right, tag = .opener kind path ∧
      directive = kind.keyword.toList ++ gap ++ path.text.toList ++ right ∧
      Gap padded gap ∧ Padding padded right ∧ path.isValid = true := by
  rw [opener?_eq] at h
  have hsplit := List.takeWhile_append_dropWhile (p := inKeyword padded) (l := directive)
  split at h
  · cases h
  · next first rest hdrop =>
    simp only [Option.bind_eq_bind, Option.bind_eq_some_iff, Option.pure_def, Option.some.injEq] at h
    obtain ⟨kind, hkind, path, hpath, rfl⟩ := h
    obtain ⟨left, right, hrest, hleft, hright⟩ := unpad_spec padded rest
    obtain ⟨htext, hvalid⟩ := eq_of_path? hpath
    have hfirst : inKeyword padded first = false := by
      have hhead := List.head?_dropWhile_not (inKeyword padded) directive
      rw [hdrop] at hhead
      simpa using hhead
    refine ⟨kind, path, first :: left, right, rfl, ?_, ⟨?_, by simp, ?_⟩, hright, hvalid⟩
    · rw [← hsplit, hdrop, ← BlockKind.eq_keyword_of_ofKeyword? hkind, hrest, htext]
      simp
    · intro c hc
      rcases List.mem_cons.mp hc with rfl | hc
      · cases padded with
        | false =>
            have : c = ' ' := by simpa [inKeyword] using hfirst
            subst this
            decide
        | true => simpa [inKeyword] using hfirst
      · exact hleft.1 c hc
    · rintro rfl
      have : first = ' ' := by simpa [inKeyword] using hfirst
      rw [this, hleft.2 rfl]

theorem spelled_of_ofRawContent? {padded : Bool} {content : List Char} {tag : Tag}
    (h : ofRawContent? padded content = some tag) :
    Spelled padded tag (braced 3 content) ∧ tag.WellFormed := by
  obtain ⟨path, hpath, rfl⟩ := Option.map_eq_some_iff.mp h
  obtain ⟨left, right, hcontent, hleft, hright⟩ := unpad_spec padded content
  obtain ⟨htext, hvalid⟩ := eq_of_path? hpath
  rw [hcontent, htext]
  exact ⟨.raw hleft hright, hvalid, by simp⟩

theorem spelled_of_ofContent? {padded : Bool} {content : List Char} {tag : Tag}
    (h : ofContent? padded content = some tag) :
    Spelled padded tag (braced 2 content) ∧ tag.WellFormed := by
  obtain ⟨left, right, hcontent, hleft, hright⟩ := unpad_spec padded content
  unfold ofContent? at h
  split at h
  · next word hword =>
    obtain ⟨kind, hkind, rfl⟩ := Option.map_eq_some_iff.mp h
    have hinner : ∃ inner, word = inner ++ kind.keyword.toList ∧ Padding padded inner := by
      cases padded with
      | false =>
          exact ⟨[], BlockKind.eq_keyword_of_ofKeyword? (by simpa using hkind), padding_nil _⟩
      | true =>
          obtain ⟨inner, hsplit, hblank⟩ := trimStart_spec word
          refine ⟨inner, ?_, hblank, by simp⟩
          have hkeyword : BlockKind.ofKeyword? (trimStart word) = some kind := by simpa using hkind
          rw [← BlockKind.eq_keyword_of_ofKeyword? hkeyword]
          exact hsplit
    obtain ⟨inner, rfl, hpad⟩ := hinner
    rw [hcontent, hword]
    exact ⟨.closer hleft hpad hright, trivial⟩
  · next directive hdirective =>
    obtain ⟨kind, path, gap, inner, rfl, rfl, hgap, hinner, hvalid⟩ := exists_of_opener? h
    have hspelled : Spelled padded (.opener kind path) _ :=
      .opener hleft hgap (padding_append hinner hright)
    rw [hcontent, hdirective]
    exact ⟨by simpa using hspelled, hvalid⟩
  · next text _ _ =>
    split at h
    · next helse =>
      obtain rfl := Option.some.inj h
      rw [hcontent, helse]
      exact ⟨.otherwise hleft hright, trivial⟩
    · next helse =>
      obtain ⟨path, hpath, rfl⟩ := Option.map_eq_some_iff.mp h
      obtain ⟨htext, hvalid⟩ := eq_of_path? hpath
      rw [hcontent, htext]
      refine ⟨.escaped hleft hright, hvalid, ?_⟩
      rintro ⟨rfl, -⟩
      exact helse htext

theorem ofRawContent?_append {padded : Bool} {path : Path} {left right : List Char}
    (hleft : Padding padded left) (hright : Padding padded right) (hpath : path.isValid = true) :
    ofRawContent? padded (left ++ path.text.toList ++ right) = some (.placeholder path false) := by
  have hsolid := solid_of_isPathChar (Path.isPathChar_of_isValid hpath)
  have hunpad := unpad_append hleft hright hsolid (Path.toList_ne_nil_of_isValid hpath)
  rw [ofRawContent?, hunpad, path?_toList hpath]
  rfl

private theorem ofContent?_path {padded : Bool} {path : Path} {left right : List Char}
    (hleft : Padding padded left) (hright : Padding padded right) (hpath : path.isValid = true)
    (helse : path ≠ ⟨"else"⟩) :
    ofContent? padded (left ++ path.text.toList ++ right) = some (.placeholder path true) := by
  have hchars := Path.isPathChar_of_isValid hpath
  have hunpad := unpad_append hleft hright (solid_of_isPathChar hchars)
    (Path.toList_ne_nil_of_isValid hpath)
  have hfirst : ∀ c rest, path.text.toList = c :: rest → Path.isPathChar c = true :=
    fun c rest hrest => hchars c (by simp [hrest])
  rw [ofContent?, hunpad]
  split
  · next hrest => exact absurd (hfirst _ _ hrest) (by decide)
  · next hrest => exact absurd (hfirst _ _ hrest) (by decide)
  · rw [if_neg, path?_toList hpath]
    · rfl
    · intro htext
      exact helse (by cases path; simpa using String.toList_inj.mp htext)

private theorem ofContent?_otherwise {padded : Bool} {left right : List Char}
    (hleft : Padding padded left) (hright : Padding padded right) :
    ofContent? padded (left ++ "else".toList ++ right) = some .otherwise := by
  have hall : "else".toList.all Path.isPathChar = true := by decide
  have hsolid : Solid "else".toList := solid_of_isPathChar (List.all_eq_true.mp hall)
  have hunpad := unpad_append hleft hright hsolid (by decide)
  rw [ofContent?, hunpad]
  rfl

-- The content of an opener or a closer begins with a mark and ends with a word.
private theorem solid_mark {mark : Char} {inner word : List Char} (hmark : isBlank mark = false)
    (hword : ∀ c ∈ word, Path.isPathChar c = true) (hne : word ≠ []) :
    Solid (mark :: inner ++ word) := by
  constructor
  · intro c hc
    obtain rfl : mark = c := by simpa using hc
    exact hmark
  · intro c hc
    rw [List.getLast?_append_of_ne_nil _ hne] at hc
    exact (solid_of_isPathChar hword).2 c hc

private theorem ofContent?_closer {padded : Bool} {kind : BlockKind} {left inner right : List Char}
    (hleft : Padding padded left) (hinner : Padding padded inner) (hright : Padding padded right) :
    ofContent? padded (left ++ ('/' :: inner ++ kind.keyword.toList) ++ right) =
      some (.closer kind) := by
  have hword : ∀ c ∈ kind.keyword.toList, Path.isPathChar c = true :=
    fun _ hc => BlockKind.isPathChar_of_mem_keyword hc
  have hsolid : Solid ('/' :: inner ++ kind.keyword.toList) :=
    solid_mark (by decide) hword kind.keyword_ne_nil
  have hunpad := unpad_append hleft hright hsolid (by simp)
  have hkeyword : (if padded then trimStart (inner ++ kind.keyword.toList)
      else inner ++ kind.keyword.toList) = kind.keyword.toList := by
    cases padded with
    | false => simp [hinner.2 rfl]
    | true => simp [trimStart_append hinner.1 (solid_of_isPathChar hword).1]
  rw [ofContent?, hunpad]
  simp only [List.cons_append, hkeyword, BlockKind.ofKeyword?_keyword, Option.map_some]

private theorem ofContent?_opener {padded : Bool} {kind : BlockKind} {path : Path}
    {left gap right : List Char} (hleft : Padding padded left) (hgap : Gap padded gap)
    (hright : Padding padded right) (hpath : path.isValid = true) :
    ofContent? padded
      (left ++ ('#' :: kind.keyword.toList ++ gap ++ path.text.toList) ++ right) =
        some (.opener kind path) := by
  have hsolid : Solid ('#' :: (kind.keyword.toList ++ gap) ++ path.text.toList) :=
    solid_mark (by decide) (Path.isPathChar_of_isValid hpath) (Path.toList_ne_nil_of_isValid hpath)
  have hunpad := unpad_append hleft hright hsolid (by simp)
  simp only [List.cons_append] at hunpad ⊢
  rw [ofContent?, hunpad]
  exact opener?_append hgap hpath

-- What a recognised tag takes up is one of its spellings.
theorem spelled_of_scan? {padded : Bool} {text : List Char} {tag : Tag} {width : Nat}
    (h : scan? padded text = some (tag, width)) :
    Spelled padded tag (text.take width) ∧ tag.WellFormed := by
  obtain ⟨count, content, rest, rfl, rfl, -, hfound⟩ := exists_braced_of_scan? h
  rw [List.take_left]
  rcases hfound with ⟨rfl, hfound⟩ | ⟨rfl, hfound⟩
  · exact spelled_of_ofRawContent? hfound
  · exact spelled_of_ofContent? hfound

private theorem isBrace_eq_false_of_mem {padded : Bool} {left text right : List Char}
    (hleft : Padding padded left) (hright : Padding padded right)
    (htext : ∀ c ∈ text, isBrace c = false) : ∀ c ∈ left ++ text ++ right, isBrace c = false := by
  intro c hc
  rcases List.mem_append.mp hc with hc | hc
  · exact (List.mem_append.mp hc).elim hleft.isBrace_eq_false (htext c)
  · exact hright.isBrace_eq_false hc

-- A spelling of a tag with a valid path is recognised whatever stands behind it.
theorem scan?_append {padded : Bool} {tag : Tag} {spelling : List Char}
    (hspelled : Spelled padded tag spelling) (htag : tag.WellFormed) (rest : List Char) :
    scan? padded (spelling ++ rest) = some (tag, spelling.length) := by
  have hpathChar : ∀ {path : Path}, path.isValid = true →
      ∀ c ∈ path.text.toList, isBrace c = false :=
    fun h c hc => isBrace_eq_false_of_isPathChar (Path.isPathChar_of_isValid h c hc)
  cases hspelled with
  | @raw path left right hleft hright =>
      have hpath : path.isValid = true := htag.1
      have hcontent := isBrace_eq_false_of_mem hleft hright (hpathChar hpath)
      rw [scan?_braced_three hcontent, ofRawContent?_append hleft hright hpath, Option.map_some]
  | @escaped path left right hleft hright =>
      obtain ⟨hpath, helse⟩ := htag
      have hcontent := isBrace_eq_false_of_mem hleft hright (hpathChar hpath)
      rw [scan?_braced_two hcontent,
        ofContent?_path hleft hright hpath (fun h => helse ⟨h, rfl⟩), Option.map_some]
  | @opener kind path left gap right hleft hgap hright =>
      have hpath : path.isValid = true := htag
      rw [scan?_braced_two, ofContent?_opener hleft hgap hright hpath, Option.map_some]
      apply isBrace_eq_false_of_mem hleft hright
      intro c hc
      simp only [List.mem_append, List.mem_cons] at hc
      rcases hc with ((rfl | hc) | hc) | hc
      · decide
      · exact isBrace_eq_false_of_isPathChar (BlockKind.isPathChar_of_mem_keyword hc)
      · exact isBrace_eq_false_of_isBlank (hgap.1 c hc)
      · exact hpathChar hpath c hc
  | @otherwise left right hleft hright =>
      have hall : "else".toList.all (!isBrace ·) = true := by decide
      have helse : ∀ c ∈ "else".toList, isBrace c = false := by simpa using hall
      have hcontent := isBrace_eq_false_of_mem hleft hright helse
      rw [scan?_braced_two hcontent, ofContent?_otherwise hleft hright, Option.map_some]
  | @closer kind left inner right hleft hinner hright =>
      rw [scan?_braced_two, ofContent?_closer hleft hinner hright, Option.map_some]
      apply isBrace_eq_false_of_mem hleft hright
      intro c hc
      simp only [List.mem_append, List.mem_cons] at hc
      rcases hc with (rfl | hc) | hc
      · decide
      · exact hinner.isBrace_eq_false hc
      · exact isBrace_eq_false_of_isPathChar (BlockKind.isPathChar_of_mem_keyword hc)

-- A text spells one tag at most.
theorem eq_of_spelled {padded : Bool} {tag other : Tag} {spelling : List Char}
    (h : Spelled padded tag spelling) (htag : tag.WellFormed) (hother : Spelled padded other spelling)
    (hotherTag : other.WellFormed) : tag = other := by
  have hscan := scan?_append h htag []
  rw [scan?_append hother hotherTag []] at hscan
  exact (Prod.mk.inj (Option.some.inj hscan)).1.symm

theorem exists_braces_of_scan? {padded : Bool} {text : List Char} {found : Tag × Nat}
    (h : scan? padded text = some found) : ∃ rest, text = '{' :: '{' :: rest := by
  obtain ⟨count, content, rest, rfl, -, -, hcount⟩ := exists_braced_of_scan? h
  rcases hcount with ⟨rfl, -⟩ | ⟨rfl, -⟩ <;> exact ⟨_, rfl⟩

-- Where two braces do not meet there is no tag.
theorem scan?_eq_none {padded : Bool} {c : Char} {rest : List Char}
    (h : ¬(c = '{' ∧ rest.head? = some '{')) : scan? padded (c :: rest) = none := by
  by_contra hne
  obtain ⟨found, hfound⟩ := Option.ne_none_iff_exists'.mp hne
  obtain ⟨more, hmore⟩ := exists_braces_of_scan? hfound
  obtain ⟨rfl, hrest⟩ := List.cons.inj hmore
  exact h ⟨rfl, by rw [hrest]; rfl⟩

end Tag

end Stencil

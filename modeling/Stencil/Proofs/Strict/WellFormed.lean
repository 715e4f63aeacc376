import Stencil.Proofs.Outline.Lists
import Stencil.Proofs.Outline.Whole

namespace Stencil

namespace Node

def HasValidPath : Node → Prop
  | text _ => True
  | placeholder path _ => path.isValid = true
  | block _ path _ => path.isValid = true
  | ifElse path _ _ => path.isValid = true

-- The conditions on a tree with at most so many blocks inside each other: each of them is about every
-- list in it, and only the last text of the root may end in a brace.
structure WellFormed (maxDepth : Nat) (root : List Node) : Prop where
  path_valid : ∀ depth nodes, ListIn root depth nodes → ∀ node ∈ nodes, node.HasValidPath
  tidy : ∀ depth nodes, ListIn root depth nodes → Tidy nodes
  no_pair : ∀ depth nodes, ListIn root depth nodes → ∀ content, .text content ∈ nodes →
    ¬['{', '{'] <:+: content.toList
  no_last_brace : ∀ depth nodes, ListIn root depth nodes → ∀ content after,
    .text content :: after <:+ nodes → content.toList.getLast? = some '{' → depth = 0 ∧ after = []
  no_else : ∀ depth nodes, ListIn root depth nodes → ∀ path body, .block .ifTrue path body ∈ nodes →
    .placeholder ⟨"else"⟩ true ∉ body
  no_else_then : ∀ depth nodes, ListIn root depth nodes → ∀ path thenBody elseBody,
    .ifElse path thenBody elseBody ∈ nodes → .placeholder ⟨"else"⟩ true ∉ thenBody
  depth_lt : ∀ depth nodes, ListIn root depth nodes → ∀ node ∈ nodes, node.isBlock = true →
    depth < maxDepth

end Node

namespace Outline

-- A body that strict reading can return, in front of what follows it.
structure Strict (padded : Bool) (room : Nat) (behind : List Char) (outline : Outline) : Prop where
  legible : outline.Legible padded behind
  plain : outline.Plain
  within : outline.Within room
  elseSplits : outline.ElseSplits

variable {padded : Bool} {room : Nat} {behind : List Char} {outline : Outline} {kind : BlockKind}
  {path : Path} {opener closer elseTag : List Char} {first inner rest thenInner elseInner : Outline}

theorem Strict.block
    (h : (first ++ block kind path opener inner closer rest).Strict padded room behind) :
    path.isValid = true ∧ (kind = .ifTrue → inner.NoElse) ∧ inner.Strict padded (room - 1) closer ∧
      StartsTag closer := by
  obtain ⟨hlegible, hplain, hwithin, helse⟩ := h
  obtain ⟨-, -, hpath, hinner, hcloser, -⟩ := legible_append.mp hlegible
  obtain ⟨-, hinnerPlain, -⟩ := plain_append.mp hplain
  obtain ⟨-, -, hinnerWithin, -⟩ := within_append.mp hwithin
  obtain ⟨-, hnoElse, hinnerElse, -⟩ := elseSplits_append.mp helse
  refine ⟨hpath, hnoElse, ⟨hinner, hinnerPlain, hinnerWithin, hinnerElse⟩, ?_⟩
  simpa using startsTag_of_spelled hcloser []

theorem Strict.ifElse
    (h : (first ++ ifElse path opener thenInner elseTag elseInner closer rest).Strict padded room
      behind) :
    path.isValid = true ∧ thenInner.NoElse ∧
      (thenInner.Strict padded (room - 1) elseTag ∧ StartsTag elseTag) ∧
        elseInner.Strict padded (room - 1) closer ∧ StartsTag closer := by
  obtain ⟨hlegible, hplain, hwithin, helse⟩ := h
  obtain ⟨-, -, hpath, hthen, helseTag, helseBody, hcloser, -⟩ := legible_append.mp hlegible
  obtain ⟨-, hthenPlain, helsePlain, -⟩ := plain_append.mp hplain
  obtain ⟨-, -, hthenWithin, helseWithin, -⟩ := within_append.mp hwithin
  obtain ⟨-, hnoElse, hthenElse, helseElse, -⟩ := elseSplits_append.mp helse
  refine ⟨hpath, hnoElse, ⟨⟨hthen, hthenPlain, hthenWithin, hthenElse⟩, ?_⟩,
    ⟨helseBody, helsePlain, helseWithin, helseElse⟩, ?_⟩
  · simpa using startsTag_of_spelled helseTag []
  · simpa using startsTag_of_spelled hcloser []

-- Each list in the tree comes from such a body. What follows it is a tag, unless it is the root.
theorem Strict.exists_of_listIn {nodes : List Node} {depth : Nat}
    (h : outline.Strict padded room behind) (hlist : Node.ListIn outline.toNodes depth nodes) :
    ∃ (inner : Outline) (after : List Char), nodes = inner.toNodes ∧
      inner.Strict padded (room - depth) after ∧ (depth = 0 ∨ StartsTag after) := by
  induction hlist with
  | root => exact ⟨outline, behind, rfl, h, .inl rfl⟩
  | body _ hblock ih =>
      obtain ⟨inner, after, rfl, hinner, -⟩ := ih
      obtain ⟨first, opener, body, closer, rest, rfl, rfl⟩ := exists_append_of_block_mem hblock
      obtain ⟨-, -, hbody, hcloser⟩ := hinner.block
      exact ⟨body, closer, rfl, hbody, .inr hcloser⟩
  | thenBody _ hblock ih =>
      obtain ⟨inner, after, rfl, hinner, -⟩ := ih
      obtain ⟨first, opener, thenBody, elseTag, elseBody, closer, rest, rfl, rfl, rfl⟩ :=
        exists_append_of_ifElse_mem hblock
      obtain ⟨-, -, ⟨hthen, helseTag⟩, -⟩ := hinner.ifElse
      exact ⟨thenBody, elseTag, rfl, hthen, .inr helseTag⟩
  | elseBody _ hblock ih =>
      obtain ⟨inner, after, rfl, hinner, -⟩ := ih
      obtain ⟨first, opener, thenBody, elseTag, elseBody, closer, rest, rfl, rfl, rfl⟩ :=
        exists_append_of_ifElse_mem hblock
      obtain ⟨-, -, -, helse, hcloser⟩ := hinner.ifElse
      exact ⟨elseBody, closer, rfl, helse, .inr hcloser⟩

section Text

theorem noElse_iff : outline.NoElse ↔ .placeholder ⟨"else"⟩ true ∉ outline.toNodes := by
  rw [toNodes, Node.mem_joinText rfl]
  induction outline with
  | nil => simp [NoElse, nodes]
  | placeholder path escaped spelling rest ih =>
      simp only [NoElse, nodes, List.mem_cons, not_or, ih, Node.placeholder.injEq]
      exact and_congr_left fun _ => not_congr (and_congr eq_comm eq_comm)
  | text | verbatim | block | ifElse => simp_all [NoElse, nodes]

theorem spells_toNodes (hlegible : outline.Legible padded behind) :
    Node.Spells padded outline.toNodes outline.spelling := by
  have hlimit := spells_limit hlegible (braces outline.spelling)
  rw [limit_of_within (within_of_braces_le hlegible (Nat.le_refl _))] at hlimit
  exact hlimit.joinText

theorem head?_of_toNodes_text {more : String} {after : List Node}
    (hlegible : outline.Legible padded behind) (h : outline.toNodes = .text more :: after) :
    more.toList ≠ [] ∧ (outline.spelling ++ behind).head? = more.toList.head? := by
  have htidy : Node.Tidy outline.toNodes := Node.tidy_joinText outline.nodes
  have hspells := spells_toNodes hlegible
  rw [h] at htidy hspells
  have hmore : more.toList ≠ [] := by simpa using htidy.text_ne more List.mem_cons_self
  obtain ⟨later, hspelling⟩ := hspells.exists_of_text
  exact ⟨hmore, by rw [hspelling, List.append_assoc, List.head?_append_of_ne_nil _ hmore]⟩

-- Where no brace comes next, either a text does, or the outline has ended.
theorem head?_of_toNodes (hlegible : outline.Legible padded behind)
    (h : (outline.spelling ++ behind).head? ≠ some '{') :
    (∃ content after, outline.toNodes = .text content :: after) ∨
      outline.toNodes = [] ∧ behind.head? ≠ some '{' := by
  have hspells := spells_toNodes hlegible
  generalize outline.toNodes = nodes at hspells
  generalize outline.spelling = spelling at h hspells
  cases hspells with
  | nil => exact .inr ⟨rfl, h⟩
  | text content hrest => exact .inl ⟨content, _, rfl⟩
  | placeholder htag hrest =>
      rw [List.append_assoc] at h
      exact absurd (Tag.head?_of_spelled htag _) h
  | block hopener hbody hcloser hrest =>
      simp only [List.append_assoc] at h
      exact absurd (Tag.head?_of_spelled hopener _) h
  | ifElse hopener hthen helseTag helse hcloser hrest =>
      simp only [List.append_assoc] at h
      exact absurd (Tag.head?_of_spelled hopener _) h

-- No text holds a pair of braces, and none makes one with what follows it.
def Apart (behind : List Char) (nodes : List Node) : Prop :=
  ∀ content after, .text content :: after <:+ nodes → ¬['{', '{'] <:+: content.toList ∧
    (content.toList.getLast? = some '{' → after = [] ∧ behind.head? ≠ some '{')

theorem Apart.cons {node : Node} {nodes : List Node} (h : Apart behind nodes)
    (hnode : ∀ content, node = .text content → ¬['{', '{'] <:+: content.toList ∧
      (content.toList.getLast? = some '{' → nodes = [] ∧ behind.head? ≠ some '{')) :
    Apart behind (node :: nodes) := by
  intro content after hsuffix
  rcases List.suffix_cons_iff.mp hsuffix with heq | hsuffix
  · obtain ⟨rfl, rfl⟩ := List.cons.inj heq
    exact hnode content rfl
  · exact h content after hsuffix

theorem Apart.of_cons {node : Node} {nodes : List Node} (h : Apart behind (node :: nodes)) :
    Apart behind nodes :=
  fun content after hsuffix => h content after (hsuffix.trans (List.suffix_cons node nodes))

theorem Apart.extend_text {c : Char} {more : String} {after : List Node}
    (h : Apart behind (.text more :: after)) (hmore : more.toList ≠ [])
    (hc : c = '{' → more.toList.head? ≠ some '{') :
    Apart behind (.text (String.ofList [c] ++ more) :: after) := by
  obtain ⟨hpair, hlast⟩ := h more after (List.suffix_refl _)
  refine h.of_cons.cons ?_
  intro content hcontent
  obtain rfl : String.ofList [c] ++ more = content := Node.text.inj hcontent
  have hlist : (String.ofList [c] ++ more).toList = c :: more.toList := by simp
  rw [hlist]
  refine ⟨?_, ?_⟩
  · intro hinfix
    rcases List.infix_cons_iff.mp hinfix with ⟨last, heq⟩ | hinfix
    · obtain ⟨hbrace, hmoreBrace⟩ := List.cons.inj heq
      refine hc hbrace.symm ?_
      rw [← hmoreBrace]
      rfl
    · exact hpair hinfix
  · intro hbrace
    rw [List.getLast?_cons_of_ne_nil hmore] at hbrace
    exact hlast hbrace

theorem Apart.cons_char {c : Char} {nodes : List Node} (h : Apart behind nodes)
    (hc : c = '{' → nodes = [] ∧ behind.head? ≠ some '{') :
    Apart behind (.text (String.ofList [c]) :: nodes) := by
  refine h.cons ?_
  intro content hcontent
  obtain rfl : String.ofList [c] = content := Node.text.inj hcontent
  rw [String.toList_ofList]
  refine ⟨?_, ?_⟩
  · intro hinfix
    have hlength := hinfix.length_le
    simp at hlength
  · intro hbrace
    exact hc (by simpa using hbrace)

theorem apart_addText {c : Char} (hlegible : outline.Legible padded behind)
    (hc : c = '{' → (outline.spelling ++ behind).head? ≠ some '{')
    (h : Apart behind outline.toNodes) :
    Apart behind (Node.addText (String.ofList [c]) outline.toNodes) := by
  have hne : String.ofList [c] ≠ "" := by simp
  obtain ⟨more, after, hnodes, hadd⟩ | ⟨hhead, hadd⟩ := Node.addText_cases hne outline.toNodes
  · obtain ⟨hmore, hnext⟩ := head?_of_toNodes_text hlegible hnodes
    rw [hadd]
    rw [hnodes] at h
    exact h.extend_text hmore (fun hbrace => hnext ▸ hc hbrace)
  · rw [hadd]
    refine h.cons_char ?_
    intro hbrace
    obtain ⟨content, after, hnodes⟩ | hend := head?_of_toNodes hlegible (hc hbrace)
    · cases hhead (.text content) (by rw [hnodes]; rfl)
    · exact hend

theorem apart_toNodes (hplain : outline.Plain) (hlegible : outline.Legible padded behind) :
    Apart behind outline.toNodes := by
  induction outline with
  | nil =>
      intro content after hsuffix
      cases List.suffix_nil.mp hsuffix
  | text c rest ih => exact apart_addText hlegible.2 hlegible.1 (ih hplain hlegible.2)
  | verbatim => exact hplain.elim
  | placeholder path escaped spelling rest ih =>
      exact (ih hplain hlegible.2.2).cons (fun content hcontent => by cases hcontent)
  | block kind path opener body closer rest _ ih =>
      obtain ⟨-, -, -, -, hrest⟩ := hlegible
      exact (ih hplain.2 hrest).cons (fun content hcontent => by cases hcontent)
  | ifElse path opener thenBody elseTag elseBody closer rest _ _ ih =>
      obtain ⟨-, -, -, -, -, -, hrest⟩ := hlegible
      exact (ih hplain.2.2 hrest).cons (fun content hcontent => by cases hcontent)

end Text

theorem Strict.hasValidPath (h : outline.Strict padded room behind) {node : Node}
    (hmem : node ∈ outline.toNodes) : node.HasValidPath := by
  cases node with
  | text content => trivial
  | placeholder path escaped =>
      obtain ⟨first, last, rfl, hhead⟩ := exists_append_of_mem ((Node.mem_joinText rfl).mp hmem)
      have hlast := (legible_append.mp h.legible).2
      cases last with
      | placeholder =>
          cases hhead
          exact hlast.2.1
      | nil | text | verbatim | block | ifElse => cases hhead
  | block kind path body =>
      obtain ⟨first, opener, inner, closer, rest, rfl, -⟩ := exists_append_of_block_mem hmem
      exact h.block.1
  | ifElse path thenBody elseBody =>
      obtain ⟨first, opener, thenInner, elseTag, elseInner, closer, rest, rfl, -, -⟩ :=
        exists_append_of_ifElse_mem hmem
      exact h.ifElse.1

theorem wellFormed_toNodes (h : outline.Strict padded room []) :
    Node.WellFormed room outline.toNodes := by
  constructor
  case path_valid =>
    intro depth nodes hlist node hmem
    obtain ⟨inner, behind, rfl, hinner, -⟩ := h.exists_of_listIn hlist
    exact hinner.hasValidPath hmem
  case tidy => exact fun depth nodes hlist => tidy_of_listIn hlist h.within
  case no_pair =>
    intro depth nodes hlist content hmem
    obtain ⟨inner, behind, rfl, hinner, -⟩ := h.exists_of_listIn hlist
    obtain ⟨first, after, heq⟩ := List.append_of_mem hmem
    exact (apart_toNodes hinner.plain hinner.legible content after ⟨first, heq.symm⟩).1
  case no_last_brace =>
    intro depth nodes hlist content after hsuffix hbrace
    obtain ⟨inner, behind, rfl, hinner, hbehind⟩ := h.exists_of_listIn hlist
    obtain ⟨-, hlast⟩ := apart_toNodes hinner.plain hinner.legible content after hsuffix
    obtain ⟨hafter, hhead⟩ := hlast hbrace
    -- Inside a block a tag follows, and its brace would make a pair with this one.
    rcases hbehind with hdepth | ⟨rest, rfl⟩
    · exact ⟨hdepth, hafter⟩
    · exact absurd rfl hhead
  case no_else =>
    intro depth nodes hlist path body hmem
    obtain ⟨inner, behind, rfl, hinner, -⟩ := h.exists_of_listIn hlist
    obtain ⟨first, opener, body, closer, rest, rfl, rfl⟩ := exists_append_of_block_mem hmem
    exact noElse_iff.mp (hinner.block.2.1 rfl)
  case no_else_then =>
    intro depth nodes hlist path thenBody elseBody hmem
    obtain ⟨inner, behind, rfl, hinner, -⟩ := h.exists_of_listIn hlist
    obtain ⟨first, opener, thenInner, elseTag, elseInner, closer, rest, rfl, rfl, -⟩ :=
      exists_append_of_ifElse_mem hmem
    exact noElse_iff.mp hinner.ifElse.2.1
  case depth_lt =>
    intro depth nodes hlist node hmem hblock
    exact depth_lt_of_isBlock hlist h.within hmem hblock

end Outline

end Stencil

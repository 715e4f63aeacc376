import Stencil.Options
import Stencil.Proofs.Node.Spells
import Stencil.Proofs.Outline.Legible

namespace Stencil

-- How often two opening braces stand side by side, when none is counted twice.
def braces : List Char → Nat
  | '{' :: '{' :: rest => braces rest + 1
  | _ :: rest => braces rest
  | [] => 0

@[simp] theorem braces_pair (rest : List Char) : braces ('{' :: '{' :: rest) = braces rest + 1 := by
  rw [braces]

theorem braces_cons_of_ne {c : Char} {rest : List Char}
    (h : ¬(c = '{' ∧ rest.head? = some '{')) : braces (c :: rest) = braces rest := by
  rw [braces]
  rintro rest' rfl rfl
  exact h ⟨rfl, rfl⟩

-- One more character makes at most one more pair, and never one fewer.
theorem braces_cons (c : Char) (rest : List Char) :
    braces rest ≤ braces (c :: rest) ∧ braces (c :: rest) ≤ braces rest + 1 := by
  induction rest generalizing c with
  | nil => simp [braces_cons_of_ne]
  | cons next rest ih =>
      by_cases hpair : c = '{' ∧ next = '{'
      · obtain ⟨rfl, rfl⟩ := hpair
        rw [braces_pair]
        have := ih '{'
        omega
      · have heq : braces (c :: next :: rest) = braces (next :: rest) :=
          braces_cons_of_ne (by simpa using hpair)
        omega

theorem braces_le_append_left (first second : List Char) :
    braces second ≤ braces (first ++ second) := by
  induction first with
  | nil => exact Nat.le_refl _
  | cons c rest ih => exact ih.trans (braces_cons c (rest ++ second)).1

theorem braces_le_append_right (first second : List Char) :
    braces first ≤ braces (first ++ second) := by
  fun_induction braces first with
  | case1 rest ih =>
      rw [List.cons_append, List.cons_append, braces_pair]
      omega
  | case2 c rest _ ih => exact ih.trans (braces_cons c (rest ++ second)).1
  | case3 => exact Nat.zero_le _

namespace Outline

variable {padded : Bool} {behind : List Char} {outline : Outline}

-- Each block begins with a pair of braces in front of all that lies inside it.
theorem braces_block {tag : Tag} {opener : List Char} (h : Tag.Spelled padded tag opener)
    (first inner last : List Char) :
    braces inner < braces (opener ++ first ++ inner ++ last) := by
  obtain ⟨rest, rfl⟩ := Tag.exists_braced_of_spelled h
  have hright := braces_le_append_right inner last
  have hleft := braces_le_append_left (rest ++ first) (inner ++ last)
  simp only [List.cons_append, List.append_assoc, braces_pair] at hleft ⊢
  omega

theorem within_of_braces_le {room : Nat} (h : outline.Legible padded behind)
    (hroom : braces outline.spelling ≤ room) : outline.Within room := by
  induction outline generalizing room behind with
  | nil => trivial
  | text c rest ih => exact ih h.2 ((braces_le_append_left [c] rest.spelling).trans hroom)
  | verbatim spelling rest ih =>
      exact ih h.2 ((braces_le_append_left spelling rest.spelling).trans hroom)
  | placeholder path escaped spelling rest ih =>
      exact ih h.2.2 ((braces_le_append_left spelling rest.spelling).trans hroom)
  | block kind path opener body closer rest ihBody ihRest =>
      obtain ⟨hopener, -, hbody, -, hrest⟩ := h
      rw [spelling] at hroom
      have hinner := braces_block hopener [] body.spelling (closer ++ rest.spelling)
      have hlast := braces_le_append_left (opener ++ body.spelling ++ closer) rest.spelling
      simp only [List.append_nil, List.append_assoc] at hroom hinner hlast
      refine ⟨by omega, ihBody hbody (by omega), ihRest hrest (by omega)⟩
  | ifElse path opener thenBody elseTag elseBody closer rest ihThen ihElse ihRest =>
      obtain ⟨hopener, -, hthen, -, helse, -, hrest⟩ := h
      rw [spelling] at hroom
      have hfirst := braces_block hopener [] thenBody.spelling
        (elseTag ++ elseBody.spelling ++ closer ++ rest.spelling)
      have hsecond := braces_block hopener (thenBody.spelling ++ elseTag) elseBody.spelling
        (closer ++ rest.spelling)
      have hlast := braces_le_append_left
        (opener ++ thenBody.spelling ++ elseTag ++ elseBody.spelling ++ closer) rest.spelling
      simp only [List.append_nil, List.append_assoc] at hroom hfirst hsecond hlast
      refine ⟨by omega, ihThen hthen (by omega), ihElse helse (by omega), ihRest hrest (by omega)⟩

-- The tags of blocks that lie too deep are spelled by texts.
theorem spells_limit (h : outline.Legible padded behind) (room : Nat) :
    Node.Spells padded (outline.limit room).nodes outline.spelling := by
  have htext : ∀ {nodes : List Node} {last : List Char} (chars : List Char),
      Node.Spells padded nodes last →
        Node.Spells padded (.text (String.ofList chars) :: nodes) (chars ++ last) := by
    intro nodes last chars hlast
    simpa using hlast.text (String.ofList chars)
  induction outline generalizing room behind with
  | nil => exact .nil
  | text c rest ih => exact htext [c] (ih h.2 room)
  | verbatim spelling rest ih => exact htext spelling (ih h.2 room)
  | placeholder path escaped spelling rest ih => exact .placeholder h.1 (ih h.2.2 room)
  | block kind path opener body closer rest ihBody ihRest =>
      obtain ⟨hopener, -, hbody, hcloser, hrest⟩ := h
      cases room with
      | zero =>
          have hinner := htext opener ((ihBody hbody 0).append (htext closer (ihRest hrest 0)))
          simpa [limit, nodes, spelling] using hinner
      | succ room =>
          exact .block hopener (ihBody hbody room).joinText hcloser (ihRest hrest (room + 1))
  | ifElse path opener thenBody elseTag elseBody closer rest ihThen ihElse ihRest =>
      obtain ⟨hopener, -, hthen, helseTag, helse, hcloser, hrest⟩ := h
      cases room with
      | zero =>
          have hlast := htext elseTag ((ihElse helse 0).append (htext closer (ihRest hrest 0)))
          have hinner := htext opener ((ihThen hthen 0).append hlast)
          simpa [limit, nodes, spelling] using hinner
      | succ room =>
          exact .ifElse hopener (ihThen hthen room).joinText helseTag (ihElse helse room).joinText
            hcloser (ihRest hrest (room + 1))

-- The plain reading of a whole text.
def ofText (options : Options) (text : List Char) : Outline :=
  (read options.allowPadding none false text).body

variable (options : Options) (text : List Char)

-- No closing tag ends the text, and no `else` tag splits it.
theorem read_whole (padded : Bool) (text : List Char) :
    (read padded none false text).closer = none ∧ (read padded none false text).elsePart = none := by
  have hsound := sound_read padded none false text
  constructor
  · by_contra hne
    obtain ⟨⟨closer, used⟩, hcloser⟩ := Option.ne_none_iff_exists'.mp hne
    obtain ⟨-, -, kind, hkind, -⟩ := hsound.closed closer used hcloser
    cases hkind
  · exact hsound.elsePart_eq_none

@[simp] theorem spelling_ofText : (ofText options text).spelling = text := by
  obtain ⟨hcloser, helse⟩ := read_whole options.allowPadding text
  have hspelling := (sound_read options.allowPadding none false text).spelling_eq hcloser
  rw [Reading.spelling, helse, Reading.closing, hcloser] at hspelling
  simpa [ofText] using hspelling.symm

theorem legible_ofText : (ofText options text).Legible options.allowPadding [] := by
  obtain ⟨hcloser, helse⟩ := read_whole options.allowPadding text
  have hlegible := (sound_read options.allowPadding none false text).legible
  rwa [Reading.next, helse, Reading.closing, hcloser] at hlegible

theorem elseSplits_ofText : (ofText options text).ElseSplits :=
  (sound_read options.allowPadding none false text).elseSplits

theorem within_ofText {room : Nat} (hroom : braces text ≤ room) :
    (ofText options text).Within room :=
  within_of_braces_le (legible_ofText options text) (by rwa [spelling_ofText])

end Outline

end Stencil

import Stencil.Proofs.Strict.WellFormed

namespace Stencil

namespace Node

variable {root nodes nodes' list body : List Node} {depth base : Nat}

theorem ListIn.trans (hbody : ListIn root base body) (h : ListIn body depth list) :
    ListIn root (base + depth) list := by
  induction h with
  | root => exact hbody
  | body _ hblock ih => exact .body ih hblock
  | thenBody _ hblock ih => exact .thenBody ih hblock
  | elseBody _ hblock ih => exact .elseBody ih hblock

-- The lists inside the blocks of a list are there in every list that has these blocks.
theorem ListIn.of_blocks (hblocks : ∀ node ∈ nodes, node.isBlock = true → node ∈ nodes')
    (h : ListIn nodes (depth + 1) list) : ListIn nodes' (depth + 1) list := by
  have hall : ∀ {inner list}, ListIn nodes inner list →
      inner = 0 ∧ list = nodes ∨ ListIn nodes' inner list := by
    intro inner list hlist
    induction hlist with
    | root => exact .inl ⟨rfl, rfl⟩
    | body _ hblock ih =>
        obtain ⟨rfl, rfl⟩ | ih := ih
        · exact .inr (.body .root (hblocks _ hblock rfl))
        · exact .inr (.body ih hblock)
    | thenBody _ hblock ih =>
        obtain ⟨rfl, rfl⟩ | ih := ih
        · exact .inr (.thenBody .root (hblocks _ hblock rfl))
        · exact .inr (.thenBody ih hblock)
    | elseBody _ hblock ih =>
        obtain ⟨rfl, rfl⟩ | ih := ih
        · exact .inr (.elseBody .root (hblocks _ hblock rfl))
        · exact .inr (.elseBody ih hblock)
  exact (hall h).resolve_left (fun hzero => Nat.succ_ne_zero depth hzero.1)

theorem ListIn.of_addText (content : String) (h : ListIn nodes (depth + 1) list) :
    ListIn (addText content nodes) (depth + 1) list := by
  refine h.of_blocks ?_
  intro node hmem hblock
  cases node with
  | text | placeholder => cases hblock
  | block | ifElse => exact (mem_addText rfl).mpr hmem

theorem ListIn.of_cons (node : Node) (h : ListIn nodes (depth + 1) list) :
    ListIn (node :: nodes) (depth + 1) list :=
  h.of_blocks fun _ hmem _ => List.mem_cons_of_mem _ hmem

end Node

namespace Outline

variable {padded : Bool} {behind more : List Char} {outline first second : Outline} {room : Nat}

section Solid

-- Whatever stays literal has at least one character.
def Solid : Outline → Prop
  | nil => True
  | text _ rest => rest.Solid
  | verbatim spelling rest => spelling ≠ [] ∧ rest.Solid
  | placeholder _ _ _ rest => rest.Solid
  | block _ _ _ body _ rest => body.Solid ∧ rest.Solid
  | ifElse _ _ thenBody _ elseBody _ rest => thenBody.Solid ∧ elseBody.Solid ∧ rest.Solid

@[simp] theorem solid_append : (first ++ second).Solid ↔ first.Solid ∧ second.Solid := by
  induction first <;> simp_all [Solid, and_assoc]

theorem solid_literal (c : Char) (rest : List Char) : (literal c rest).Solid := by
  unfold literal
  split <;> simp [Solid]

theorem solid_toBlock {r : Reading} {kind : BlockKind} {path : Path} {opener closer : List Char}
    (hbody : r.body.Solid) (helse : ∀ part ∈ r.elsePart, part.2.Solid) :
    (r.toBlock kind path opener closer).Solid := by
  unfold Reading.toBlock
  split
  · next elseTag elseBody hpart => exact ⟨hbody, helse _ hpart, trivial⟩
  · exact ⟨hbody, trivial⟩

theorem solid_verbatim_of_scan? {text : List Char} {tag : Tag} {width : Nat}
    (h : Tag.scan? padded text = some (tag, width)) : (verbatim (text.take width) nil).Solid := by
  obtain ⟨rest, hspelling⟩ := Tag.exists_braced_of_spelled (Tag.spelled_of_scan? h).1
  simp [Solid, hspelling]

theorem solid_read (padded : Bool) (within : Option BlockKind) (splits : Bool) (text : List Char) :
    (read padded within splits text).body.Solid ∧
      ∀ part ∈ (read padded within splits text).elsePart, part.2.Solid := by
  fun_induction read padded within splits text with
  | case1 => exact ⟨trivial, by simp⟩
  | case2 within splits c rest _ ih =>
      exact ⟨solid_append.mpr ⟨solid_literal c rest, ih.1⟩, ih.2⟩
  | case3 _ _ _ _ _ _ _ _ _ _ _ ih => exact ih
  | case4 _ _ _ _ _ _ _ _ _ _ _ _ _ _ _ ihInner ihRest =>
      exact ⟨solid_append.mpr ⟨solid_toBlock ihInner.1 ihInner.2, ihRest.1⟩, ihRest.2⟩
  | case5 _ _ _ _ _ _ _ _ _ _ _ _ hscan _ ihRest =>
      exact ⟨solid_append.mpr ⟨solid_verbatim_of_scan? hscan, ihRest.1⟩, ihRest.2⟩
  | case6 _ _ _ _ _ _ _ _ ih =>
      refine ⟨trivial, ?_⟩
      intro part hpart
      cases hpart
      exact ih.1
  | case7 _ _ _ _ _ _ _ _ _ _ ih => exact ih
  | case8 => exact ⟨trivial, by simp⟩
  | case9 _ _ _ _ _ _ _ _ _ _ hscan ih =>
      exact ⟨solid_append.mpr ⟨solid_verbatim_of_scan? hscan, ih.1⟩, ih.2⟩

end Solid

section Limit

-- What follows an outline matters only up to its first character.
theorem Legible.extend (h : outline.Legible padded behind) (hbehind : behind ≠ []) (more : List Char) :
    outline.Legible padded (behind ++ more) := by
  induction outline with
  | nil => trivial
  | text c rest ih =>
      refine ⟨?_, ih h.2⟩
      have hne : rest.spelling ++ behind ≠ [] := by simp [hbehind]
      rw [← List.append_assoc, List.head?_append_of_ne_nil _ hne]
      exact h.1
  | verbatim spelling rest ih =>
      obtain ⟨⟨chars, hchars⟩, hrest⟩ := h
      refine ⟨⟨chars ++ more, ?_⟩, ih hrest⟩
      rw [← List.append_assoc, hchars]
      rfl
  | placeholder path escaped spelling rest ih => exact ⟨h.1, h.2.1, ih h.2.2⟩
  | block kind path opener body closer rest _ ih =>
      obtain ⟨hopener, hpath, hbody, hcloser, hrest⟩ := h
      exact ⟨hopener, hpath, hbody, hcloser, ih hrest⟩
  | ifElse path opener thenBody elseTag elseBody closer rest _ _ ih =>
      obtain ⟨hopener, hpath, hthen, helseTag, helse, hcloser, hrest⟩ := h
      exact ⟨hopener, hpath, hthen, helseTag, helse, hcloser, ih hrest⟩

theorem spelling_limit (room : Nat) (outline : Outline) :
    (outline.limit room).spelling = outline.spelling := by
  induction outline generalizing room <;> cases room <;> simp_all [limit, spelling]

theorem spelling_ne_nil {tag : Tag} {spelling : List Char} (h : Tag.Spelled padded tag spelling) :
    spelling ≠ [] := by
  obtain ⟨rest, rfl⟩ := Tag.exists_braced_of_spelled h
  exact List.cons_ne_nil _ _

-- A tag put back as text, between what stands in front of it and what follows.
theorem legible_verbatim {tag : Tag} {spelling : List Char} (hfirst : first.Legible padded spelling)
    (htag : Tag.Spelled padded tag spelling) (hsecond : second.Legible padded behind) :
    (first ++ verbatim spelling second).Legible padded behind := by
  refine legible_append.mpr ⟨?_, ?_, hsecond⟩
  · rw [Outline.spelling, List.append_assoc]
    exact hfirst.extend (spelling_ne_nil htag) _
  · rw [List.append_assoc]
    exact startsTag_of_spelled htag _

theorem legible_limit (h : outline.Legible padded behind) (room : Nat) :
    (outline.limit room).Legible padded behind := by
  induction outline generalizing room behind with
  | nil => trivial
  | text c rest ih =>
      refine ⟨?_, ih h.2 room⟩
      rw [spelling_limit]
      exact h.1
  | verbatim spelling rest ih =>
      refine ⟨?_, ih h.2 room⟩
      rw [spelling_limit]
      exact h.1
  | placeholder path escaped spelling rest ih => exact ⟨h.1, h.2.1, ih h.2.2 room⟩
  | block kind path opener body closer rest ihBody ihRest =>
      obtain ⟨hopener, hpath, hbody, hcloser, hrest⟩ := h
      cases room with
      | zero =>
          have hinner := legible_verbatim (ihBody hbody 0) hcloser (ihRest hrest 0)
          have hnil : nil.Legible padded opener := trivial
          exact legible_verbatim hnil hopener hinner
      | succ room => exact ⟨hopener, hpath, ihBody hbody room, hcloser, ihRest hrest (room + 1)⟩
  | ifElse path opener thenBody elseTag elseBody closer rest ihThen ihElse ihRest =>
      obtain ⟨hopener, hpath, hthen, helseTag, helse, hcloser, hrest⟩ := h
      cases room with
      | zero =>
          have hlast := legible_verbatim (ihElse helse 0) hcloser (ihRest hrest 0)
          have hinner := legible_verbatim (ihThen hthen 0) helseTag hlast
          have hnil : nil.Legible padded opener := trivial
          exact legible_verbatim hnil hopener hinner
      | succ room =>
          exact ⟨hopener, hpath, ihThen hthen room, helseTag, ihElse helse room, hcloser,
            ihRest hrest (room + 1)⟩

theorem solid_limit (hsolid : outline.Solid) (h : outline.Legible padded behind) (room : Nat) :
    (outline.limit room).Solid := by
  induction outline generalizing room behind with
  | nil => trivial
  | text c rest ih => exact ih hsolid h.2 room
  | verbatim spelling rest ih => exact ⟨hsolid.1, ih hsolid.2 h.2 room⟩
  | placeholder path escaped spelling rest ih => exact ih hsolid h.2.2 room
  | block kind path opener body closer rest ihBody ihRest =>
      obtain ⟨hopener, -, hbody, hcloser, hrest⟩ := h
      have hlast := fun room => ihRest hsolid.2 hrest room
      cases room with
      | zero =>
          refine ⟨spelling_ne_nil hopener, solid_append.mpr ⟨ihBody hsolid.1 hbody 0, ?_⟩⟩
          exact ⟨spelling_ne_nil hcloser, hlast 0⟩
      | succ room => exact ⟨ihBody hsolid.1 hbody room, hlast (room + 1)⟩
  | ifElse path opener thenBody elseTag elseBody closer rest ihThen ihElse ihRest =>
      obtain ⟨hopener, -, hthen, helseTag, helse, hcloser, hrest⟩ := h
      obtain ⟨hthenSolid, helseSolid, hrestSolid⟩ := hsolid
      have hlast := fun room => ihRest hrestSolid hrest room
      cases room with
      | zero =>
          refine ⟨spelling_ne_nil hopener, solid_append.mpr ⟨ihThen hthenSolid hthen 0, ?_⟩⟩
          refine ⟨spelling_ne_nil helseTag, solid_append.mpr ⟨ihElse helseSolid helse 0, ?_⟩⟩
          exact ⟨spelling_ne_nil hcloser, hlast 0⟩
      | succ room =>
          exact ⟨ihThen hthenSolid hthen room, ihElse helseSolid helse room, hlast (room + 1)⟩

-- A block that lies too deep leaves its tags as text, so what a limit keeps plain fits.
theorem plain_limit_iff : (outline.limit room).Plain ↔ outline.Fits room := by
  constructor
  · intro h
    induction outline generalizing room with
    | nil => exact fits_nil room
    | text c rest ih => exact ih h
    | verbatim => exact h.elim
    | placeholder path escaped spelling rest ih => exact ih h
    | block kind path opener body closer rest ihBody ihRest =>
        cases room with
        | zero => exact h.elim
        | succ room =>
            obtain ⟨hbody, hbodyWithin⟩ := ihBody h.1
            obtain ⟨hrest, hrestWithin⟩ := ihRest h.2
            exact ⟨⟨hbody, hrest⟩, room.succ_pos, hbodyWithin, hrestWithin⟩
    | ifElse path opener thenBody elseTag elseBody closer rest ihThen ihElse ihRest =>
        cases room with
        | zero => exact h.elim
        | succ room =>
            obtain ⟨hthen, hthenWithin⟩ := ihThen h.1
            obtain ⟨helse, helseWithin⟩ := ihElse h.2.1
            obtain ⟨hrest, hrestWithin⟩ := ihRest h.2.2
            exact ⟨⟨hthen, helse, hrest⟩, room.succ_pos, hthenWithin, helseWithin, hrestWithin⟩
  · rintro ⟨hplain, hwithin⟩
    rwa [limit_of_within hwithin]

end Limit

section Apart

variable {nodes : List Node} {content : String}

theorem Apart.congr (h : Apart behind nodes) (hhead : more.head? = behind.head?) : Apart more nodes := by
  intro content after hsuffix
  rw [hhead]
  exact h content after hsuffix

-- Text put in front of a list ends as the list does, so the list is no worse without it.
theorem Apart.of_addText (h : Apart behind (Node.addText content nodes)) : Apart behind nodes := by
  by_cases hempty : content = ""
  · rwa [hempty, Node.addText_empty] at h
  obtain ⟨more, after, rfl, hadd⟩ | ⟨-, hadd⟩ := Node.addText_cases hempty nodes
  · rw [hadd] at h
    obtain ⟨hpair, hlast⟩ := h _ after (List.suffix_refl _)
    rw [String.toList_append] at hpair hlast
    refine h.of_cons.cons ?_
    rintro _ ⟨⟩
    refine ⟨fun hinside => hpair (hinside.trans (List.suffix_append _ _).isInfix), ?_⟩
    intro hbrace
    exact hlast (by simp [List.getLast?_append, hbrace])
  · rw [hadd] at h
    exact h.of_cons

theorem not_apart_pair {chars : List Char} (hcontent : content.toList = '{' :: '{' :: chars) :
    ¬Apart behind (.text content :: nodes) := by
  intro h
  refine (h content nodes (List.suffix_refl _)).1 ⟨[], chars, ?_⟩
  rw [hcontent]
  rfl

-- The next character stands in the same text, or it follows it as the first of a tag or of `behind`.
theorem not_apart_brace {rest : Outline} (hlegible : rest.Legible padded behind)
    (hhead : (rest.spelling ++ behind).head? = some '{') :
    ¬Apart behind (Node.addText (String.ofList ['{']) rest.toNodes) := by
  intro h
  have hne : String.ofList ['{'] ≠ "" := by simp
  obtain ⟨more, after, hnodes, hadd⟩ | ⟨-, hadd⟩ := Node.addText_cases hne rest.toNodes
  · rw [(head?_of_toNodes_text hlegible hnodes).2] at hhead
    obtain ⟨chars, hchars⟩ := List.head?_eq_some_iff.mp hhead
    have hcontent : (String.ofList ['{'] ++ more).toList = '{' :: '{' :: chars := by simp [hchars]
    exact not_apart_pair hcontent (hadd ▸ h)
  · rw [hadd] at h
    obtain ⟨hend, hbehind⟩ := (h _ _ (List.suffix_refl _)).2 (by simp)
    have hspells := spells_toNodes hlegible
    rw [hend] at hspells
    generalize rest.spelling = spelling at hspells hhead
    cases hspells
    exact hbehind hhead

theorem not_apart_verbatim {spelling : List Char} {rest : Outline} (hne : spelling ≠ [])
    (hlegible : (verbatim spelling rest).Legible padded behind) :
    ¬Apart behind (verbatim spelling rest).toNodes := by
  obtain ⟨⟨chars, hchars⟩, hrest⟩ := hlegible
  change ¬Apart behind (Node.addText (String.ofList spelling) rest.toNodes)
  cases spelling with
  | nil => exact absurd rfl hne
  | cons first spelling =>
      obtain ⟨rfl, hnext⟩ := List.cons.inj hchars
      cases spelling with
      | nil => exact not_apart_brace hrest (congrArg List.head? hnext)
      | cons second spelling =>
          obtain ⟨rfl, -⟩ := List.cons.inj hnext
          have hcontent : (String.ofList ('{' :: '{' :: spelling)).toList = '{' :: '{' :: spelling := by
            simp
          have hempty : String.ofList ('{' :: '{' :: spelling) ≠ "" := by simp
          obtain ⟨more, after, -, hadd⟩ | ⟨-, hadd⟩ := Node.addText_cases hempty rest.toNodes
          · rw [hadd]
            exact not_apart_pair (by rw [String.toList_append, hcontent]; rfl)
          · rw [hadd]
            exact not_apart_pair hcontent

-- A list in front of a tag, among those inside blocks.
theorem Apart.inside {tag : Tag} {spelling : List Char} (h : Apart ['{'] nodes)
    (htag : Tag.Spelled padded tag spelling) : Apart spelling nodes := by
  obtain ⟨rest, rfl⟩ := Tag.exists_braced_of_spelled htag
  exact h.congr rfl

theorem plain_of_apart (hsolid : outline.Solid) (hlegible : outline.Legible padded behind)
    (htop : Apart behind outline.toNodes)
    (hinner : ∀ depth list, Node.ListIn outline.toNodes (depth + 1) list → Apart ['{'] list) :
    outline.Plain := by
  induction outline generalizing behind with
  | nil => trivial
  | text c rest ih =>
      exact ih hsolid hlegible.2 htop.of_addText
        (fun depth list hlist => hinner depth list (hlist.of_addText _))
  | verbatim spelling rest ih => exact not_apart_verbatim hsolid.1 hlegible htop
  | placeholder path escaped spelling rest ih =>
      exact ih hsolid hlegible.2.2 htop.of_cons
        (fun depth list hlist => hinner depth list (hlist.of_cons _))
  | block kind path opener body closer rest ihBody ihRest =>
      obtain ⟨-, -, hbody, hcloser, hrest⟩ := hlegible
      have hlist : Node.ListIn (block kind path opener body closer rest).toNodes 1 body.toNodes :=
        .body .root List.mem_cons_self
      refine ⟨ihBody hsolid.1 hbody ((hinner 0 _ hlist).inside hcloser) ?_, ?_⟩
      · exact fun depth list h => hinner (1 + depth) list (hlist.trans h)
      · exact ihRest hsolid.2 hrest htop.of_cons
          (fun depth list h => hinner depth list (h.of_cons _))
  | ifElse path opener thenBody elseTag elseBody closer rest ihThen ihElse ihRest =>
      obtain ⟨-, -, hthen, helseTag, helse, hcloser, hrest⟩ := hlegible
      obtain ⟨hthenSolid, helseSolid, hrestSolid⟩ := hsolid
      have hthenList : Node.ListIn (ifElse path opener thenBody elseTag elseBody closer rest).toNodes 1
          thenBody.toNodes := .thenBody .root List.mem_cons_self
      have helseList : Node.ListIn (ifElse path opener thenBody elseTag elseBody closer rest).toNodes 1
          elseBody.toNodes := .elseBody .root List.mem_cons_self
      refine ⟨ihThen hthenSolid hthen ((hinner 0 _ hthenList).inside helseTag) ?_,
        ihElse helseSolid helse ((hinner 0 _ helseList).inside hcloser) ?_, ?_⟩
      · exact fun depth list h => hinner (1 + depth) list (hthenList.trans h)
      · exact fun depth list h => hinner (1 + depth) list (helseList.trans h)
      · exact ihRest hrestSolid hrest htop.of_cons
          (fun depth list h => hinner depth list (h.of_cons _))

end Apart

end Outline

end Stencil

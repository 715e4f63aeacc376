import Stencil.Proofs.Node.Tidy
import Stencil.Proofs.Tag.Spelling

namespace Stencil

-- A body as it was read. Every constructor goes on with what stands behind it.
inductive Outline where
  | nil
  | text (c : Char) (rest : Outline)
  -- Characters of a tag, or the first of two braces, that stay literal text.
  | verbatim (spelling : List Char) (rest : Outline)
  | placeholder (path : Path) (escaped : Bool) (spelling : List Char) (rest : Outline)
  | block (kind : BlockKind) (path : Path) (opener : List Char) (body : Outline)
      (closer : List Char) (rest : Outline)
  | ifElse (path : Path) (opener : List Char) (thenBody : Outline) (elseTag : List Char)
      (elseBody : Outline) (closer : List Char) (rest : Outline)

namespace Outline

def append : Outline → Outline → Outline
  | nil, last => last
  | text c rest, last => text c (rest.append last)
  | verbatim spelling rest, last => verbatim spelling (rest.append last)
  | placeholder path escaped spelling rest, last =>
    placeholder path escaped spelling (rest.append last)
  | block kind path opener body closer rest, last =>
    block kind path opener body closer (rest.append last)
  | ifElse path opener thenBody elseTag elseBody closer rest, last =>
    ifElse path opener thenBody elseTag elseBody closer (rest.append last)

instance : Append Outline := ⟨append⟩

-- The characters of the outline, from the first to the last.
def spelling : Outline → List Char
  | nil => []
  | text c rest => c :: rest.spelling
  | verbatim spelling rest => spelling ++ rest.spelling
  | placeholder _ _ spelling rest => spelling ++ rest.spelling
  | block _ _ opener body closer rest => opener ++ body.spelling ++ closer ++ rest.spelling
  | ifElse _ opener thenBody elseTag elseBody closer rest =>
    opener ++ thenBody.spelling ++ elseTag ++ elseBody.spelling ++ closer ++ rest.spelling

-- The nodes one by one, each character a text of its own; inside blocks they are joined.
def nodes : Outline → List Node
  | nil => []
  | text c rest => .text (String.ofList [c]) :: rest.nodes
  | verbatim spelling rest => .text (String.ofList spelling) :: rest.nodes
  | placeholder path escaped _ rest => .placeholder path escaped :: rest.nodes
  | block kind path _ body _ rest => .block kind path (Node.joinText body.nodes) :: rest.nodes
  | ifElse path _ thenBody _ elseBody _ rest =>
    .ifElse path (Node.joinText thenBody.nodes) (Node.joinText elseBody.nodes) :: rest.nodes

def toNodes (outline : Outline) : List Node :=
  Node.joinText outline.nodes

-- Turns the tags of every block inside `room` or more others into text.
def limit (room : Nat) : Outline → Outline
  | nil => nil
  | text c rest => text c (rest.limit room)
  | verbatim spelling rest => verbatim spelling (rest.limit room)
  | placeholder path escaped spelling rest => placeholder path escaped spelling (rest.limit room)
  | block kind path opener body closer rest =>
    match room with
    | 0 => verbatim opener (body.limit 0 ++ verbatim closer (rest.limit 0))
    | room + 1 => block kind path opener (body.limit room) closer (rest.limit (room + 1))
  | ifElse path opener thenBody elseTag elseBody closer rest =>
    match room with
    | 0 =>
      verbatim opener (thenBody.limit 0 ++ verbatim elseTag
        (elseBody.limit 0 ++ verbatim closer (rest.limit 0)))
    | room + 1 =>
      ifElse path opener (thenBody.limit room) elseTag (elseBody.limit room) closer
        (rest.limit (room + 1))

-- No block lies inside `room` or more others.
def Within (room : Nat) : Outline → Prop
  | nil => True
  | text _ rest => rest.Within room
  | verbatim _ rest => rest.Within room
  | placeholder _ _ _ rest => rest.Within room
  | block _ _ _ body _ rest => 0 < room ∧ body.Within (room - 1) ∧ rest.Within room
  | ifElse _ _ thenBody _ elseBody _ rest =>
    0 < room ∧ thenBody.Within (room - 1) ∧ elseBody.Within (room - 1) ∧ rest.Within room

-- Every brace pair was read as a tag, and every tag as more than text.
def Plain : Outline → Prop
  | nil => True
  | text _ rest => rest.Plain
  | verbatim _ _ => False
  | placeholder _ _ _ rest => rest.Plain
  | block _ _ _ body _ rest => body.Plain ∧ rest.Plain
  | ifElse _ _ thenBody _ elseBody _ rest => thenBody.Plain ∧ elseBody.Plain ∧ rest.Plain

@[simp] theorem nil_append (outline : Outline) : nil ++ outline = outline := rfl

@[simp] theorem text_append (c : Char) (rest last : Outline) :
    text c rest ++ last = text c (rest ++ last) := rfl

@[simp] theorem verbatim_append (spelling : List Char) (rest last : Outline) :
    verbatim spelling rest ++ last = verbatim spelling (rest ++ last) := rfl

@[simp] theorem placeholder_append (path : Path) (escaped : Bool) (spelling : List Char)
    (rest last : Outline) :
    placeholder path escaped spelling rest ++ last =
      placeholder path escaped spelling (rest ++ last) := rfl

@[simp] theorem block_append (kind : BlockKind) (path : Path) (opener closer : List Char)
    (body rest last : Outline) :
    block kind path opener body closer rest ++ last =
      block kind path opener body closer (rest ++ last) := rfl

@[simp] theorem ifElse_append (path : Path) (opener elseTag closer : List Char)
    (thenBody elseBody rest last : Outline) :
    ifElse path opener thenBody elseTag elseBody closer rest ++ last =
      ifElse path opener thenBody elseTag elseBody closer (rest ++ last) := rfl

@[simp] theorem append_nil (outline : Outline) : outline ++ nil = outline := by
  induction outline <;> simp_all

theorem append_assoc (first second third : Outline) :
    first ++ second ++ third = first ++ (second ++ third) := by
  induction first <;> simp_all

@[simp] theorem spelling_append (first second : Outline) :
    (first ++ second).spelling = first.spelling ++ second.spelling := by
  induction first <;> simp_all [spelling]

@[simp] theorem nodes_append (first second : Outline) :
    (first ++ second).nodes = first.nodes ++ second.nodes := by
  induction first <;> simp_all [nodes]

@[simp] theorem limit_append (room : Nat) (first second : Outline) :
    (first ++ second).limit room = first.limit room ++ second.limit room := by
  induction first <;> cases room <;> simp_all [limit, append_assoc]

@[simp] theorem within_append {room : Nat} {first second : Outline} :
    (first ++ second).Within room ↔ first.Within room ∧ second.Within room := by
  induction first <;> simp_all [Within, and_assoc]

@[simp] theorem plain_append {first second : Outline} :
    (first ++ second).Plain ↔ first.Plain ∧ second.Plain := by
  induction first <;> simp_all [Plain, and_assoc]

theorem limit_of_within {room : Nat} {outline : Outline} (h : outline.Within room) :
    outline.limit room = outline := by
  induction outline generalizing room with
  | nil => rfl
  | text c rest ih => rw [limit, ih h]
  | verbatim spelling rest ih => rw [limit, ih h]
  | placeholder path escaped spelling rest ih => rw [limit, ih h]
  | block kind path opener body closer rest ihBody ihRest =>
      obtain ⟨hroom, hbody, hrest⟩ := h
      cases room with
      | zero => exact absurd hroom (Nat.lt_irrefl 0)
      | succ room =>
          have hbody : body.Within room := hbody
          rw [limit, ihBody hbody, ihRest hrest]
  | ifElse path opener thenBody elseTag elseBody closer rest ihThen ihElse ihRest =>
      obtain ⟨hroom, hthen, helse, hrest⟩ := h
      cases room with
      | zero => exact absurd hroom (Nat.lt_irrefl 0)
      | succ room =>
          have hthen : thenBody.Within room := hthen
          have helse : elseBody.Within room := helse
          rw [limit, ihThen hthen, ihElse helse, ihRest hrest]

theorem within_limit (room : Nat) (outline : Outline) : (outline.limit room).Within room := by
  induction outline generalizing room with
  | nil => trivial
  | text c rest ih => exact ih room
  | verbatim spelling rest ih => exact ih room
  | placeholder path escaped spelling rest ih => exact ih room
  | block kind path opener body closer rest ihBody ihRest =>
      cases room with
      | zero => exact within_append.mpr ⟨ihBody 0, ihRest 0⟩
      | succ room => exact ⟨room.succ_pos, ihBody room, ihRest (room + 1)⟩
  | ifElse path opener thenBody elseTag elseBody closer rest ihThen ihElse ihRest =>
      cases room with
      | zero =>
          refine within_append.mpr ⟨ihThen 0, ?_⟩
          exact within_append.mpr ⟨ihElse 0, ihRest 0⟩
      | succ room => exact ⟨room.succ_pos, ihThen room, ihElse room, ihRest (room + 1)⟩

-- Nothing was left as text that is no plain character, and no block lies too deep.
def Fits (room : Nat) (outline : Outline) : Prop :=
  outline.Plain ∧ outline.Within room

@[simp] theorem fits_nil (room : Nat) : nil.Fits room :=
  ⟨trivial, trivial⟩

theorem fits_append {room : Nat} {first second : Outline} :
    (first ++ second).Fits room ↔ first.Fits room ∧ second.Fits room := by
  simp only [Fits, plain_append, within_append]
  exact and_and_and_comm

theorem not_fits_verbatim (room : Nat) (spelling : List Char) (rest : Outline) :
    ¬(verbatim spelling rest).Fits room :=
  fun h => h.1

end Outline

end Stencil

import Stencil.Path

namespace Stencil

-- Blocks that stay when their path is true, when it is not, and once for each element.
inductive BlockKind where
  | ifTrue
  | ifFalse
  | each
deriving DecidableEq, Repr

namespace BlockKind

def keyword : BlockKind → String
  | .ifTrue => "if"
  | .ifFalse => "unless"
  | .each => "each"

def ofKeyword? (word : List Char) : Option BlockKind :=
  if word = "if".toList then some .ifTrue
  else if word = "unless".toList then some .ifFalse
  else if word = "each".toList then some .each
  else none

end BlockKind

inductive Tag where
  -- A value to write, as it is or with HTML escaping.
  | placeholder (path : Path) (escaped : Bool)
  | opener (kind : BlockKind) (path : Path)
  | otherwise
  | closer (kind : BlockKind)
deriving DecidableEq, Repr

namespace Tag

-- ASCII whitespace: space, tab, line feed, form feed and carriage return.
def isBlank (c : Char) : Bool :=
  c = ' ' || c = '\t' || c = '\n' || c = '\x0c' || c = '\r'

def trimStart (text : List Char) : List Char :=
  text.dropWhile isBlank

def trimEnd (text : List Char) : List Char :=
  (text.reverse.dropWhile isBlank).reverse

def trim (text : List Char) : List Char :=
  trimEnd (trimStart text)

def unpad (padded : Bool) (text : List Char) : List Char :=
  if padded then trim text else text

def isBrace (c : Char) : Bool :=
  c = '{' || c = '}'

def path? (text : List Char) : Option Path :=
  let path : Path := ⟨String.ofList text⟩
  if path.isValid then some path else none

-- A keyword, one space and a path. With padding any blank ends the keyword, and more may follow.
def opener? (padded : Bool) (directive : List Char) : Option Tag :=
  let inKeyword c := if padded then !isBlank c else c ≠ ' '
  match directive.dropWhile inKeyword with
  | [] => none
  | _ :: path => do
    let kind ← BlockKind.ofKeyword? (directive.takeWhile inKeyword)
    return .opener kind (← path? (unpad padded path))

def ofContent? (padded : Bool) (content : List Char) : Option Tag :=
  match unpad padded content with
  | '/' :: word => (BlockKind.ofKeyword? (if padded then trimStart word else word)).map .closer
  | '#' :: directive => opener? padded directive
  | text => if text = "else".toList then some .otherwise else (path? text).map (.placeholder · true)

def ofRawContent? (padded : Bool) (content : List Char) : Option Tag :=
  (path? (unpad padded content)).map (.placeholder · false)

-- The tag at the start of a text, with its length. Behind three opening braces only the unescaped form
-- counts: the text is then never read as two braces with something inside.
def scan? (padded : Bool) : List Char → Option (Tag × Nat)
  | '{' :: '{' :: '{' :: inner =>
    let content := inner.takeWhile (!isBrace ·)
    match inner.drop content.length with
    | '}' :: '}' :: '}' :: _ => (ofRawContent? padded content).map (·, content.length + 6)
    | _ => none
  | '{' :: '{' :: inner =>
    let content := inner.takeWhile (!isBrace ·)
    match inner.drop content.length with
    | '}' :: '}' :: _ => (ofContent? padded content).map (·, content.length + 4)
    | _ => none
  | _ => none

theorem scan?_length {padded : Bool} {text : List Char} {tag : Tag} {length : Nat}
    (h : scan? padded text = some (tag, length)) : 4 ≤ length ∧ length ≤ text.length := by
  unfold scan? at h
  split at h
  · next inner =>
    simp only at h
    split at h
    · next rest hrest =>
      simp only [Option.map_eq_some_iff, Prod.mk.injEq] at h
      obtain ⟨_, _, _, rfl⟩ := h
      have := congrArg List.length hrest
      simp only [List.length_drop, List.length_cons] at this ⊢
      omega
    · cases h
  · next inner _ =>
    simp only at h
    split at h
    · next rest hrest =>
      simp only [Option.map_eq_some_iff, Prod.mk.injEq] at h
      obtain ⟨_, _, _, rfl⟩ := h
      have := congrArg List.length hrest
      simp only [List.length_drop, List.length_cons] at this ⊢
      omega
    · cases h
  · cases h

end Tag

end Stencil

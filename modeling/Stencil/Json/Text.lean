import Stencil.Json.Number

namespace Stencil

inductive JsonToken where
  | openArray
  | closeArray
  | openObject
  | closeObject
  | colon
  | comma
  -- A text; none if it has half of a surrogate pair in it.
  | quoted (content : Option String)
  | atom (value : Json)

namespace JsonToken

def isSpace (c : Char) : Bool :=
  c = ' ' || c = '\t' || c = '\n' || c = '\r'

def punctuation? : Char → Option JsonToken
  | '[' => some .openArray
  | ']' => some .closeArray
  | '{' => some .openObject
  | '}' => some .closeObject
  | ':' => some .colon
  | ',' => some .comma
  | _ => none

def hexDigit? (c : Char) : Option Nat :=
  if '0' ≤ c ∧ c ≤ '9' then some (c.toNat - '0'.toNat)
  else if 'a' ≤ c ∧ c ≤ 'f' then some (c.toNat - 'a'.toNat + 10)
  else if 'A' ≤ c ∧ c ≤ 'F' then some (c.toNat - 'A'.toNat + 10)
  else none

def hexUnit? (digits : List Char) : Option Nat :=
  (digits.mapM hexDigit?).map (·.foldl (fun value d => value * 16 + d) 0)

-- The character behind a backslash, the form with a number apart.
def escaped? : Char → Option Nat
  | '\x22' => some 0x22
  | '\\' => some 0x5C
  | '/' => some 0x2F
  | 'b' => some 0x08
  | 'f' => some 0x0C
  | 'n' => some 0x0A
  | 'r' => some 0x0D
  | 't' => some 0x09
  | _ => none

-- The code points of a text from behind its opening quote, and what follows the closing one. Halves of
-- surrogate pairs come out as they are written.
def scanUnits? : List Char → Option (List Nat × List Char)
  | [] => none
  | '\x22' :: rest => some ([], rest)
  | '\\' :: 'u' :: a :: b :: c :: d :: rest => do
    let unit ← hexUnit? [a, b, c, d]
    let (units, behind) ← scanUnits? rest
    return (unit :: units, behind)
  | '\\' :: c :: rest => do
    let unit ← escaped? c
    let (units, behind) ← scanUnits? rest
    return (unit :: units, behind)
  | c :: rest =>
    if c.toNat < 0x20 then none
    else do
      let (units, behind) ← scanUnits? rest
      return (c.toNat :: units, behind)

def isHigh (unit : Nat) : Bool :=
  0xD800 ≤ unit && unit < 0xDC00

def isLow (unit : Nat) : Bool :=
  0xDC00 ≤ unit && unit < 0xE000

def joinUnits? : List Nat → Option (List Char)
  | [] => some []
  | unit :: rest =>
    if isHigh unit then
      match rest with
      | low :: behind =>
        if isLow low then
          (joinUnits? behind).map (Char.ofNat (0x10000 + (unit - 0xD800) * 0x400 + (low - 0xDC00)) :: ·)
        else none
      | [] => none
    else if isLow unit then none
    else (joinUnits? rest).map (Char.ofNat unit :: ·)

-- The token of more than one character at the start of a text.
def scan? : List Char → Option (JsonToken × List Char)
  | '\x22' :: rest => do
    let (units, behind) ← scanUnits? rest
    return (.quoted ((joinUnits? units).map String.ofList), behind)
  | 'n' :: 'u' :: 'l' :: 'l' :: rest => some (.atom .null, rest)
  | 't' :: 'r' :: 'u' :: 'e' :: rest => some (.atom (.bool true), rest)
  | 'f' :: 'a' :: 'l' :: 's' :: 'e' :: rest => some (.atom (.bool false), rest)
  | text => do
    let (number, behind) ← JsonNumber.scan? text
    return (.atom number.toJson, behind)

theorem scanUnits?_length {text behind : List Char} {units : List Nat}
    (h : scanUnits? text = some (units, behind)) : behind.length < text.length := by
  fun_induction scanUnits? text generalizing units behind with
  | case1 => cases h
  | case2 rest => cases h; simp
  | case3 a b c d rest ih =>
    simp only [Option.bind_eq_bind, Option.bind_eq_some_iff] at h
    obtain ⟨_, _, ⟨_, _⟩, hrest, hpair⟩ := h
    cases hpair
    have := ih hrest
    simp only [List.length_cons]; omega
  | case4 c rest _ ih =>
    simp only [Option.bind_eq_bind, Option.bind_eq_some_iff] at h
    obtain ⟨_, _, ⟨_, _⟩, hrest, hpair⟩ := h
    cases hpair
    have := ih hrest
    simp only [List.length_cons]; omega
  | case5 => cases h
  | case6 c rest _ _ _ _ ih =>
    simp only [Option.bind_eq_bind, Option.bind_eq_some_iff] at h
    obtain ⟨⟨_, _⟩, hrest, hpair⟩ := h
    cases hpair
    have := ih hrest
    simp only [List.length_cons]; omega

theorem scan?_length {text behind : List Char} {token : JsonToken}
    (h : scan? text = some (token, behind)) : behind.length < text.length := by
  unfold scan? at h
  split at h
  · simp only [Option.bind_eq_bind, Option.bind_eq_some_iff] at h
    obtain ⟨⟨_, _⟩, hrest, hpair⟩ := h
    cases hpair
    have := scanUnits?_length hrest
    simp only [List.length_cons]; omega
  · cases h; simp only [List.length_cons]; omega
  · cases h; simp only [List.length_cons]; omega
  · cases h; simp only [List.length_cons]; omega
  · simp only [Option.bind_eq_bind, Option.bind_eq_some_iff] at h
    obtain ⟨⟨_, _⟩, hrest, hpair⟩ := h
    cases hpair
    exact JsonNumber.scan?_length hrest

-- The tokens of a text, with the space between them left out.
def ofText? (text : List Char) : Option (List JsonToken) :=
  match text with
  | [] => some []
  | c :: rest =>
    if isSpace c then ofText? rest
    else match punctuation? c with
      | some token => (ofText? rest).map (token :: ·)
      | none =>
        match _scanned : scan? (c :: rest) with
        | some (token, behind) => (ofText? behind).map (token :: ·)
        | none => none
termination_by text.length
decreasing_by
  · simp
  · simp
  · exact scan?_length _scanned

end JsonToken

-- An array or an object that is still open, with its latest part first.
inductive JsonFrame where
  | items (done : List Json)
  | members (done : List (Option String × Json))
  -- An object in which the value of this name comes next.
  | member (name : Option String) (done : List (Option String × Json))

inductive JsonPlace where
  | value
  | firstItem
  | firstName
  | name
  | colon (name : Option String)
  -- Behind a value inside an array or an object.
  | behindValue
  | finished (document : Json)

structure JsonReading where
  frames : List JsonFrame := []
  place : JsonPlace := .value

namespace JsonReading

def finish (value : Json) : List JsonFrame → Option JsonReading
  | [] => some { place := .finished value }
  | .items done :: outer => some { frames := .items (value :: done) :: outer, place := .behindValue }
  | .member name done :: outer =>
    some { frames := .members ((name, value) :: done) :: outer, place := .behindValue }
  | .members _ :: _ => none

-- An object is of use only if all its names are.
def toObject (done : List (Option String × Json)) : Json :=
  match done.reverse.mapM fun (name, value) => name.map (·, value) with
  | some members => .object members
  | none => .unusable

-- A token where a value may begin.
def begin? (frames : List JsonFrame) : JsonToken → Option JsonReading
  | .openArray => some { frames := .items [] :: frames, place := .firstItem }
  | .openObject => some { frames := .members [] :: frames, place := .firstName }
  | .quoted (some content) => finish (.string content) frames
  | .quoted none => finish .unusable frames
  | .atom value => finish value frames
  | _ => none

-- A token behind a value inside an array or an object.
def continue? : List JsonFrame → JsonToken → Option JsonReading
  | .items done :: outer, .comma => some { frames := .items done :: outer, place := .value }
  | .items done :: outer, .closeArray => finish (.array done.reverse) outer
  | .members done :: outer, .comma => some { frames := .members done :: outer, place := .name }
  | .members done :: outer, .closeObject => finish (toObject done) outer
  | _, _ => none

def feed? (reading : JsonReading) (token : JsonToken) : Option JsonReading :=
  match reading.place, reading.frames, token with
  | .value, frames, token => begin? frames token
  | .firstItem, .items _ :: outer, .closeArray => finish (.array []) outer
  | .firstItem, frames, token => begin? frames token
  | .firstName, .members _ :: outer, .closeObject => finish (.object []) outer
  | .firstName, frames, .quoted name => some { frames, place := .colon name }
  | .name, frames, .quoted name => some { frames, place := .colon name }
  | .colon name, .members done :: outer, .colon =>
    some { frames := .member name done :: outer, place := .value }
  | .behindValue, frames, token => continue? frames token
  | _, _, _ => none

end JsonReading

def Json.ofText? (text : String) : Option Json := do
  let tokens ← JsonToken.ofText? text.toList
  let reading ← tokens.foldlM JsonReading.feed? {}
  match reading.place with
  | .finished document => some document
  | _ => none

end Stencil

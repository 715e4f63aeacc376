import Stencil.Decimal
import Stencil.Json

namespace Stencil

structure JsonExponent where
  negative : Bool
  digits : List Nat
deriving DecidableEq, Repr

def valueOfDigits (digits : List Nat) : Nat :=
  digits.foldl (fun value d => value * 10 + d) 0

-- The value of an exponent, unless it is beyond 31 bits.
def JsonExponent.value? (exponent : JsonExponent) : Option Int :=
  let value := valueOfDigits exponent.digits
  if value ≤ 0x7FFFFFFF then some (if exponent.negative then -(value : Int) else value) else none

-- A number as it is written, digit by digit.
structure JsonNumber where
  negative : Bool
  whole : List Nat
  fraction : List Nat
  exponent : Option JsonExponent
deriving DecidableEq, Repr

namespace JsonNumber

def digit? (c : Char) : Option Nat :=
  if '0' ≤ c ∧ c ≤ '9' then some (c.toNat - '0'.toNat) else none

def takeDigits : List Char → List Nat × List Char
  | [] => ([], [])
  | c :: rest =>
    match digit? c with
    | some d => let (digits, behind) := takeDigits rest; (d :: digits, behind)
    | none => ([], c :: rest)

theorem takeDigits_length (text : List Char) :
    (takeDigits text).1.length + (takeDigits text).2.length = text.length := by
  induction text with
  | nil => rfl
  | cons c rest ih =>
    simp only [takeDigits]
    split
    · simp only [List.length_cons]; omega
    · simp

-- A leading zero stands alone.
def scanWhole? (text : List Char) : Option (List Nat × List Char) :=
  match takeDigits text with
  | ([], _) => none
  | (0 :: _ :: _, _) => none
  | (digits, rest) => some (digits, rest)

def scanFraction? : List Char → Option (List Nat × List Char)
  | '.' :: text =>
    match takeDigits text with
    | ([], _) => none
    | (digits, rest) => some (digits, rest)
  | text => some ([], text)

def scanSign : List Char → Bool × List Char
  | '-' :: rest => (true, rest)
  | '+' :: rest => (false, rest)
  | text => (false, text)

def scanPower? (text : List Char) : Option (Option JsonExponent × List Char) :=
  let (negative, text) := scanSign text
  match takeDigits text with
  | ([], _) => none
  | (digits, rest) => some (some { negative, digits }, rest)

def scanExponent? : List Char → Option (Option JsonExponent × List Char)
  | 'e' :: text => scanPower? text
  | 'E' :: text => scanPower? text
  | text => some (none, text)

def scanMinus : List Char → Bool × List Char
  | '-' :: rest => (true, rest)
  | text => (false, text)

def scan? (text : List Char) : Option (JsonNumber × List Char) := do
  let (negative, text) := scanMinus text
  let (whole, text) ← scanWhole? text
  let (fraction, text) ← scanFraction? text
  let (exponent, text) ← scanExponent? text
  return ({ negative, whole, fraction, exponent }, text)

theorem takeDigits_length_le (text : List Char) : (takeDigits text).2.length ≤ text.length := by
  have := takeDigits_length text
  omega

private theorem scanWhole?_length {text rest : List Char} {digits : List Nat}
    (h : scanWhole? text = some (digits, rest)) : rest.length < text.length := by
  have hlength := takeDigits_length text
  unfold scanWhole? at h
  split at h
  · cases h
  · cases h
  · next taken behind hempty _ heq =>
    cases h
    have := List.length_pos_iff.mpr hempty
    simp only [heq] at hlength
    omega

private theorem scanFraction?_length {text rest : List Char} {digits : List Nat}
    (h : scanFraction? text = some (digits, rest)) : rest.length ≤ text.length := by
  unfold scanFraction? at h
  split at h
  · next behind =>
    have hlength := takeDigits_length_le behind
    split at h
    · cases h
    · next heq =>
      cases h
      rw [heq] at hlength
      simp only [List.length_cons] at hlength ⊢
      omega
  · cases h; exact Nat.le_refl _

private theorem scanPower?_length {text rest : List Char} {exponent : Option JsonExponent}
    (h : scanPower? text = some (exponent, rest)) : rest.length ≤ text.length := by
  have hsign : (scanSign text).2.length ≤ text.length := by
    unfold scanSign; split <;> simp
  unfold scanPower? at h
  simp only at h
  have hlength := takeDigits_length_le (scanSign text).2
  split at h
  · cases h
  · next heq =>
    cases h
    rw [heq] at hlength
    exact Nat.le_trans hlength hsign

private theorem scanExponent?_length {text rest : List Char} {exponent : Option JsonExponent}
    (h : scanExponent? text = some (exponent, rest)) : rest.length ≤ text.length := by
  unfold scanExponent? at h
  split at h
  · have := scanPower?_length h; simp only [List.length_cons]; omega
  · have := scanPower?_length h; simp only [List.length_cons]; omega
  · cases h; exact Nat.le_refl _

theorem scan?_length {text rest : List Char} {n : JsonNumber} (h : scan? text = some (n, rest)) :
    rest.length < text.length := by
  have hsign : (scanMinus text).2.length ≤ text.length := by
    unfold scanMinus; split <;> simp
  simp only [scan?, Option.bind_eq_bind, Option.bind_eq_some_iff] at h
  obtain ⟨⟨_, _⟩, hwhole, ⟨_, _⟩, hfraction, ⟨_, _⟩, hexponent, hpair⟩ := h
  cases hpair
  have := scanWhole?_length hwhole
  have := scanFraction?_length hfraction
  have := scanExponent?_length hexponent
  simp only at *
  omega

-- Takes digits up as long as the significand fits 64 bits, and counts the digits that follow.
def accumulate (significand : Nat) : List Nat → Nat × Nat
  | [] => (significand, 0)
  | d :: rest =>
    if significand * 10 + d < UInt64.size then accumulate (significand * 10 + d) rest
    else (significand, rest.length + 1)

def powerOfTen (n : Nat) : Float :=
  Float.ofScientific 1 false n

-- The largest power of ten that is finite.
def maxPower : Nat := 308

-- Divides by ten to the power `n`, in steps of the largest power of ten.
def divide (x : Float) (n : Nat) : Float :=
  if n ≤ maxPower then x / powerOfTen n
  else if x == 0 then x
  else divide (x / powerOfTen maxPower) (n - maxPower)
termination_by n
decreasing_by simp only [maxPower] at *; omega

-- `significand * 10 ^ exponent`, unless that is too large.
def scale? (significand : Nat) (exponent : Int) : Option Float :=
  let x := Float.ofNat significand
  if exponent < 0 then some (divide x exponent.natAbs)
  else if exponent.natAbs ≤ maxPower then
    let y := x * powerOfTen exponent.natAbs
    if Magnitude.isFinite y.toBits then some y else none
  else if significand = 0 then some x
  else none

def magnitude? (n : JsonNumber) : Option Float :=
  let (significand, dropped) := accumulate 0 n.whole
  let (significand, ignored) := accumulate significand n.fraction
  let shift := (dropped : Int) - ((n.fraction.length - ignored : Nat) : Int)
  match n.exponent with
  | none => scale? significand shift
  | some exponent =>
    match exponent.value? with
    | some value => scale? significand (shift + value)
    | none => if exponent.negative || significand = 0 then some 0 else none

-- The number a literal stands for. An integer that fits stays one, but zero with a sign is a floating point number.
-- Any other number is rounded twice, from at most 64 bits of its digits and a power of ten.
def toJson (n : JsonNumber) : Json :=
  let value := valueOfDigits n.whole
  let isInteger := n.fraction = [] && n.exponent.isNone
  if isInteger && !n.negative && value < UInt64.size then .integer value
  else if isInteger && n.negative && 0 < value && Int64.minValue.toInt ≤ -value then .integer (-value)
  else match n.magnitude? with
    | some x => .float (if n.negative then -x else x)
    | none => .unusable

end JsonNumber

end Stencil

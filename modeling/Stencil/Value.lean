import Stencil.Dict
import Stencil.Decimal

namespace Stencil

-- A piece of data. A value that is not there is never one of these: a look-up that misses is `none`.
inductive Value where
  | null
  | bool (flag : Bool)
  | int (number : Int64)
  | float (number : Float)
  | string (text : String)
  | sequence (items : List Value)
  -- The fields are in the order of their names, each name once.
  | mapping (fields : List (String × Value))

namespace Value

instance : Inhabited Value := ⟨.null⟩

-- Nothing, `false`, the empty text and the empty sequence are false. All else is true, also zero and
-- the mapping without fields.
def isTruthy : Value → Bool
  | .null => false
  | .bool flag => flag
  | .string text => !text.isEmpty
  | .sequence items => !items.isEmpty
  | .int _ | .float _ | .mapping _ => true

def field? : Value → String → Option Value
  | .mapping fields, key => fields.lookup key
  | _, _ => none

def items? : Value → Option (List Value)
  | .sequence items => some items
  | _ => none

-- Goes down through the named fields, one mapping after the other.
def descend (value : Value) (fields : List String) : Option Value :=
  fields.foldlM field? value

mutual

def toText : Value → String
  | .null => ""
  | .bool flag => if flag then "true" else "false"
  | .int number => toString number.toInt
  | .float number => floatText number
  | .string text => text
  | .sequence items => String.intercalate "," (toTexts items)
  | .mapping _ => "[object Object]"

def toTexts : List Value → List String
  | [] => []
  | item :: rest => toText item :: toTexts rest

end

instance : ToString Value := ⟨toText⟩

-- A count: an integer while it fits one, else the nearest floating point number.
def ofNat (n : Nat) : Value :=
  if n ≤ Int64.maxValue.toInt then .int (Int64.ofNat n) else .float (Float.ofNat n)

def ofOption (value : Option Value) : Value :=
  value.getD .null

-- The mapping with these fields; of a repeated name the last value stays.
def ofPairs (pairs : List (String × Value)) : Value :=
  .mapping (Dict.ofList pairs).entries

theorem ofNat_of_le {n : Nat} (h : n ≤ Int64.maxValue.toInt) :
    ∃ number : Int64, ofNat n = .int number ∧ number.toInt = n := by
  refine ⟨Int64.ofNat n, if_pos h, Int64.toInt_ofNat_of_lt ?_⟩
  have hmax : Int64.maxValue.toInt = 9223372036854775807 := by decide
  omega

theorem ofNat_of_lt {n : Nat} (h : Int64.maxValue.toInt < n) : ofNat n = .float (Float.ofNat n) :=
  if_neg (Int.not_le.mpr h)

-- Halfway between two floating point numbers the one with the even mantissa is taken.
example : ofNat 9223372036854776832 = .float 9223372036854775808 ∧
    ofNat 9223372036854776833 = .float 9223372036854777856 := ⟨rfl, rfl⟩

-- While a count fits an integer, it is written as its digits.
theorem toText_ofNat {n : Nat} (h : n ≤ Int64.maxValue.toInt) : (ofNat n).toText = toString n := by
  obtain ⟨number, hnumber, hn⟩ := ofNat_of_le h
  rw [hnumber, toText, hn]
  rfl

theorem toTexts_eq_map (items : List Value) : toTexts items = items.map toText := by
  induction items with
  | nil => rfl
  | cons item rest ih => simp [toTexts, ih]

@[simp] theorem descend_nil (value : Value) : value.descend [] = some value := rfl

@[simp] theorem descend_cons (value : Value) (key : String) (rest : List String) :
    value.descend (key :: rest) = (value.field? key).bind (·.descend rest) := rfl

end Value

def isTruthy (value : Option Value) : Bool :=
  value.any Value.isTruthy

end Stencil

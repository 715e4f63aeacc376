namespace Stencil

inductive Json where
  | null
  | bool (flag : Bool)
  | integer (number : Int)
  | float (number : Float)
  | string (text : String)
  | array (items : List Json)
  -- The members in the order of the text. A name may stand more than once.
  | object (members : List (String × Json))
  -- What is well formed but stands for no value: a number that is too large, a text with half of a
  -- surrogate pair. It is no harm where it is not used.
  | unusable
deriving Inhabited

namespace Json

def items? : Json → Option (List Json)
  | .array items => some items
  | _ => none

def members? : Json → Option (List (String × Json))
  | .object members => some members
  | _ => none

def string? : Json → Option String
  | .string text => some text
  | _ => none

def bool? : Json → Option Bool
  | .bool flag => some flag
  | _ => none

def null? : Json → Option Unit
  | .null => some ()
  | _ => none

-- An integer of 64 bits.
def int? : Json → Option Int64
  | .integer number =>
    if Int64.minValue.toInt ≤ number ∧ number ≤ Int64.maxValue.toInt then some (Int64.ofInt number)
    else none
  | _ => none

-- Any number, rounded to floating point.
def float? : Json → Option Float
  | .integer number => some (Float.ofInt number)
  | .float number => some number
  | _ => none

-- A natural number of at most 64 bits.
def nat? : Json → Option Nat
  | .integer number => if 0 ≤ number ∧ number < UInt64.size then some number.toNat else none
  | _ => none

mutual

def depth : Json → Nat
  | .array items => depthItems items + 1
  | .object members => depthMembers members + 1
  | _ => 0

def depthItems : List Json → Nat
  | [] => 0
  | item :: rest => max (depth item) (depthItems rest)

def depthMembers : List (String × Json) → Nat
  | [] => 0
  | (_, value) :: rest => max (depth value) (depthMembers rest)

end

end Json

end Stencil

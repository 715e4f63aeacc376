import Stencil.Context
import Stencil.Json.Text
import Stencil.Options
import Stencil.Source
import Stencil.Usage

namespace Stencil

namespace Json

-- The value of a field, if it stands there; no result if it stands there twice.
def member? (members : List (String × Json)) (name : String) : Option (Option Json) :=
  match members.filter (·.1 = name) with
  | [] => some none
  | [(_, value)] => some (some value)
  | _ => none

-- The fields of a record, each of which may be missing. They stand in an object, in which unknown members do not
-- count, or in an array in order.
def fields? (names : List String) : Json → Option (List (Option Json))
  | .object members => names.mapM (member? members)
  | .array items =>
    if items.length ≤ names.length then
      some (items.map some ++ List.replicate (names.length - items.length) none)
    else none
  | _ => none

-- The fields of a record, none of which may be missing.
def allFields? (names : List String) (json : Json) : Option (List Json) := do
  (← json.fields? names).mapM id

def readOr {α : Type} (default : α) (read : Json → Option α) : Option Json → Option α
  | none => some default
  | some json => read json

-- The only member of an object, which tells a case by its name.
def case? : Json → Option (String × Json)
  | .object [case] => some case
  | _ => none

end Json

namespace Value

mutual

-- A number that is not finite has no JSON form.
def toJson : Value → Json
  | .null => .null
  | .bool flag => .bool flag
  | .int number => .integer number.toInt
  | .float number => if Magnitude.isFinite number.toBits then .float number else .null
  | .string text => .string text
  | .sequence items => .array (toJsonItems items)
  | .mapping fields => .object (toJsonFields fields)

def toJsonItems : List Value → List Json
  | [] => []
  | item :: rest => item.toJson :: toJsonItems rest

def toJsonFields : List (String × Value) → List (String × Json)
  | [] => []
  | (name, value) :: rest => (name, value.toJson) :: toJsonFields rest

end

mutual

-- The kinds of values are tried in this order, so a number is a floating point number only if it is no integer
-- of 64 bits. Of a name that stands more than once the last value counts.
def ofJson? (json : Json) : Option Value :=
  (json.null?.map fun _ => .null) <|> json.bool?.map .bool <|> json.int?.map .int <|>
    json.float?.map .float <|> json.string?.map .string <|>
    (match json with
      | .array items => (ofJsonItems? items).map .sequence
      | _ => none) <|>
    match json with
      | .object members => (ofJsonMembers? members).map .ofPairs
      | _ => none

def ofJsonItems? : List Json → Option (List Value)
  | [] => some []
  | item :: rest => do
    let value ← ofJson? item
    let values ← ofJsonItems? rest
    return value :: values

def ofJsonMembers? : List (String × Json) → Option (List (String × Value))
  | [] => some []
  | (name, json) :: rest => do
    let value ← ofJson? json
    let fields ← ofJsonMembers? rest
    return (name, value) :: fields

end

-- Only integers are of two kinds.
theorem ofJson?_eq (json : Json) : ofJson? json =
    match json with
    | .null => some .null
    | .bool flag => some (.bool flag)
    | .integer number =>
      if Int64.minValue.toInt ≤ number ∧ number ≤ Int64.maxValue.toInt then some (.int (Int64.ofInt number))
      else some (.float (Float.ofInt number))
    | .float number => some (.float number)
    | .string text => some (.string text)
    | .array items => (ofJsonItems? items).map .sequence
    | .object members => (ofJsonMembers? members).map .ofPairs
    | .unusable => none := by
  cases json with
  | integer number =>
      have hread : ofJson? (.integer number) =
          ((Json.integer number).int?.map .int <|> some (.float (Float.ofInt number))) := rfl
      simp only [hread, Json.int?]
      split <;> rfl
  | array items =>
      have hread : ofJson? (.array items) = ((ofJsonItems? items).map .sequence <|> none) := rfl
      simp only [hread]
      cases ofJsonItems? items <;> rfl
  | null | bool | float | string | object | unusable => rfl

-- Arrays and objects in a text may stand this deep inside each other.
def maxJsonDepth : Nat := 127

def ofJsonText? (text : String) : Option Value := do
  let json ← Json.ofText? text
  if json.depth ≤ maxJsonDepth then ofJson? json else none

end Value

namespace Context

def toJson (context : Context) : Json :=
  .object (Value.toJsonFields context.values.entries)

def ofJson? (json : Json) : Option Context := do
  return .ofPairs (← Value.ofJsonMembers? (← json.members?))

def ofJsonText? (text : String) : Option Context := do
  let json ← Json.ofText? text
  if json.depth ≤ Value.maxJsonDepth then ofJson? json else none

end Context

namespace Options

def toJson (options : Options) : Json :=
  .object [("strict", .bool options.strict), ("max_depth", .integer options.maxDepth),
    ("allow_padding", .bool options.allowPadding)]

def ofJson? (json : Json) : Option Options := do
  let defaults : Options := {}
  match ← json.fields? ["strict", "max_depth", "allow_padding"] with
  | [strict, maxDepth, allowPadding] =>
    return {
      strict := ← Json.readOr defaults.strict Json.bool? strict
      maxDepth := ← Json.readOr defaults.maxDepth Json.nat? maxDepth
      allowPadding := ← Json.readOr defaults.allowPadding Json.bool? allowPadding }
  | _ => none

def ofJsonText? (text : String) : Option Options := do
  ofJson? (← Json.ofText? text)

end Options

namespace ParseFault

def toJson : ParseFault → Json
  | .invalidTag found => .object [("InvalidTag", .object [("found", .string found)])]
  | .unexpectedTag tag => .object [("UnexpectedTag", .object [("tag", .string tag)])]
  | .unclosedBlock keyword => .object [("UnclosedBlock", .object [("keyword", .string keyword)])]
  | .nestingTooDeep limit => .object [("NestingTooDeep", .object [("limit", .integer limit)])]

def ofJson? (json : Json) : Option ParseFault := do
  match ← json.case? with
  | ("InvalidTag", fields) => match ← fields.allFields? ["found"] with
    | [found] => return .invalidTag (← found.string?)
    | _ => none
  | ("UnexpectedTag", fields) => match ← fields.allFields? ["tag"] with
    | [tag] => return .unexpectedTag (← tag.string?)
    | _ => none
  | ("UnclosedBlock", fields) => match ← fields.allFields? ["keyword"] with
    | [keyword] => return .unclosedBlock (← keyword.string?)
    | _ => none
  | ("NestingTooDeep", fields) => match ← fields.allFields? ["limit"] with
    | [limit] => return .nestingTooDeep (← limit.nat?)
    | _ => none
  | _ => none

end ParseFault

namespace ParseError

def toJson (error : ParseError) : Json :=
  .object [("line", .integer error.line), ("column", .integer error.column), ("kind", error.fault.toJson)]

def ofJson? (json : Json) : Option ParseError := do
  match ← json.allFields? ["line", "column", "kind"] with
  | [line, column, fault] =>
    return { line := ← line.nat?, column := ← column.nat?, fault := ← ParseFault.ofJson? fault }
  | _ => none

end ParseError

namespace Error

def toJson : Error → Json
  | .templateExists name => .object [("TemplateExists", .object [("template_name", .string name)])]
  | .missingTemplate name => .object [("MissingTemplate", .object [("template_name", .string name)])]
  | .templateLoad name reason =>
    .object [("TemplateLoad", .object [("template_name", .string name), ("reason", .string reason)])]
  | .parse error => .object [("Parse", error.toJson)]

def ofJson? (json : Json) : Option Error := do
  match ← json.case? with
  | ("TemplateExists", fields) => match ← fields.allFields? ["template_name"] with
    | [name] => return .templateExists (← name.string?)
    | _ => none
  | ("MissingTemplate", fields) => match ← fields.allFields? ["template_name"] with
    | [name] => return .missingTemplate (← name.string?)
    | _ => none
  | ("TemplateLoad", fields) => match ← fields.allFields? ["template_name", "reason"] with
    | [name, reason] => return .templateLoad (← name.string?) (← reason.string?)
    | _ => none
  | ("Parse", error) => return .parse (← ParseError.ofJson? error)
  | _ => none

def ofJsonText? (text : String) : Option Error := do
  ofJson? (← Json.ofText? text)

end Error

namespace Usage

def name : Usage → String
  | .output => "Output"
  | .condition => "Condition"
  | .sequence => "Sequence"

def ofName? (name : String) : Option Usage :=
  if name = "Output" then some .output
  else if name = "Condition" then some .condition
  else if name = "Sequence" then some .sequence
  else none

def toJson (usage : Usage) : Json :=
  .string usage.name

-- A name, or an object that gives it `null`.
def ofJson? : Json → Option Usage
  | .string name => ofName? name
  | .object [(name, .null)] => ofName? name
  | _ => none

def ofJsonText? (text : String) : Option Usage := do
  ofJson? (← Json.ofText? text)

end Usage

namespace MemorySource

def toJson (source : MemorySource) : Json :=
  .object [("templates", .object (source.templates.entries.map fun (name, text) => (name, .string text)))]

def ofJson? (json : Json) : Option MemorySource := do
  match ← json.allFields? ["templates"] with
  | [templates] =>
    let pairs ← (← templates.members?).mapM fun (name, text) => return (name, ← text.string?)
    return ⟨.ofList pairs⟩
  | _ => none

def ofJsonText? (text : String) : Option MemorySource := do
  ofJson? (← Json.ofText? text)

end MemorySource

end Stencil

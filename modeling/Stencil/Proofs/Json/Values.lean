import Stencil.Json.Codec
import Stencil.Proofs.Dict

namespace Stencil

namespace Value

mutual

-- The fields of every mapping are in the order of their names, each name once.
def Ordered : Value → Prop
  | .sequence items => OrderedItems items
  | .mapping fields => (fields.Pairwise fun a b => a.1 < b.1) ∧ OrderedFields fields
  | .null | .bool _ | .int _ | .float _ | .string _ => True

def OrderedItems : List Value → Prop
  | [] => True
  | item :: rest => item.Ordered ∧ OrderedItems rest

def OrderedFields : List (String × Value) → Prop
  | [] => True
  | (_, value) :: rest => value.Ordered ∧ OrderedFields rest

end

mutual

-- The value with null in the place of every number that is not finite.
def finite : Value → Value
  | .float number => if Magnitude.isFinite number.toBits then .float number else .null
  | .sequence items => .sequence (finiteItems items)
  | .mapping fields => .mapping (finiteFields fields)
  | .null => .null
  | .bool flag => .bool flag
  | .int number => .int number
  | .string text => .string text

def finiteItems : List Value → List Value
  | [] => []
  | item :: rest => item.finite :: finiteItems rest

def finiteFields : List (String × Value) → List (String × Value)
  | [] => []
  | (name, value) :: rest => (name, value.finite) :: finiteFields rest

end

variable {fields : List (String × Value)} {value other : Value}

theorem orderedFields_iff : OrderedFields fields ↔ ∀ field ∈ fields, field.2.Ordered := by
  induction fields with
  | nil => simp [OrderedFields]
  | cons field rest ih => simp [OrderedFields, ih]

theorem finiteFields_eq_map (fields : List (String × Value)) :
    finiteFields fields = fields.map fun field => (field.1, field.2.finite) := by
  induction fields with
  | nil => rfl
  | cons field rest ih => rw [finiteFields, ih, List.map_cons]

theorem pairwise_finiteFields (h : fields.Pairwise fun a b => a.1 < b.1) :
    (finiteFields fields).Pairwise fun a b => a.1 < b.1 := by
  rw [finiteFields_eq_map]
  exact List.pairwise_map.mpr h

theorem ofPairs_of_ordered (h : fields.Pairwise fun a b => a.1 < b.1) :
    ofPairs fields = .mapping fields := by
  rw [ofPairs, Dict.entries_ofList h]

theorem ordered_ofPairs (h : OrderedFields fields) : (ofPairs fields).Ordered := by
  refine ⟨(Dict.ofList fields).ascending, orderedFields_iff.mpr ?_⟩
  exact fun field hfield => orderedFields_iff.mp h field (Dict.mem_of_mem_ofList hfield)

-- Every integer of 64 bits is read as one.
theorem ofJson?_toInt (number : Int64) : ofJson? (.integer number.toInt) = some (.int number) := by
  simp only [ofJson?_eq]
  rw [if_pos ⟨number.minValue_le_toInt, number.toInt_le⟩, Int64.ofInt_toInt]

mutual

theorem ofJson?_toJson : ∀ value : Value, value.Ordered → ofJson? value.toJson = some value.finite
  | .null, _ => rfl
  | .bool _, _ => rfl
  | .int number, _ => ofJson?_toInt number
  | .float number, _ => by
    rw [toJson, finite]
    split <;> rfl
  | .string _, _ => rfl
  | .sequence items, h => by
    simp only [toJson, ofJson?_eq]
    rw [ofJsonItems?_toJsonItems items h]
    rfl
  | .mapping fields, h => by
    simp only [toJson, ofJson?_eq]
    rw [ofJsonMembers?_toJsonFields fields h.2, Option.map_some,
      ofPairs_of_ordered (pairwise_finiteFields h.1)]
    rfl

theorem ofJsonItems?_toJsonItems : ∀ items : List Value, OrderedItems items →
    ofJsonItems? (toJsonItems items) = some (finiteItems items)
  | [], _ => rfl
  | item :: rest, h => by
    rw [toJsonItems, ofJsonItems?, ofJson?_toJson item h.1, ofJsonItems?_toJsonItems rest h.2]
    rfl

theorem ofJsonMembers?_toJsonFields : ∀ fields : List (String × Value), OrderedFields fields →
    ofJsonMembers? (toJsonFields fields) = some (finiteFields fields)
  | [], _ => rfl
  | (_, value) :: rest, h => by
    rw [toJsonFields, ofJsonMembers?, ofJson?_toJson value h.1, ofJsonMembers?_toJsonFields rest h.2]
    rfl

end

mutual

theorem toJson_finite : ∀ value : Value, value.finite.toJson = value.toJson
  | .null => rfl
  | .bool _ => rfl
  | .int _ => rfl
  | .float number => by
    rw [finite, toJson]
    split
    · next hfinite => rw [toJson, if_pos hfinite]
    · rfl
  | .string _ => rfl
  | .sequence items => by rw [finite, toJson, toJson, toJsonItems_finiteItems items]
  | .mapping fields => by rw [finite, toJson, toJson, toJsonFields_finiteFields fields]

theorem toJsonItems_finiteItems : ∀ items : List Value,
    toJsonItems (finiteItems items) = toJsonItems items
  | [] => rfl
  | item :: rest => by
    rw [finiteItems, toJsonItems, toJsonItems, toJson_finite item, toJsonItems_finiteItems rest]

theorem toJsonFields_finiteFields : ∀ fields : List (String × Value),
    toJsonFields (finiteFields fields) = toJsonFields fields
  | [] => rfl
  | (_, value) :: rest => by
    rw [finiteFields, toJsonFields, toJsonFields, toJson_finite value, toJsonFields_finiteFields rest]

end

-- Only numbers that are not finite are written like something else.
theorem toJson_eq_iff (h : value.Ordered) (hother : other.Ordered) :
    value.toJson = other.toJson ↔ value.finite = other.finite := by
  constructor
  · intro heq
    have hread := ofJson?_toJson value h
    rw [heq, ofJson?_toJson other hother] at hread
    exact (Option.some.inj hread).symm
  · intro heq
    rw [← toJson_finite value, heq, toJson_finite other]

mutual

-- Whatever is read is ordered.
theorem ordered_of_ofJson? : ∀ {json : Json} {value : Value}, ofJson? json = some value → value.Ordered
  | .null, _, h => by cases h; trivial
  | .bool _, _, h => by cases h; trivial
  | .integer number, _, h => by
    simp only [ofJson?_eq] at h
    split at h <;> cases h <;> trivial
  | .float _, _, h => by cases h; trivial
  | .string _, _, h => by cases h; trivial
  | .array _, _, h => by
    simp only [ofJson?_eq] at h
    obtain ⟨items, hitems, rfl⟩ := Option.map_eq_some_iff.mp h
    exact orderedItems_of_ofJsonItems? hitems
  | .object _, _, h => by
    simp only [ofJson?_eq] at h
    obtain ⟨fields, hfields, rfl⟩ := Option.map_eq_some_iff.mp h
    exact ordered_ofPairs (orderedFields_of_ofJsonMembers? hfields)
  | .unusable, _, h => by cases h

theorem orderedItems_of_ofJsonItems? : ∀ {items : List Json} {values : List Value},
    ofJsonItems? items = some values → OrderedItems values
  | [], _, h => by cases h; trivial
  | _ :: _, _, h => by
    rw [ofJsonItems?] at h
    obtain ⟨value, hvalue, h⟩ := Option.bind_eq_some_iff.mp h
    obtain ⟨values, hvalues, h⟩ := Option.bind_eq_some_iff.mp h
    cases h
    exact ⟨ordered_of_ofJson? hvalue, orderedItems_of_ofJsonItems? hvalues⟩

theorem orderedFields_of_ofJsonMembers? : ∀ {members : List (String × Json)}
    {fields : List (String × Value)}, ofJsonMembers? members = some fields → OrderedFields fields
  | [], _, h => by cases h; trivial
  | (_, _) :: _, _, h => by
    rw [ofJsonMembers?] at h
    obtain ⟨value, hvalue, h⟩ := Option.bind_eq_some_iff.mp h
    obtain ⟨fields, hfields, h⟩ := Option.bind_eq_some_iff.mp h
    cases h
    exact ⟨ordered_of_ofJson? hvalue, orderedFields_of_ofJsonMembers? hfields⟩

end

end Value

end Stencil

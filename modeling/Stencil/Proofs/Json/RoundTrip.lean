import Stencil.Proofs.Json.Values

namespace Stencil

namespace Json

variable {members known : List (String × Json)}

theorem member?_of_nodup (h : (members.map Prod.fst).Nodup) (name : String) :
    member? members name = some (members.lookup name) := by
  induction members with
  | nil => rfl
  | cons first rest ih =>
      obtain ⟨key, json⟩ := first
      obtain ⟨hkey, hrest⟩ := List.nodup_cons.mp h
      by_cases hname : key = name
      · subst hname
        have hnone : rest.filter (fun m => m.1 = key) = [] := by
          refine List.filter_eq_nil_iff.mpr ?_
          intro m hm heq
          exact hkey (List.mem_map.mpr ⟨m, hm, of_decide_eq_true heq⟩)
        simp [member?, hnone]
      · have hlookup : ((key, json) :: rest).lookup name = rest.lookup name := by
          rw [List.lookup_cons, beq_false_of_ne (Ne.symm hname)]
        rw [hlookup, ← ih hrest]
        simp [member?, hname]

theorem fields?_object (h : (members.map Prod.fst).Nodup) (names : List String) :
    fields? names (.object members) = some (names.map fun name => members.lookup name) := by
  have hmember : member? members = fun name => some (members.lookup name) :=
    funext (member?_of_nodup h)
  rw [fields?, hmember]
  exact List.mapM_pure

-- Of the members of a record that are known, those that stand in the text are found.
theorem lookup_of_subset (name : String) (json : Json) (hsubset : ∀ m ∈ members, m ∈ known)
    (hknown : ∀ other, (name, other) ∈ known → other = json) :
    members.lookup name = if name ∈ members.map Prod.fst then some json else none := by
  induction members with
  | nil => rfl
  | cons first rest ih =>
      obtain ⟨key, other⟩ := first
      obtain ⟨hfirst, hrest⟩ := List.forall_mem_cons.mp hsubset
      by_cases hname : name = key
      · subst hname
        simp [hknown other hfirst]
      · rw [List.lookup_cons, beq_false_of_ne hname, ih hrest]
        simp only [List.map_cons, List.mem_cons, hname, false_or]

theorem readOr_ite {α : Type} {default value : α} {read : Json → Option α} {json : Json} (p : Prop)
    [Decidable p] (h : read json = some value) :
    readOr default read (if p then some json else none) = some (if p then value else default) := by
  split
  · exact h
  · rfl

theorem nat?_integer {n : Nat} (h : n < UInt64.size) : nat? (.integer n) = some n := by
  rw [nat?, if_pos ⟨Int.natCast_nonneg n, Int.ofNat_lt.mpr h⟩, Int.toNat_natCast]

end Json

namespace Context

-- The mapping with the same entries.
def toValue (context : Context) : Value :=
  .mapping context.values.entries

variable {context : Context} {json : Json}

theorem ofPairs_eq_iff {pairs : List (String × Value)} :
    ofPairs pairs = context ↔ (Dict.ofList pairs).entries = context.values.entries := by
  constructor
  · rintro rfl
    rfl
  · exact fun h => congrArg Context.mk (Dict.eq_of_entries_eq h)

theorem ofJson?_eq_some_iff :
    ofJson? json = some context ↔ Value.ofJson? json = some context.toValue := by
  cases json with
  | object members =>
      have hread : ofJson? (.object members) = (Value.ofJsonMembers? members).bind fun fields =>
          some (.ofPairs fields) := rfl
      rw [hread]
      simp only [Value.ofJson?_eq]
      cases Value.ofJsonMembers? members with
      | none => simp
      | some fields => simpa [Value.ofPairs, toValue] using ofPairs_eq_iff
  | integer number =>
      have hne : Value.ofJson? (.integer number) ≠ some context.toValue := by
        simp only [Value.ofJson?_eq]
        split <;> simp [toValue]
      simpa [ofJson?, Json.members?] using hne
  | null | bool | float | string | array | unusable =>
      simp [ofJson?, Json.members?, Value.ofJson?_eq, toValue]

theorem exists_ofJson?_toJson (h : context.toValue.Ordered) :
    ∃ back, ofJson? context.toJson = some back ∧ back.toValue = context.toValue.finite := by
  have hascending := Value.pairwise_finiteFields context.values.ascending
  exact ⟨⟨⟨_, hascending⟩⟩, ofJson?_eq_some_iff.mpr (Value.ofJson?_toJson context.toValue h), rfl⟩

end Context

namespace Options

-- The fields of options as they are written.
def members (options : Options) : List (String × Json) :=
  [("strict", .bool options.strict), ("max_depth", .integer options.maxDepth),
    ("allow_padding", .bool options.allowPadding)]

-- The options with the defaults in place of all fields but those with these names.
def keep (options : Options) (names : List String) : Options :=
  let defaults : Options := {}
  { strict := if "strict" ∈ names then options.strict else defaults.strict
    maxDepth := if "max_depth" ∈ names then options.maxDepth else defaults.maxDepth
    allowPadding := if "allow_padding" ∈ names then options.allowPadding else defaults.allowPadding }

theorem ofJson?_members {options : Options} {members : List (String × Json)}
    (hdepth : options.maxDepth < UInt64.size) (hnodup : (members.map Prod.fst).Nodup)
    (hsubset : ∀ m ∈ members, m ∈ options.members) :
    ofJson? (.object members) = some (options.keep (members.map Prod.fst)) := by
  have hstrict := Json.lookup_of_subset "strict" (.bool options.strict) hsubset
    (by simp [Options.members])
  have hmaxDepth := Json.lookup_of_subset "max_depth" (.integer options.maxDepth) hsubset
    (by simp [Options.members])
  have hpadding := Json.lookup_of_subset "allow_padding" (.bool options.allowPadding) hsubset
    (by simp [Options.members])
  have hread := Json.fields?_object hnodup ["strict", "max_depth", "allow_padding"]
  simp only [List.map_cons, List.map_nil, hstrict, hmaxDepth, hpadding] at hread
  have hstrictRead : Json.bool? (.bool options.strict) = some options.strict := rfl
  have hpaddingRead : Json.bool? (.bool options.allowPadding) = some options.allowPadding := rfl
  rw [ofJson?, hread]
  simp only [Option.bind_eq_bind, Option.bind_some, Json.readOr_ite _ hstrictRead,
    Json.readOr_ite _ (Json.nat?_integer hdepth), Json.readOr_ite _ hpaddingRead]
  rfl

theorem ofJson?_toJson {options : Options} (hdepth : options.maxDepth < UInt64.size) :
    ofJson? options.toJson = some options := by
  have hnodup : (options.members.map Prod.fst).Nodup := by simp [members]
  exact ofJson?_members hdepth hnodup (fun _ hm => hm)

end Options

namespace ParseFault

-- A limit is a number of 64 bits.
def Fits : ParseFault → Prop
  | .nestingTooDeep limit => limit < UInt64.size
  | .invalidTag _ | .unexpectedTag _ | .unclosedBlock _ => True

theorem ofJson?_toJson {fault : ParseFault} (h : fault.Fits) : ofJson? fault.toJson = some fault := by
  cases fault with
  | invalidTag found => rfl
  | unexpectedTag tag => rfl
  | unclosedBlock keyword => rfl
  | nestingTooDeep limit =>
      have hread : ∀ json, ofJson? (.object [("NestingTooDeep", .object [("limit", json)])]) =
          json.nat?.bind fun limit => some (.nestingTooDeep limit) := fun _ => rfl
      rw [toJson, hread, Json.nat?_integer h, Option.bind_some]

end ParseFault

namespace ParseError

def Fits (error : ParseError) : Prop :=
  error.line < UInt64.size ∧ error.column < UInt64.size ∧ error.fault.Fits

theorem ofJson?_toJson {error : ParseError} (h : error.Fits) : ofJson? error.toJson = some error := by
  obtain ⟨hline, hcolumn, hfault⟩ := h
  have hread : ∀ line column fault,
      ofJson? (.object [("line", line), ("column", column), ("kind", fault)]) =
        line.nat?.bind fun line => column.nat?.bind fun column =>
          (ParseFault.ofJson? fault).bind fun fault => some ⟨line, column, fault⟩ := fun _ _ _ => rfl
  rw [toJson, hread, Json.nat?_integer hline, Option.bind_some, Json.nat?_integer hcolumn,
    Option.bind_some, ParseFault.ofJson?_toJson hfault, Option.bind_some]

end ParseError

namespace Error

def Fits : Error → Prop
  | .parse error => error.Fits
  | .templateExists _ | .missingTemplate _ | .templateLoad _ _ => True

theorem ofJson?_toJson {error : Error} (h : error.Fits) : ofJson? error.toJson = some error := by
  cases error with
  | templateExists name => rfl
  | missingTemplate name => rfl
  | templateLoad name reason => rfl
  | parse error =>
      have hread : ∀ json, ofJson? (.object [("Parse", json)]) =
          (ParseError.ofJson? json).bind fun error => some (.parse error) := fun _ => rfl
      rw [toJson, hread, ParseError.ofJson?_toJson h, Option.bind_some]

end Error

namespace Usage

theorem ofJson?_toJson (usage : Usage) : ofJson? usage.toJson = some usage := by
  cases usage <;> rfl

end Usage

namespace MemorySource

theorem mapM_entries (entries : List (String × String)) :
    (entries.map fun (name, text) => (name, Json.string text)).mapM
      (fun (m : String × Json) => m.2.string?.bind fun text => some (m.1, text)) = some entries := by
  induction entries with
  | nil => rfl
  | cons entry rest ih =>
      rw [List.map_cons, List.mapM_cons, ih]
      rfl

theorem ofJson?_toJson (source : MemorySource) : ofJson? source.toJson = some source := by
  have hread : ∀ members : List (String × Json),
      ofJson? (.object [("templates", .object members)]) =
        (members.mapM fun (m : String × Json) => m.2.string?.bind fun text => some (m.1, text)).bind
          fun pairs => some ⟨.ofList pairs⟩ := fun _ => rfl
  rw [toJson, hread, mapM_entries, Option.bind_some, Dict.ofList_entries]

end MemorySource

-- Options of which only some fields are written have the defaults in all others.
theorem json_round_trip :
    (∀ value : Value, value.Ordered → Value.ofJson? value.toJson = some value.finite) ∧
    (∀ value other : Value, value.Ordered → other.Ordered →
      (value.toJson = other.toJson ↔ value.finite = other.finite)) ∧
    (∀ json value, Value.ofJson? json = some value → value.Ordered) ∧
    (∀ context : Context, context.toJson = context.toValue.toJson ∧
      ∀ json, Context.ofJson? json = some context ↔ Value.ofJson? json = some context.toValue) ∧
    (∀ context : Context, context.toValue.Ordered →
      ∃ back, Context.ofJson? context.toJson = some back ∧ back.toValue = context.toValue.finite) ∧
    (∀ options : Options, options.maxDepth < UInt64.size →
      Options.ofJson? options.toJson = some options ∧
        ∀ members : List (String × Json), (members.map Prod.fst).Nodup →
          (∀ m ∈ members, m ∈ options.members) →
            Options.ofJson? (.object members) = some (options.keep (members.map Prod.fst))) ∧
    (∀ error : Error, error.Fits → Error.ofJson? error.toJson = some error) ∧
    (∀ usage : Usage, Usage.ofJson? usage.toJson = some usage) ∧
    ∀ source : MemorySource, MemorySource.ofJson? source.toJson = some source := by
  refine ⟨Value.ofJson?_toJson, fun _ _ => Value.toJson_eq_iff, fun _ _ => Value.ordered_of_ofJson?,
    fun _ => ⟨rfl, fun _ => Context.ofJson?_eq_some_iff⟩, fun _ => Context.exists_ofJson?_toJson, ?_,
    fun _ => Error.ofJson?_toJson, Usage.ofJson?_toJson, MemorySource.ofJson?_toJson⟩
  intro options hdepth
  exact ⟨Options.ofJson?_toJson hdepth, fun _ => Options.ofJson?_members hdepth⟩

-- An integer beside a whole number in floating point, negative zero, something that is not a number and becomes
-- null, and the empty containers; options without two of their fields; and the largest number of a place.
theorem json_round_trip_shapes :
    let value : Value := .mapping [("a", .sequence [.int 1, .float 1, .float (-0), .float (0 / 0)]),
      ("b", .sequence []), ("c", .mapping [])]
    let error : Error := .parse ⟨1, 18446744073709551615, .nestingTooDeep 0⟩
    value.Ordered ∧ Value.ofJson? value.toJson = some value.finite ∧
      value.finite = .mapping [("a", .sequence [.int 1, .float 1, .float (-0), .null]),
        ("b", .sequence []), ("c", .mapping [])] ∧
      Options.ofJson? (.object [("max_depth", .integer 5)]) = some { maxDepth := 5 } ∧
      error.Fits ∧ Error.ofJson? error.toJson = some error := by
  intro value error
  obtain ⟨hvalue, -, -, -, -, hoptions, herror, -⟩ := json_round_trip
  have hordered : value.Ordered := by
    refine ⟨by decide, ?_⟩
    simp [Value.Ordered, Value.OrderedFields, Value.OrderedItems]
  have hfits : error.Fits := by simp [error, Error.Fits, ParseError.Fits, ParseFault.Fits, UInt64.size]
  obtain ⟨-, hmembers⟩ := hoptions { strict := true, maxDepth := 5 } (by decide)
  refine ⟨hordered, hvalue value hordered, rfl, ?_, hfits, herror error hfits⟩
  exact hmembers [("max_depth", .integer 5)] (by simp) (by simp [Options.members])

end Stencil

namespace Stencil

-- The entries are in key order, so two dictionaries that answer every look-up alike are equal.
structure Dict (α : Type) where
  entries : List (String × α)
  -- Every key stands before all later ones.
  ascending : entries.Pairwise fun a b => a.1 < b.1
deriving DecidableEq, Repr

namespace Dict

variable {α : Type}

def empty : Dict α := ⟨[], .nil⟩

instance : Inhabited (Dict α) := ⟨empty⟩

def get? (d : Dict α) (key : String) : Option α :=
  d.entries.lookup key

def contains (d : Dict α) (key : String) : Bool :=
  (d.get? key).isSome

def keys (d : Dict α) : List String :=
  d.entries.map Prod.fst

def size (d : Dict α) : Nat :=
  d.entries.length

def isEmpty (d : Dict α) : Bool :=
  d.entries.isEmpty

-- Puts an entry where its key belongs, in the place of one that is there already.
def insertEntry (key : String) (value : α) : List (String × α) → List (String × α)
  | [] => [(key, value)]
  | (k, v) :: rest =>
    if k = key then (key, value) :: rest
    else if key < k then (key, value) :: (k, v) :: rest
    else (k, v) :: insertEntry key value rest

private theorem eq_or_mem_of_mem_insertEntry {key : String} {value : α} {entries : List (String × α)}
    {entry : String × α} (h : entry ∈ insertEntry key value entries) :
    entry = (key, value) ∨ entry ∈ entries := by
  fun_induction insertEntry key value entries <;> grind

private theorem insertEntry_ascending (key : String) (value : α) {entries : List (String × α)}
    (h : entries.Pairwise fun a b => a.1 < b.1) :
    (insertEntry key value entries).Pairwise fun a b => a.1 < b.1 := by
  induction entries with
  | nil => simp [insertEntry]
  | cons entry rest ih =>
    obtain ⟨k, v⟩ := entry
    obtain ⟨hhead, hrest⟩ := List.pairwise_cons.mp h
    simp only [insertEntry]
    split
    · next heq => exact List.pairwise_cons.mpr ⟨by simpa [← heq] using hhead, hrest⟩
    · split
      · next hlt =>
        refine List.pairwise_cons.mpr ⟨?_, h⟩
        intro other ho
        rcases List.mem_cons.mp ho with rfl | ho
        · exact hlt
        · exact String.lt_trans hlt (hhead other ho)
      · next hne hlt =>
        refine List.pairwise_cons.mpr ⟨?_, ih hrest⟩
        intro other ho
        rcases eq_or_mem_of_mem_insertEntry ho with rfl | ho
        · exact Std.lt_of_le_of_ne (String.not_lt.mp hlt) hne
        · exact hhead other ho

def insert (d : Dict α) (key : String) (value : α) : Dict α :=
  ⟨insertEntry key value d.entries, insertEntry_ascending key value d.ascending⟩

def erase (d : Dict α) (key : String) : Dict α :=
  ⟨d.entries.filter fun entry => entry.1 ≠ key, d.ascending.filter _⟩

-- Inserts pair by pair, so of a repeated key the last value stays.
def ofList (pairs : List (String × α)) : Dict α :=
  pairs.foldl (fun d pair => d.insert pair.1 pair.2) empty

@[simp] theorem get?_empty (key : String) : (empty : Dict α).get? key = none := rfl

theorem get?_insert (d : Dict α) (key : String) (value : α) (other : String) :
    (d.insert key value).get? other = if key = other then some value else d.get? other := by
  obtain ⟨entries, _⟩ := d
  simp only [get?, insert]
  fun_induction insertEntry key value entries <;> grind

theorem get?_erase (d : Dict α) (key other : String) :
    (d.erase key).get? other = if key = other then none else d.get? other := by
  obtain ⟨entries, _⟩ := d
  simp only [get?, erase]
  induction entries <;> grind

theorem get?_foldl_insert (pairs : List (String × α)) (d : Dict α) (key : String) :
    (pairs.foldl (fun d pair => d.insert pair.1 pair.2) d).get? key =
      (pairs.reverse.lookup key).or (d.get? key) := by
  induction pairs generalizing d with
  | nil => simp
  | cons pair rest ih =>
    rw [List.foldl_cons, ih, get?_insert, List.reverse_cons, List.lookup_append, Option.or_assoc]
    grind

theorem get?_ofList (pairs : List (String × α)) (key : String) :
    (ofList pairs).get? key = pairs.reverse.lookup key := by
  simp [ofList, get?_foldl_insert]

private theorem lookup_eq_none_of_lt {key : String} {entries : List (String × α)}
    (h : ∀ entry ∈ entries, key < entry.1) : entries.lookup key = none := by
  rw [List.lookup_eq_none_iff]
  intro entry hentry
  have := String.lt_irrefl key
  grind

private theorem eq_of_lookup_eq {a b : List (String × α)} (ha : a.Pairwise fun a b => a.1 < b.1)
    (hb : b.Pairwise fun a b => a.1 < b.1) (h : ∀ key, a.lookup key = b.lookup key) : a = b := by
  induction a generalizing b with
  | nil =>
    cases b with
    | nil => rfl
    | cons entry rest => have := h entry.1; grind
  | cons entry rest ih =>
    obtain ⟨k, v⟩ := entry
    cases b with
    | nil => have := h k; grind
    | cons other others =>
      obtain ⟨k', v'⟩ := other
      obtain ⟨hk, hrest⟩ := List.pairwise_cons.mp ha
      obtain ⟨hk', hothers⟩ := List.pairwise_cons.mp hb
      -- The lesser of the two first keys would be missing from the other list.
      have hkey : k = k' := by
        rcases Std.lt_trichotomy k k' with hlt | heq | hlt
        · have hnone : ((k', v') :: others).lookup k = none :=
            lookup_eq_none_of_lt (by grind)
          have := h k
          grind
        · exact heq
        · have hnone : ((k, v) :: rest).lookup k' = none :=
            lookup_eq_none_of_lt (by grind)
          have := h k'
          grind
      subst hkey
      have hvalue := h k
      simp only [List.lookup_cons, beq_self_eq_true, Option.some.injEq] at hvalue
      subst hvalue
      congr 1
      apply ih hrest hothers
      intro key
      have hlookup := h key
      by_cases hkey : key = k
      · subst hkey
        rw [lookup_eq_none_of_lt hk, lookup_eq_none_of_lt hk']
      · grind

theorem eq_of_get?_eq {a b : Dict α} (h : ∀ key, a.get? key = b.get? key) : a = b := by
  obtain ⟨entries, hentries⟩ := a
  obtain ⟨others, hothers⟩ := b
  obtain rfl := eq_of_lookup_eq hentries hothers h
  rfl

end Dict

end Stencil

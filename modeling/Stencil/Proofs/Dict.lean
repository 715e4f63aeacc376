import Stencil.Dict
import Mathlib.Data.List.Basic

namespace Stencil

namespace Dict

variable {α : Type}

-- An entry whose key stands behind all others is put at the end.
theorem insertEntry_last {key : String} (value : α) {entries : List (String × α)}
    (h : ∀ entry ∈ entries, entry.1 < key) :
    insertEntry key value entries = entries ++ [(key, value)] := by
  induction entries with
  | nil => rfl
  | cons entry rest ih =>
      obtain ⟨k, v⟩ := entry
      obtain ⟨hk, hrest⟩ := List.forall_mem_cons.mp h
      have hne : k ≠ key := by
        rintro rfl
        exact String.lt_irrefl k hk
      have hnot : ¬key < k := fun hlt => String.lt_irrefl k (String.lt_trans hk hlt)
      rw [insertEntry, if_neg hne, if_neg hnot, ih hrest]
      rfl

theorem entries_foldl_insert {pairs : List (String × α)} (d : Dict α)
    (h : (d.entries ++ pairs).Pairwise fun a b => a.1 < b.1) :
    (pairs.foldl (fun d pair => d.insert pair.1 pair.2) d).entries = d.entries ++ pairs := by
  induction pairs generalizing d with
  | nil => simp
  | cons pair rest ih =>
      have hlast : ∀ entry ∈ d.entries, entry.1 < pair.1 :=
        fun entry hentry => (List.pairwise_append.mp h).2.2 entry hentry pair List.mem_cons_self
      have hinsert : (d.insert pair.1 pair.2).entries = d.entries ++ [pair] :=
        insertEntry_last pair.2 hlast
      have hall : d.entries ++ pair :: rest = (d.insert pair.1 pair.2).entries ++ rest := by
        rw [hinsert, List.append_assoc]
        rfl
      rw [hall] at h ⊢
      exact ih (d.insert pair.1 pair.2) h

-- Entries that are in order already stay as they are.
theorem entries_ofList {pairs : List (String × α)} (h : pairs.Pairwise fun a b => a.1 < b.1) :
    (ofList pairs).entries = pairs :=
  entries_foldl_insert empty h

theorem eq_of_entries_eq {a b : Dict α} (h : a.entries = b.entries) : a = b := by
  cases a
  cases h
  rfl

theorem ofList_entries (d : Dict α) : ofList d.entries = d :=
  eq_of_entries_eq (entries_ofList d.ascending)

theorem mem_of_mem_insertEntry {key : String} {value : α} {entries : List (String × α)}
    {entry : String × α} (h : entry ∈ insertEntry key value entries) :
    entry = (key, value) ∨ entry ∈ entries := by
  fun_induction insertEntry key value entries with
  | case1 => exact .inl (List.mem_singleton.mp h)
  | case2 rest =>
      exact (List.mem_cons.mp h).imp_right fun hrest => List.mem_cons_of_mem _ hrest
  | case3 k v rest _ _ => exact List.mem_cons.mp h
  | case4 k v rest _ _ ih =>
      rcases List.mem_cons.mp h with rfl | hrest
      · exact .inr List.mem_cons_self
      · exact (ih hrest).imp_right fun hmem => List.mem_cons_of_mem _ hmem

theorem mem_of_mem_foldl_insert {pairs : List (String × α)} {d : Dict α} {entry : String × α}
    (h : entry ∈ (pairs.foldl (fun d pair => d.insert pair.1 pair.2) d).entries) :
    entry ∈ pairs ∨ entry ∈ d.entries := by
  induction pairs generalizing d with
  | nil => exact .inr h
  | cons pair rest ih =>
      rcases ih h with hrest | hinserted
      · exact .inl (List.mem_cons_of_mem _ hrest)
      · rcases mem_of_mem_insertEntry hinserted with rfl | hd
        · exact .inl List.mem_cons_self
        · exact .inr hd

theorem mem_of_mem_ofList {pairs : List (String × α)} {entry : String × α}
    (h : entry ∈ (ofList pairs).entries) : entry ∈ pairs :=
  (mem_of_mem_foldl_insert h).resolve_right List.not_mem_nil

end Dict

end Stencil

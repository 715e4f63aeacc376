import Stencil.Usage
import Mathlib.Data.List.Basic

namespace Stencil

-- A tag with a path, how it reads the path, and whether it stands in the body of a loop.
structure Mention where
  path : Path
  usage : Usage
  looped : Bool

namespace Node

mutual

-- The tags of a node which itself stands in a loop body or outside of them all.
def mentions (looped : Bool) : Node → List Mention
  | .text _ => []
  | .placeholder path _ => [⟨path, .output, looped⟩]
  | .block kind path body =>
    ⟨path, Usage.ofKind kind, looped⟩ :: mentionsAll (looped || kind = .each) body
  | .ifElse path thenBody elseBody =>
    ⟨path, .condition, looped⟩ :: (mentionsAll looped thenBody ++ mentionsAll looped elseBody)

def mentionsAll (looped : Bool) : List Node → List Mention
  | [] => []
  | node :: rest => mentions looped node ++ mentionsAll looped rest

end

mutual

theorem looped_of_mem_mentions {m : Mention} : ∀ {node : Node}, m ∈ mentions true node → m.looped = true
  | .text _, h => by simp [mentions] at h
  | .placeholder _ _, h => by
    obtain rfl : m = _ := by simpa [mentions] using h
    rfl
  | .block _ _ _, h => by
    rcases List.mem_cons.mp h with rfl | hbody
    · rfl
    · exact looped_of_mem_mentionsAll hbody
  | .ifElse _ _ _, h => by
    rcases List.mem_cons.mp h with rfl | hbodies
    · rfl
    · exact (List.mem_append.mp hbodies).elim looped_of_mem_mentionsAll looped_of_mem_mentionsAll

theorem looped_of_mem_mentionsAll {m : Mention} :
    ∀ {nodes : List Node}, m ∈ mentionsAll true nodes → m.looped = true
  | [], h => by simp [mentionsAll] at h
  | _ :: _, h => (List.mem_append.mp h).elim looped_of_mem_mentions looped_of_mem_mentionsAll

end

end Node

namespace Usage

-- Lists the tags that stand in no loop body.
def gather (listed : List (Path × Usage)) (mentions : List Mention) : List (Path × Usage) :=
  (mentions.filter (!·.looped)).foldl (fun known m => record known m.path m.usage) listed

variable {listed : List (Path × Usage)} {path : Path}

@[simp] theorem gather_nil (listed : List (Path × Usage)) : gather listed [] = listed := rfl

@[simp] theorem gather_cons (listed : List (Path × Usage)) (m : Mention) (rest : List Mention) :
    gather listed (m :: rest) =
      gather (if m.looped then listed else record listed m.path m.usage) rest := by
  cases hm : m.looped <;> simp [gather, hm]

theorem gather_append (listed : List (Path × Usage)) (first second : List Mention) :
    gather listed (first ++ second) = gather (gather listed first) second := by
  simp [gather]

theorem gather_of_looped {mentions : List Mention} (h : ∀ m ∈ mentions, m.looped = true) :
    gather listed mentions = listed := by
  have hnone : mentions.filter (!·.looped) = [] := by simpa using h
  rw [gather, hnone, List.foldl_nil]

mutual

theorem collect_eq_gather (listed : List (Path × Usage)) :
    ∀ node : Node, collect listed node = gather listed (node.mentions false)
  | .text _ => rfl
  | .placeholder _ _ => rfl
  | .block .each path body => by
    have hbody : gather (record listed path .sequence) (Node.mentionsAll true body) = _ :=
      gather_of_looped fun _ => Node.looped_of_mem_mentionsAll
    exact hbody.symm
  | .block .ifTrue path body => collectAll_eq_gather (record listed path .condition) body
  | .block .ifFalse path body => collectAll_eq_gather (record listed path .condition) body
  | .ifElse path thenBody elseBody => by
    rw [collect, collectAll_eq_gather _ thenBody, collectAll_eq_gather _ elseBody, ← gather_append]
    rfl

theorem collectAll_eq_gather (listed : List (Path × Usage)) :
    ∀ nodes : List Node, collectAll listed nodes = gather listed (Node.mentionsAll false nodes)
  | [] => rfl
  | node :: rest => by
    rw [collectAll, collect_eq_gather listed node, collectAll_eq_gather _ rest, ← gather_append]
    rfl

end

theorem mem_record {usage : Usage} {known : Path} (h : known ∈ listed.map Prod.fst) :
    known ∈ (record listed path usage).map Prod.fst := by
  unfold record
  split
  · exact h
  · simpa using Or.inl h

theorem mem_record_self {usage : Usage} (h : path.isLocal = false) :
    path ∈ (record listed path usage).map Prod.fst := by
  unfold record
  split
  · next hskip =>
    obtain ⟨entry, hentry, hpath⟩ : ∃ entry ∈ listed, entry.1 = path := by simpa [h] using hskip
    exact List.mem_map.mpr ⟨entry, hentry, hpath⟩
  · simp

theorem mem_gather {known : Path} (mentions : List Mention) (h : known ∈ listed.map Prod.fst) :
    known ∈ (gather listed mentions).map Prod.fst := by
  induction mentions generalizing listed with
  | nil => exact h
  | cons m rest ih =>
      rw [gather_cons]
      split
      · exact ih h
      · exact ih (mem_record h)

-- Every path that is read outside of loops and is not local is listed.
theorem mem_gather_of_mem {mentions : List Mention} {m : Mention} (h : m ∈ mentions)
    (hlooped : m.looped = false) (hlocal : m.path.isLocal = false) :
    m.path ∈ (gather listed mentions).map Prod.fst := by
  induction mentions generalizing listed with
  | nil => cases h
  | cons first rest ih =>
      rcases List.mem_cons.mp h with rfl | hrest
      · rw [gather_cons, hlooped]
        exact mem_gather rest (mem_record_self hlocal)
      · rw [gather_cons]
        exact ih hrest

end Usage

end Stencil

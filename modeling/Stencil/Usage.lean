import Stencil.Node

namespace Stencil

inductive Usage where
  | output
  | condition
  | sequence
deriving DecidableEq, Repr

namespace Usage

-- Lists a path unless it is local to a loop or stands in the list already.
def record (listed : List (Path × Usage)) (path : Path) (usage : Usage) : List (Path × Usage) :=
  if path.isLocal || listed.any (·.1 = path) then listed else listed ++ [(path, usage)]

def ofKind : BlockKind → Usage
  | .ifTrue | .ifFalse => .condition
  | .each => .sequence

mutual

-- Goes on with a list. Bodies of `each` blocks are left out: their paths are looked up in the elements
-- first.
def collect (listed : List (Path × Usage)) : Node → List (Path × Usage)
  | .text _ => listed
  | .placeholder path _ => record listed path .output
  | .block .each path _ => record listed path .sequence
  | .block kind path body => collectAll (record listed path (ofKind kind)) body
  | .ifElse path thenBody elseBody =>
    collectAll (collectAll (record listed path .condition) thenBody) elseBody

def collectAll (listed : List (Path × Usage)) : List Node → List (Path × Usage)
  | [] => listed
  | node :: rest => collectAll (collect listed node) rest

end

theorem nodup_record {listed : List (Path × Usage)} (h : (listed.map Prod.fst).Nodup) (path : Path)
    (usage : Usage) : ((record listed path usage).map Prod.fst).Nodup := by
  unfold record
  split
  · exact h
  · next hc =>
    simp only [Bool.or_eq_true, List.any_eq_true, decide_eq_true_eq, not_or, not_exists, not_and] at hc
    rw [List.map_append, List.nodup_append]
    refine ⟨h, by simp, ?_⟩
    intro known hk other ho heq
    obtain ⟨entry, he, rfl⟩ := List.mem_map.mp hk
    simp only [List.map_cons, List.map_nil, List.mem_singleton] at ho
    exact hc.2 entry he (heq.trans ho)

mutual

theorem nodup_collect {listed : List (Path × Usage)} (h : (listed.map Prod.fst).Nodup) :
    (node : Node) → ((collect listed node).map Prod.fst).Nodup
  | .text _ => h
  | .placeholder path _ => nodup_record h path .output
  | .block .each path _ => nodup_record h path .sequence
  | .block .ifTrue path body => nodup_collectAll (nodup_record h path .condition) body
  | .block .ifFalse path body => nodup_collectAll (nodup_record h path .condition) body
  | .ifElse path thenBody elseBody =>
    nodup_collectAll (nodup_collectAll (nodup_record h path .condition) thenBody) elseBody

theorem nodup_collectAll {listed : List (Path × Usage)} (h : (listed.map Prod.fst).Nodup) :
    (nodes : List Node) → ((collectAll listed nodes).map Prod.fst).Nodup
  | [] => h
  | node :: rest => nodup_collectAll (nodup_collect h node) rest

end

end Usage

end Stencil

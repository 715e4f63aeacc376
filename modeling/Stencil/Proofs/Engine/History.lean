import Stencil.Proofs.Engine.Run

namespace Stencil.Engine

variable {σ : Type}

def Call.name? : Call → Option String
  | .load name => some name
  | .render name _ => some name
  | .renderText _ _ => none
  | .remove name => some name
  | .clear => none
  | .isCached name => some name

def Call.drops (name : String) : Call → Bool
  | .remove other => other = name
  | .clear => true
  | _ => false

def sinceDropped (name : String) (history : List (Record σ)) : List (Record σ) :=
  (history.reverse.takeWhile fun record => !record.call.drops name).reverse

-- The first text of `name` that the source gave since the name was last dropped.
def firstFetched (name : String) (history : List (Record σ)) : Option String :=
  (sinceDropped name history).findSome? (·.fetches.text? name)

theorem firstFetched_concat (name : String) (history : List (Record σ)) (record : Record σ) :
    firstFetched name (history ++ [record]) =
      if record.call.drops name then none
      else (firstFetched name history).or (record.fetches.text? name) := by
  unfold firstFetched sinceDropped
  rw [List.reverse_append, List.reverse_singleton, List.singleton_append, List.takeWhile_cons]
  cases record.call.drops name with
  | true => simp
  | false => simp [List.findSome?_append]

namespace Record

variable [Source σ]

-- What it takes to have the text of `name`: nothing where the history holds it, else one fetch.
def Loads (history : List (Record σ)) (record : Record σ) (name : String)
    (result : Except Error String) : Prop :=
  match firstFetched name history with
  | some text => result = .ok text ∧ record.fetches = [] ∧ record.left = record.found
  | none =>
    Source.fetch record.found.loader.source name = (result, record.left.loader.source) ∧
      record.fetches = [(name, result)]

def Answers (options : Options) (history : List (Record σ)) (record : Record σ) : Prop :=
  match record.call with
  | .load name => ∃ result, record.Loads history name result ∧ record.reply = .text result
  | .render name context =>
    ∃ result, record.Loads history name result ∧
      record.reply = .text (result.bind (renderWith options · context))
  | .renderText text context =>
    record.reply = .text (renderWith options text context) ∧ record.fetches = [] ∧
      record.left = record.found
  | .remove name =>
    record.reply = .flag (firstFetched name history).isSome ∧ record.fetches = [] ∧
      record.left.loader.source = record.found.loader.source
  | .clear =>
    record.reply = .done ∧ record.fetches = [] ∧
      record.left.loader.source = record.found.loader.source
  | .isCached name =>
    record.reply = .flag (firstFetched name history).isSome ∧ record.fetches = [] ∧
      record.left = record.found

structure Accords (options : Options) (history : List (Record σ)) (record : Record σ) : Prop where
  answers : record.Answers options history
  -- A failed fetch leaves the cache as it was.
  failed : ∀ name error, (name, .error error) ∈ record.fetches →
    record.left.loader.cache = record.found.loader.cache
  -- No call but `clear` changes what holds for a name that it is not about.
  others : ∀ other, record.call ≠ .clear → record.call.name? ≠ some other →
    record.left.loader.cache.get? other = record.found.loader.cache.get? other

end Record

-- The cache holds what the history says. This carries the induction over a run.
structure Recalls (options : Options) (history : List (Record σ)) (engine : Engine σ) : Prop where
  options_eq : engine.options = options
  cached : ∀ name, engine.loader.cache.get? name = firstFetched name history

variable {engine : Engine σ} {options : Options} {history : List (Record σ)}

theorem recalls_ofSource (source : σ) (options : Options) : (ofSource source options).Recalls options [] :=
  ⟨rfl, fun _ => rfl⟩

theorem Recalls.changeSource (h : engine.Recalls options history) (change : σ → σ) :
    (engine.changeSource change).Recalls options history :=
  ⟨h.options_eq, h.cached⟩

theorem Recalls.isCached (h : engine.Recalls options history) (name : String) :
    engine.loader.isCached name = (firstFetched name history).isSome :=
  congrArg Option.isSome (h.cached name)

variable [Source σ]

theorem get?_left (engine : Engine σ) (call : Call) (name : String) :
    (engine.record call).left.loader.cache.get? name =
      if call.drops name then none
      else (engine.loader.cache.get? name).or ((engine.record call).fetches.text? name) := by
  cases call with
  | load loaded => exact engine.loader.get?_load loaded name
  | render loaded context =>
      rw [record_render]
      exact engine.loader.get?_load loaded name
  | renderText _ _ => exact Option.or_none.symm
  | remove removed =>
      refine (Dict.get?_erase engine.loader.cache removed name).trans ?_
      simp only [Call.drops, decide_eq_true_eq]
      split
      · rfl
      · exact Option.or_none.symm
  | clear => rfl
  | isCached _ => exact Option.or_none.symm

theorem Recalls.record (h : engine.Recalls options history) (call : Call) :
    (engine.record call).left.Recalls options (history ++ [engine.record call]) where
  options_eq := by
    rw [← h.options_eq]
    cases call with
    | render name context => rw [record_render]; rfl
    | _ => rfl
  cached name := by
    rw [get?_left, firstFetched_concat, h.cached]
    rfl

theorem Recalls.loads (h : engine.Recalls options history) (name : String) :
    (engine.record (.load name)).Loads history name (engine.loader.load name).1 := by
  unfold Record.Loads
  rw [← h.cached]
  cases hcache : engine.loader.cache.get? name with
  | some text =>
      have hload := Loader.load_of_cached hcache
      refine ⟨by rw [hload], Loader.asked_of_cached hcache, ?_⟩
      simp [Engine.record, answer, hload]
  | none =>
      have hload := Loader.load_of_missing hcache
      refine ⟨?_, ?_⟩
      · simp [Engine.record, answer, hload]
      · rw [hload]
        exact Loader.asked_of_missing hcache

theorem Recalls.answers (h : engine.Recalls options history) (call : Call) :
    (engine.record call).Answers options history := by
  obtain rfl := h.options_eq
  cases call with
  | load name => exact ⟨_, h.loads name, rfl⟩
  | render name context =>
      rw [record_render]
      exact ⟨_, h.loads name, rfl⟩
  | renderText _ _ => exact ⟨rfl, rfl, rfl⟩
  | remove name => exact ⟨congrArg Reply.flag (h.isCached name), rfl, rfl⟩
  | clear => exact ⟨rfl, rfl, rfl⟩
  | isCached name => exact ⟨congrArg Reply.flag (h.isCached name), rfl, rfl⟩

theorem cache_left_of_failed {call : Call} {name : String} {error : Error}
    (h : (name, .error error) ∈ (engine.record call).fetches) :
    (engine.record call).left.loader.cache = engine.loader.cache := by
  cases call with
  | load loaded => exact Loader.cache_load_of_failed h
  | render loaded context =>
      rw [record_render] at h ⊢
      exact Loader.cache_load_of_failed h
  | renderText _ _ => rfl
  | isCached _ => rfl
  | remove _ => exact absurd h List.not_mem_nil
  | clear => exact absurd h List.not_mem_nil

theorem get?_left_of_ne {call : Call} {other : String} (hclear : call ≠ .clear)
    (hname : call.name? ≠ some other) :
    (engine.record call).left.loader.cache.get? other = engine.loader.cache.get? other := by
  cases call with
  | load name =>
      exact engine.loader.get?_load_of_ne (fun heq => hname (congrArg some heq))
  | render name context =>
      rw [record_render]
      exact engine.loader.get?_load_of_ne (fun heq => hname (congrArg some heq))
  | renderText _ _ => rfl
  | remove name =>
      refine (Dict.get?_erase engine.loader.cache name other).trans (if_neg ?_)
      exact fun heq => hname (congrArg some heq)
  | clear => exact absurd rfl hclear
  | isCached _ => rfl

theorem Recalls.accords (h : engine.Recalls options history) (call : Call) :
    (engine.record call).Accords options history where
  answers := h.answers call
  failed _ _ := cache_left_of_failed
  others _ := get?_left_of_ne

theorem map_call_trace (engine : Engine σ) (steps : List (Step σ)) :
    (engine.trace steps).map (·.call) = steps.map (·.call) := by
  induction steps generalizing engine with
  | nil => rfl
  | cons step steps ih =>
      rw [Engine.trace, List.map_cons, List.map_cons, ih]
      rfl

-- The history in front of a run may be any that the cache agrees with.
theorem Recalls.trace {steps : List (Step σ)} {before after : List (Record σ)} {record : Record σ}
    (h : engine.Recalls options history) (htrace : engine.trace steps = before ++ record :: after) :
    record.Accords options (history ++ before) := by
  induction steps generalizing engine history before with
  | nil => simp [Engine.trace] at htrace
  | cons step steps ih =>
      have hfound := h.changeSource step.change
      cases before with
      | nil =>
          obtain ⟨rfl, -⟩ := List.cons.inj htrace
          rw [List.append_nil]
          exact hfound.accords step.call
      | cons first before =>
          obtain ⟨rfl, hrest⟩ := List.cons.inj htrace
          have := ih (hfound.record step.call) hrest
          rwa [List.append_assoc] at this

-- Whatever happens to the source between the calls, each call answers as the history before it says.
theorem trace_accords (source : σ) (options : Options) (steps : List (Step σ)) :
    ((ofSource source options).trace steps).map (·.call) = steps.map (·.call) ∧
      ∀ before record after, (ofSource source options).trace steps = before ++ record :: after →
        record.Accords options before := by
  refine ⟨map_call_trace _ steps, ?_⟩
  intro before record after htrace
  exact (recalls_ofSource source options).trace htrace

-- A failed load, a text that strict reading rejects, and a load once the source has another text.
def staleSteps : List (Step ScriptedSource) :=
  [{ call := .load "a" },
    { change := (·.set "a" (.text (Node.openerText .each ⟨"b"⟩))), call := .render "a" .empty },
    { change := (·.set "a" (.text "new")), call := .load "a" }]

theorem trace_accords_stale :
    ∃ before record,
      (ofSource {} { strict := true }).trace staleSteps = before ++ [record] ∧
      record.found.loader.source.answer "a" = .ok "new" ∧
      firstFetched "a" before = some (Node.openerText .each ⟨"b"⟩) ∧
      record.reply = .text (.ok (Node.openerText .each ⟨"b"⟩)) ∧
      record.Accords { strict := true } before := by
  have htrace : (ofSource {} { strict := true }).trace staleSteps = [_, _] ++ [_] := rfl
  exact ⟨_, _, htrace, rfl, rfl, rfl, (trace_accords _ _ staleSteps).2 _ _ _ htrace⟩

end Stencil.Engine

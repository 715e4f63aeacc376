import Stencil.Engine

namespace Stencil

variable {σ : Type}

-- What a source was asked, and what it answered.
abbrev Fetches := List (String × Except Error String)

-- The first text of `name` among the answers.
def Fetches.text? (fetches : Fetches) (name : String) : Option String :=
  fetches.findSome? fun fetch => if fetch.1 = name then fetch.2.toOption else none

structure Watched (σ : Type) where
  source : σ
  asked : Fetches := []

instance [Source σ] : Source (Watched σ) where
  fetch watched name :=
    ((Source.fetch watched.source name).1,
      { source := (Source.fetch watched.source name).2,
        asked := watched.asked ++ [(name, (Source.fetch watched.source name).1)] })

namespace Loader

def watch (loader : Loader σ) : Loader (Watched σ) :=
  { source := { source := loader.source }, cache := loader.cache }

def unwatch (loader : Loader (Watched σ)) : Loader σ :=
  { source := loader.source.source, cache := loader.cache }

variable [Source σ] {loader : Loader σ} {name : String}

theorem watch_load_of_cached {text : String} (h : loader.cache.get? name = some text) :
    loader.watch.load name = (.ok text, loader.watch) :=
  load_of_cached h

theorem watch_load_of_missing (h : loader.cache.get? name = none) :
    loader.watch.load name =
      ((Source.fetch loader.source name).1,
        { source := ⟨(Source.fetch loader.source name).2, [(name, (Source.fetch loader.source name).1)]⟩,
          cache := keep loader.cache name (Source.fetch loader.source name).1 }) :=
  load_of_missing h

theorem load_watch (loader : Loader σ) (name : String) :
    (loader.watch.load name).1 = (loader.load name).1 ∧
      (loader.watch.load name).2.unwatch = (loader.load name).2 := by
  cases hcache : loader.cache.get? name with
  | some text => rw [load_of_cached hcache, watch_load_of_cached hcache]; exact ⟨rfl, rfl⟩
  | none => rw [load_of_missing hcache, watch_load_of_missing hcache]; exact ⟨rfl, rfl⟩

-- What the source is asked by a load.
def asked (loader : Loader σ) (name : String) : Fetches :=
  (loader.watch.load name).2.source.asked

theorem asked_of_cached {text : String} (h : loader.cache.get? name = some text) :
    loader.asked name = [] := by
  rw [asked, watch_load_of_cached h]
  rfl

theorem asked_of_missing (h : loader.cache.get? name = none) :
    loader.asked name = [(name, (Source.fetch loader.source name).1)] := by
  rw [asked, watch_load_of_missing h]

theorem get?_load (loader : Loader σ) (name other : String) :
    (loader.load name).2.cache.get? other =
      (loader.cache.get? other).or ((loader.asked name).text? other) := by
  cases hcache : loader.cache.get? name with
  | some text => simp [load_of_cached hcache, asked_of_cached hcache, Fetches.text?]
  | none =>
      rw [load_of_missing hcache, asked_of_missing hcache, get?_keep]
      by_cases hname : name = other
      · subst hname
        simp [Fetches.text?, hcache]
      · simp [Fetches.text?, hname]

theorem get?_load_of_ne (loader : Loader σ) {name other : String} (h : name ≠ other) :
    (loader.load name).2.cache.get? other = loader.cache.get? other := by
  cases hcache : loader.cache.get? name with
  | some text => rw [load_of_cached hcache]
  | none => rw [load_of_missing hcache, get?_keep, if_neg h, Option.none_or]

theorem cache_load_of_failed {other : String} {error : Error}
    (h : (other, .error error) ∈ loader.asked name) : (loader.load name).2.cache = loader.cache := by
  cases hcache : loader.cache.get? name with
  | some text => rw [load_of_cached hcache]
  | none =>
      rw [asked_of_missing hcache, List.mem_singleton, Prod.mk.injEq] at h
      rw [load_of_missing hcache, ← h.2]
      rfl

end Loader

namespace Engine

inductive Call where
  | load (name : String)
  | render (name : String) (context : Context)
  | renderText (text : String) (context : Context)
  | remove (name : String)
  | clear
  | isCached (name : String)

inductive Reply where
  | text (result : Except Error String)
  | flag (value : Bool)
  | done

def answer [Source σ] (engine : Engine σ) : Call → Reply × Engine σ
  | .load name =>
    (.text (engine.loader.load name).1, { engine with loader := (engine.loader.load name).2 })
  | .render name context =>
    (.text (engine.render name context).1, (engine.render name context).2)
  | .renderText text context => (.text (engine.renderText text context), engine)
  | .remove name =>
    (.flag (engine.loader.removeFromCache name).1,
      { engine with loader := (engine.loader.removeFromCache name).2 })
  | .clear => (.done, { engine with loader := engine.loader.clearCache })
  | .isCached name => (.flag (engine.loader.isCached name), engine)

def watch (engine : Engine σ) : Engine (Watched σ) :=
  { loader := engine.loader.watch, options := engine.options }

def unwatch (engine : Engine (Watched σ)) : Engine σ :=
  { loader := engine.loader.unwatch, options := engine.options }

-- The questions are listed by watching the source, which changes neither the replies nor the engine.
theorem answer_watch [Source σ] (engine : Engine σ) (call : Call) :
    (engine.watch.answer call).1 = (engine.answer call).1 ∧
      (engine.watch.answer call).2.unwatch = (engine.answer call).2 := by
  cases call with
  | load name =>
      obtain ⟨hresult, hloader⟩ := engine.loader.load_watch name
      simp [answer, watch, unwatch, hresult, hloader]
  | render name context =>
      obtain ⟨hresult, hloader⟩ := engine.loader.load_watch name
      simp [answer, render_eq, renderText, watch, unwatch, hresult, hloader]
  | renderText _ _ => exact ⟨rfl, rfl⟩
  | remove _ => exact ⟨rfl, rfl⟩
  | clear => exact ⟨rfl, rfl⟩
  | isCached _ => exact ⟨rfl, rfl⟩

-- One call with the engine as the call found and left it, and the questions of the call to the source.
structure Record (σ : Type) where
  found : Engine σ
  call : Call
  fetches : Fetches
  reply : Reply
  left : Engine σ

def record [Source σ] (engine : Engine σ) (call : Call) : Record σ where
  found := engine
  call := call
  fetches := (engine.watch.answer call).2.loader.source.asked
  reply := (engine.answer call).1
  left := (engine.answer call).2

-- A render asks for what a load of the name asks for, and leaves the engine as that does.
theorem record_render [Source σ] (engine : Engine σ) (name : String) (context : Context) :
    engine.record (.render name context) =
      { engine.record (.load name) with
        call := .render name context
        reply := .text ((engine.loader.load name).1.bind (engine.renderText · context)) } := by
  simp [record, answer, render_eq]

-- A call, and what happens to the source before it.
structure Step (σ : Type) where
  change : σ → σ := id
  call : Call

def changeSource (change : σ → σ) (engine : Engine σ) : Engine σ :=
  { engine with loader := { engine.loader with source := change engine.loader.source } }

def trace [Source σ] (engine : Engine σ) : List (Step σ) → List (Record σ)
  | [] => []
  | step :: steps =>
    let record := (engine.changeSource step.change).record step.call
    record :: record.left.trace steps

end Engine

end Stencil

import Stencil.Source

namespace Stencil

-- A cache in front of a source. The first text that was fetched under a name is kept until it is dropped; failures
-- are not kept.
structure Loader (σ : Type) where
  source : σ
  cache : Dict String := .empty

namespace Loader

variable {σ : Type}

-- Answers from the cache, or asks the source once and keeps the text.
def load [Source σ] (loader : Loader σ) (name : String) : Except Error String × Loader σ :=
  match loader.cache.get? name with
  | some text => (.ok text, loader)
  | none =>
    match Source.fetch loader.source name with
    | (.ok text, source) => (.ok text, { source, cache := loader.cache.insert name text })
    | (.error error, source) => (.error error, { loader with source })

def isCached (loader : Loader σ) (name : String) : Bool :=
  loader.cache.contains name

def clearCache (loader : Loader σ) : Loader σ :=
  { loader with cache := .empty }

def removeFromCache (loader : Loader σ) (name : String) : Bool × Loader σ :=
  (loader.isCached name, { loader with cache := loader.cache.erase name })

-- The cache after an answer of the source.
def keep (cache : Dict String) (name : String) : Except Error String → Dict String
  | .ok text => cache.insert name text
  | .error _ => cache

theorem get?_keep (cache : Dict String) (name : String) (result : Except Error String)
    (other : String) :
    (keep cache name result).get? other =
      (if name = other then result.toOption else none).or (cache.get? other) := by
  cases result with
  | ok text => simp only [keep, Dict.get?_insert, Except.toOption]; split <;> rfl
  | error error => simp [keep, Except.toOption]

theorem load_of_cached [Source σ] {loader : Loader σ} {name text : String}
    (h : loader.cache.get? name = some text) : loader.load name = (.ok text, loader) := by
  simp [load, h]

theorem load_of_missing [Source σ] {loader : Loader σ} {name : String}
    (h : loader.cache.get? name = none) :
    loader.load name =
      ((Source.fetch loader.source name).1,
        { source := (Source.fetch loader.source name).2,
          cache := keep loader.cache name (Source.fetch loader.source name).1 }) := by
  simp only [load, h]
  split <;> next hfetch => simp [hfetch, keep]

end Loader

end Stencil

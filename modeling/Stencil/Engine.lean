import Stencil.Loader
import Stencil.Template

namespace Stencil

structure Engine (σ : Type) where
  loader : Loader σ
  options : Options := {}

namespace Engine

variable {σ : Type}

def ofSource (source : σ) (options : Options) : Engine σ :=
  { loader := { source }, options }

def render [Source σ] (engine : Engine σ) (name : String) (context : Context) :
    Except Error String × Engine σ :=
  match engine.loader.load name with
  | (.ok text, loader) => (Stencil.renderWith engine.options text context, { engine with loader })
  | (.error error, loader) => (.error error, { engine with loader })

def renderText (engine : Engine σ) (text : String) (context : Context) : Except Error String :=
  Stencil.renderWith engine.options text context

theorem render_eq [Source σ] (engine : Engine σ) (name : String) (context : Context) :
    engine.render name context =
      ((engine.loader.load name).1.bind (engine.renderText · context),
        { engine with loader := (engine.loader.load name).2 }) := by
  unfold render
  split <;> next hload => simp [hload, Except.bind, renderText]

end Engine

end Stencil

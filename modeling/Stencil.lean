import Stencil.Directory
import Stencil.Engine
import Stencil.Json.Codec
import Stencil.Proofs.Tag.Recogniser
import Stencil.Proofs.Node.Tidy
import Stencil.Proofs.Outline
import Stencil.Proofs.Reading
import Stencil.Proofs.Outline.Legible
import Stencil.Proofs.Draft.Tiles
import Stencil.Proofs.Builder.Frames
import Stencil.Proofs.Builder.Closing
import Stencil.Proofs.Builder.Invariant
import Stencil.Proofs.Builder.Steps
import Stencil.Proofs.Builder.Run
import Stencil.Proofs.Backtracking
import Stencil.Proofs.Node.Spells
import Stencil.Proofs.Outline.Lists
import Stencil.Proofs.Lossless
import Stencil.Proofs.NestingLimit
import Stencil.Proofs.Strict.WellFormed
import Stencil.Proofs.Strict.Completeness
import Stencil.Proofs.Strict.Grammar
import Stencil.Proofs.Scope.Overlay
import Stencil.Proofs.Scope.Copies
import Stencil.Proofs.Strict.Traces
import Stencil.Proofs.Strict.Agreement
import Stencil.Proofs.Escape
import Stencil.Proofs.Markup
import Stencil.Proofs.Engine.Run
import Stencil.Proofs.Engine.History
import Stencil.Proofs.Usage.Dependence
import Stencil.Proofs.Dict
import Stencil.Proofs.Json.RoundTrip
import Stencil.Proofs.Outline.Settled
import Stencil.Proofs.Strict.Faults
import Stencil.Proofs.Concatenation
import Stencil.Proofs.Tag.Repadded
import Stencil.Proofs.Outline.Canonical
import Stencil.Proofs.Padding
import Stencil.Proofs.Tag.Search
import Stencil.Proofs.Builder.Course
import Stencil.Proofs.Tag.Grammar
import Stencil.Proofs.Builder.Rewinds
import Stencil.Proofs.Tokens
import Stencil.Proofs.Strict.Earliest
import Stencil.Proofs.FilePath
import Stencil.Proofs.Directory
import Stencil.Proofs.Usage.FirstUses
import Stencil.Proofs.Escape.Decoding
import Stencil.Proofs.Sequence
import Stencil.Proofs.Scope.Chain
import Stencil.Proofs.Builder.LookAhead
import Stencil.Proofs.Builder.Shortcuts
import Stencil.Proofs.Bytes
import Stencil.Proofs.Draft.Filled
import Stencil.Proofs.Builder.Nesting
import Stencil.Proofs.Builder.Extents
import Stencil.Proofs.Decimal

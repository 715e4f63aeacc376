import Stencil.Proofs.Builder.Run

namespace Stencil

namespace Node

variable {options : Options} {text : List Char}

-- The stack of open blocks, the openers remembered as unclosed and the closing tags looked up ahead change nothing
-- about what is read.
theorem parse_eq_plain_reading (hlenient : options.strict = false)
    (hdepth : braces text ≤ options.maxDepth) :
    parse options text = .ok (Outline.read options.allowPadding none false text).body.toNodes := by
  have hwithin := Outline.within_ofText options text hdepth
  rw [parse_lenient hlenient, Outline.limit_of_within hwithin]
  rfl

-- The loop is never closed, and the conditional inside it ends at its own closing tag.
theorem parse_eq_plain_reading_misnested :
    parse {} (openerText .each ⟨"a"⟩ ++ openerText .ifTrue ⟨"b"⟩ ++ closerText .each ++
      closerText .ifTrue).toList =
        .ok [.text (openerText .each ⟨"a"⟩), .block .ifTrue ⟨"b"⟩ [.text (closerText .each)]] := by
  rw [parse_eq_plain_reading rfl (by decide)]
  with_unfolding_all rfl

end Node

end Stencil

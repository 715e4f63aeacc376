namespace Stencil

structure Options where
  -- Malformed syntax is an error; otherwise it stays in the output as it is written.
  strict : Bool := false
  -- Blocks inside this many others are an error when strict, otherwise their tags stay text.
  maxDepth : Nat := 128
  -- ASCII whitespace may stand just inside the braces of a tag.
  allowPadding : Bool := false
deriving DecidableEq, Repr, Inhabited

end Stencil

namespace Stencil

inductive ParseFault where
  -- Two braces that begin no tag, with the text found there.
  | invalidTag (found : String)
  | unexpectedTag (tag : String)
  | unclosedBlock (keyword : String)
  | nestingTooDeep (limit : Nat)
deriving DecidableEq, Repr

namespace ParseFault

def message : ParseFault → String
  | .invalidTag found => "Invalid tag '" ++ found ++ "'"
  | .unexpectedTag tag => "Unexpected '" ++ tag ++ "' outside of a matching block"
  | .unclosedBlock keyword => "Unexpected EOF (expected '\x7b\x7b/" ++ keyword ++ "\x7d\x7d')"
  | .nestingTooDeep limit => "Blocks nested deeper than the limit of " ++ toString limit

end ParseFault

-- A fault and where it is, both counted from one; columns count characters.
structure ParseError where
  line : Nat
  column : Nat
  fault : ParseFault
deriving DecidableEq, Repr

namespace ParseError

def message (e : ParseError) : String :=
  "Parse error at line " ++ toString e.line ++ ", column " ++ toString e.column ++ ": " ++ e.fault.message

end ParseError

inductive Error where
  | templateExists (name : String)
  | missingTemplate (name : String)
  -- The template is there, or might be, but cannot be read.
  | templateLoad (name : String) (reason : String)
  | parse (error : ParseError)
deriving DecidableEq, Repr

namespace Error

def message : Error → String
  | .templateExists name => "Template already exists: " ++ name
  | .missingTemplate name => "Template not found: " ++ name
  | .templateLoad name reason => "Failed to load template " ++ name ++ ": " ++ reason
  | .parse error => error.message

-- The texts of what caused the error, from the nearest cause to the first.
def causes : Error → List String
  | .parse error => [error.message, error.fault.message]
  | _ => []

end Error

end Stencil

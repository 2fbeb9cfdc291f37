import Stencil.Diagnostic

namespace Stencil

-- Blocks may nest this deep.
def maxNesting : Nat :=
  64

inductive SyntaxError
  | missingIdentifier
  | missingClose
  | invalidEscape (text : String)
  | unexpected (text : String)
  | tooDeep
  deriving DecidableEq, Inhabited

def SyntaxError.message : SyntaxError → String
  | missingIdentifier  => "missing identifier"
  | missingClose       => "missing closing \"]\""
  | invalidEscape text => "invalid escape sequence \"" ++ text ++ "\""
  | unexpected text    => "unexpected \"" ++ text ++ "\""
  | tooDeep            => "blocks nested deeper than " ++ toString maxNesting

end Stencil

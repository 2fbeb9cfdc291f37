import Stencil.Template.Block
import Stencil.Token.Scan

namespace Stencil

structure Template where
  root   : Node
  faults : List (Fault SyntaxError)

namespace Template

-- Reads the tokens of a text to their end.
def ofTokens (text : String) (ts : List Token) : Template :=
  let src := Source.ofTokens text ts
  let found := src.concat (src.blocks maxNesting) none ts
  ⟨found.value, found.faults⟩

def read (text : String) : Template :=
  ofTokens text (Token.scan text)

def diagnostics (t : Template) : List Diagnostic :=
  t.faults.map (·.diagnostic SyntaxError.message)

end Template
end Stencil

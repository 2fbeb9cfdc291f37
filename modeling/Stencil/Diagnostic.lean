import Stencil.Span

namespace Stencil

-- A problem as it is shown: where it is, and what it is in words.
@[ext]
structure Diagnostic where
  span    : Span
  message : String
  deriving DecidableEq, Inhabited

def Diagnostic.render (d : Diagnostic) : String :=
  d.span.render ++ ": " ++ d.message

-- A cause of type `ε`, tied to the stretch of text that shows it. Reading and rendering both go on
-- after a fault, and its wording is made only for display.
@[ext]
structure Fault (ε : Type) where
  span  : Span
  cause : ε
  deriving DecidableEq

namespace Fault

variable {ε : Type}

def diagnostic (message : ε → String) (f : Fault ε) : Diagnostic :=
  ⟨f.span, message f.cause⟩

end Fault
end Stencil

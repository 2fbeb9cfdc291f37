import Stencil.Render.Machine
import Stencil.Template.Basic

namespace Stencil

-- The shown text, the places in the source that show it, and the code form if it was asked for.
structure Rendering where
  result : String
  spans  : List Span
  code   : Option String
  faults : List (Fault EvalError)

namespace Rendering

-- A rendering always has a place: without visible pieces, that of the whole tree.
def ofFragment (ctx : Context) (root : Node) (f : Fragment) (faults : List (Fault EvalError)) :
    Rendering where
  result := f.text
  spans  := if f.spans.isEmpty then [root.span] else f.spans
  code   := if ctx.emitCode then some f.code else none
  faults := faults

def diagnostics (r : Rendering) : List Diagnostic :=
  r.faults.map (·.diagnostic EvalError.message)

end Rendering

namespace Node

-- Renders a tree with a list of tasks.
def render (ctx : Context) (root : Node) : Rendering :=
  let m := Machine.run ctx {} [.visit root]
  .ofFragment ctx root (m.values.back?.getD (.blank root.span)) m.faults.toList

-- Renders a tree by recursion.
def interpret (ctx : Context) (root : Node) : Rendering :=
  let (f, faults) := ctx.evaluate root
  .ofFragment ctx root f faults

end Node

-- All that one rendering of a text gives.
structure Report where
  result      : String
  spans       : List Span
  code        : Option String
  parseErrors : List Diagnostic
  errors      : List Diagnostic

namespace Report

-- What is wrong with the text comes before what is wrong with its values.
def diagnostics (r : Report) : List Diagnostic :=
  r.parseErrors ++ r.errors

def hasErrors (r : Report) : Bool :=
  !r.parseErrors.isEmpty || !r.errors.isEmpty

end Report

-- Renders a text.
def render (ctx : Context) (text : String) : Report :=
  let template := Template.read text
  let shown := template.root.render ctx
  ⟨shown.result, shown.spans, shown.code, template.diagnostics, shown.diagnostics⟩

end Stencil

import Stencil.Code
import Stencil.Command.Arguments
import Stencil.Command.Run
import Stencil.Diagnostic
import Stencil.Json.Basic
import Stencil.Json.Number
import Stencil.Json.Printer
import Stencil.Json.Reader
import Stencil.Main
import Stencil.Node.Basic
import Stencil.Node.Outline
import Stencil.Number.Binary64
import Stencil.Number.Reading
import Stencil.Number.Rounding
import Stencil.Number.Shortest
import Stencil.Number.Style
import Stencil.Output.Document
import Stencil.Output.Plain
import Stencil.Proofs.Code.Decision
import Stencil.Proofs.Code.Expression
import Stencil.Proofs.Code.Literal
import Stencil.Proofs.Json.Walk
import Stencil.Proofs.Node.Listing
import Stencil.Proofs.Node.Move
import Stencil.Proofs.Node.Replace
import Stencil.Proofs.Node.Within
import Stencil.Proofs.Number.Rounding
import Stencil.Proofs.Number.Shortest
import Stencil.Proofs.Number.Spelling
import Stencil.Proofs.Render.Append
import Stencil.Proofs.Render.Decisions
import Stencil.Proofs.Render.Emitted
import Stencil.Proofs.Render.Failure
import Stencil.Proofs.Render.Follow
import Stencil.Proofs.Render.Highlight
import Stencil.Proofs.Render.Machine
import Stencil.Proofs.Render.Move
import Stencil.Proofs.Render.Outcome
import Stencil.Proofs.Render.Plain
import Stencil.Proofs.Render.Presence
import Stencil.Proofs.Render.Ranges
import Stencil.Proofs.Render.Rules
import Stencil.Proofs.Render.Shown
import Stencil.Proofs.Render.Success
import Stencil.Proofs.Render.Thresholds
import Stencil.Proofs.Render.WithoutCode
import Stencil.Proofs.Span.Row
import Stencil.Proofs.Symbol.OfJson
import Stencil.Proofs.Symbol.Resolution
import Stencil.Proofs.Symbol.Walk
import Stencil.Proofs.Symbol.WithoutCode
import Stencil.Proofs.Table.Entries
import Stencil.Proofs.Template.Accepted
import Stencil.Proofs.Template.Chunk
import Stencil.Proofs.Template.Closing
import Stencil.Proofs.Template.Complete
import Stencil.Proofs.Template.Dedent
import Stencil.Proofs.Template.Descent
import Stencil.Proofs.Template.Fidelity
import Stencil.Proofs.Template.Finds
import Stencil.Proofs.Template.Fronts
import Stencil.Proofs.Template.Grammar
import Stencil.Proofs.Template.Heads
import Stencil.Proofs.Template.Limit
import Stencil.Proofs.Template.Locality
import Stencil.Proofs.Template.Made
import Stencil.Proofs.Template.Origin
import Stencil.Proofs.Template.Placing
import Stencil.Proofs.Template.Shape
import Stencil.Proofs.Template.Skipping
import Stencil.Proofs.Template.Stage
import Stencil.Proofs.Template.Texts
import Stencil.Proofs.Template.Walk
import Stencil.Proofs.Template.Yield
import Stencil.Proofs.Token.Append
import Stencil.Proofs.Token.Brackets
import Stencil.Proofs.Token.Excerpt
import Stencil.Proofs.Token.LineStart
import Stencil.Proofs.Token.Maximal
import Stencil.Proofs.Token.Place
import Stencil.Proofs.Token.Stability
import Stencil.Proofs.Token.Step
import Stencil.Proofs.Token.Tiling
import Stencil.Render.Block
import Stencil.Render.EvalError
import Stencil.Render.Evaluate
import Stencil.Render.Fragment
import Stencil.Render.Machine
import Stencil.Render.Report
import Stencil.Span
import Stencil.Symbol.Basic
import Stencil.Symbol.Lookup
import Stencil.Symbol.OfJson
import Stencil.Table
import Stencil.Template.Basic
import Stencil.Template.Block
import Stencil.Template.Descent
import Stencil.Template.Source
import Stencil.Template.SyntaxError
import Stencil.Text.Hidden
import Stencil.Text.Visible
import Stencil.Token.Basic
import Stencil.Token.Cursor
import Stencil.Token.Lexeme
import Stencil.Token.Scan
import Stencil.Token.Zone


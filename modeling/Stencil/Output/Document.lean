import Stencil.Json.Printer
import Stencil.Render.Report

namespace Stencil

def Position.toJson (p : Position) : Json :=
  .object [("line", .ofNat p.line), ("col", .ofNat p.col)]

def Span.toJson (s : Span) : Json :=
  .object [("start", s.start.toJson), ("end", s.stop.toJson)]

def Diagnostic.toJson (d : Diagnostic) : Json :=
  .object [("range", d.span.toJson), ("message", .string d.message)]

def Report.toJson (r : Report) : Json :=
  .object [
    ("result", .string r.result),
    ("ranges", .array (r.spans.map Span.toJson)),
    ("code", r.code.elim .null .string),
    ("parse_errors", .array (r.parseErrors.map Diagnostic.toJson)),
    ("errors", .array (r.errors.map Diagnostic.toJson))]

def Token.toJson (source : Array Char) (t : Token) : Json :=
  .object [
    ("kind", .string t.kind.word),
    ("range", t.span.toJson),
    ("offset", .ofNat t.offset),
    ("text", .string (t.content source))]

def Token.document (text : String) (ts : List Token) : Json :=
  .array (ts.map (Token.toJson text.toList.toArray))

namespace Node

-- A node as an object with its place, and with its kind and what belongs to it.
def tagged (n : Node) (value : Json) : Json :=
  .object [
    ("range", n.span.toJson),
    ("kind", .object [("type", .string n.kind), ("value", value)])]

mutual

def toJson : Node → Json
  | n@(.name _ s) | n@(.text _ s) | n@(.error _ s) => n.tagged (.string s)
  | n@(.number _ x literal) =>
    n.tagged (.object [("value", .number (.real x)), ("literal", .string literal)])
  | n@(.concat _ ns) | n@(.arguments _ ns) | n@(.results _ ns) | n@(.retrieve _ ns)
  | n@(.present _ ns)    => n.tagged (.array (toJsonAll ns))
  | n@(.access _ l r)    => n.tagged (.object [("left", l.toJson), ("right", r.toJson)])
  | n@(.block _ p as rs) =>
    n.tagged (.object [("identity", p.toJson), ("args", as.toJson), ("results", rs.toJson)])

def toJsonAll : List Node → List Json
  | []      => []
  | n :: ns => n.toJson :: toJsonAll ns

end

end Node

-- The text of a document, ended by a line end.
def Json.document (j : Json) : String :=
  j.write ++ "\n"

end Stencil

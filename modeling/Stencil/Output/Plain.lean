import Stencil.Node.Outline
import Stencil.Render.Report

namespace Stencil

-- The rendered text, and its code form, if there is one, below a rule.
def Report.plain (r : Report) : String :=
  r.result ++ "\n" ++ r.code.elim "" ("---\n" ++ · ++ "\n")

-- One line for each diagnostic.
def Diagnostic.lines (ds : List Diagnostic) : String :=
  String.join (ds.map (·.render ++ "\n"))

-- One line for a token of a source.
def Token.line (source : Array Char) (t : Token) : String :=
  t.span.render ++ " " ++ t.kind.word ++ " " ++ Text.quoted (t.content source) ++ "\n"

-- One line for each token of a text.
def Token.plain (text : String) (ts : List Token) : String :=
  String.join (ts.map (Token.line text.toList.toArray))

end Stencil

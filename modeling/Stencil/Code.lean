namespace Stencil
namespace Code

-- The spelling of a character inside a quoted literal.
def escape (c : Char) : List Char :=
  if c = '\\' then ['\\', '\\']
  else if c = '\n' then ['\\', 'n']
  else if c = '\'' then ['\\', '\'']
  else if c = '"' then ['\\', '"']
  else [c]

-- A literal in double quotes, which holds no raw line end and no bare quote.
def quote (text : String) : String :=
  String.ofList ('"' :: text.toList.flatMap escape ++ ['"'])

-- Reads the rest of a quoted literal after its opening quote: the text, and what comes after the
-- literal. A literal that does not end is none.
def literalRest? : List Char → Option (List Char × List Char)
  | []           => none
  | '"' :: cs    => some ([], cs)
  | ['\\']       => none
  | '\\' :: c :: cs =>
    let d? := if c = 'n' then some '\n'
      else if c = '\\' ∨ c = '\'' ∨ c = '"' then some c else none
    match d?, literalRest? cs with
    | some d, some (text, rest) => some (d :: text, rest)
    | _, _                      => none
  | c :: cs =>
    match literalRest? cs with
    | some (text, rest) => some (c :: text, rest)
    | none              => none

-- Reads a quoted literal off the front of some characters.
def literal? : List Char → Option (List Char × List Char)
  | []      => none
  | c :: cs => if c = '"' then literalRest? cs else none

def list (items : List String) : String :=
  ", ".intercalate items

-- A condition with the code for the case that it holds.
structure Branch where
  condition : String
  result    : String
  deriving DecidableEq, Inhabited

-- A chain of conditions, asked from first to last; `otherwise` is for the case that none holds.
def condition (otherwise : Option String) : List Branch → String
  | []      => otherwise.getD (quote "")
  | b :: bs => "(" ++ b.condition ++ " ? " ++ b.result ++ " : " ++ condition otherwise bs ++ ")"

-- A call: `f()`, `f(a, b)`, `f(r, s)` or `f([a, b], [r, s])`.
def call (path : String) (args results : List String) : String :=
  match args, results with
  | [], []      => path ++ "()"
  | _, []       => path ++ "(" ++ list args ++ ")"
  | [], _       => path ++ "(" ++ list results ++ ")"
  | _, _        => path ++ "([" ++ list args ++ "], [" ++ list results ++ "])"

end Code
end Stencil

import Stencil.Span

namespace Stencil

-- Blanks are spaces and tabs.
def isBlank (c : Char) : Bool :=
  c = ' ' || c = '\t'

inductive Token.Kind
  | text          -- a run of prose, or a piece of one argument
  | escape        -- `\[`
  | bracketOpen
  | bracketClose
  | pipe
  | dot
  | question
  | blank         -- spaces and tabs
  | name          -- one segment of a path
  | article       -- `an` or `An`, right before `]`
  | newline
  | stray         -- a character that nothing else accepts
  deriving DecidableEq, Inhabited

namespace Token.Kind

-- The word for a kind in listings.
def word : Token.Kind → String
  | text         => "String"
  | escape       => "Escape"
  | bracketOpen  => "BracketOpen"
  | bracketClose => "BracketClose"
  | pipe         => "Pipe"
  | dot          => "Dot"
  | question     => "QuestionMark"
  | blank        => "Whitespace"
  | name         => "Identity"
  | article      => "Article"
  | newline      => "Newline"
  | stray        => "Error"

-- Blanks and line ends are skipped inside a block.
def isSpace : Token.Kind → Bool
  | blank | newline => true
  | _               => false

-- These kinds make up prose.
def isProse : Token.Kind → Bool
  | text | escape | newline | blank => true
  | _                               => false

-- These kinds can stand as a segment of a path.
def isSegment : Token.Kind → Bool
  | name | article => true
  | _              => false

-- These kinds make up an argument.
def isArgument : Token.Kind → Bool
  | text | dot => true
  | _          => false

end Token.Kind

-- A stretch of one line. The line begins at index `offset` of the source.
@[ext]
structure Token where
  kind   : Token.Kind
  span   : Span
  offset : Nat
  deriving DecidableEq, Inhabited

namespace Token

-- The index in the source of the token's first character.
def first (t : Token) : Nat :=
  t.offset + t.span.start.col

-- The index in the source just past the token's last character.
def past (t : Token) : Nat :=
  t.offset + t.span.stop.col

-- The characters the token covers; none if it does not fit into the source.
def slice (source : Array Char) (t : Token) : List Char :=
  if t.past ≤ source.size then (source.extract t.first t.past).toList else []

def content (source : Array Char) (t : Token) : String :=
  String.ofList (t.slice source)

end Token
end Stencil

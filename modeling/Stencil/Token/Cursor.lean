import Stencil.Token.Basic

namespace Stencil
namespace Token

-- The empty span after the last of the tokens.
def finish (ts : List Token) : Span :=
  ts.getLast?.elim .origin (.point ·.span.stop)

-- The span of the next token, or `finish` if there is none.
def spanAhead (finish : Span) : List Token → Span
  | []     => finish
  | t :: _ => t.span

-- Leaves out blanks and line ends at the front.
def dropSpace (ts : List Token) : List Token :=
  ts.dropWhile (·.kind.isSpace)

theorem length_dropWhile_le {α : Type} (p : α → Bool) (l : List α) :
    (l.dropWhile p).length ≤ l.length := by
  induction l with
  | nil => exact Nat.le_refl _
  | cons a l ih =>
    rw [List.dropWhile_cons]
    split
    · exact Nat.le_succ_of_le ih
    · exact Nat.le_refl _

theorem length_dropSpace_le (ts : List Token) : (dropSpace ts).length ≤ ts.length :=
  length_dropWhile_le _ ts

end Token

@[ext]
structure Cursor where
  ahead : List Token
  last? : Option Token
  deriving DecidableEq

namespace Cursor

def ofTokens (ts : List Token) : Cursor :=
  ⟨ts, ts.getLast?⟩

def atEnd (c : Cursor) : Bool :=
  c.ahead.isEmpty

def current? (c : Cursor) : Option Token :=
  c.ahead.head?

def kind? (c : Cursor) : Option Token.Kind :=
  c.current?.map (·.kind)

def looksAt (c : Cursor) (k : Token.Kind) : Bool :=
  c.kind? = some k

-- The span of the current token, or the empty span after the last one.
def span (c : Cursor) : Span :=
  Token.spanAhead (c.last?.elim .origin (.point ·.span.stop)) c.ahead

-- Takes the current token.
def advance? (c : Cursor) : Option (Token × Cursor) :=
  match c.ahead with
  | []      => none
  | t :: ts => some (t, { c with ahead := ts })

-- Takes the current token if it has the kind `k`.
def consume? (c : Cursor) (k : Token.Kind) : Option (Token × Cursor) :=
  if c.looksAt k then c.advance? else none

-- Moves past blanks and line ends.
def skipSpace (c : Cursor) : Cursor :=
  { c with ahead := Token.dropSpace c.ahead }

end Cursor
end Stencil

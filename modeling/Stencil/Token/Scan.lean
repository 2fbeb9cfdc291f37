import Stencil.Token.Lexeme

namespace Stencil

-- A place in a text: the characters ahead, the line and column, and the index `offset` at which the
-- line begins.
@[ext]
structure Scanner where
  rest      : List Char
  line      : Nat := 0
  col       : Nat := 0
  offset    : Nat := 0
  zones     : List Zone := [.prose]
  lineStart : Bool := false
  deriving DecidableEq

namespace Scanner

def start (text : String) : Scanner :=
  { rest := text.toList }

def position (s : Scanner) : Position :=
  ⟨s.line, s.col⟩

-- The lexeme at the front of the characters ahead, if there are any.
def lexeme? (s : Scanner) : Option Lexeme :=
  match s.rest with
  | []      => none
  | c :: cs => some (Lexeme.read s.zones s.lineStart c cs).forced

def token (s : Scanner) (l : Lexeme) : Token where
  kind   := l.kind
  span   := ⟨s.position, ⟨s.line, s.col + l.length⟩⟩
  offset := s.offset

-- Moves past a lexeme.
def pass (s : Scanner) (l : Lexeme) : Scanner where
  rest      := s.rest.drop l.length
  line      := if l.kind = .newline then s.line + 1 else s.line
  col       := if l.kind = .newline then 0 else s.col + l.length
  offset    := if l.kind = .newline then s.offset + (s.col + l.length) else s.offset
  zones     := l.zones
  lineStart := l.lineStart

-- The next token, and the scanner after it.
def next? (s : Scanner) : Option (Token × Scanner) :=
  s.lexeme?.map fun l => (s.token l, s.pass l)

theorem next?_eq_none_iff {s : Scanner} : s.next? = none ↔ s.rest = [] := by
  cases h : s.rest <;> simp [next?, lexeme?, h]

theorem rest_length_lt_of_next? {s s' : Scanner} {t : Token} (h : s.next? = some (t, s')) :
    s'.rest.length < s.rest.length := by
  cases hr : s.rest with
  | nil => simp [next?, lexeme?, hr] at h
  | cons c cs =>
    simp only [next?, lexeme?, hr, Option.map_some, Option.some.injEq, Prod.mk.injEq] at h
    obtain ⟨-, rfl⟩ := h
    have := (Lexeme.read s.zones s.lineStart c cs).length_forced_pos
    simp only [pass, hr, List.length_drop, List.length_cons]
    omega

-- All tokens ahead, each with the scanner after it.
def run (s : Scanner) : List (Token × Scanner) :=
  match _h : s.next? with
  | none         => []
  | some (t, s') => (t, s') :: run s'
termination_by s.rest.length
decreasing_by exact rest_length_lt_of_next? _h

theorem run_of_next?_eq_none {s : Scanner} (h : s.next? = none) : s.run = [] := by
  rw [run]
  split <;> simp_all

theorem run_of_next?_eq_some {s s' : Scanner} {t : Token} (h : s.next? = some (t, s')) :
    s.run = (t, s') :: s'.run := by
  rw [run]
  split <;> simp_all

def tokens (s : Scanner) : List Token :=
  s.run.map Prod.fst

end Scanner

-- The tokens of a text, in order.
def Token.scan (text : String) : List Token :=
  (Scanner.start text).tokens

end Stencil

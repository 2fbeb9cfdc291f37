import Stencil.Token.Basic
import Stencil.Token.Zone

namespace Stencil

-- The next token before its place is known, and the zones after it. The next lexeme stands at the
-- start of a line if `lineStart` is set.
@[ext]
structure Lexeme where
  kind      : Token.Kind
  length    : Nat
  zones     : List Zone
  lineStart : Bool := false
  deriving DecidableEq

namespace Lexeme

-- The length of the run of blanks that the characters begin with.
def blanks (cs : List Char) : Nat :=
  (cs.takeWhile isBlank).length

-- The length of the run before the first of the characters `stops`.
def run (stops cs : List Char) : Nat :=
  (cs.takeWhile (!stops.contains ·)).length

def proseStops : List Char :=
  ['[', '\n', '\\']

def resultStops : List Char :=
  ['[', ']', '|', '\n', '\\']

def segmentStops : List Char :=
  [' ', '\t', '\n', '.', '?', '|', ']']

def argumentStops : List Char :=
  [' ', '\t', '\n', '.', '|', ']']

-- The characters begin with the word `an` or `An` and the bracket that closes a block.
def startsArticle : List Char → Bool
  | c :: d :: e :: _ => (c = 'a' || c = 'A') && d = 'n' && e = ']'
  | _                => false

def openBlock (zones : List Zone) : Lexeme :=
  ⟨.bracketOpen, 1, .opening :: zones, false⟩

-- A bracket that closes no block is stray.
def closeBlock (zones : List Zone) : Lexeme :=
  match Zone.leave? zones with
  | some outer => ⟨.bracketClose, 1, outer, false⟩
  | none       => ⟨.stray, 1, zones, false⟩

def pipe (zones : List Zone) : Lexeme :=
  ⟨.pipe, 1, .results :: zones, false⟩

-- A line end separates a path from the arguments, like a blank.
def newline (zones : List Zone) : Lexeme :=
  ⟨.newline, 1, if Zone.current zones = .path then .arguments :: zones else zones, true⟩

def prose (zones : List Zone) (c : Char) (cs : List Char) : Lexeme :=
  if c = '[' then openBlock zones
  else ⟨.text, run proseStops (c :: cs), zones, false⟩

def results (zones : List Zone) (c : Char) (cs : List Char) : Lexeme :=
  if c = '[' then openBlock zones
  else if c = '|' then ⟨.pipe, 1, zones, false⟩
  else if c = ']' then closeBlock zones
  else ⟨.text, run resultStops (c :: cs), zones, false⟩

def path (zones : List Zone) (c : Char) (cs : List Char) : Lexeme :=
  if isBlank c then ⟨.blank, blanks (c :: cs), .arguments :: zones, false⟩
  else if c = '.' then ⟨.dot, 1, zones, false⟩
  else if c = '?' then ⟨.question, 1, zones, false⟩
  else if c = '|' then pipe zones
  else if c = ']' then closeBlock zones
  else if startsArticle (c :: cs) then ⟨.article, 2, zones, false⟩
  else ⟨.name, run segmentStops (c :: cs), zones, false⟩

def opening (zones : List Zone) (c : Char) (cs : List Char) : Lexeme :=
  if isBlank c then ⟨.blank, blanks (c :: cs), zones, false⟩
  else path (.path :: zones) c cs

def arguments (zones : List Zone) (c : Char) (cs : List Char) : Lexeme :=
  if isBlank c then ⟨.blank, blanks (c :: cs), zones, false⟩
  else if c = '.' then ⟨.dot, 1, zones, false⟩
  else if c = '|' then pipe zones
  else if c = ']' then closeBlock zones
  else ⟨.text, run argumentStops (c :: cs), zones, false⟩

-- A backslash escapes an opening bracket and nothing else.
def backslash (zones : List Zone) (cs : List Char) : Lexeme :=
  if cs.head? = some '[' then ⟨.escape, 2, zones, false⟩
  else ⟨.stray, 1, zones, false⟩

-- Reads the lexeme at the front of `c :: cs`.
def read (zones : List Zone) (lineStart : Bool) (c : Char) (cs : List Char) : Lexeme :=
  if lineStart && (Zone.current zones).isProse && isBlank c then
    ⟨.blank, blanks (c :: cs), zones, false⟩
  else if c = '\n' then newline zones
  else if c = '\\' then backslash zones cs
  else match Zone.current zones with
    | .prose     => prose zones c cs
    | .opening   => opening zones c cs
    | .path      => path zones c cs
    | .arguments => arguments zones c cs
    | .results   => results zones c cs

-- A lexeme of no length becomes one stray character, so that scanning always moves on.
def forced (l : Lexeme) : Lexeme :=
  if l.length = 0 then { l with kind := .stray, length := 1 } else l

theorem length_forced_pos (l : Lexeme) : 0 < l.forced.length := by
  unfold forced
  split
  · exact Nat.one_pos
  · exact Nat.pos_of_ne_zero ‹_›

end Lexeme
end Stencil

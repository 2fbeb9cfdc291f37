import Stencil.Code
import Stencil.Span
import Stencil.Symbol.Basic

namespace Stencil

-- A fragment with values from `α`.
@[ext]
structure Fragment.Of (α : Type) where
  value : α
  spans : List Span
  code  : String

-- What a node stands for. A path that leads nowhere is `missing`, and only the arguments and the
-- alternatives of a block are lists.
inductive Value
  | text (value : String)
  | number (value : Binary64)
  | boolean (value : Bool)
  | symbol (value : Symbol)
  | missing
  | list (items : List (Fragment.Of Value))

abbrev Fragment :=
  Fragment.Of Value

def Symbol.text : Symbol → String
  | string s   => s
  | number x   => x.render .code
  | boolean b  => if b then "true" else "false"
  | function _ => ""
  | object _   => ""

-- The text that a value shows.
def Value.render : Value → String
  | text s    => s
  | number x  => x.render .code
  | boolean b => if b then "true" else "false"
  | symbol s  => s.text
  | missing   => ""
  | list _    => ""

namespace Fragment

def ofValue (value : Value) (span : Span) (code : String) : Fragment :=
  ⟨value, [span], code⟩

-- What stands for something that failed: no text and no code.
def blank (span : Span) : Fragment :=
  ofValue (.text "") span ""

def text (f : Fragment) : String :=
  f.value.render

-- The text of an argument as it was written. The code of a number is its spelling.
def literal (f : Fragment) : String :=
  match f.value with
  | .number _ => f.code
  | _         => f.text

def items (f : Fragment) : List Fragment :=
  match f.value with
  | .list fs => fs
  | _        => []

-- In a list, code that is missing is replaced by an empty literal.
def orEmptyLiteral (f : Fragment) : Fragment :=
  if f.code = "" then { f with code := Code.quote "" } else f

end Fragment
end Stencil

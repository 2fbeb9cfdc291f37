import Stencil.Number.Style
import Stencil.Table

namespace Stencil

-- An argument as a function sees it.
inductive Argument
  | number (value : Binary64)
  | text (value : String)
  deriving DecidableEq, Inhabited

def Argument.render : Argument → String
  | number x => x.render .plain
  | text s   => s

-- What a function returns. A selection shows the alternative with that index.
inductive Outcome
  | text (value : String)
  | number (value : Binary64)
  | selection (index : Nat)
  deriving DecidableEq, Inhabited

-- Something to call from a block. The limits bound how many arguments and alternatives a block may
-- pass. The code of a call is written by `toCode`, if that is given, from the codes of the path,
-- the arguments and the alternatives.
structure Function where
  call         : List Argument → List String → Except String Outcome
  maxArguments : Option Nat := none
  maxResults   : Option Nat := none
  toCode       : Option (String → List String → List String → String) := none

namespace Function

def renderLimit : Option Nat → String
  | none   => "None"
  | some n => "Some(" ++ toString n ++ ")"

-- A summary of what is known of a function besides its behavior.
def render (f : Function) : String :=
  "Function \x7b arg_count: " ++ renderLimit f.maxArguments
    ++ ", result_count: " ++ renderLimit f.maxResults
    ++ ", to_code: " ++ (if f.toCode.isSome then "true" else "false") ++ " \x7d"

-- The same function without its own way to write code.
def withoutCode (f : Function) : Function :=
  { f with toCode := none }

end Function

-- The children of an object are a `Table`.
inductive Symbol
  | number (value : Binary64)
  | string (value : String)
  | boolean (value : Bool)
  | function (value : Function)
  | object (children : List (String × Symbol))

namespace Symbol

def kind : Symbol → String
  | number _   => "number"
  | string _   => "string"
  | boolean _  => "boolean"
  | function _ => "function"
  | object _   => "object"

-- Only objects have children.
def child? (name : String) : Symbol → Option Symbol
  | object children => Table.get? children name
  | _               => none

end Symbol

-- The symbols that a template can refer to by their first name.
structure Bindings where
  table : List (String × Symbol) := []

namespace Bindings

def empty : Bindings := {}

def insert (b : Bindings) (name : String) (s : Symbol) : Bindings :=
  ⟨Table.insert name s b.table⟩

def ofList (entries : List (String × Symbol)) : Bindings :=
  ⟨Table.ofList entries⟩

def get? (b : Bindings) (name : String) : Option Symbol :=
  Table.get? b.table name

def size (b : Bindings) : Nat :=
  b.table.length

def isEmpty (b : Bindings) : Bool :=
  b.table.isEmpty

end Bindings
end Stencil

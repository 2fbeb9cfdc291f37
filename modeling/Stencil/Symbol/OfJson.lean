import Stencil.Json.Reader
import Stencil.Symbol.Basic

namespace Stencil

-- Why a text or document gives no bindings.
inductive LoadError
  | notJson
  | notAnObject (document : Json)
  | badNumber (path : String)

def LoadError.message : LoadError → String
  | notJson        => "Parsing bindings JSON"
  | notAnObject j  => "bindings document must be a JSON object, found " ++ j.kind
  | badNumber path => "number at `" ++ path ++ "` does not fit a 64-bit float"

namespace Symbol

variable (asDouble : Json.Number → Option Binary64)

mutual

-- The symbol for the JSON value at a path, unless that is null. It is for `asDouble` to say which
-- double a number stands for, if it stands for one.
def ofJson (path : String) : Json → Except LoadError (Option Symbol)
  | .null     => .ok none
  | .bool b   => .ok (some (.boolean b))
  | .number n =>
    match asDouble n with
    | some x => .ok (some (.number x))
    | none   => .error (.badNumber path)
  | .string s       => .ok (some (.string s))
  | .array items    => do
    let children ← ofItems path 0 items
    return some (.object (Table.ofList children))
  | .object members => do
    let children ← ofMembers (path ++ "." ++ ·) members
    return some (.object (Table.ofList children))

-- The children for the items of an array from the given index on, which is their name. A null has
-- an index, but leaves no child.
def ofItems (path : String) (index : Nat) : List Json → Except LoadError (List (String × Symbol))
  | []      => .ok []
  | j :: js => do
    let s? ← ofJson (path ++ "." ++ toString index) j
    let children ← ofItems path (index + 1) js
    return (s?.map (toString index, ·)).toList ++ children

-- The children for the members of an object, where `place` has the path of each member.
def ofMembers (place : String → String) :
    List (String × Json) → Except LoadError (List (String × Symbol))
  | []              => .ok []
  | (name, j) :: js => do
    let s? ← ofJson (place name) j
    let children ← ofMembers place js
    return (s?.map (name, ·)).toList ++ children

end
end Symbol

namespace Bindings

variable (asDouble : Json.Number → Option Binary64)

-- The bindings that a document spells out. It has to be an object.
def ofJson : Json → Except LoadError Bindings
  | .object members => do return .ofList (← Symbol.ofMembers asDouble id members)
  | j               => .error (.notAnObject j)

def read (text : String) : Except LoadError Bindings :=
  match Json.read? Json.maxDepth text with
  | some j => ofJson asDouble j
  | none   => .error .notJson

end Bindings
end Stencil

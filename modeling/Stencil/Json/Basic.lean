import Stencil.Number.Rounding

namespace Stencil

-- A number without fraction and exponent stays an integer if it fits into 64 bits.
inductive Json.Number
  | int (value : Int)
  | real (value : Binary64)
  deriving DecidableEq, Inhabited

-- The members of an object that was read are in order of their names, each name once.
inductive Json
  | null
  | bool (value : Bool)
  | number (value : Json.Number)
  | string (value : String)
  | array (items : List Json)
  | object (members : List (String × Json))
  deriving Inhabited

namespace Json

-- The double for a number. An integer may be rounded.
def Number.asDouble : Number → Option Binary64
  | int i  => some (.ofInt i)
  | real x => some x

-- The kind of a value, with its article.
def kind : Json → String
  | null     => "null"
  | bool _   => "a boolean"
  | number _ => "a number"
  | string _ => "a string"
  | array _  => "an array"
  | object _ => "an object"

end Json
end Stencil

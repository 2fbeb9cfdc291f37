import Stencil.Diagnostic
import Stencil.Symbol.Lookup

namespace Stencil

inductive EvalError
  | cannotDisplay (name : String)
  | needsResult (name : String)
  | tooManyBranches (name : String)
  | needsArgument (name : String)
  | compareOne (name : String)
  | noArguments (name : String)
  | thresholds (name : String)
  | tooManyArguments (name : String) (max found : Nat)
  | tooManyResults (name : String) (max found : Nat)
  | selectionOutOfRange (name : String) (index : Nat)
  | failed (name message : String)
  | lookup (cause : LookupError)
  deriving DecidableEq, Inhabited

namespace EvalError

def inQuotes (name : String) : String :=
  "\"" ++ name ++ "\""

-- A count that is over a limit.
def excess (name what : String) (max found : Nat) : String :=
  inQuotes name ++ " expected at most " ++ toString max ++ " " ++ what ++ ", but found "
    ++ toString found

def message : EvalError → String
  | cannotDisplay name              => inQuotes name ++ " cannot be displayed"
  | needsResult name                => inQuotes name ++ " needs at least 1 result"
  | tooManyBranches name            => inQuotes name ++ " can have up to 2 results"
  | needsArgument name              => inQuotes name ++ " needs at least 1 argument"
  | compareOne name                 => inQuotes name ++ " can only be compared against 1 argument"
  | noArguments name                => inQuotes name ++ " does not take arguments"
  | thresholds name                 => inQuotes name ++ " range thresholds must be numbers"
  | tooManyArguments name max found => excess name "arguments" max found
  | tooManyResults name max found   => excess name "results" max found
  | selectionOutOfRange name index  =>
    inQuotes name ++ " selector " ++ toString index ++ " is out of range of results"
  | failed name message             => inQuotes name ++ " failed: " ++ message
  | lookup cause                    => cause.message

end EvalError
end Stencil

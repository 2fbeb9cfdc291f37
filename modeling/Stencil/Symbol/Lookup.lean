import Stencil.Symbol.Basic

namespace Stencil

inductive LookupError
  | missing (segment : String)
  | missingIn (segment scope : String)
  | noChildren (scope : String)
  | emptyPath
  deriving DecidableEq, Inhabited

def LookupError.message : LookupError → String
  | missing segment         => "\"" ++ segment ++ "\" does not exist"
  | missingIn segment scope => "\"" ++ segment ++ "\" does not exist in \"" ++ scope ++ "\""
  | noChildren scope        => "\"" ++ scope ++ "\" has no children"
  | emptyPath               => "empty path"

-- The child of a symbol whose dotted name is `scope`.
def Symbol.step (scope segment : String) : Symbol → Except LookupError Symbol
  | object children =>
    match Table.get? children segment with
    | some s => .ok s
    | none   => .error (.missingIn segment scope)
  | _ => .error (.noChildren scope)

-- Walks on from a symbol whose dotted name is `scope`.
def Symbol.walk (scope : String) (s : Symbol) : List String → Except LookupError Symbol
  | []        => .ok s
  | seg :: ss =>
    match s.step scope seg with
    | .ok child => child.walk (scope ++ "." ++ seg) ss
    | .error e  => .error e

namespace Bindings

def lookup (b : Bindings) : List String → Except LookupError Symbol
  | []           => .error .emptyPath
  | first :: ss =>
    match b.get? first with
    | some s => s.walk first ss
    | none   => .error (.missing first)

-- The path leads to a symbol.
def binds (b : Bindings) (path : List String) : Bool :=
  match b.lookup path with
  | .ok _    => true
  | .error _ => false

end Bindings
end Stencil

import Stencil.Number.Style
import Stencil.Span

namespace Stencil

-- The tree of a template. It holds names, not values, so one tree serves any number of bindings.
inductive Node
  | name (span : Span) (value : String)                      -- one segment of a path
  | text (span : Span) (value : String)                      -- prose, or an argument
  | number (span : Span) (value : Binary64) (literal : String)
  | concat (span : Span) (pieces : List Node)                -- shown one after the other
  | arguments (span : Span) (values : List Node)
  | results (span : Span) (alternatives : List Node)
  | retrieve (span : Span) (segments : List Node)            -- `a.b.c`
  | access (span : Span) (left right : Node)                 -- one more segment after a path
  | present (span : Span) (segments : List Node)             -- `a.b?`
  | block (span : Span) (path arguments results : Node)
  | error (span : Span) (message : String)
  deriving Inhabited

namespace Node

def span : Node → Span
  | name s _ | text s _ | number s _ _ | concat s _ | arguments s _ | results s _ | retrieve s _
  | access s _ _ | present s _ | block s _ _ _ | error s _ => s

-- The word for a kind of node in listings.
def kind : Node → String
  | name ..      => "identity"
  | text ..      => "string"
  | number ..    => "number"
  | concat ..    => "concat"
  | arguments .. => "args"
  | results ..   => "results"
  | retrieve ..  => "retrieve"
  | access ..    => "access"
  | present ..   => "exists"
  | block ..     => "eval"
  | error ..     => "error"

-- The children, in the order in which they are evaluated.
def children : Node → List Node
  | concat _ ns | arguments _ ns | results _ ns | retrieve _ ns | present _ ns => ns
  | access _ l r     => [l, r]
  | block _ p as rs  => [p, as, rs]
  | name .. | text .. | number .. | error .. => []

mutual

-- The number of nodes in a tree.
def size : Node → Nat
  | concat _ ns | arguments _ ns | results _ ns | retrieve _ ns | present _ ns => sizeAll ns + 1
  | access _ l r    => l.size + r.size + 1
  | block _ p as rs => p.size + as.size + rs.size + 1
  | name .. | text .. | number .. | error .. => 1

def sizeAll : List Node → Nat
  | []      => 0
  | n :: ns => n.size + sizeAll ns

end

theorem size_eq (n : Node) : n.size = sizeAll n.children + 1 := by
  cases n <;> simp [size, sizeAll, children, Nat.add_assoc]

theorem sizeAll_append (ns ms : List Node) : sizeAll (ns ++ ms) = sizeAll ns + sizeAll ms := by
  induction ns with
  | nil => simp [sizeAll]
  | cons n ns ih => simp [sizeAll, ih, Nat.add_assoc]

-- A number that is spelled with all its digits.
def plainNumber (span : Span) (value : Binary64) : Node :=
  number span value (value.render .plain)

-- Spans from the first to the last of some nodes, if there are any.
def hull? (ns : List Node) : Option Span :=
  Span.hull? (ns.map span)

-- A path that spans its segments.
def path (segments : List Node) : Node :=
  retrieve ((hull? segments).getD .origin) segments

-- One more segment after a path, spanning both.
def chain (left right : Node) : Node :=
  access (left.span.through right.span) left right

def segment? : Node → Option String
  | name _ s => some s
  | _        => none

-- The names among the segments of a path.
def segmentNames (segments : List Node) : List String :=
  segments.filterMap segment?

def dotted (names : List String) : String :=
  ".".intercalate names

-- The dotted name of a path; other nodes have none.
def pathName? : Node → Option String
  | retrieve _ ns | present _ ns => some (dotted (segmentNames ns))
  | access _ l r                 =>
    l.pathName?.map fun n => r.segment?.elim n (n ++ "." ++ ·)
  | _ => none

end Node
end Stencil

import Stencil.Node.Basic
import Stencil.Text.Visible

namespace Stencil
namespace Node

-- What a line tells of a node besides its place and kind.
def detail : Node → String
  | name _ s | text _ s | error _ s => " " ++ Text.quoted s
  | number _ _ literal              => " " ++ literal
  | _                               => ""

def line (n : Node) (depth : Nat) : String :=
  let indent := String.ofList (List.replicate (2 * depth) ' ')
  indent ++ n.span.render ++ " " ++ n.kind ++ n.detail ++ "\n"

-- Lists the pending trees, each at its depth; the children of a tree come before the trees that
-- were pending with it.
def listing (done : String) : List (Node × Nat) → String
  | []                  => done
  | (n, depth) :: trees =>
    listing (done ++ n.line depth) (n.children.map (·, depth + 1) ++ trees)
termination_by trees => sizeAll (trees.map Prod.fst)
decreasing_by
  simp [sizeAll, sizeAll_append, size_eq, Function.comp_def]

-- One line for each node, in the order of evaluation.
def outline (n : Node) : String :=
  listing "" [(n, 0)]

mutual

-- The listing of a tree that stands at a depth, by recursion on the tree.
def dump (depth : Nat) : Node → String
  | n@(concat _ ns) | n@(arguments _ ns) | n@(results _ ns) | n@(retrieve _ ns)
  | n@(present _ ns) => n.line depth ++ dumpAll (depth + 1) ns
  | n@(access _ l r) => n.line depth ++ l.dump (depth + 1) ++ r.dump (depth + 1)
  | n@(block _ p as rs) =>
    n.line depth ++ p.dump (depth + 1) ++ as.dump (depth + 1) ++ rs.dump (depth + 1)
  | n@(name ..) | n@(text ..) | n@(number ..) | n@(error ..) => n.line depth

def dumpAll (depth : Nat) : List Node → String
  | []      => ""
  | n :: ns => n.dump depth ++ dumpAll depth ns

end

end Node
end Stencil

import Stencil.Render.Evaluate

namespace Stencil

namespace Node

-- These nodes are evaluated from their children.
def isCompound : Node → Bool
  | concat .. | arguments .. | results .. | access .. | block .. => true
  | _                                                            => false

end Node

-- What is left to do for a node. A list of tasks stands in for the depth of calls: a node with
-- children is visited before them and finished after them. A finish remembers how many fragments
-- there were at the visit; those of the children gather on top of them.
inductive Task
  | visit (n : Node)
  | finish (n : Node) (mark : Nat)

namespace Task

-- An upper bound for the number of steps that a task takes.
def weight : Task → Nat
  | visit n    => 2 * n.size
  | finish _ _ => 1

def totalWeight : List Task → Nat
  | []      => 0
  | t :: ts => t.weight + totalWeight ts

theorem totalWeight_visit_append (ns : List Node) (ts : List Task) :
    totalWeight (ns.map visit ++ ts) = 2 * Node.sizeAll ns + totalWeight ts := by
  induction ns with
  | nil => exact (Nat.zero_add _).symm
  | cons n ns ih =>
    simp only [List.map_cons, List.cons_append, totalWeight, ih, weight, Node.sizeAll]
    omega

end Task

-- The fragments and faults found so far.
@[ext]
structure Machine where
  values : Array Fragment := #[]
  faults : Array (Fault EvalError) := #[]

namespace Machine

def push (m : Machine) (e : Evaluated) : Machine :=
  ⟨m.values.push e.1, m.faults ++ e.2⟩

-- Replaces the fragments from `mark` on by their combination.
def reduce (ctx : Context) (m : Machine) (n : Node) (mark : Nat) : Machine :=
  let items := (m.values.extract mark m.values.size).toList
  { m with values := m.values.shrink mark }.push (ctx.combine n items)

-- Works off the tasks in order.
def run (ctx : Context) (m : Machine) : List Task → Machine
  | []                     => m
  | .finish n mark :: rest => (m.reduce ctx n mark).run ctx rest
  | .visit n :: rest       =>
    if n.isCompound then
      m.run ctx (n.children.map .visit ++ .finish n m.values.size :: rest)
    else (m.push (ctx.leaf n)).run ctx rest
termination_by tasks => Task.totalWeight tasks
decreasing_by
  · simp only [Task.totalWeight, Task.weight]
    omega
  · simp only [Task.totalWeight_visit_append, Task.totalWeight, Task.weight, Node.size_eq]
    omega
  · have := n.size_eq
    simp only [Task.totalWeight, Task.weight]
    omega

end Machine
end Stencil

import Mathlib.Data.List.Basic
import Stencil.Node.Basic

namespace Stencil
namespace Node

-- The node `m` is `n` or lies below it.
inductive Within (m : Node) : Node → Prop
  | refl : Within m m
  | child {n c : Node} : c ∈ n.children → Within m c → Within m n

def Every (P : Node → Prop) (n : Node) : Prop :=
  ∀ m, Within m n → P m

theorem Every.of_children {P : Node → Prop} {n : Node} (h : P n)
    (hc : ∀ c ∈ n.children, Every P c) : Every P n := by
  intro m hm
  cases hm
  case refl         => exact h
  case child hm hmc => exact hc _ hmc m hm

theorem Every.of_leaf {P : Node → Prop} {n : Node} (h : P n) (hc : n.children = []) : Every P n :=
  .of_children h (by simp [hc])

theorem Every.of_mem {P : Node → Prop} {n c : Node} (h : n.Every P) (hc : c ∈ n.children) :
    c.Every P :=
  fun m hm => h m (.child hc hm)

theorem Within.trans {k m n : Node} (h : Within k m) (h' : Within m n) : Within k n := by
  induction h'
  case refl          => exact h
  case child hc _ ih => exact .child hc ih

theorem Every.of_within {P : Node → Prop} {n m : Node} (h : n.Every P) (hm : Within m n) :
    m.Every P :=
  fun k hk => h k (hk.trans hm)

section

variable {s u : Span} {p as rs a r m : Node} {ns : List Node}

theorem Within.of_path (h : (block s p as rs).Within m) : p.Within m :=
  .trans (.child (by simp [children]) .refl) h

theorem Within.of_operand (h : (block s p (arguments u ns) rs).Within m) (ha : a ∈ ns) :
    a.Within m :=
  have ha : a.Within (arguments u ns) := .child ha .refl
  .trans (.child (by simp [children]) ha) h

theorem Within.of_alternative (h : (block s p as (results u ns)).Within m) (hr : r ∈ ns) :
    r.Within m :=
  have hr : r.Within (results u ns) := .child hr .refl
  .trans (.child (by simp [children]) hr) h

end

def isBlock : Node → Bool
  | block .. => true
  | _        => false

-- A way down from `n`: each node is followed by one of its children.
def Descends (n : Node) (path : List Node) : Prop :=
  (n :: path).IsChain fun m c => c ∈ m.children

-- No way down from the node meets more than `k` blocks.
def NestsAtMost (k : Nat) (n : Node) : Prop :=
  ∀ path, n.Descends path → (n :: path).countP isBlock ≤ k

namespace NestsAtMost

variable {k : Nat} {n : Node}

theorem countP_path_le (h : ∀ c ∈ n.children, NestsAtMost k c) {path : List Node}
    (hp : n.Descends path) : path.countP isBlock ≤ k := by
  cases path
  case nil         => exact Nat.zero_le k
  case cons c path =>
    have ⟨hc, hp⟩ := List.isChain_cons_cons.mp hp
    exact h c hc path hp

theorem of_children (hn : n.isBlock = false) (h : ∀ c ∈ n.children, NestsAtMost k c) :
    NestsAtMost k n := by
  intro path hp
  simpa [List.countP_cons, hn] using countP_path_le h hp

theorem succ_of_children (h : ∀ c ∈ n.children, NestsAtMost k c) : NestsAtMost (k + 1) n := by
  intro path hp
  have := countP_path_le h hp
  rw [List.countP_cons]
  split <;> omega

end NestsAtMost
end Node
end Stencil

import Stencil.Proofs.Node.Within

namespace Stencil
namespace Node

-- The node at the end of a way down, if there is one.
def at? (n : Node) : List Nat → Option Node
  | []      => some n
  | i :: is => n.children[i]?.bind (·.at? is)

def modifyChild (f : Node → Node) (i : Nat) : Node → Node
  | concat s ns     => concat s (ns.modify i f)
  | arguments s ns  => arguments s (ns.modify i f)
  | results s ns    => results s (ns.modify i f)
  | retrieve s ns   => retrieve s (ns.modify i f)
  | present s ns    => present s (ns.modify i f)
  | access s l r    =>
    match i with
    | 0 => access s (f l) r
    | 1 => access s l (f r)
    | _ => access s l r
  | block s p as rs =>
    match i with
    | 0 => block s (f p) as rs
    | 1 => block s p (f as) rs
    | 2 => block s p as (f rs)
    | _ => block s p as rs
  | n@(name ..) | n@(text ..) | n@(number ..) | n@(error ..) => n

-- Puts another node in the place of the one at the end of a way down.
def replaceAt (n : Node) (is : List Nat) (m : Node) : Node :=
  match is with
  | []      => m
  | i :: is => n.modifyChild (·.replaceAt is m) i

variable {n m c : Node} {ns : List Node} {i : Nat} {is : List Nat}

theorem exists_modify_eq (h : ns[i]? = some c) (f : Node → Node) :
    ∃ us vs, ns = us ++ c :: vs ∧ ns.modify i f = us ++ f c :: vs := by
  obtain ⟨hl, h⟩ := List.getElem?_eq_some_iff.mp h
  obtain ⟨us, a, vs, hns, rfl, hm⟩ := List.exists_of_modify f hl
  obtain rfl : a = c := by simpa [hns] using h
  exact ⟨us, vs, hns, hm⟩

theorem span_modifyChild (f : Node → Node) (i : Nat) (n : Node) :
    (n.modifyChild f i).span = n.span := by
  cases n
  case access => rcases i with _ | _ | _ <;> rfl
  case block  => rcases i with _ | _ | _ | _ <;> rfl
  all_goals rfl

theorem span_replaceAt (h : n.at? is = some c) (hm : m.span = c.span) :
    (n.replaceAt is m).span = n.span := by
  cases is
  case nil  => rw [replaceAt, hm, Option.some.inj h]
  case cons => exact span_modifyChild ..

theorem within_of_at? (h : n.at? is = some m) : m.Within n := by
  induction is generalizing n
  case nil          => exact Option.some.inj h ▸ .refl
  case cons i is ih =>
    obtain ⟨c, hi, hc⟩ := Option.bind_eq_some_iff.mp h
    exact .child (List.mem_of_getElem? hi) (ih hc)

theorem eq_of_at?_of_leaf (hc : n.children = []) (h : n.at? is = some m) : m = n := by
  cases is
  case nil  => exact (Option.some.inj h).symm
  case cons => simp [at?, hc] at h

-- There are no blocks in the tree, for below its root there are but leaves.
def Shallow (n : Node) : Prop :=
  n.isBlock = false ∧ ∀ c ∈ n.children, c.children = [] ∧ c.isBlock = false

theorem Shallow.not_isBlock (hn : n.Shallow) (h : n.at? is = some m) : m.isBlock = false := by
  cases is
  case nil       => exact Option.some.inj h ▸ hn.1
  case cons i is =>
    obtain ⟨c, hi, hc⟩ := Option.bind_eq_some_iff.mp h
    have ⟨hl, hb⟩ := hn.2 c (List.mem_of_getElem? hi)
    exact eq_of_at?_of_leaf hl hc ▸ hb

end Node
end Stencil

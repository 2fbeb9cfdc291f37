import Stencil.Diagnostic
import Stencil.Node.Basic

namespace Stencil

def Span.move (f : Position → Position) (s : Span) : Span :=
  ⟨f s.start, f s.stop⟩

def Fault.move {ε : Type} (f : Position → Position) (e : Fault ε) : Fault ε :=
  { e with span := e.span.move f }

namespace Node

theorem size_le_sizeAll {n : Node} {ns : List Node} (h : n ∈ ns) : n.size ≤ sizeAll ns := by
  induction h
  case head        => simp [sizeAll]
  case tail m _ ih => simp only [sizeAll]; omega

theorem size_lt_of_mem_children {n m : Node} (h : m ∈ n.children) : m.size < n.size := by
  rw [n.size_eq]
  exact Nat.lt_succ_of_le (size_le_sizeAll h)

theorem size_lt_of_alternative {s t : Span} {p as r : Node} {rs : List Node} (h : r ∈ rs) :
    r.size < (block s p as (results t rs)).size := by
  have hr : r.size < (results t rs).size := size_lt_of_mem_children h
  rw [size]
  omega

mutual

def move (f : Position → Position) : Node → Node
  | name s v         => name (s.move f) v
  | text s v         => text (s.move f) v
  | number s x l     => number (s.move f) x l
  | concat s ns      => concat (s.move f) (moveAll f ns)
  | arguments s ns   => arguments (s.move f) (moveAll f ns)
  | results s ns     => results (s.move f) (moveAll f ns)
  | retrieve s ns    => retrieve (s.move f) (moveAll f ns)
  | access s l r     => access (s.move f) (l.move f) (r.move f)
  | present s ns     => present (s.move f) (moveAll f ns)
  | block s p as rs  => block (s.move f) (p.move f) (as.move f) (rs.move f)
  | error s m        => error (s.move f) m

def moveAll (f : Position → Position) : List Node → List Node
  | []      => []
  | n :: ns => n.move f :: moveAll f ns

end

variable {f : Position → Position}

@[simp]
theorem moveAll_eq_map (ns : List Node) : moveAll f ns = ns.map (move f) := by
  induction ns
  case nil          => rfl
  case cons n ns ih => simp [moveAll, ih]

@[simp]
theorem span_move (n : Node) : (n.move f).span = n.span.move f := by
  cases n <;> rfl

@[simp]
theorem children_move (n : Node) : (n.move f).children = n.children.map (move f) := by
  cases n <;> simp [move, children]

@[simp]
theorem segment?_move (n : Node) : (n.move f).segment? = n.segment? := by
  cases n <;> rfl

@[simp]
theorem segmentNames_map_move (ns : List Node) :
    segmentNames (ns.map (move f)) = segmentNames ns := by
  rw [segmentNames, segmentNames, List.filterMap_map]
  exact congrArg (List.filterMap · ns) (funext segment?_move)

@[simp]
theorem pathName?_move (n : Node) : (n.move f).pathName? = n.pathName? := by
  induction n using pathName?.induct
  case case3 ih => simp [move, pathName?, ih]
  all_goals simp_all [move, pathName?]
  rename_i n _ _ _
  cases n <;> simp_all [move, pathName?]

theorem hull?_map_move (ns : List Node) :
    hull? (ns.map (move f)) = (hull? ns).map (Span.move f) := by
  cases ns
  case nil       => rfl
  case cons n ns =>
    have h := List.getLast_map (f := Span.move f) (l := (n :: ns).map span) (by simp)
    simp only [hull?, List.map_map, Function.comp_def, span_move, List.map_cons, Span.hull?,
      Option.map_some, Option.some.injEq] at h ⊢
    ext1
    case start => rfl
    case stop  => simpa [Span.through, Span.move] using congrArg Span.stop h

theorem hull_map_move {ns : List Node} (h : ns ≠ []) :
    (hull? (ns.map (move f))).getD .origin = ((hull? ns).getD .origin).move f := by
  rw [hull?_map_move]
  cases ns
  case nil  => contradiction
  case cons => rfl

theorem path_map_move {ns : List Node} (h : ns ≠ []) :
    path (ns.map (move f)) = (path ns).move f := by
  rw [path, path, hull_map_move h, move, moveAll_eq_map]

end Node
end Stencil

import Mathlib.Tactic.Common
import Stencil.Node.Outline
import Stencil.Proofs.Node.Move
import Stencil.Proofs.Node.Replace

namespace Stencil
namespace Node

theorem dumpAll_eq (depth : Nat) (ns : List Node) :
    dumpAll depth ns = String.join (ns.map (·.dump depth)) := by
  induction ns
  case nil          => rfl
  case cons n ns ih => rw [dumpAll, ih, List.map_cons, String.join_cons]

theorem dump_eq (depth : Nat) (n : Node) :
    n.dump depth = n.line depth ++ String.join (n.children.map (·.dump (depth + 1))) := by
  cases n <;> simp [dump, dumpAll_eq, children, String.append_assoc]

theorem listing_eq (done : String) (trees : List (Node × Nat)) :
    listing done trees = done ++ String.join (trees.map fun t => t.1.dump t.2) := by
  fun_induction listing done trees
  case case1 => simp
  case case2 done n depth trees ih =>
    -- a tree gives way to its line and its children
    rw [ih, List.map_cons, String.join_cons, dump_eq]
    simp [Function.comp_def, String.append_assoc]

theorem outline_eq (n : Node) : n.outline = n.dump 0 := by
  simp [outline, listing_eq]

-- All nodes of a tree, each one behind the way down to it. A node stands before the nodes below it,
-- and those below one child before those below the next one.
structure InOrder (n : Node) (places : List (List Nat × Node)) : Prop where
  sorted  : places.Pairwise (·.1 < ·.1)
  mem_iff : ∀ way m, (way, m) ∈ places ↔ n.at? way = some m

-- The same for trees that stand next to each other as children of a node, from number `i` on.
structure InOrderFrom (i : Nat) (ns : List Node) (places : List (List Nat × Node)) : Prop where
  sorted  : places.Pairwise (·.1 < ·.1)
  mem_iff : ∀ way m, (way, m) ∈ places ↔
    ∃ j is, way = (i + j) :: is ∧ ns[j]?.bind (·.at? is) = some m

variable {n : Node} {ns : List Node} {ps qs : List (List Nat × Node)} {i : Nat}

theorem InOrder.of_children (h : InOrderFrom 0 n.children ps) : n.InOrder (([], n) :: ps) := by
  constructor
  case sorted  =>
    refine List.pairwise_cons.mpr ⟨fun (way, m) hp => ?_, h.sorted⟩
    have ⟨j, is, hw, _⟩ := (h.mem_iff way m).mp hp
    exact hw ▸ List.nil_lt_cons _ _
  case mem_iff =>
    intro way m
    rw [List.mem_cons, h.mem_iff]
    cases way
    case nil  => simp [at?, eq_comm]
    case cons => simp [at?]

theorem InOrderFrom.nil : InOrderFrom i [] [] :=
  ⟨.nil, by simp⟩

theorem InOrderFrom.cons (h : n.InOrder ps) (hs : InOrderFrom (i + 1) ns qs) :
    InOrderFrom i (n :: ns) (ps.map (fun p => (i :: p.1, p.2)) ++ qs) := by
  constructor
  case sorted  =>
    refine List.pairwise_append.mpr ⟨?own, hs.sorted, ?across⟩
    case own    => simpa [List.pairwise_map, List.cons_lt_cons_iff] using h.sorted
    case across =>
      intro p hp (way, m) hq
      have ⟨(v, _), _, hv⟩ := List.mem_map.mp hp
      have ⟨j, is, hw, _⟩ := (hs.mem_iff way m).mp hq
      subst hv hw
      exact List.cons_lt_cons_iff.mpr (.inl (by omega))
  case mem_iff =>
    intro way m
    rw [List.mem_append, hs.mem_iff]
    constructor
    case mp  =>
      rintro (hp | ⟨j, is, rfl, hm⟩)
      case inl =>
        have ⟨(v, _), hv, he⟩ := List.mem_map.mp hp
        cases he
        exact ⟨0, v, rfl, (h.mem_iff v _).mp hv⟩
      case inr => exact ⟨j + 1, is, by simp; omega, hm⟩
    case mpr =>
      rintro ⟨j, is, rfl, hm⟩
      cases j
      case zero   => exact .inl <| List.mem_map.mpr ⟨(is, m), (h.mem_iff is m).mpr hm, rfl⟩
      case succ j => exact .inr ⟨j, is, by simp; omega, hm⟩

-- The lines of nodes, each at its depth below the depth of the root.
def lines (depth : Nat) (places : List (List Nat × Node)) : String :=
  String.join (places.map fun p => p.2.line (depth + p.1.length))

theorem exists_inOrderFrom
    (h : ∀ n ∈ ns, ∃ ps, n.InOrder ps ∧ ∀ depth, n.dump depth = lines depth ps) (i : Nat) :
    ∃ ps, InOrderFrom i ns ps ∧
      ∀ depth, String.join (ns.map (·.dump (depth + 1))) = lines depth ps := by
  induction ns generalizing i
  case nil          => exact ⟨[], .nil, fun _ => rfl⟩
  case cons n ns ih =>
    have ⟨⟨ps, hp, hd⟩, h⟩ := List.forall_mem_cons.mp h
    have ⟨qs, hq, hds⟩ := ih h (i + 1)
    refine ⟨_, .cons hp hq, fun depth => ?_⟩
    rw [List.map_cons, String.join_cons, hd, hds]
    simp [lines, Function.comp_def, Nat.add_assoc, Nat.add_comm 1]

theorem exists_inOrder (n : Node) :
    ∃ ps, n.InOrder ps ∧ ∀ depth, n.dump depth = lines depth ps := by
  have ih (c : Node) (hc : c ∈ n.children) := exists_inOrder c
  have ⟨ps, hp, hd⟩ := exists_inOrderFrom ih 0
  refine ⟨_, .of_children hp, fun depth => ?_⟩
  rw [dump_eq, hd]
  simp [lines]
termination_by n.size
decreasing_by exact size_lt_of_mem_children hc

-- What a line says of a node behind its place: the kind, and the text in quotes or the literal.
inductive Entry : Node → String → Prop
  | name {s v}       : Entry (name s v) ("identity " ++ Text.quoted v)
  | text {s v}       : Entry (text s v) ("string " ++ Text.quoted v)
  | number {s x l}   : Entry (number s x l) ("number " ++ l)
  | concat {s ns}    : Entry (concat s ns) "concat"
  | arguments {s ns} : Entry (arguments s ns) "args"
  | results {s ns}   : Entry (results s ns) "results"
  | retrieve {s ns}  : Entry (retrieve s ns) "retrieve"
  | access {s l r}   : Entry (access s l r) "access"
  | present {s ns}   : Entry (present s ns) "exists"
  | block {s p a r}  : Entry (block s p a r) "eval"
  | error {s v}      : Entry (error s v) ("error " ++ Text.quoted v)

theorem entry (n : Node) : n.Entry (n.kind ++ n.detail) := by
  cases n <;> simp only [kind, detail, String.append_empty]
  case name      => exact .name
  case text      => exact .text
  case number    => exact .number
  case concat    => exact .concat
  case arguments => exact .arguments
  case results   => exact .results
  case retrieve  => exact .retrieve
  case access    => exact .access
  case present   => exact .present
  case block     => exact .block
  case error     => exact .error

-- A line is indented by its depth, and begins with the place of the node in lines and columns.
theorem line_eq (n : Node) (depth : Nat) :
    n.line depth = String.ofList (List.replicate (2 * depth) ' ') ++
      (toString n.span.start.line ++ ":" ++ toString n.span.start.col ++ "-" ++
        toString n.span.stop.line ++ ":" ++ toString n.span.stop.col) ++
      " " ++ (n.kind ++ n.detail) ++ "\n" := by
  simp [line, Span.render, Position.render, String.append_assoc]

-- The listing is the recursion on the tree: the line of a node, then its children in order, one
-- level deeper. So it shows each node once, in order, and at the depth that it has in the tree.
theorem outline_lists (n : Node) :
    n.outline = n.dump 0 ∧
    (∀ (m : Node) (depth : Nat),
      m.dump depth = m.line depth ++ String.join (m.children.map (·.dump (depth + 1)))) ∧
    (∀ (m : Node) (depth : Nat), ∃ what, m.Entry what ∧
      m.line depth = String.ofList (List.replicate (2 * depth) ' ') ++
        (toString m.span.start.line ++ ":" ++ toString m.span.start.col ++ "-" ++
          toString m.span.stop.line ++ ":" ++ toString m.span.stop.col) ++
        " " ++ what ++ "\n") ∧
    ∃ places, n.InOrder places ∧
      n.outline = String.join (places.map fun (way, m) => m.line way.length) := by
  have ⟨places, hp, hd⟩ := n.exists_inOrder
  refine ⟨n.outline_eq, fun m depth => m.dump_eq depth, fun m depth => ?line, places, hp, ?lists⟩
  case line  => exact ⟨_, m.entry, m.line_eq depth⟩
  case lists => simpa [lines] using n.outline_eq.trans (hd 0)

-- A block has five lines, and there is no more of a text or a number than its own line.
theorem outline_lists_block :
    let span (i j : Nat) : Span := ⟨⟨0, i⟩, ⟨0, j⟩⟩
    let tree := block (span 1 2) (retrieve (span 1 2) [name (span 1 2) "x"])
      (arguments (span 2 2) []) (results (span 2 2) [])
    let parts := concat (span 0 8) [text (span 0 3) "a\"\n", number (span 4 8) (.zero false) "0.00"]
    tree.outline = "0:1-0:2 eval\n  0:1-0:2 retrieve\n    0:1-0:2 identity \"x\"\n" ++
      "  0:2-0:2 args\n  0:2-0:2 results\n" ∧
    parts.outline = "0:0-0:8 concat\n  0:0-0:3 string \"a\\\"\\n\"\n  0:4-0:8 number 0.00\n" ∧
    ∃ places, tree.InOrder places ∧
      tree.outline = String.join (places.map fun (way, m) => m.line way.length) := by
  intro span tree parts
  have ⟨ht, _, _, hp⟩ := outline_lists tree
  have ⟨hn, _⟩ := outline_lists parts
  refine ⟨ht.trans ?tree, hn.trans ?parts, hp⟩
  case tree  => decide +kernel
  case parts => decide +kernel

end Node
end Stencil

import Mathlib.Logic.Relation
import Stencil.Render.Report

namespace Stencil

open Relation

namespace Context

variable {ctx : Context} {n : Node}

theorem evaluateAll_eq_map (ns : List Node) : ctx.evaluateAll ns = ns.map ctx.evaluate := by
  induction ns
  case nil          => rfl
  case cons n ns ih => simp [evaluateAll, ih]

theorem evaluate_of_compound (h : n.isCompound = true) :
    ctx.evaluate n = ctx.join n (n.children.map ctx.evaluate) := by
  cases n <;> simp [Node.isCompound] at h <;>
    simp [evaluate, Node.children, evaluateAll_eq_map]

theorem evaluate_of_not_compound (h : n.isCompound = false) : ctx.evaluate n = ctx.leaf n := by
  cases n <;> simp [Node.isCompound] at h <;> simp [evaluate]

theorem evaluate_block (ctx : Context) (s : Span) (p as rs : Node) :
    let own := ctx.block s p (ctx.evaluate p).1 (ctx.evaluate as).1 (ctx.evaluate rs).1
    ctx.evaluate (.block s p as rs) =
    (own.1, (ctx.evaluate p).2 ++ (ctx.evaluate as).2 ++ (ctx.evaluate rs).2 ++ own.2) := by
  simp [evaluate, join, combine]

theorem fragment_concat (ctx : Context) (s : Span) (ns : List Node) :
    (ctx.evaluate (.concat s ns)).1 = concat (ns.map fun n => (ctx.evaluate n).1) := by
  simp [evaluate, evaluateAll_eq_map, join, combine, Function.comp_def]

end Context

namespace Machine

-- One turn of the loop in `Machine.run`, from the tasks that are left to those left after it.
inductive Step (ctx : Context) : Machine × List Task → Machine × List Task → Prop
  | descend {m n ts} :
    n.isCompound = true →
    Step ctx (m, .visit n :: ts) (m, n.children.map .visit ++ .finish n m.values.size :: ts)
  | leaf {m n ts} :
    n.isCompound = false → Step ctx (m, .visit n :: ts) (m.push (ctx.leaf n), ts)
  | finish {m n mark ts} : Step ctx (m, .finish n mark :: ts) (m.reduce ctx n mark, ts)

abbrev Steps (ctx : Context) :=
  ReflTransGen (Step ctx)

theorem steps_run (ctx : Context) (m : Machine) (ts : List Task) :
    Steps ctx (m, ts) (m.run ctx ts, []) := by
  fun_induction m.run ctx ts
  case case1           => exact .refl
  case case2 ih        => exact .head .finish ih
  case case3 m n ts h ih => exact .head (.descend h) ih
  case case4 m n ts h ih => exact .head (.leaf <| by simpa using h) ih

def pushAll (m : Machine) (es : List Evaluated) : Machine :=
  es.foldl push m

-- The fragments that a finish takes off the stack.
def above (m : Machine) (mark : Nat) : List Fragment :=
  (m.values.extract mark m.values.size).toList

variable {ctx : Context} {m goal : Machine} {ts : List Task}

theorem above_eq_drop (m : Machine) (mark : Nat) : m.above mark = m.values.toList.drop mark := by
  simp [above, List.take_of_length_le]

theorem pushAll_values (m : Machine) (es : List Evaluated) :
    (m.pushAll es).values.toList = m.values.toList ++ es.map Prod.fst := by
  induction es generalizing m
  case nil          => simp [pushAll]
  case cons e es ih => simp_all [pushAll, push]

theorem pushAll_faults (m : Machine) (es : List Evaluated) :
    (m.pushAll es).faults.toList = m.faults.toList ++ es.flatMap Prod.snd := by
  induction es generalizing m
  case nil          => simp [pushAll]
  case cons e es ih => simp_all [pushAll, push]

theorem size_le_size_pushAll (m : Machine) (es : List Evaluated) :
    m.values.size ≤ (m.pushAll es).values.size := by
  simp [← Array.length_toList, pushAll_values]

theorem above_pushAll (m : Machine) (es : List Evaluated) :
    (m.pushAll es).above m.values.size = es.map Prod.fst := by
  simp [above_eq_drop, pushAll_values]

theorem reduce_pushAll (ctx : Context) (m : Machine) (n : Node) (es : List Evaluated) :
    (m.pushAll es).reduce ctx n m.values.size = m.push (ctx.join n es) := by
  have h := above_pushAll m es
  rw [above] at h
  simp only [reduce, h, Context.join, push]
  ext1 <;> apply Array.toList_inj.mp
  case values => simp [pushAll_values]
  case faults => simp [pushAll_faults]

-- What a run from here comes to, if every finish finds the fragments of the children of its node.
def Owes (ctx : Context) (goal : Machine) : Machine → List Task → Prop
  | m, []                   => m = goal
  | m, .visit n :: ts       => Owes ctx goal (m.push (ctx.evaluate n)) ts
  | m, .finish n mark :: ts =>
    n.isCompound = true ∧ mark ≤ m.values.size ∧
    m.above mark = n.children.map (fun c => (ctx.evaluate c).1) ∧
    Owes ctx goal (m.reduce ctx n mark) ts

theorem owes_visit_append (ns : List Node) :
    Owes ctx goal m (ns.map .visit ++ ts) ↔ Owes ctx goal (m.pushAll (ns.map ctx.evaluate)) ts := by
  induction ns generalizing m
  case nil          => rfl
  case cons n ns ih => exact ih

theorem Step.owes {a b : Machine × List Task} (s : Step ctx a b) (h : Owes ctx goal a.1 a.2) :
    Owes ctx goal b.1 b.2 := by
  cases s
  case finish => exact h.2.2.2
  case leaf m n ts hn =>
    rw [Owes, Context.evaluate_of_not_compound hn] at h
    exact h
  case descend m n ts hn =>
    rw [Owes, Context.evaluate_of_compound hn, ← reduce_pushAll] at h
    refine (owes_visit_append _).mpr ⟨hn, ?mark, ?items, h⟩
    case mark  => exact size_le_size_pushAll ..
    case items => simp [above_pushAll, Function.comp_def]

theorem Steps.owes {a b : Machine × List Task} (s : Steps ctx a b) (h : Owes ctx goal a.1 a.2) :
    Owes ctx goal b.1 b.2 := by
  induction s
  case refl           => exact h
  case tail _ step ih => exact step.owes ih

theorem owes_root (ctx : Context) (root : Node) :
    Owes ctx (push {} (ctx.evaluate root)) {} [.visit root] :=
  rfl

theorem run_root (ctx : Context) (root : Node) :
    run ctx {} [.visit root] = push {} (ctx.evaluate root) :=
  (steps_run ctx {} [.visit root]).owes (owes_root ctx root)

-- In the middle of a run, each finish finds one fragment for each child of its node, in order.
theorem above_of_steps_finish {root n : Node} {mark : Nat}
    (s : Steps ctx ({}, [.visit root]) (m, .finish n mark :: ts)) :
    n.isCompound = true ∧ mark ≤ m.values.size ∧
    m.above mark = n.children.map fun c => (ctx.evaluate c).1 :=
  have ⟨hn, hm, ha, _⟩ := s.owes (owes_root ctx root)
  ⟨hn, hm, ha⟩

end Machine

namespace Node

open Machine

theorem render_eq (ctx : Context) (n : Node) :
    n.render ctx = .ofFragment ctx n (ctx.evaluate n).1 (ctx.evaluate n).2 := by
  simp [render, run_root, push]

theorem faults_render (ctx : Context) (n : Node) : (n.render ctx).faults = (ctx.evaluate n).2 := by
  rw [render_eq]
  rfl

theorem render_eq_interpret (ctx : Context) (root : Node) :
    root.render ctx = root.interpret ctx ∧
    Steps ctx ({}, [.visit root]) (run ctx {} [.visit root], []) ∧
    (run ctx {} [.visit root]).values = #[(ctx.evaluate root).1] ∧
    ∀ m n mark ts, Steps ctx ({}, [.visit root]) (m, .finish n mark :: ts) →
      n.isCompound = true ∧ mark ≤ m.values.size ∧
      (m.values.extract mark m.values.size).toList =
        n.children.map fun c => (ctx.evaluate c).1 := by
  refine ⟨?_, steps_run .., ?_, fun m n mark ts s => above_of_steps_finish s⟩
  · simp [render, interpret, run_root, push]
  · simp [run_root, push]

-- The finish of a list of two texts, in a run that meets no other finish.
theorem finish_concat_of_texts :
    let ctx : Context := ⟨.empty, true⟩
    let n := concat .origin [text .origin "a", text .origin "b"]
    let m := (push {} (ctx.leaf (text .origin "a"))).push (ctx.leaf (text .origin "b"))
    Steps ctx ({}, [.visit n]) (m, [.finish n 0]) ∧
    (m.values.extract 0 m.values.size).toList = n.children.map fun c => (ctx.evaluate c).1 := by
  intro ctx n m
  have steps : Steps ctx ({}, [.visit n]) (m, [.finish n 0]) :=
    .head (.descend rfl) <| .head (.leaf rfl) <| .head (.leaf rfl) .refl
  exact ⟨steps, ((render_eq_interpret ctx n).2.2.2 m n 0 [] steps).2.2⟩

end Node
end Stencil

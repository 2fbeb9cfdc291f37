import Mathlib.Data.List.Infix
import Mathlib.Tactic.Common
import Stencil.Span

namespace Stencil
namespace Span

-- All of the spans lie between `p` and `q`, each one behind the span before it.
inductive Row : Position → List Span → Position → Prop
  | nil {p q}       : p ≤ q → Row p [] q
  | cons {p s ss q} : p ≤ s.start → s.start ≤ s.stop → Row s.stop ss q → Row p (s :: ss) q

namespace Row

variable {p q r : Position} {s : Span} {ss ts : List Span}

theorem le (h : Row p ss q) : p ≤ q := by
  induction h
  case nil h            => exact h
  case cons hp hs _ ih  => exact Position.le_trans hp (Position.le_trans hs ih)

theorem mono_left (hp : p ≤ q) : Row q ss r → Row p ss r
  | nil h         => nil (Position.le_trans hp h)
  | cons h hs hss => cons (Position.le_trans hp h) hs hss

theorem mono_right (h : Row p ss q) (hr : q ≤ r) : Row p ss r := by
  induction h
  case nil h            => exact .nil (Position.le_trans h hr)
  case cons hp hs _ ih  => exact .cons hp hs (ih hr)

theorem append (h : Row p ss q) (ht : Row q ts r) : Row p (ss ++ ts) r := by
  induction h
  case nil hp           => exact ht.mono_left hp
  case cons hp hs _ ih  => exact .cons hp hs (ih ht)

theorem exists_of_append (h : Row p (ss ++ ts) r) : ∃ q, Row p ss q ∧ Row q ts r := by
  induction ss generalizing p
  case nil          => exact ⟨p, .nil (Position.le_refl p), h⟩
  case cons s ss ih =>
    rcases h with _ | ⟨hp, hs, h⟩
    have ⟨q, hq, ht⟩ := ih h
    exact ⟨q, .cons hp hs hq, ht⟩

theorem suffix (h : Row p ss q) (ht : ts <:+ ss) : Row p ts q := by
  obtain ⟨us, rfl⟩ := ht
  have ⟨r, hu, ht⟩ := h.exists_of_append
  exact ht.mono_left hu.le

-- The end of the last span may as well be that of the row.
theorem to_last (h : Row p ss q) (hn : ss ≠ []) : Row p ss (ss.getLast hn).stop := by
  induction h
  case nil => contradiction
  case cons p s ss q hp hs _ ih =>
    cases ss
    case nil  => exact .cons hp hs (.nil (Position.le_refl _))
    case cons => exact .cons hp hs (ih (List.cons_ne_nil _ _))

theorem bounds (h : Row p ss q) (hs : s ∈ ss) : p ≤ s.start ∧ s.start ≤ s.stop ∧ s.stop ≤ q := by
  induction h
  case nil => cases hs
  case cons hp hs' hss ih =>
    rcases List.mem_cons.mp hs with rfl | hs
    case inl => exact ⟨hp, hs', hss.le⟩
    case inr =>
      have ⟨h₁, h₂⟩ := ih hs
      exact ⟨Position.le_trans hp (Position.le_trans hs' h₁), h₂⟩

theorem pairwise (h : Row p ss q) : ss.Pairwise (·.stop ≤ ·.start) := by
  induction h
  case nil               => exact .nil
  case cons _ _ hss ih   => exact .cons (fun t ht => (hss.bounds ht).1) ih

theorem of_pairwise (h : ss.Pairwise (·.stop ≤ ·.start)) (hp : p ≤ q)
    (hs : ∀ s ∈ ss, p ≤ s.start ∧ s.start ≤ s.stop ∧ s.stop ≤ q) : Row p ss q := by
  induction h generalizing p
  case nil           => exact .nil hp
  case cons s ss h _ ih =>
    have ⟨⟨h₁, h₂, h₃⟩, hs⟩ := List.forall_mem_cons.mp hs
    exact .cons h₁ h₂ <| ih h₃ fun t ht => ⟨h t ht, (hs t ht).2⟩

-- Each span of a row can be parted into a row of its own.
theorem flatMap {α : Type} {f : α → Span} {g : α → List Span} {as : List α}
    (h : Row p (as.map f) q) (hg : ∀ a ∈ as, Row (f a).start (g a) (f a).stop) :
    Row p (as.flatMap g) q := by
  induction as generalizing p
  case nil          => exact h
  case cons a as ih =>
    rcases h with _ | ⟨hp, _, h⟩
    have ⟨ha, has⟩ := List.forall_mem_cons.mp hg
    exact (ha.mono_left hp).append (ih h has)

-- The hull of a row holds all of it.
theorem hull {α : Type} {f : α → Span} {a : α} {as : List α} (h : Row p ((a :: as).map f) q) :
    let s := (f a).through (f ((a :: as).getLast (List.cons_ne_nil a as)))
    p ≤ s.start ∧ s.stop ≤ q ∧ Row s.start ((a :: as).map f) s.stop := by
  rcases h with _ | ⟨hp, hs, has⟩
  have h : Row (f a).start ((a :: as).map f) q := .cons (Position.le_refl _) hs has
  have hl := h.to_last (List.cons_ne_nil _ _)
  rw [List.getLast_map] at hl
  refine ⟨hp, ?stop, hl⟩
  case stop => exact (h.bounds (List.mem_map_of_mem (List.getLast_mem _))).2.2

end Row
end Span
end Stencil

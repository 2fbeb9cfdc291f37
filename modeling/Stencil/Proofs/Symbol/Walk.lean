import Stencil.Node.Basic
import Stencil.Symbol.Lookup

namespace Stencil

theorem Node.dotted_concat {names : List String} (h : names ≠ []) (name : String) :
    dotted (names ++ [name]) = dotted names ++ "." ++ name := by
  rw [dotted, String.intercalate_append_of_ne_nil h (by simp), String.intercalate_singleton, dotted]

open Node (dotted dotted_concat)

variable {b : Bindings} {s : Symbol} {names path more : List String}

theorem Symbol.walk_append (h : names ≠ []) :
    s.walk (dotted names) (path ++ more) =
    (s.walk (dotted names) path).bind (·.walk (dotted (names ++ path)) more) := by
  induction path generalizing s names
  case nil => simp [walk, Except.bind]
  case cons name path ih =>
    simp only [List.cons_append, walk]
    cases s.step (dotted names) name
    case error => rfl
    case ok x  =>
      have hn : names ++ [name] ≠ [] := by simp
      simpa [dotted_concat h] using ih (s := x) hn

theorem Bindings.lookup_append (h : path ≠ []) :
    b.lookup (path ++ more) = (b.lookup path).bind (·.walk (dotted path) more) := by
  obtain ⟨name, path, rfl⟩ := List.exists_cons_of_ne_nil h
  simp only [List.cons_append, lookup]
  cases b.get? name
  case none => rfl
  case some => exact Symbol.walk_append (List.cons_ne_nil name [])

end Stencil

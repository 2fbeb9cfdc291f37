import Stencil.Proofs.Render.Thresholds
import Stencil.Symbol.Basic

namespace Stencil
namespace Code

-- A condition on the value at a path.
inductive Test
  | holds
  | present
  | equals (text : String)
  | atLeast (bound : Binary64)

namespace Test

def spell (path : String) : Test → String
  | holds       => path
  | present     => path ++ " != null"
  | equals text => path ++ " == " ++ quote text
  | atLeast x   => path ++ " >= " ++ x.render .code

-- There is no value if the path leads nowhere.
def passes (value : Option Symbol) : Test → Bool
  | holds       => match value with
    | some (.boolean flag) => flag
    | _                    => false
  | present     => value.isSome
  | equals text => match value with
    | some (.string s) => text = s
    | _                => false
  | atLeast x   => match value with
    | some (.number y) => x ≤ y
    | _                => false

end Test

-- Conditions with the results they lead to, and a result for the case that none of them is met.
structure Decision (α : Type) where
  cases     : List (Test × α)
  otherwise : Option α

namespace Decision

variable {α : Type}

def follow (value : Option Symbol) (d : Decision α) : Option α :=
  ((d.cases.find? fun c => c.1.passes value).map (·.2)).or d.otherwise

-- The chain in code. Without a result for the last case, that is an empty text.
def spell (path : String) (code : α → String) (d : Decision α) : String :=
  condition (d.otherwise.map code) (d.cases.map fun c => ⟨c.1.spell path, code c.2⟩)

def between (test : Test) (yes : α) (others : List α) : Decision α :=
  ⟨[(test, yes)], others.head?⟩

-- The last threshold comes first. Thresholds that there is no result for are left out.
def thresholds (ts : List Binary64) (as : List α) : Decision α :=
  ⟨((ts.zip as).map fun e => (.atLeast e.1, e.2)).reverse, as[ts.length]?⟩

variable {value : Option Symbol} {x : Binary64} {ts : List Binary64} {as : List α}

theorem follow_between {test : Test} {yes : α} {others : List α} :
    (between test yes others).follow value =
    (yes :: others)[if test.passes value then 0 else 1]? := by
  cases h : test.passes value
  case true  => simp [follow, between, h]
  case false => simp [follow, between, h, List.head?_eq_getElem?]

theorem follow_thresholds :
    (thresholds ts as).follow (some (.number x)) =
    as[(lastIndex? (fun t => t ≤ x) (ts.take as.length)).getD ts.length]? := by
  rw [follow, thresholds, ← List.map_reverse, List.find?_map]
  simp only [Function.comp_def, Test.passes]
  rw [find?_reverse, ← lastIndex?_zip]
  cases h : lastIndex? (fun e : Binary64 × α => decide (e.1 ≤ x)) (ts.zip as)
  case none   => simp
  case some i =>
    obtain ⟨⟨e, he, _⟩, _⟩ := lastIndex?_eq_some_iff.mp h
    have := (List.getElem?_zip_eq_some.mp he).2
    simp [he, this]

-- A number that is at a threshold with a result is led to that, even if it is at a later one that
-- there is no result for.
theorem follow_thresholds_eq_iff :
    (thresholds ts as).follow (some (.number x)) =
      as[(lastIndex? (fun t => t ≤ x) ts).getD ts.length]? ↔
    ¬((∃ t ∈ ts.take as.length, t ≤ x) ∧ ∃ t ∈ ts.drop as.length, t ≤ x) := by
  have reached_iff (us : List Binary64) :
      (∃ t ∈ us, t ≤ x) ↔ lastIndex? (fun t => t ≤ x) us ≠ none := by
    simp [lastIndex?_eq_none_iff]
  have hsplit := lastIndex?_append (p := fun t => t ≤ x) (ts.take as.length) (ts.drop as.length)
  rw [List.take_append_drop] at hsplit
  rw [follow_thresholds, hsplit, reached_iff, reached_iff]
  cases hl : lastIndex? (fun t => t ≤ x) (ts.drop as.length)
  case none   => simp
  case some i =>
    have hlen : i < ts.length - as.length := by simpa using lt_length_of_lastIndex? hl
    have htake : (ts.take as.length).length = as.length := List.length_take_of_le (by omega)
    cases hf : lastIndex? (fun t => t ≤ x) (ts.take as.length)
    case none   => simp [htake, Nat.le_of_lt (Nat.lt_of_sub_pos (Nat.zero_lt_of_lt hlen))]
    case some j =>
      have hj : j < as.length := htake ▸ lt_length_of_lastIndex? hf
      simp [htake, hj]

end Decision
end Code
end Stencil

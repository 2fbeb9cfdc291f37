import Stencil.Proofs.Code.Decision
import Stencil.Proofs.Number.Spelling

namespace Stencil
namespace Code

-- The paths that code may refer to, and the numbers that it may hold, with their spellings.
structure Vocabulary where
  path          : String → Prop
  number        : Binary64 → String → Prop
  path_ne_empty : ∀ {p}, path p → p ≠ ""
  finite        : ∀ {x l}, number x l → x.isFinite = true
  read          : ∀ {x l}, number x l → Binary64.read? l.toList = some x

theorem Vocabulary.number_ne_empty {V : Vocabulary} {x : Binary64} {l : String}
    (h : V.number x l) : l ≠ "" := by
  rintro rfl
  cases V.read h

-- What a choice may ask of a path. The bound of a comparison is one of the numbers, in a text that
-- it can be read from.
inductive Condition (V : Vocabulary) : String → Prop
  | holds {p}           : V.path p → Condition V p
  | present {p}         : V.path p → Condition V (p ++ " != null")
  | equals {p} (text)   : V.path p → Condition V (p ++ " == " ++ quote text)
  | atLeast {p x l bound} :
    V.path p → V.number x l → Binary64.read? bound.toList = some x →
    Condition V (p ++ " >= " ++ bound)

inductive Expression (V : Vocabulary) : String → Prop
  | literal (text)              : Expression V (quote text)
  | number {x l}                : V.number x l → Expression V l
  | path {p}                    : V.path p → Expression V p
  | call {p}                    : V.path p → Expression V (p ++ "()")
  | callWith {p es}             :
    V.path p → es ≠ [] → (∀ e ∈ es, Expression V e) → Expression V (p ++ "(" ++ list es ++ ")")
  | callWithLists {p as rs}     :
    V.path p → as ≠ [] → rs ≠ [] → (∀ a ∈ as, Expression V a) → (∀ r ∈ rs, Expression V r) →
    Expression V (p ++ "([" ++ list as ++ "], [" ++ list rs ++ "])")
  | choice {c yes no}           :
    Condition V c → Expression V yes → Expression V no →
    Expression V ("(" ++ c ++ " ? " ++ yes ++ " : " ++ no ++ ")")
  | sum {e f}                   : Expression V e → Expression V f → Expression V (e ++ " + " ++ f)

-- The bound of a test is one of the numbers.
def Vocabulary.Admits (V : Vocabulary) : Test → Prop
  | .atLeast x => ∃ l, V.number x l
  | _          => True

theorem Condition.of_test {V : Vocabulary} {p : String} {t : Test} (hp : V.path p)
    (ht : V.Admits t) : Condition V (t.spell p) := by
  cases t
  case holds       => exact .holds hp
  case present     => exact .present hp
  case equals text => exact .equals text hp
  case atLeast x   =>
    obtain ⟨l, hl⟩ := ht
    have hx : x.isNaN = false := Binary64.isNaN_of_isFinite (V.finite hl)
    exact .atLeast hp hl (Binary64.read?_render NumberStyle.legible_code hx)

namespace Expression

variable {V : Vocabulary} {p e : String} {as rs es : List String} {α : Type} {code : α → String}

theorem ne_empty (h : Expression V e) : e ≠ "" := by
  cases h
  case number h => exact V.number_ne_empty h
  case path h   => exact V.path_ne_empty h
  all_goals simp [quote]

theorem of_call (hp : V.path p) (ha : ∀ a ∈ as, Expression V a) (hr : ∀ r ∈ rs, Expression V r) :
    Expression V (Code.call p as rs) := by
  rcases as with _ | ⟨a, as⟩ <;> rcases rs with _ | ⟨r, rs⟩
  case nil.nil   => exact .call hp
  case cons.nil  => exact .callWith hp (List.cons_ne_nil _ _) ha
  case nil.cons  => exact .callWith hp (List.cons_ne_nil _ _) hr
  case cons.cons => exact .callWithLists hp (List.cons_ne_nil _ _) (List.cons_ne_nil _ _) ha hr

theorem of_intercalate (hn : es ≠ []) (h : ∀ e ∈ es, Expression V e) :
    Expression V (" + ".intercalate es) := by
  induction es
  case nil          => contradiction
  case cons e es ih =>
    have ⟨he, hes⟩ := List.forall_mem_cons.mp h
    rcases es with _ | ⟨f, es⟩
    case nil  => simpa using he
    case cons =>
      rw [String.intercalate_cons_cons]
      exact .sum he (ih (List.cons_ne_nil _ _) hes)

-- A chain of conditions, from the last one to the first.
theorem of_spell {d : Decision α} (hp : V.path p)
    (hd : ∀ c ∈ d.cases, V.Admits c.1 ∧ Expression V (code c.2))
    (ho : ∀ a ∈ d.otherwise, Expression V (code a)) : Expression V (d.spell p code) := by
  obtain ⟨cases, otherwise⟩ := d
  induction cases
  case nil          =>
    cases otherwise
    case none   => exact .literal ""
    case some a => exact ho a rfl
  case cons c cs ih =>
    have ⟨hc, hcs⟩ := List.forall_mem_cons.mp hd
    exact .choice (.of_test hp hc.1) hc.2 (ih hcs ho)

theorem of_between {t : Test} {yes : α} {others : List α} (hp : V.path p) (ht : V.Admits t)
    (h : ∀ a ∈ yes :: others, Expression V (code a)) :
    Expression V ((Decision.between t yes others).spell p code) := by
  refine of_spell hp ?cases fun a ha => h a (.tail _ (List.mem_of_head? ha))
  case cases => simpa [Decision.between] using ⟨ht, h yes (List.mem_cons_self ..)⟩

theorem of_thresholds {ts : List Binary64} {as : List α} (hp : V.path p)
    (ht : ∀ t ∈ ts, ∃ l, V.number t l) (h : ∀ a ∈ as, Expression V (code a)) :
    Expression V ((Decision.thresholds ts as).spell p code) := by
  refine of_spell hp ?cases fun a ha => h a (List.mem_of_getElem? ha)
  case cases =>
    intro c hc
    obtain ⟨⟨t, a⟩, he, rfl⟩ := List.mem_map.mp (List.mem_reverse.mp hc)
    exact ⟨ht t (List.of_mem_zip he).1, h a (List.of_mem_zip he).2⟩

end Expression
end Code
end Stencil

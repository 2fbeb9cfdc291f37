import Mathlib.Data.List.Infix
import Mathlib.Tactic.Common
import Stencil.Code

namespace Stencil
namespace Code

variable {c : Char} {cs text rest : List Char}

-- The first character of a text, with what is read behind it.
def before (c : Char) : List Char × List Char → List Char × List Char :=
  Prod.map (c :: ·) id

theorem literalRest?_plain (hq : c ≠ '"') (hb : c ≠ '\\') :
    literalRest? (c :: cs) = (literalRest? cs).map (before c) := by
  rw [literalRest?]
  case x_1 | x_2 | x_3 => simp [hq, hb]
  cases literalRest? cs <;> rfl

theorem literalRest?_newline :
    literalRest? ('\\' :: 'n' :: cs) = (literalRest? cs).map (before '\n') := by
  rw [literalRest?]
  cases literalRest? cs <;> rfl

theorem literalRest?_escaped (h : c = '\\' ∨ c = '\'' ∨ c = '"') :
    literalRest? ('\\' :: c :: cs) = (literalRest? cs).map (before c) := by
  have hn : c ≠ 'n' := by rintro rfl; simp at h
  rw [literalRest?]
  simp only [hn, h, if_true, if_false]
  cases literalRest? cs <;> rfl

-- The spelling of a character is read as that character.
theorem literalRest?_escape (c : Char) (cs : List Char) :
    literalRest? (escape c ++ cs) = (literalRest? cs).map (before c) := by
  unfold escape
  split_ifs
  case pos hb        => exact hb ▸ literalRest?_escaped (.inl hb)
  case pos hn        => exact hn ▸ literalRest?_newline
  case pos ha        => exact ha ▸ literalRest?_escaped (.inr <| .inl ha)
  case pos hq        => exact hq ▸ literalRest?_escaped (.inr <| .inr hq)
  case neg hb _ _ hq => exact literalRest?_plain hq hb

theorem literalRest?_flatMap_escape (text rest : List Char) :
    literalRest? (text.flatMap escape ++ '"' :: rest) = some (text, rest) := by
  induction text
  case nil            => rfl
  case cons c text ih =>
    rw [List.flatMap_cons, List.append_assoc, literalRest?_escape, ih]
    rfl

theorem toList_quote (text : String) :
    (quote text).toList = '"' :: (text.toList.flatMap escape ++ ['"']) := by
  simp [quote]

theorem literal?_quote (text : String) (rest : List Char) :
    literal? ((quote text).toList ++ rest) = some (text.toList, rest) := by
  simpa [toList_quote, literal?] using literalRest?_flatMap_escape text.toList rest

-- Where a literal ends, it ends in longer code as well.
theorem literalRest?_append (h : literalRest? cs = some (text, rest)) (ds : List Char) :
    literalRest? (cs ++ ds) = some (text, rest ++ ds) := by
  fun_induction literalRest? cs generalizing text rest
  case case2 => cases h; rfl
  case case4 c cs d? d _ _ _ hd ih =>
    cases h
    have hd : (if c = 'n' then some '\n'
      else if c = '\\' ∨ c = '\'' ∨ c = '"' then some c else none) = some d := hd
    simp only [List.cons_append, literalRest?, ih ‹_›, hd]
  case case6 c cs hq hb hb' _ _ _ ih =>
    cases h
    have hb : c ≠ '\\' := by cases cs <;> simp_all
    rw [List.cons_append, literalRest?_plain hq hb, ih ‹_›]
    rfl
  case case1 | case3 | case5 | case7 => cases h

theorem literal?_append (h : literal? cs = some (text, rest)) (ds : List Char) :
    literal? (cs ++ ds) = some (text, rest ++ ds) := by
  unfold literal? at h
  split at h
  case h_1 => cases h
  case h_2 c cs =>
    split at h
    case isFalse => cases h
    case isTrue hc  => simpa [literal?, hc] using literalRest?_append h ds

-- No part of a literal is a literal already.
theorem literal?_of_prefix {text : String} {front : List Char}
    (h : front <+: (quote text).toList) (hn : front ≠ (quote text).toList) :
    literal? front = none := by
  obtain ⟨back, hb⟩ := h
  by_contra hr
  have ⟨(read, rest), hr⟩ := Option.ne_none_iff_exists'.mp hr
  have hq : literal? (front ++ back) = some (text.toList, []) := by
    simpa [hb] using literal?_quote text []
  rw [literal?_append hr, Option.some.injEq, Prod.mk.injEq, List.append_eq_nil_iff] at hq
  rw [← hb, hq.2.2, List.append_nil] at hn
  contradiction

theorem quote_append_inj {text other : String} {back : List Char}
    (h : (quote text).toList ++ rest = (quote other).toList ++ back) :
    text = other ∧ rest = back := by
  have h := congrArg literal? h
  rw [literal?_quote, literal?_quote, Option.some.injEq, Prod.mk.injEq] at h
  exact ⟨String.toList_inj.mp h.1, h.2⟩

theorem newline_not_mem_escape (c : Char) : '\n' ∉ escape c := by
  unfold escape
  split_ifs <;> simp_all [eq_comm]

theorem newline_not_mem_quote (text : String) : '\n' ∉ (quote text).toList := by
  rw [toList_quote]
  simp [newline_not_mem_escape]

-- A quoted text is read as itself, and what stands behind it is left. It does not end early, no
-- other text is quoted alike, whatever stands behind them, and it is on one line.
theorem quote_delimits :
    (∀ text rest, literal? ((quote text).toList ++ rest) = some (text.toList, rest)) ∧
    (∀ text front, front <+: (quote text).toList → front ≠ (quote text).toList →
      literal? front = none) ∧
    (∀ text other rest back, (quote text).toList ++ rest = (quote other).toList ++ back →
      text = other ∧ rest = back) ∧
    Function.Injective quote ∧
    ∀ text, '\n' ∉ (quote text).toList := by
  refine ⟨literal?_quote, fun _ _ => literal?_of_prefix, fun _ _ _ _ => quote_append_inj,
    fun text other h => ?injective, newline_not_mem_quote⟩
  case injective =>
    have h : (quote text).toList ++ [] = (quote other).toList ++ [] := by rw [h]
    exact (quote_append_inj h).1

-- The text ends in the middle of what would be an escape, if its characters stood as they are.
theorem quote_delimits_mixed :
    let text := "a\"\n'\\"
    let front := "\"a\\\"".toList
    (quote text).toList = front ++ "\\n\\'\\\\\"".toList ∧
    literal? ((quote text).toList ++ " : x)".toList) = some (text.toList, " : x)".toList) ∧
    literal? front = none := by
  intro text front
  have ⟨hread, hearly, _⟩ := quote_delimits
  have hq : (quote text).toList = front ++ "\\n\\'\\\\\"".toList := by decide +kernel
  refine ⟨hq, hread .., hearly text front (hq ▸ List.prefix_append ..) ?_⟩
  rw [hq]
  decide +kernel

end Code
end Stencil

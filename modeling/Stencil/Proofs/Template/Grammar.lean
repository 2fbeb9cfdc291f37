import Mathlib.Data.List.Infix
import Mathlib.Tactic.Common

namespace Stencil
namespace Grammar

def isSpace (c : Char) : Bool :=
  c = ' ' || c = '\t' || c = '\n'

def Spaces (w : List Char) : Prop :=
  ∀ c ∈ w, isSpace c = true

structure Segment (w : List Char) : Prop where
  ne_nil : w ≠ []
  plain  : ∀ c ∈ w, isSpace c = false ∧ c ∉ ['.', '?', '|', ']']
  head   : w.head? ≠ some '\\'

-- An argument may hold a backslash, but not where a token begins: at its start or after a point.
structure Operand (w : List Char) : Prop where
  ne_nil : w ≠ []
  plain  : ∀ c ∈ w, isSpace c = false ∧ c ∉ ['|', ']']
  head   : w.head? ≠ some '\\'
  point  : ∀ u v, w ≠ u ++ '.' :: '\\' :: v

instance (w : List Char) : Decidable (Spaces w) :=
  decidable_of_iff (w.all isSpace = true) List.all_eq_true

instance (w : List Char) : Decidable (Segment w) :=
  decidable_of_iff (w ≠ [] ∧ w.all (fun c => !isSpace c && c ∉ ['.', '?', '|', ']']) = true ∧
      w.head? ≠ some '\\')
    ⟨fun ⟨h₁, h₂, h₃⟩ => ⟨h₁, by simpa using h₂, h₃⟩,
      fun ⟨h₁, h₂, h₃⟩ => ⟨h₁, by simpa using h₂, h₃⟩⟩

instance (w : List Char) : Decidable (Operand w) :=
  decidable_of_iff (w ≠ [] ∧ w.all (fun c => !isSpace c && c ∉ ['|', ']']) = true ∧
      w.head? ≠ some '\\' ∧ ¬['.', '\\'] <:+: w)
    ⟨fun ⟨h₁, h₂, h₃, h₄⟩ => ⟨h₁, by simpa using h₂, h₃, fun u v h => h₄ ⟨u, v, by simp [h]⟩⟩,
      fun ⟨h₁, h₂, h₃, h₄⟩ => ⟨h₁, by simpa using h₂, h₃, fun ⟨u, v, h⟩ => h₄ u v (by simp [← h])⟩⟩

inductive Path : List Char → Prop
  | last {w}  : Segment w → Path w
  | dot {w v} : Segment w → Path v → Path (w ++ '.' :: v)

inductive Arguments : List Char → Prop
  | nil            : Arguments []
  | cons {g v w}   : g ≠ [] → Spaces g → Operand v → Arguments w → Arguments (g ++ v ++ w)

-- These characters do not stand for themselves in prose.
def proseMarks (inAlternative : Bool) : List Char :=
  if inAlternative then ['[', ']', '|', '\\'] else ['[', '\\']

inductive Prose (block : List Char → Prop) (inAlternative : Bool) : List Char → Prop
  | nil          : Prose block inAlternative []
  | char {c w}   :
    c ∉ proseMarks inAlternative → Prose block inAlternative w → Prose block inAlternative (c :: w)
  | escape {w}   : Prose block inAlternative w → Prose block inAlternative ('\\' :: '[' :: w)
  | block {b w}  : block b → Prose block inAlternative w → Prose block inAlternative (b ++ w)

inductive Alternatives (block : List Char → Prop) : List Char → Prop
  | nil          : Alternatives block []
  | cons {w v}   : Prose block true w → Alternatives block v → Alternatives block ('|' :: w ++ v)

inductive BlockOver (inner : List Char → Prop) : List Char → Prop
  | mk {lead path mark args trail alts} :
    Spaces lead → Path path → mark = [] ∨ mark = ['?'] → Arguments args → Spaces trail →
    Alternatives inner alts →
    BlockOver inner ('[' :: (lead ++ path ++ mark ++ args ++ trail ++ alts ++ [']']))

-- Blocks that nest at most `n` deep, counting the outermost one.
def Nested : Nat → List Char → Prop
  | 0     => fun _ => False
  | n + 1 => BlockOver (Nested n)

theorem Prose.chars {block : List Char → Prop} {inAlternative : Bool} {w v : List Char}
    (h : ∀ c ∈ w, c ∉ proseMarks inAlternative) (hv : Prose block inAlternative v) :
    Prose block inAlternative (w ++ v) := by
  induction w
  case nil         => exact hv
  case cons c w ih => exact .char (h c (by simp)) (ih fun d hd => h d (by simp [hd]))

theorem Path.ne_nil {w : List Char} (h : Path w) : w ≠ [] := by
  cases h
  case last h => exact h.ne_nil
  case dot    => simp

theorem Spaces.nil : Spaces [] :=
  nofun

theorem Spaces.append {u v : List Char} (hu : Spaces u) (hv : Spaces v) : Spaces (u ++ v) :=
  fun c hc => List.mem_append.mp hc |>.elim (hu c) (hv c)

theorem Operand.append {u v : List Char} (hu : Operand u) (hv : Operand v) : Operand (u ++ v) where
  ne_nil := by simp [hu.ne_nil]
  plain c hc := List.mem_append.mp hc |>.elim (hu.plain c) (hv.plain c)
  head := by simp [hu.head, hu.ne_nil]
  point := by
    intro x y h
    rcases List.append_eq_append_iff.mp h with ⟨z, rfl, hz⟩ | ⟨z, rfl, hz⟩
    case inl => exact hv.point _ _ hz
    case inr =>
      -- the point ends `u` at most, so that the backslash begins `v` or stands in `u` as well
      rcases z with _ | ⟨c, _ | ⟨d, z⟩⟩
      case nil => exact hv.point [] y (by simpa using hz.symm)
      case cons.nil =>
        simp only [List.cons_append, List.nil_append, List.cons.injEq] at hz
        exact hv.head (by simp [← hz.2])
      case cons.cons =>
        simp only [List.cons_append, List.cons.injEq] at hz
        exact hu.point x z (by simp [← hz.1, ← hz.2.1])

end Grammar
end Stencil

namespace Stencil

-- Lines and columns count from zero, and a column counts characters.
@[ext]
structure Position where
  line : Nat
  col  : Nat
  deriving DecidableEq, Inhabited

namespace Position

-- Lines come first, columns decide within a line.
protected def compare (p q : Position) : Ordering :=
  (compare p.line q.line).then (compare p.col q.col)

instance : Ord Position := ⟨Position.compare⟩

instance : LE Position where
  le p q := p.line < q.line ∨ (p.line = q.line ∧ p.col ≤ q.col)

theorem le_def {p q : Position} : p ≤ q ↔ p.line < q.line ∨ (p.line = q.line ∧ p.col ≤ q.col) :=
  Iff.rfl

instance (p q : Position) : Decidable (p ≤ q) :=
  decidable_of_iff _ le_def.symm

protected theorem le_refl (p : Position) : p ≤ p :=
  .inr ⟨rfl, Nat.le_refl _⟩

protected theorem le_trans {p q r : Position} (h₁ : p ≤ q) (h₂ : q ≤ r) : p ≤ r := by
  rw [le_def] at *
  omega

protected theorem le_total (p q : Position) : p ≤ q ∨ q ≤ p := by
  simp only [le_def]
  omega

-- Moves a position down by `n` lines.
def down (p : Position) (n : Nat) : Position :=
  { p with line := p.line + n }

def render (p : Position) : String :=
  toString p.line ++ ":" ++ toString p.col

end Position

-- The half-open stretch of text from `start` up to `stop`.
@[ext]
structure Span where
  start : Position
  stop  : Position
  deriving DecidableEq, Inhabited

namespace Span

-- The empty span at the very beginning of a text.
def origin : Span :=
  ⟨⟨0, 0⟩, ⟨0, 0⟩⟩

-- The empty span at a position.
def point (p : Position) : Span :=
  ⟨p, p⟩

-- Reaches from the start of `s` to the end of `t`.
def through (s t : Span) : Span :=
  ⟨s.start, t.stop⟩

def isEmpty (s : Span) : Bool :=
  s.start = s.stop

-- Reaches from the first to the last of the given spans, if there is one.
def hull? : List Span → Option Span
  | []      => none
  | s :: ss => some (s.through ((s :: ss).getLast (List.cons_ne_nil s ss)))

@[simp]
theorem hull?_toList (s? : Option Span) : hull? s?.toList = s? := by
  cases s? <;> rfl

theorem hull?_cons_cons (s s' : Span) (ss : List Span) :
    hull? (s :: s' :: ss) = hull? (s.through s' :: ss) := by
  cases ss <;> rfl

def down (s : Span) (n : Nat) : Span :=
  ⟨s.start.down n, s.stop.down n⟩

def render (s : Span) : String :=
  s.start.render ++ "-" ++ s.stop.render

end Span
end Stencil

import Stencil.Proofs.Span.Row
import Stencil.Proofs.Token.Ahead
import Stencil.Proofs.Token.LineStart
import Stencil.Proofs.Token.Tiling

namespace Stencil

-- The place behind a character.
def Position.next (p : Position) (c : Char) : Position :=
  if c = '\n' then ⟨p.line + 1, 0⟩ else ⟨p.line, p.col + 1⟩

-- The characters at the places of a span, from a text that begins at `p`.
def Span.excerptFrom (s : Span) (p : Position) : List Char → List Char
  | []      => []
  | c :: cs =>
    if s.start ≤ p ∧ ¬s.stop ≤ p then c :: s.excerptFrom (p.next c) cs
    else s.excerptFrom (p.next c) cs

def Span.excerpt (s : Span) (text : List Char) : List Char :=
  s.excerptFrom ⟨0, 0⟩ text

namespace Position

variable {p q : Position} {u v w : List Char}

theorem next_not_le (p : Position) (c : Char) : ¬p.next c ≤ p := by
  unfold next
  split <;> simp [le_def]

theorem behind_concat (u : List Char) (c : Char) : behind (u ++ [c]) = (behind u).next c := by
  unfold next
  split
  case isTrue h  => simp [behind, h]
  case isFalse h => simp [behind, h, lastLine_append (w := [c]) (by simpa using Ne.symm h)]

theorem behind_eq_foldl (u w : List Char) : behind (u ++ w) = w.foldl next (behind u) := by
  induction w generalizing u
  case nil         => simp
  case cons c w ih => simpa [behind_concat] using ih (u ++ [c])

theorem le_foldl_next (p : Position) (w : List Char) : p ≤ w.foldl next p := by
  induction w generalizing p
  case nil         => exact p.le_refl
  case cons c w ih =>
    have := p.le_total (p.next c) |>.resolve_right (p.next_not_le c)
    exact Position.le_trans this (ih _)

end Position

namespace Span

open Position (next)

variable {s : Span} {p : Position} {u v w : List Char}

theorem excerptFrom_append (s : Span) (p : Position) (u v : List Char) :
    s.excerptFrom p (u ++ v) = s.excerptFrom p u ++ s.excerptFrom (u.foldl next p) v := by
  induction u generalizing p
  case nil         => rfl
  case cons c u ih =>
    simp only [List.cons_append, excerptFrom, List.foldl_cons, ih]
    split <;> rfl

theorem excerptFrom_of_before (h : u.foldl next p ≤ s.start) : s.excerptFrom p u = [] := by
  induction u generalizing p
  case nil         => rfl
  case cons c u ih =>
    have hp : ¬s.start ≤ p := fun hs =>
      p.next_not_le c <| Position.le_trans (Position.le_foldl_next _ u) (Position.le_trans h hs)
    rw [excerptFrom, if_neg (by simp [hp]), ih h]

theorem excerptFrom_of_within (hs : s.start ≤ p) (h : w.foldl next p ≤ s.stop) :
    s.excerptFrom p w = w := by
  induction w generalizing p
  case nil         => rfl
  case cons c w ih =>
    have hn : p ≤ p.next c := p.le_foldl_next [c]
    have hp : ¬s.stop ≤ p := fun hs =>
      p.next_not_le c <| Position.le_trans (Position.le_foldl_next _ w) (Position.le_trans h hs)
    rw [excerptFrom, if_pos ⟨hs, hp⟩, ih (Position.le_trans hs hn) h]

theorem excerptFrom_of_behind (h : s.stop ≤ p) : s.excerptFrom p v = [] := by
  induction v generalizing p
  case nil         => rfl
  case cons c v ih =>
    have hn : p ≤ p.next c := p.le_foldl_next [c]
    rw [excerptFrom, if_neg (by simp [h]), ih (Position.le_trans h hn)]

theorem excerptFrom_point (p q : Position) (w : List Char) : (point p).excerptFrom q w = [] := by
  induction w generalizing q
  case nil         => rfl
  case cons c w ih => rw [excerptFrom, if_neg (by simp [point]), ih]

-- A span that ends behind `c`, and not in front of it.
theorem excerpt_eq {c : Char} (hs : s.start = .behind u) (hn : ¬s.stop ≤ .behind (u ++ w))
    (hl : s.stop ≤ .behind (u ++ (w ++ [c]))) (v : List Char) :
    s.excerpt (u ++ ((w ++ [c]) ++ v)) = w ++ [c] := by
  have h₀ : u.foldl next ⟨0, 0⟩ = .behind u := (Position.behind_eq_foldl [] u).symm
  have hw : w.foldl next (.behind u) = .behind (u ++ w) := (Position.behind_eq_foldl u w).symm
  have hc : (w ++ [c]).foldl next (.behind u) = .behind (u ++ (w ++ [c])) :=
    (Position.behind_eq_foldl u _).symm
  have hle : s.start ≤ .behind (u ++ w) := hs ▸ hw ▸ Position.le_foldl_next _ w
  have hlast : s.excerptFrom (.behind (u ++ w)) [c] = [c] := by
    rw [excerptFrom, if_pos ⟨hle, hn⟩, excerptFrom]
  rw [excerpt, excerptFrom_append, excerptFrom_append, excerptFrom_append, h₀, hw, hc, hlast,
    excerptFrom_of_before (by rw [h₀, hs]; exact Position.le_refl _),
    excerptFrom_of_within (by rw [hs]; exact Position.le_refl _)
      (hw ▸ (Position.le_total _ _).resolve_right hn),
    excerptFrom_of_behind hl]
  simp

example : excerpt ⟨⟨1, 1⟩, ⟨2, 1⟩⟩ "é\nab\nc|".toList = "b\nc".toList := by decide

end Span

namespace Scanner

variable {s s' : Scanner} {t : Token} {ts us : List Token} {before w : List Char}

theorem Behind.position_eq (h : Behind before s) : s.position = .behind before :=
  Position.ext h.line h.col

namespace Step

theorem start_eq (step : Step s t w s') (h : Behind before s) : t.span.start = .behind before := by
  rw [step.token]
  exact h.position_eq

theorem stop_le (step : Step s t w s') (h : Behind before s) :
    t.span.start ≤ t.span.stop ∧ t.span.stop ≤ .behind (before ++ w) := by
  rw [step.token, ← (step.behind h).position_eq]
  have hp := step.place
  split at hp <;> simp only [Prod.mk.injEq] at hp <;>
    simp [Position.le_def, position, hp.1, hp.2.1]

-- A token ends behind its last character, which is the only one that can be a line end.
theorem stop_bounds (step : Step s t w s') (h : Behind before s) :
    ∃ v c, w = v ++ [c] ∧ ¬t.span.stop ≤ .behind (before ++ v) ∧
      t.span.stop ≤ .behind (before ++ w) := by
  obtain ⟨v, c, rfl⟩ := (List.eq_nil_or_concat' w).resolve_left step.reads.ne_nil
  have hv : '\n' ∉ v := by
    by_cases hk : t.kind = .newline
    case pos =>
      have hw := (hk ▸ step.reads).eq_newline
      simp_all [List.append_eq_singleton_iff]
    case neg => exact fun hv => step.reads.not_mem_newline hk (by simp [hv])
  refine ⟨v, c, rfl, ?_, (step.stop_le h).2⟩
  rw [step.token]
  simp [Position.le_def, Position.behind, h.line, h.col, List.count_eq_zero.mpr hv,
    lastLine_append hv]

end Step

namespace Steps

theorem row (e : Steps s ts w s') (h : Behind before s) :
    Span.Row (.behind before) (ts.map (·.span)) (.behind (before ++ w)) := by
  induction e generalizing before
  case refl => simpa using .nil (Position.le_refl _)
  case step step _ ih =>
    have ⟨h₁, h₂⟩ := step.stop_le h
    have ih := (ih (step.behind h)).mono_left h₂
    rw [List.append_assoc] at ih
    exact .cons (step.start_eq h ▸ Position.le_refl _) h₁ ih

theorem last_stop_bounds (e : Steps s ts w s') (h : Behind before s) (hn : ts ≠ []) :
    ∃ v c, w = v ++ [c] ∧ ¬(ts.getLast hn).span.stop ≤ .behind (before ++ v) ∧
      (ts.getLast hn).span.stop ≤ .behind (before ++ w) := by
  induction e generalizing before
  case refl => contradiction
  case step t ts u w step e ih =>
    rcases e with _ | ⟨step', e⟩
    case refl => simpa using step.stop_bounds h
    case step =>
      obtain ⟨v, c, hw, h₁, h₂⟩ := ih (step.behind h) (List.cons_ne_nil _ _)
      rw [hw] at h₂ ⊢
      exact ⟨u ++ v, c, by simp, by simpa using h₁, by simpa using h₂⟩

theorem excerpt_hull (e : Steps s (t :: us) w s') (h : Behind before s) :
    (Source.hull t us).excerpt (before ++ s.rest) = w := by
  have hstart : t.span.start = .behind before := by
    rcases e with _ | ⟨step, _⟩
    exact step.start_eq h
  obtain ⟨v, c, rfl, h₁, h₂⟩ := e.last_stop_bounds h (List.cons_ne_nil t us)
  rw [e.rest]
  exact Span.excerpt_eq (s := Source.hull t us) hstart h₁ h₂ s'.rest

end Steps
end Scanner

namespace Token

variable {text : String} {t : Token} {us : List Token}

theorem row_scan (text : String) :
    Span.Row ⟨0, 0⟩ ((scan text).map (·.span)) (finish (scan text)).start := by
  have ⟨s, e⟩ := (Scanner.start text).exists_steps_tokens
  have h : Span.Row ⟨0, 0⟩ ((scan text).map (·.span)) _ := e.row (Scanner.behind_start text)
  cases hn : scan text
  case nil  => exact .nil (Position.le_refl _)
  case cons =>
    rw [hn] at h
    have hl := h.to_last (by simp)
    rw [List.getLast_map] at hl
    simpa [finish, Span.point, List.getLast?_eq_some_getLast] using hl

theorem finish_scan_le (text : String) : (finish (scan text)).start ≤ .behind text.toList := by
  have ⟨s, e⟩ := (Scanner.start text).exists_steps_tokens
  have h : Span.Row ⟨0, 0⟩ ((scan text).map (·.span)) (.behind text.toList) :=
    e.row (Scanner.behind_start text)
  cases hl : (scan text).getLast?
  case none =>
    rw [finish, hl]
    exact h.le
  case some =>
    rw [finish, hl]
    exact (h.bounds (List.mem_map_of_mem (List.mem_of_getLast? hl))).2.2

theorem excerpt_hull (hu : t :: us <:+: scan text) :
    (Source.hull t us).excerpt text.toList =
    (t :: us).flatMap (·.slice text.toList.toArray) := by
  obtain ⟨vs, xs, hs⟩ := hu
  have hs : scan text = vs ++ ((t :: us) ++ xs) := by rw [← hs, List.append_assoc]
  have ⟨v, s₁, e₁, h₁⟩ := Scanner.exists_steps hs
  have ⟨w, s₂, e₂, _⟩ := Scanner.exists_steps h₁
  have hb := e₁.behind (Scanner.behind_start text)
  have hr : text.toList = v ++ s₁.rest := e₁.rest
  have hx := e₂.excerpt_hull hb
  have hw := e₂.flatMap_slice hb
  rw [List.nil_append, ← hr] at hx hw
  exact hx.trans hw.symm

end Token
end Stencil

import Stencil.Proofs.Token.Step

namespace Stencil

-- What follows the last line end of a text.
def lastLine (w : List Char) : List Char :=
  (w.reverse.takeWhile (· ≠ '\n')).reverse

theorem lastLine_append {v w : List Char} (h : '\n' ∉ w) : lastLine (v ++ w) = lastLine v ++ w := by
  have h' : ∀ c ∈ w.reverse, decide (c ≠ '\n') = true := by
    intro c hc
    simp only [ne_eq, decide_not, Bool.not_eq_true', decide_eq_false_iff_not]
    rintro rfl
    exact h (List.mem_reverse.mp hc)
  rw [lastLine, List.reverse_append, List.takeWhile_append_of_pos h', List.reverse_append,
    List.reverse_reverse, ← lastLine]

@[simp]
theorem lastLine_newline (v : List Char) : lastLine (v ++ ['\n']) = [] := by
  simp [lastLine]

theorem lastLine_eq_nil {v : List Char} (h : ∀ c ∈ v.getLast?, c = '\n') : lastLine v = [] := by
  rcases v.eq_nil_or_concat with rfl | ⟨u, c, rfl⟩
  case inl => rfl
  case inr =>
    obtain rfl := h c (by simp)
    simp

theorem not_mem_lastLine (v : List Char) : '\n' ∉ lastLine v := by
  intro h
  simpa using List.mem_takeWhile_imp (List.mem_reverse.mp h)

theorem exists_lastLine (v : List Char) :
    ∃ above, v = above ++ lastLine v ∧ ∀ c ∈ above.getLast?, c = '\n' := by
  refine ⟨(v.reverse.dropWhile (· ≠ '\n')).reverse, ?eq, ?ends⟩
  case eq =>
    rw [lastLine, ← List.reverse_append, List.takeWhile_append_dropWhile, List.reverse_reverse]
  case ends =>
    intro c hc
    rw [List.getLast?_reverse] at hc
    simpa using Lexeme.Fits.not_head?_dropWhile hc

theorem Lexeme.Reads.not_mem_newline {b : Bool} {zs zs' : List Zone} {k : Token.Kind}
    {w next : List Char} (r : Reads b next zs k w zs') (h : k ≠ .newline) : '\n' ∉ w := by
  intro hw
  cases r <;> try simp at hw h
  case indent | lead | gap | space     => simpa [isBlank] using (‹Blanks _ _›).blank _ hw
  case prose | result | name | value   => exact (‹Run _ _ _›).plain _ hw (by decide)
  case article                         => rcases ‹_ ∨ _› with rfl | rfl <;> simp at hw

theorem Lexeme.Reads.eq_newline {b : Bool} {zs zs' : List Zone} {w next : List Char}
    (r : Reads b next zs .newline w zs') : w = ['\n'] := by
  cases r <;> rfl

namespace Scanner

-- The scanner `s` stands behind the text `before`.
structure Behind (before : List Char) (s : Scanner) : Prop where
  line   : s.line = before.count '\n'
  col    : s.col = (lastLine before).length
  offset : s.offset + s.col = before.length

variable {s s' : Scanner} {t : Token} {before w : List Char}

theorem behind_start (text : String) : Behind [] (start text) :=
  ⟨rfl, rfl, rfl⟩

-- The line of the scanner begins behind the text `above`.
theorem Behind.exists_above (h : Behind before s) :
    ∃ above, before = above ++ lastLine before ∧ s.offset = above.length := by
  have ⟨above, ha, _⟩ := exists_lastLine before
  have hl := congrArg List.length ha
  rw [List.length_append, ← h.offset, h.col] at hl
  exact ⟨above, ha, Nat.add_right_cancel hl⟩

theorem Step.behind (step : Step s t w s') (h : Behind before s) : Behind (before ++ w) s' := by
  have hp := step.place
  by_cases hk : t.kind = .newline
  case pos =>
    obtain rfl := (hk ▸ step.reads).eq_newline
    simp only [if_pos hk, Prod.mk.injEq] at hp
    refine ⟨by simp [hp.1, h.line], by simp [hp.2.1], ?_⟩
    simp [hp.2.1, hp.2.2, ← h.offset, Nat.add_assoc]
  case neg =>
    have hw := step.reads.not_mem_newline hk
    simp only [if_neg hk, Prod.mk.injEq] at hp
    refine ⟨by simp [hp.1, h.line, List.count_eq_zero.mpr hw], ?_, ?_⟩
    · simp [hp.2.1, h.col, lastLine_append hw]
    · simp [hp.2.1, hp.2.2, ← h.offset, Nat.add_assoc]

theorem Step.first_eq (step : Step s t w s') (h : Behind before s) : t.first = before.length := by
  rw [step.token]
  exact h.offset

theorem Step.past_eq (step : Step s t w s') (h : Behind before s) :
    t.past = before.length + w.length := by
  rw [step.token, ← h.offset, Nat.add_assoc]
  rfl

theorem Step.slice_eq (step : Step s t w s') (h : Behind before s) :
    t.slice (before ++ s.rest).toArray = w := by
  rw [Token.slice, step.first_eq h, step.past_eq h, step.rest]
  simp

end Scanner
end Stencil

import Stencil.Proofs.Token.Place

namespace Stencil

namespace Scanner

-- From `s`, the characters `w` are read as the tokens `ts`, and `s'` is the scanner after them.
inductive Steps : Scanner → List Token → List Char → Scanner → Prop
  | refl (s : Scanner) : Steps s [] [] s
  | step {s s₁ s₂ : Scanner} {t : Token} {ts : List Token} {v w : List Char} :
    Step s t v s₁ → Steps s₁ ts w s₂ → Steps s (t :: ts) (v ++ w) s₂

variable {s s' : Scanner} {ts us vs : List Token} {before w : List Char}

namespace Steps

theorem rest (e : Steps s ts w s') : s.rest = w ++ s'.rest := by
  induction e
  case refl         => rfl
  case step e₁ _ ih => rw [e₁.rest, ih, List.append_assoc]

theorem behind (e : Steps s ts w s') (h : Behind before s) : Behind (before ++ w) s' := by
  induction e generalizing before
  case refl         => simpa using h
  case step e₁ _ ih => simpa using ih (e₁.behind h)

theorem flatMap_slice (e : Steps s ts w s') (h : Behind before s) :
    ts.flatMap (·.slice (before ++ s.rest).toArray) = w := by
  induction e generalizing before
  case refl         => rfl
  case step e₁ _ ih =>
    have ih := ih (e₁.behind h)
    rw [List.append_assoc, ← e₁.rest] at ih
    rw [List.flatMap_cons, e₁.slice_eq h, ih]

theorem slice_eq {s₂ : Scanner} {t : Token} {v : List Char} (e : Steps s ts w s')
    (step : Step s' t v s₂) (h : Behind before s) : t.slice (before ++ s.rest).toArray = v := by
  have := step.slice_eq (e.behind h)
  rwa [List.append_assoc, ← e.rest] at this

-- A line begins behind a token iff it is a line end.
theorem lineStart_eq (e : Steps s ts w s') :
    s'.lineStart = ts.getLast?.elim s.lineStart fun t => decide (t.kind = .newline) := by
  induction e
  case refl           => rfl
  case step step e ih =>
    rw [ih]
    cases e
    case refl => simpa using step.lineStart
    case step => simp [List.getLast?_eq_some_getLast]

end Steps

theorem exists_steps (h : s.tokens = us ++ vs) : ∃ w s', Steps s us w s' ∧ s'.tokens = vs := by
  induction us generalizing s
  case nil          => exact ⟨[], s, .refl s, h⟩
  case cons t us ih =>
    have ⟨w, s₁, h₁, step⟩ := step_of_tokens_cons h
    have ⟨v, s₂, e, h₂⟩ := ih h₁.symm
    exact ⟨w ++ v, s₂, .step step e, h₂⟩

theorem exists_steps_of_mem {t : Token} (ht : t ∈ s.tokens) :
    ∃ us v s₁ w s₂, Steps s us v s₁ ∧ Step s₁ t w s₂ := by
  have ⟨us, vs, ht⟩ := List.append_of_mem ht
  have ⟨v, s₁, e, hs⟩ := exists_steps ht
  have ⟨w, s₂, _, step⟩ := step_of_tokens_cons hs
  exact ⟨us, v, s₁, w, s₂, e, step⟩

theorem exists_steps_tokens (s : Scanner) : ∃ s', Steps s s.tokens s.rest s' := by
  have ⟨w, s', e, hs⟩ := exists_steps (List.append_nil s.tokens).symm
  have hr : s.rest = w := by rw [e.rest, tokens_eq_nil_iff.mp hs, List.append_nil]
  exact ⟨s', hr ▸ e⟩

end Scanner

namespace Token

-- The token `t` of the text `chars` stands right behind the characters `before`, and tells so.
structure Stands (chars : Array Char) (before : List Char) (t : Token) : Prop where
  ne_nil  : t.slice chars ≠ []
  first   : t.offset + t.span.start.col = before.length
  past    : t.offset + t.span.stop.col = before.length + (t.slice chars).length
  past_le : t.past ≤ chars.size
  line    : t.span.start.line = before.count '\n'
  -- the line of the token begins behind the last line end, or else with the text
  offset  : ∃ above line, before = above ++ line ∧ t.offset = above.length ∧ '\n' ∉ line ∧
    ∀ c ∈ above.getLast?, c = '\n'
  -- the token ends on that line, and a line end is a token of its own
  stop    : t.span.stop.line = t.span.start.line
  newline : t.kind = .newline ↔ '\n' ∈ t.slice chars
  single  : '\n' ∈ t.slice chars → t.slice chars = ['\n']

end Token

theorem Scanner.Step.stands {s s' : Scanner} {t : Token} {before w : List Char}
    (step : Step s t w s') (h : Behind before s) :
    t.Stands (before ++ s.rest).toArray before := by
  have hw := step.slice_eq h
  have hp := step.past_eq h
  have hk : t.kind = .newline → w = ['\n'] := fun hk => (hk ▸ step.reads).eq_newline
  have hn : '\n' ∈ w → t.kind = .newline := by
    intro hn
    by_contra hk
    exact step.reads.not_mem_newline hk hn
  refine ⟨?ne_nil, step.first_eq h, ?past, ?past_le, ?line, ?offset, ?stop, ?newline, ?single⟩
  case ne_nil  => rw [hw]; exact step.reads.ne_nil
  case past    => rw [hw]; exact hp
  case past_le => rw [hp, step.rest]; simp
  case line    => rw [step.token]; exact h.line
  case stop    => rw [step.token]; rfl
  case newline => rw [hw]; exact ⟨fun k => by simp [hk k], hn⟩
  case single  => rw [hw]; exact fun n => hk (hn n)
  case offset  =>
    have ⟨above, ha, ho⟩ := h.exists_above
    have ⟨above', ha', he⟩ := exists_lastLine before
    obtain rfl := List.append_cancel_right (ha.symm.trans ha')
    exact ⟨above, lastLine before, ha, by rw [step.token, ho], not_mem_lastLine before, he⟩

namespace Token

-- The tokens of a text are all of it, and each one stands where the tokens before it end.
theorem scan_tiles (text : String) :
    (scan text).flatMap (·.slice text.toList.toArray) = text.toList ∧
    ∀ us t vs, scan text = us ++ t :: vs →
      t.Stands text.toList.toArray (us.flatMap (·.slice text.toList.toArray)) := by
  have h := Scanner.behind_start text
  refine ⟨?all, ?each⟩
  case all =>
    have ⟨s, e⟩ := (Scanner.start text).exists_steps_tokens
    exact e.flatMap_slice h
  case each =>
    intro us t vs ht
    have ⟨w, s, e, hs⟩ := Scanner.exists_steps ht
    have ⟨v, s', _, step⟩ := Scanner.step_of_tokens_cons hs
    have hw : us.flatMap (·.slice text.toList.toArray) = w := e.flatMap_slice h
    have ht := step.stands (e.behind h)
    rw [List.append_assoc, ← e.rest] at ht
    exact hw ▸ ht

theorem stands_in_block :
    let text := "é\n [a\n1|\\[]"
    let ts := scan text
    ts = ts.take 6 ++ ⟨.text, ⟨⟨2, 0⟩, ⟨2, 1⟩⟩, 6⟩ :: ts.drop 7 ∧
    Stands text.toList.toArray "é\n [a\n".toList ⟨.text, ⟨⟨2, 0⟩, ⟨2, 1⟩⟩, 6⟩ := by
  intro text ts
  have h : ts = ts.take 6 ++ ⟨.text, ⟨⟨2, 0⟩, ⟨2, 1⟩⟩, 6⟩ :: ts.drop 7 := by decide +kernel
  have hb : (ts.take 6).flatMap (·.slice text.toList.toArray) = "é\n [a\n".toList := by
    decide +kernel
  exact ⟨h, hb ▸ (scan_tiles text).2 _ _ _ h⟩

end Token
end Stencil

import Stencil.Proofs.Template.Transfer
import Stencil.Proofs.Token.Ahead
import Stencil.Proofs.Token.Append
import Stencil.Proofs.Token.Nesting

namespace Stencil

-- The token `t` covers the characters `w`; before them, its line holds `line` behind `above`.
structure Token.Cut (t : Token) (above line w : List Char) : Prop where
  offset : t.offset = above.length
  first  : t.first = above.length + line.length
  past   : t.past = above.length + line.length + w.length

namespace Token.Cut

variable {t t' : Token} {above above' line w after after' : List Char} {c : Transfer}

theorem slice_eq (h : t.Cut above line w) :
    t.slice (above ++ line ++ w ++ after).toArray = w := by
  have hf := h.first
  have hp := h.past
  rw [← List.length_append] at hf hp
  generalize above ++ line = u at hf hp ⊢
  rw [slice, hf, hp, List.append_assoc]
  simp

theorem next_eq (h : t.Cut above line w) :
    (above ++ line ++ w ++ after).toArray[t.past]? = after.head? := by
  rw [h.past, ← List.length_append, ← List.length_append, List.getElem?_toArray,
    List.getElem?_append_right (Nat.le_refl _), Nat.sub_self]
  cases after <;> rfl

theorem indentOf_eq (h : t.Cut above line w) (after : List Char) (finish : Span) :
    Source.indentOf ⟨(above ++ line ++ w ++ after).toArray, finish⟩ t =
    ((line ++ w ++ after).takeWhile isBlank).length := by
  rw [Source.indentOf, h.offset, ← Source.blanksFrom_append above]
  simp

-- All that can differ is the text behind the token.
theorem copy (after after' : List Char) (h : t.Cut above line w) (h' : t'.Cut above' line w)
    (hs : c.source.chars = (above ++ line ++ w ++ after).toArray)
    (ht : c.target.chars = (above' ++ line ++ w ++ after').toArray) (hk : t'.kind = t.kind)
    (hp : t'.span = t.span.move c.move)
    (hi : (line ++ w ++ after').takeWhile isBlank = (line ++ w ++ after).takeWhile isBlank)
    (hn : t.kind = .stray → after'.head? = after.head?) : c.Copy t t' where
  kind   := hk
  span   := hp
  slice  := by rw [hs, ht, h.slice_eq, h'.slice_eq]
  indent := by
    have hi' := h.indentOf_eq after c.source.finish
    have ht' := h'.indentOf_eq after' c.target.finish
    rw [← hs] at hi'
    rw [← ht] at ht'
    exact ht'.trans ((congrArg List.length hi).trans hi'.symm)
  misplaced := by
    simp only [Source.misplaced, Token.content, hs, ht, h.slice_eq, h'.slice_eq, h.next_eq,
      h'.next_eq, hk, hp]
    split
    case isFalse => rfl
    case isTrue hw =>
      rw [hn hw.1]
      split <;> rfl

end Token.Cut

namespace Scanner

variable {s s' : Scanner} {t : Token} {before w : List Char}

theorem Step.cut (step : Step s t w s') (h : Behind before s) :
    ∃ above, before = above ++ lastLine before ∧ t.Cut above (lastLine before) w := by
  have ⟨above, ha, ho⟩ := h.exists_above
  have hl : before.length = above.length + (lastLine before).length := by
    rw [← List.length_append, ← ha]
  exact ⟨above, ha, by rw [step.token, ho], by rw [step.first_eq h, hl], by rw [step.past_eq h, hl]⟩

theorem exists_step_of_mem_tokens (h : Behind before s) (ht : t ∈ s.tokens) :
    ∃ v s₁ w s₂, Behind v s₁ ∧ v ++ s₁.rest = before ++ s.rest ∧ Step s₁ t w s₂ := by
  have ⟨us, v, s₁, w, s₂, e, step⟩ := exists_steps_of_mem ht
  exact ⟨before ++ v, s₁, w, s₂, e.behind h, by rw [e.rest, List.append_assoc], step⟩

-- A text that ends in a line end is followed by other text: what the tokens say does not change.
theorem copy_of_append {c : Transfer} (h : Behind before s) (ht : t ∈ s.tokens)
    (hend : (before ++ s.rest).getLast? = some '\n') (ds : List Char) (hm : c.move = id)
    (hs : c.source.chars = (before ++ s.rest).toArray)
    (hc : c.target.chars = (before ++ s.rest ++ ds).toArray) : c.Copy t t := by
  have ⟨v, a, w, b, hv, he, step⟩ := exists_step_of_mem_tokens h ht
  have ⟨above, ha, cut⟩ := step.cut hv
  have he : before ++ s.rest = above ++ lastLine v ++ w ++ b.rest := by
    rw [← he, step.rest, ← ha, List.append_assoc]
  have hw := step.reads.ne_nil
  refine cut.copy b.rest (b.rest ++ ds) cut (by rw [hs, he])
    (by rw [hc, he]; simp) rfl (by rw [hm]; rfl) ?_ ?_
  · -- the line of the token has an end
    rw [he, List.append_assoc, List.append_assoc, List.getLast?_append_of_ne_nil _ (by simp [hw]),
      ← List.append_assoc] at hend
    rw [← List.append_assoc]
    exact Lexeme.takeWhile_append_of_lt <|
      Lexeme.length_takeWhile_lt (List.mem_of_getLast? hend) (by simp [isBlank])
  · intro hk
    rcases hb : b.rest with _ | ⟨d, ds⟩
    case cons => rfl
    case nil  =>
      rw [he, hb, List.append_nil, List.getLast?_append_of_ne_nil _ hw] at hend
      exact absurd (List.mem_of_getLast? hend) (step.reads.not_mem_newline (by simp [hk]))

-- A text follows some other text.
theorem copy_down {c : Transfer} {n : Nat} (before : List Char) (h : Behind [] s)
    (ht : t ∈ s.tokens)
    (hm : c.move = (·.down n)) (hs : c.source.chars = s.rest.toArray)
    (hc : c.target.chars = (before ++ s.rest).toArray) : c.Copy t (t.down n before.length) := by
  have ⟨v, a, w, b, hv, he, step⟩ := exists_step_of_mem_tokens h ht
  have ⟨above, ha, cut⟩ := step.cut hv
  have he : s.rest = above ++ lastLine v ++ w ++ b.rest := by
    rw [← ha, List.append_assoc, ← step.rest, he, List.nil_append]
  have cut' : (t.down n before.length).Cut (before ++ above) (lastLine v) w := by
    have hf := cut.first
    have hp := cut.past
    refine ⟨by simp [Token.down, cut.offset, Nat.add_comm], ?_, ?_⟩
    · simp only [Token.first, Token.down, Span.down, Position.down, List.length_append] at *
      omega
    · simp only [Token.past, Token.down, Span.down, Position.down, List.length_append] at *
      omega
  exact cut.copy b.rest b.rest cut' (by rw [hs, he])
    (by rw [hc, he]; simp) rfl (by rw [hm]; rfl) rfl (fun _ => rfl)

-- The tokens ahead close the blocks that are open.
theorem copies_tokens {c : Transfer} {g : Token → Token} (hg : ∀ t ∈ s.tokens, c.Copy t (g t))
    (hd : Zone.depth s.final.zones = 0 ∨
      c.behind = [] ∧ c.target.finish = c.source.finish.move c.move) :
    c.Copies (Zone.depth s.zones) s.tokens (s.tokens.map g ++ c.behind) := by
  induction s using run.induct
  case case1 s hn =>
    rw [final_of_next?_none hn] at hd
    simpa [tokens, run_of_next?_eq_none hn] using .done hd
  case case2 s t s' hn ih =>
    obtain ⟨w, step⟩ := exists_step hn
    rw [tokens_cons hn] at hg ⊢
    rw [final_of_next?_some hn] at hd
    have ht : c.Copy t (g t) := hg t (by simp)
    have ih := ih (fun u hu => hg u (by simp [hu])) hd
    rw [List.map_cons, List.cons_append]
    rcases step.reads.depth with ⟨hk, he⟩ | ⟨hk, he⟩ | ⟨ho, hc, he⟩
    case inl           => exact .opens hk ht (he ▸ ih)
    case inr.inl       => exact he ▸ .closes hk ht ih
    case inr.inr       => exact .keeps ho hc ht (he ▸ ih)

end Scanner
end Stencil

import Stencil.Proofs.Token.Step

namespace Stencil

namespace Lexeme

variable {b : Bool} {k : Token.Kind} {w next cs : List Char} {zs zs' : List Zone} {c : Char}

theorem Reads.of_blank (r : Reads true next zs k w zs') (hz : (Zone.current zs).isProse = true)
    (h : w ++ next = c :: cs) (hc : isBlank c = true) : k = .blank ∧ zs' = zs ∧ Blanks w next := by
  cases r
  case indent         => exact ⟨rfl, rfl, ‹_›⟩
  case prose | result =>
    -- the blank would begin this text as well
    have hw := (‹Run _ _ _›).ne_nil
    rcases w with _ | ⟨d, w⟩ <;> simp_all
  case lead | gap | space | value             => cases hz
  case dot | question | pipe | article | name => cases ‹Zone.InPath _ _› <;> cases hz
  all_goals
    obtain ⟨rfl, -⟩ := List.cons.inj h
    simp [isBlank] at hc

theorem Reads.of_text (r : Reads false next [.prose] k w zs) (h : w ++ next = c :: cs)
    (hc : c ∉ proseStops) : k = .text ∧ zs = [.prose] ∧ Run proseStops w next := by
  cases r
  case prose => exact ⟨rfl, rfl, ‹_›⟩
  case dot | question | pipe | article | name => cases ‹Zone.InPath _ _›
  case indent | closes | unmatched            => contradiction
  all_goals
    obtain ⟨rfl, -⟩ := List.cons.inj h
    simp [proseStops] at hc

end Lexeme

namespace Scanner

variable {s s₁ s₂ : Scanner} {t u : Token} {v w : List Char} {c : Char} {cs : List Char}

-- The scanner `s` with the mark that a line begins there, or without it.
def mark (s : Scanner) (b : Bool) : Scanner :=
  { s with lineStart := b }

theorem Step.place_eq (h : Step s t w s₁) (ht : t.kind ≠ .newline) :
    s₁.line = s.line ∧ s₁.col = s.col + w.length ∧ s₁.offset = s.offset ∧
    s₁.lineStart = false := by
  have hp := h.place
  rw [if_neg ht] at hp
  simp only [Prod.mk.injEq] at hp
  exact ⟨hp.1, hp.2.1, hp.2.2, by simpa [ht] using h.lineStart⟩

theorem not_mem_proseStops (hc : isBlank c = true) : c ∉ Lexeme.proseStops := by
  intro hp
  simp only [Lexeme.proseStops, List.mem_cons, List.not_mem_nil, or_false] at hp
  rcases hp with rfl | rfl | rfl <;> simp [isBlank] at hc

-- Both scans meet again behind the text that begins with the blanks.
theorem tokens_mark (hz : s.zones = [.prose]) (hr : s.rest = c :: cs) (hc : isBlank c = true) :
    ∃ t u v w s₁ s₂,
      (s.mark false).tokens = t :: s₂.tokens ∧ Step (s.mark false) t (v ++ w) s₂ ∧ t.kind = .text ∧
      (s.mark true).tokens = u :: s₁.tokens ∧ Step (s.mark true) u v s₁ ∧ u.kind = .blank ∧
      (w = [] ∧ s₁ = s₂ ∨
        ∃ u', s₁.tokens = u' :: s₂.tokens ∧ Step s₁ u' w s₂ ∧ u'.kind = .text) := by
  rcases (s.mark false).tokens_cases with ⟨-, hn⟩ | ⟨t, x, s₂, ht, st⟩
  case inl => simp [mark, hr] at hn
  rcases (s.mark true).tokens_cases with ⟨-, hn⟩ | ⟨u, v, s₁, hu, su⟩
  case inl => simp [mark, hr] at hn
  have hx : c :: cs = x ++ s₂.rest := hr ▸ st.rest
  have hv : c :: cs = v ++ s₁.rest := hr ▸ su.rest
  have ⟨htk, hz₂, rt⟩ := Lexeme.Reads.of_text (hz ▸ st.reads) hx.symm (not_mem_proseStops hc)
  have hp : (Zone.current s.zones).isProse = true := hz ▸ rfl
  have ⟨huk, hz₁, bu⟩ := Lexeme.Reads.of_blank su.reads hp hv.symm hc
  replace hz₁ : s₁.zones = [.prose] := hz₁.trans hz
  have pt := st.place_eq (by simp [htk])
  have pu := su.place_eq (by simp [huk])
  have hplain (d) (hd : d ∈ v) : d ∉ Lexeme.proseStops := not_mem_proseStops (bu.blank d hd)
  have hends (d) (hd : d ∈ s₂.rest.head?) := not_not_intro (rt.ends d hd)
  by_cases hd : ∀ d ∈ s₁.rest.head?, d ∈ Lexeme.proseStops
  case pos =>
    have ⟨h₁, h₂⟩ := Lexeme.append_unique hplain (fun d hd' => not_not_intro (hd d hd')) rt.plain
      hends (hv.symm.trans hx)
    subst h₁
    have he : s₁ = s₂ := by
      ext1 <;> simp_all [mark]
    exact ⟨t, u, v, [], s₁, s₂, ht, by simpa using st, htk, hu, su, huk, .inl ⟨rfl, he⟩⟩
  case neg =>
    simp only [not_forall] at hd
    obtain ⟨d, hd, hd'⟩ := hd
    obtain ⟨ds, hds⟩ := List.head?_eq_some_iff.mp hd
    rcases s₁.tokens_cases with ⟨-, hn⟩ | ⟨u', w, s₃, hu', su'⟩
    case inl => simp [hn] at hd
    have ⟨hk', hz', rt'⟩ :=
      Lexeme.Reads.of_text (hz₁ ▸ pu.2.2.2 ▸ su'.reads) (su'.rest.symm.trans hds) hd'
    have pu' := su'.place_eq (by simp [hk'])
    have hplain' (d) (hd : d ∈ v ++ w) := (List.mem_append.mp hd).elim (hplain d) (rt'.plain d)
    have hends' (d) (hd : d ∈ s₃.rest.head?) := not_not_intro (rt'.ends d hd)
    have ⟨h₁, h₂⟩ := Lexeme.append_unique hplain' hends' rt.plain hends
      (by rw [List.append_assoc, ← su'.rest, ← hv, hx])
    subst h₁
    have he : s₃ = s₂ := by
      ext1 <;> simp_all [mark, Nat.add_assoc]
    subst he
    exact ⟨t, u, v, w, s₁, s₃, ht, st, htk, hu, su, huk, .inr ⟨u', hu', su', hk'⟩⟩

theorem tokens_mark_of_not_blank (h : ∀ c ∈ s.rest.head?, isBlank c = false) (b : Bool) :
    (s.mark b).tokens = (s.mark false).tokens := by
  have hn : (s.mark b).next? = (s.mark false).next? := by
    cases hr : s.rest
    case nil       => simp [next?, lexeme?, mark, hr]
    case cons c cs =>
      have hc : isBlank c = false := h c (by simp [hr])
      have hb (b) : (s.mark b).rest = c :: cs := hr
      have hread : Lexeme.read s.zones b c cs = Lexeme.read s.zones false c cs := by
        simp [Lexeme.read, hc]
      rw [next?, next?, lexeme?_cons (hb b), lexeme?_cons (hb false)]
      simp [mark, token, pass, position, hread]
  cases hf : (s.mark false).next?
  case none   => simp [tokens, run_of_next?_eq_none, hf, hn]
  case some p => rw [tokens_cons hf, tokens_cons (hn.trans hf)]

end Scanner
end Stencil

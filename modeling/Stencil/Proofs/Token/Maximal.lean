import Stencil.Proofs.Token.LineStart
import Stencil.Proofs.Token.Nesting

namespace Stencil

-- These tokens are runs of characters.
def Token.Kind.isRun : Token.Kind → Bool
  | text | name | blank => true
  | _                   => false

namespace Lexeme

-- The characters that end a text, in each zone.
def textStops : Zone → List Char
  | .prose   => proseStops
  | .results => resultStops
  | _        => argumentStops

theorem Blanks.takeWhile_eq {w next : List Char} (h : Blanks w next) :
    (w ++ next).takeWhile isBlank = w := by
  have hall (c) (hc : c ∈ (w ++ next).takeWhile isBlank) : isBlank c = true :=
    List.mem_takeWhile_imp hc
  have hend (c) (hc : c ∈ ((w ++ next).dropWhile isBlank).head?) : ¬isBlank c = true := by
    simp [Fits.not_head?_dropWhile hc]
  exact (append_unique hall hend h.blank (by simpa using h.ends)
    List.takeWhile_append_dropWhile).1

namespace Reads

variable {b b' : Bool} {zs zs' zs'' : List Zone} {k : Token.Kind} {v w next : List Char}

theorem blanks (r : Reads b next zs .blank w zs') : Blanks w next := by
  cases r <;> assumption

theorem run_name (r : Reads b next zs .name w zs') : Run segmentStops w next := by
  cases r
  assumption

theorem run_text (r : Reads b next zs .text w zs') :
    zs' = zs ∧ Run (textStops (Zone.current zs)) w next := by
  cases r
  case prose hz _ _ => exact ⟨rfl, by rwa [hz]⟩
  all_goals exact ⟨rfl, ‹_›⟩

-- A run ends at a character that cannot be in a run of the same kind.
theorem isRun_eq_false (r : Reads b (v ++ next) zs k w zs') (r' : Reads b' next zs' k v zs'') :
    k.isRun = false := by
  obtain ⟨c, v, rfl⟩ := List.exists_cons_of_ne_nil r'.ne_nil
  have hc : c ∈ c :: v := List.mem_cons_self ..
  cases k <;> try rfl
  case text  =>
    have ⟨hz, h⟩ := r.run_text
    have ⟨_, h'⟩ := r'.run_text
    exact absurd (hz ▸ h.ends c rfl) (h'.plain c hc)
  case name  => exact absurd (r.run_name.ends c rfl) (r'.run_name.plain c hc)
  case blank => exact absurd (r'.blanks.blank c hc) (by simp [r.blanks.ends c rfl])

-- In prose, blanks are a token of their own only where a line begins.
theorem lineStart_of_blank (r : Reads b next zs .blank w zs')
    (hz : (Zone.current zs).isProse = true) : b = true := by
  cases r
  case indent             => assumption
  case lead | gap | space => cases hz

theorem zones_of_newline (r : Reads b next zs .newline w zs')
    (hz : (Zone.current zs).isProse = true) : zs' = zs := by
  cases r
  case newline => rfl
  case «break» => cases hz

end Reads
end Lexeme

namespace Scanner

variable {s s' : Scanner} {t : Token} {w : List Char}

theorem isChain_tokens (s : Scanner) :
    s.tokens.IsChain fun t u => t.kind = u.kind → t.kind.isRun = false := by
  induction h : s.tokens generalizing s
  case nil          => exact .nil
  case cons t ts ih =>
    have ⟨w, s₁, hts, step⟩ := step_of_tokens_cons h
    have ih := ih s₁ hts.symm
    cases ts
    case nil  => exact .singleton t
    case cons =>
      have ⟨v, s₂, _, step'⟩ := step_of_tokens_cons hts.symm
      refine .cons_cons (fun hk => ?_) ih
      have r := step.reads
      rw [step'.rest] at r
      exact r.isRun_eq_false (hk ▸ step'.reads)

-- Behind a line end in prose, all blanks that follow are read at once.
theorem Step.indent (step : Step s t w s') (hk : t.kind = .newline)
    (hz : (Zone.current s.zones).isProse = true) (hb : ∃ c ∈ s'.rest.head?, isBlank c = true) :
    ∃ u s₂, s'.next? = some (u, s₂) ∧ u.kind = .blank ∧
      Step s' u (s'.rest.takeWhile isBlank) s₂ := by
  obtain ⟨c, hc, hb⟩ := hb
  have hz' : s'.zones = s.zones := (hk ▸ step.reads).zones_of_newline hz
  have hl : s'.lineStart = true := by simp [step.lineStart, hk]
  obtain ⟨cs, hr⟩ := List.head?_eq_some_iff.mp hc
  cases hn : s'.next?
  case none   => simp [next?_eq_none_iff.mp hn] at hr
  case some p =>
    have ⟨v, step'⟩ := exists_step hn
    have ⟨hu, _, hv⟩ := (hl ▸ step'.reads).of_blank (hz' ▸ hz) (step'.rest ▸ hr) hb
    refine ⟨p.1, p.2, rfl, hu, ?_⟩
    rwa [step'.rest, hv.takeWhile_eq]

-- Nothing that could go on is cut: neither texts nor names nor blanks are followed by their like. A
-- line is known to begin behind a line end, and nowhere else. In prose, a token of blanks stands at
-- the beginning of a line and is the whole of the blanks there.
theorem runs_maximal (text : String) :
    (Token.scan text).IsChain (fun t u => t.kind = u.kind → t.kind.isRun = false) ∧
    ∀ done t s ahead, (start text).run = done ++ (t, s) :: ahead →
      let zone := Zone.current ((start text).after done).zones
      let behind := text.toList.drop t.past
      (s.lineStart = true ↔ t.kind = .newline) ∧
      (zone.isProse = true → t.kind = .blank →
        done.getLast?.map (·.1.kind) = some .newline) ∧
      (zone.isProse = true → t.kind = .newline → (∃ c ∈ behind.head?, isBlank c = true) →
        ∃ u s' more, ahead = (u, s') :: more ∧ u.kind = .blank ∧
          u.slice text.toList.toArray = behind.takeWhile isBlank) := by
  refine ⟨isChain_tokens _, fun done t s ahead hr => ?_⟩
  have ⟨v, e⟩ := exists_steps_after hr
  have ⟨hn, hs⟩ := next?_of_run (run_after hr)
  have ⟨w, step⟩ := exists_step hn
  have hb := e.behind (behind_start text)
  have ht : text.toList = v ++ w ++ s.rest := by
    rw [List.append_assoc, ← step.rest]
    exact e.rest
  have hbehind : text.toList.drop t.past = s.rest := by
    rw [step.past_eq hb, ht]
    simp
  refine ⟨?lineStart, fun hz hk => ?blank, fun hz hk hc => ?newline⟩
  case lineStart => simp [step.lineStart]
  case blank     =>
    have hl : ((start text).after done).lineStart = true :=
      (hk ▸ step.reads).lineStart_of_blank hz
    rw [e.lineStart_eq, List.getLast?_map] at hl
    cases h : done.getLast? <;> simp [h, start] at hl ⊢
    exact hl
  case newline   =>
    rw [hbehind] at hc ⊢
    obtain ⟨u, s', hn', hu, step'⟩ := step.indent hk hz hc
    refine ⟨u, s', s'.run, ?_, hu, ?_⟩
    · rw [← hs, run_of_next?_eq_some hn']
    · have := step'.slice_eq (step.behind hb)
      rwa [List.nil_append, ← ht] at this

theorem runs_maximal_in_alternative :
    let text := "[a|x\n \t[b]"
    let run := (start text).run
    let t : Token := ⟨.newline, ⟨⟨0, 4⟩, ⟨0, 5⟩⟩, 0⟩
    let s : Scanner := ⟨" \t[b]".toList, 1, 0, 5, [.results, .path, .opening, .prose], true⟩
    ∃ u s' more, run = run.take 4 ++ (t, s) :: (u, s') :: more ∧
      Zone.current ((start text).after (run.take 4)).zones = .results ∧
      (s.lineStart = true ↔ t.kind = .newline) ∧
      u.kind = .blank ∧ u.slice text.toList.toArray = [' ', '\t'] ∧
      (run.take 4 ++ [(t, s)]).getLast?.map (·.1.kind) = some .newline := by
  intro text run t s
  have hr : run = run.take 4 ++ (t, s) :: run.drop 5 := by decide +kernel
  have hz : Zone.current ((start text).after (run.take 4)).zones = .results := by decide +kernel
  have hbehind : text.toList.drop t.past = " \t[b]".toList := by decide +kernel
  have hall := (runs_maximal text).2
  obtain ⟨hl, -, hnext⟩ := hall _ _ _ _ hr
  obtain ⟨u, s', more, hm, hu, hs⟩ := hnext (hz ▸ rfl) rfl ⟨' ', by rw [hbehind]; rfl, rfl⟩
  have hr' : run = (run.take 4 ++ [(t, s)]) ++ (u, s') :: more := by
    rw [List.append_assoc, List.singleton_append, ← hm, ← hr]
  have hz' : Zone.current ((start text).after (run.take 4 ++ [(t, s)])).zones = .results := by
    simp [after, s, Zone.current]
  obtain ⟨-, hprev, -⟩ := hall _ _ _ _ hr'
  refine ⟨u, s', more, hm ▸ hr, hz, hl, hu, ?_, hprev (hz' ▸ rfl) hu⟩
  rw [hs, hbehind]
  rfl

end Scanner
end Stencil

import Stencil.Proofs.Token.Place

namespace Stencil

namespace Lexeme

variable {stops cs ds : List Char} {c : Char}

theorem takeWhile_append_of_lt {p : Char → Bool} (h : (cs.takeWhile p).length < cs.length) :
    (cs ++ ds).takeWhile p = cs.takeWhile p := by
  rw [List.takeWhile_append, if_neg (by omega)]

theorem length_takeWhile_lt {p : Char → Bool} (hc : c ∈ cs) (h : p c = false) :
    (cs.takeWhile p).length < cs.length := by
  by_contra hl
  have : cs.takeWhile p = cs :=
    (List.takeWhile_prefix p).eq_of_length_le (Nat.le_of_not_lt hl)
  have := List.takeWhile_eq_self_iff.mp this c hc
  simp [h] at this

theorem run_append (h : run stops cs < cs.length) : run stops (cs ++ ds) = run stops cs := by
  rw [run, takeWhile_append_of_lt h, run]

theorem blanks_append (h : blanks cs < cs.length) : blanks (cs ++ ds) = blanks cs := by
  rw [blanks, takeWhile_append_of_lt h, blanks]

-- The bracket that makes a word an article comes right behind it.
theorem startsArticle_append (h : run segmentStops cs < cs.length) :
    startsArticle (cs ++ ds) = startsArticle cs := by
  rcases cs with _ | ⟨a, _ | ⟨b, _ | ⟨d, cs⟩⟩⟩
  case nil            => simp at h
  case cons.cons.cons => rfl
  case cons.nil =>
    have ha : a ∈ segmentStops := by
      by_contra ha
      simp [run, ha] at h
    rcases ds with _ | ⟨b, _ | ⟨d, ds⟩⟩ <;> simp [startsArticle]
    rintro (rfl | rfl) <;> simp [segmentStops] at ha
  case cons.cons.nil =>
    have ha : a ∈ segmentStops ∨ b ∈ segmentStops := by
      by_contra ha
      rw [not_or] at ha
      simp [run, ha] at h
    rcases ds with _ | ⟨d, ds⟩ <;> simp [startsArticle]
    rintro (rfl | rfl) rfl <;> simp [segmentStops] at ha

theorem startsArticle_append_of_pos (ds : List Char) (h : startsArticle cs = true) :
    startsArticle (cs ++ ds) = true := by
  rcases cs with _ | ⟨a, _ | ⟨b, _ | ⟨d, cs⟩⟩⟩
  case cons.cons.cons => exact h
  all_goals simp [startsArticle] at h

section Zones

variable {zs : List Zone}

theorem prose_append (h : (prose zs c cs).length < (c :: cs).length) :
    prose zs c (cs ++ ds) = prose zs c cs := by
  unfold prose at *
  split_ifs at *
  case pos => rfl
  case neg => rw [← List.cons_append, run_append h]

theorem results_append (h : (results zs c cs).length < (c :: cs).length) :
    results zs c (cs ++ ds) = results zs c cs := by
  unfold results at *
  split_ifs at *
  case neg => rw [← List.cons_append, run_append h]
  all_goals rfl

theorem path_append (h : (path zs c cs).length < (c :: cs).length) :
    path zs c (cs ++ ds) = path zs c cs := by
  unfold path at *
  by_cases ha : startsArticle (c :: cs) = true
  case pos =>
    have ha' := startsArticle_append_of_pos ds ha
    rw [List.cons_append] at ha'
    simp only [ha, ha', if_true] at h ⊢
    split_ifs at *
    case pos => rw [← List.cons_append, blanks_append h]
    all_goals rfl
  case neg =>
    simp only [ha] at h ⊢
    split_ifs at *
    any_goals rfl
    case pos     => rw [← List.cons_append, blanks_append h]
    case neg ha' _ => exact absurd (startsArticle_append h ▸ ha') ha
    case neg       => rw [← List.cons_append, run_append h]

theorem arguments_append (h : (arguments zs c cs).length < (c :: cs).length) :
    arguments zs c (cs ++ ds) = arguments zs c cs := by
  unfold arguments at *
  split_ifs at *
  case pos => rw [← List.cons_append, blanks_append h]
  case neg => rw [← List.cons_append, run_append h]
  all_goals rfl

theorem backslash_append (h : (backslash zs cs).length < (c :: cs).length) :
    backslash zs (cs ++ ds) = backslash zs cs := by
  rcases cs with _ | ⟨a, cs⟩
  case nil  => simp [backslash] at h
  case cons => rfl

end Zones

theorem read_append {zs : List Zone} {b : Bool}
    (h : (read zs b c cs).length < (c :: cs).length ∨ c = '\n') :
    read zs b c (cs ++ ds) = read zs b c cs := by
  by_cases hc : c = '\n'
  case pos => simp [read, hc, isBlank]
  case neg =>
    have h := h.resolve_right hc
    unfold read at *
    split_ifs at *
    case pos => rw [← List.cons_append, blanks_append h]
    case pos => exact backslash_append h
    case neg =>
      cases hz : Zone.current zs <;> simp only [hz] at h ⊢
      case prose     => exact prose_append h
      case opening   =>
        unfold opening at *
        split_ifs at *
        case pos => rw [← List.cons_append, blanks_append h]
        case neg => exact path_append h
      case path      => exact path_append h
      case arguments => exact arguments_append h
      case results   => exact results_append h

end Lexeme

-- The same token `n` lines further down, on a line that begins `k` characters later.
def Token.down (t : Token) (n k : Nat) : Token :=
  { t with span := t.span.down n, offset := t.offset + k }

namespace Scanner

-- The scanner when all tokens are read.
def final (s : Scanner) : Scanner :=
  s.run.getLast?.elim s Prod.snd

-- The same place in a longer text.
def append (s : Scanner) (ds : List Char) : Scanner :=
  { s with rest := s.rest ++ ds }

-- The same text at a place `n` lines further down, whose lines begin `k` characters later.
def down (s : Scanner) (n k : Nat) : Scanner :=
  { s with line := s.line + n, offset := s.offset + k }

variable {s s' : Scanner} {t : Token} {ds : List Char}

theorem final_of_next?_none (h : s.next? = none) : s.final = s := by
  simp [final, run_of_next?_eq_none h]

theorem final_of_next?_some (h : s.next? = some (t, s')) : s.final = s'.final := by
  rw [final, run_of_next?_eq_some h, final]
  cases s'.run <;> simp [List.getLast?_eq_some_getLast]

theorem pass_append {l : Lexeme} (h : l.length ≤ s.rest.length) :
    (s.append ds).pass l = (s.pass l).append ds := by
  simp [pass, append, List.drop_append_of_le_length h]

theorem next?_append (ds : List Char) (h : s.next? = some (t, s'))
    (hn : s'.rest ≠ [] ∨ t.kind = .newline) : (s.append ds).next? = some (t, s'.append ds) := by
  have ⟨w, step⟩ := exists_step h
  cases hr : s.rest
  case nil => simp [next?_eq_none_iff.mpr hr] at h
  case cons c cs =>
    have hr' : (s.append ds).rest = c :: (cs ++ ds) := by simp [append, hr]
    have hle := (Lexeme.fits_read s.zones s.lineStart c cs).length_le
    simp only [next?, lexeme?_cons hr, Option.map_some, Option.some.injEq, Prod.mk.injEq] at h
    obtain ⟨rfl, rfl⟩ := h
    have hl : (Lexeme.read s.zones s.lineStart c cs).length < (c :: cs).length ∨ c = '\n' := by
      rcases hn with hn | hn
      case inl => exact .inl (by simpa [pass, hr] using hn)
      case inr =>
        have hw := hr.symm.trans step.rest
        have : w = ['\n'] := (hn ▸ step.reads).eq_newline
        simp only [this, List.cons_append, List.cons.injEq] at hw
        exact .inr hw.1
    have hread : Lexeme.read (s.append ds).zones (s.append ds).lineStart c (cs ++ ds) =
        Lexeme.read s.zones s.lineStart c cs :=
      Lexeme.read_append hl
    rw [next?, lexeme?_cons hr', hread, Option.map_some, pass_append (hr ▸ hle)]
    rfl

theorem next?_down (n k : Nat) :
    (s.down n k).next? = s.next?.map fun (t, s') => (t.down n k, s'.down n k) := by
  cases hr : s.rest
  case nil =>
    have hr' : (s.down n k).rest = [] := hr
    rw [next?_eq_none_iff.mpr hr, next?_eq_none_iff.mpr hr', Option.map_none]
  case cons c cs =>
    have hr' : (s.down n k).rest = c :: cs := hr
    rw [next?, next?, lexeme?_cons hr, lexeme?_cons hr']
    simp only [down, token, pass, Token.down, Span.down, Position.down, position, Option.map_some]
    split
    case isTrue  => simp; omega
    case isFalse => simp

theorem tokens_down (n k : Nat) : (s.down n k).tokens = s.tokens.map (·.down n k) := by
  induction s using run.induct
  case case1 s h =>
    have h' : (s.down n k).next? = none := by simp [next?_down, h]
    simp [tokens, run_of_next?_eq_none, h, h']
  case case2 s t s' h ih =>
    have h' : (s.down n k).next? = some (t.down n k, s'.down n k) := by simp [next?_down, h]
    rw [tokens_cons h, tokens_cons h', ih, List.map_cons]

-- Here the text may end in a line end only.
theorem tokens_append (h : ∀ c ∈ s.rest.getLast?, c = '\n') :
    (s.append ds).tokens = s.tokens ++ (s.final.append ds).tokens := by
  induction s using run.induct
  case case1 s hn =>
    simp [final_of_next?_none hn, tokens, run_of_next?_eq_none hn]
  case case2 s t s' hn ih =>
    obtain ⟨w, step⟩ := exists_step hn
    have hs' : ∀ c ∈ s'.rest.getLast?, c = '\n' := by
      intro c hc
      refine h c ?_
      rw [step.rest, List.getLast?_append]
      simp_all
    have hk : s'.rest ≠ [] ∨ t.kind = .newline := by
      by_cases hr : s'.rest = []
      case neg => exact .inl hr
      case pos =>
        -- what the token covers ends the text, in a line end therefore
        by_contra hk
        rw [not_or] at hk
        have hw := step.reads.not_mem_newline hk.2
        have hl := List.getLast?_eq_some_getLast step.reads.ne_nil
        have : w.getLast step.reads.ne_nil = '\n' := h _ (by simp [step.rest, hr, hl])
        exact hw (this ▸ List.getLast_mem step.reads.ne_nil)
    have hn' := next?_append ds hn hk
    rw [tokens_cons hn, tokens_cons hn', ih hs', final_of_next?_some hn, List.cons_append]

theorem behind_final {before : List Char} (h : Behind before s) :
    Behind (before ++ s.rest) s.final ∧ s.final.rest = [] := by
  induction s using run.induct generalizing before
  case case1 s hn =>
    have hr := next?_eq_none_iff.mp hn
    simpa [final_of_next?_none hn, hr] using h
  case case2 s t s' hn ih =>
    have ⟨w, step⟩ := exists_step hn
    have := ih (step.behind h)
    rwa [final_of_next?_some hn, step.rest, ← List.append_assoc]

end Scanner
end Stencil

import Mathlib.Data.List.TakeWhile
import Mathlib.Tactic.Common
import Stencil.Token.Scan

namespace Stencil
namespace Zone

-- A path begins where the zone `opening` ends.
inductive InPath : List Zone → List Zone → Prop
  | enter (zs : List Zone) : InPath (opening :: zs) (path :: opening :: zs)
  | stay (zs : List Zone)  : InPath (path :: zs) (path :: zs)

end Zone

namespace Lexeme

open Zone (InPath leave?)

-- A whole run of blanks, with `next` behind it.
structure Blanks (w next : List Char) : Prop where
  ne_nil : w ≠ []
  blank  : ∀ c ∈ w, isBlank c = true
  ends   : ∀ c ∈ next.head?, isBlank c = false

-- A whole run of other characters than `stops`, with `next` behind it.
structure Run (stops w next : List Char) : Prop where
  ne_nil : w ≠ []
  plain  : ∀ c ∈ w, c ∉ stops
  ends   : ∀ c ∈ next.head?, c ∈ stops

-- In the zones `zs`, the characters `w` make one token of kind `k`, and lead to the zones `zs'`.
-- `lineStart` tells whether they directly follow a line end, and `next` is the text behind them.
-- Whatever is shown of scans is read off this list, without a look into `Lexeme.read`.
inductive Reads (lineStart : Bool) (next : List Char) :
    (zs : List Zone) → (k : Token.Kind) → (w : List Char) → (zs' : List Zone) → Prop
  -- in all zones
  | escape {zs}        : Reads lineStart next zs .escape ['\\', '['] zs
  | stray {zs}         : next.head? ≠ some '[' → Reads lineStart next zs .stray ['\\'] zs
  | newline {zs}       : Zone.current zs ≠ .path → Reads lineStart next zs .newline ['\n'] zs
  | break {zs}         :
    Reads lineStart next (.path :: zs) .newline ['\n'] (.arguments :: .path :: zs)
  -- in prose and in alternatives
  | indent {zs w}      :
    lineStart = true → (Zone.current zs).isProse = true → Blanks w next →
    Reads lineStart next zs .blank w zs
  | opens {zs}         :
    (Zone.current zs).isProse = true → Reads lineStart next zs .bracketOpen ['['] (.opening :: zs)
  | prose {zs w}       :
    Zone.current zs = .prose → Run proseStops w next →
    (lineStart = true → ∀ c ∈ w.head?, isBlank c = false) → Reads lineStart next zs .text w zs
  | result {zs w}      :
    Run resultStops w next → (lineStart = true → ∀ c ∈ w.head?, isBlank c = false) →
    Reads lineStart next (.results :: zs) .text w (.results :: zs)
  | bar {zs}           : Reads lineStart next (.results :: zs) .pipe ['|'] (.results :: zs)
  -- from the opening bracket of a block to its first pipe
  | lead {zs w}        :
    Blanks w next → Reads lineStart next (.opening :: zs) .blank w (.opening :: zs)
  | dot {zs zs'}       : InPath zs zs' → Reads lineStart next zs .dot ['.'] zs'
  | question {zs zs'}  : InPath zs zs' → Reads lineStart next zs .question ['?'] zs'
  | article {zs zs' w} :
    InPath zs zs' → w = ['a', 'n'] ∨ w = ['A', 'n'] → next.head? = some ']' →
    Reads lineStart next zs .article w zs'
  | name {zs zs' w}    :
    InPath zs zs' → Run segmentStops w next → w.head? ≠ some '\\' →
    startsArticle (w ++ next) = false → Reads lineStart next zs .name w zs'
  | pipe {zs zs'}      : InPath zs zs' → Reads lineStart next zs .pipe ['|'] (.results :: zs')
  | gap {zs w}         :
    Blanks w next → Reads lineStart next (.path :: zs) .blank w (.arguments :: .path :: zs)
  | space {zs w}       :
    Blanks w next → Reads lineStart next (.arguments :: zs) .blank w (.arguments :: zs)
  | point {zs}         : Reads lineStart next (.arguments :: zs) .dot ['.'] (.arguments :: zs)
  | value {zs w}       :
    Run argumentStops w next → w.head? ≠ some '\\' →
    Reads lineStart next (.arguments :: zs) .text w (.arguments :: zs)
  | split {zs}         :
    Reads lineStart next (.arguments :: zs) .pipe ['|'] (.results :: .arguments :: zs)
  -- at the end of a block
  | closes {zs outer}  :
    Zone.current zs ≠ .prose → leave? zs = some outer →
    Reads lineStart next zs .bracketClose [']'] outer
  | unmatched {zs zs'} :
    Zone.current zs ≠ .prose → leave? zs = none → leave? zs' = none →
    Reads lineStart next zs .stray [']'] zs'

theorem Reads.ne_nil {lineStart : Bool} {next w : List Char} {zs zs' : List Zone} {k : Token.Kind}
    (r : Reads lineStart next zs k w zs') : w ≠ [] := by
  cases r <;> try exact List.cons_ne_nil _ _
  case article                       => rcases ‹_ ∨ _› with rfl | rfl <;> simp
  case indent | lead | gap | space   => exact (‹Blanks _ _›).ne_nil
  case prose | result | name | value => exact (‹Run _ _ _›).ne_nil

-- A text splits in one way only into characters with `p` and a rest that begins with none.
theorem append_unique {p : Char → Prop} {v v' w w' : List Char} (hv : ∀ c ∈ v, p c)
    (hw : ∀ c ∈ w.head?, ¬p c) (hv' : ∀ c ∈ v', p c) (hw' : ∀ c ∈ w'.head?, ¬p c)
    (h : v ++ w = v' ++ w') : v = v' ∧ w = w' := by
  rcases List.append_eq_append_iff.mp h with ⟨x, rfl, rfl⟩ | ⟨x, rfl, rfl⟩
  all_goals
    rcases x with _ | ⟨c, x⟩
    case nil  => simp
    case cons => simp_all

-- The lexeme `l` stands at the front of `cs`, and scanning may read it there.
structure Fits (lineStart : Bool) (zs : List Zone) (cs : List Char) (l : Lexeme) : Prop where
  reads     : Reads lineStart (cs.drop l.length) zs l.kind (cs.take l.length) l.zones
  length_le : l.length ≤ cs.length
  lineStart : l.lineStart = decide (l.kind = .newline)

namespace Fits

variable {b : Bool} {zs zs' : List Zone} {c : Char} {cs : List Char}

theorem length_pos {l : Lexeme} (f : Fits b zs cs l) : 0 < l.length := by
  by_contra h
  have := f.reads.ne_nil
  simp_all

theorem take_length_takeWhile (p : Char → Bool) (cs : List Char) :
    cs.take (cs.takeWhile p).length = cs.takeWhile p :=
  List.prefix_iff_eq_take.mp (List.takeWhile_prefix p) |>.symm

theorem drop_length_takeWhile (p : Char → Bool) (cs : List Char) :
    cs.drop (cs.takeWhile p).length = cs.dropWhile p := by
  conv => lhs; arg 2; rw [← List.takeWhile_append_dropWhile (p := p) (l := cs)]
  rw [List.drop_left]

theorem not_head?_dropWhile {p : Char → Bool} {d : Char} (h : d ∈ (cs.dropWhile p).head?) :
    p d = false := by
  have := List.head?_dropWhile_not p cs
  rw [Option.mem_def] at h
  simpa [h] using this

theorem length_blanks_le (cs : List Char) : blanks cs ≤ cs.length :=
  List.takeWhile_prefix isBlank |>.length_le

theorem length_run_le (stops cs : List Char) : run stops cs ≤ cs.length :=
  List.takeWhile_prefix _ |>.length_le

theorem blanks_take (h : isBlank c = true) :
    Blanks ((c :: cs).take (blanks (c :: cs))) ((c :: cs).drop (blanks (c :: cs))) := by
  rw [blanks, take_length_takeWhile, drop_length_takeWhile]
  exact ⟨by simp [h], fun _ hd => List.mem_takeWhile_imp hd, fun _ hd => not_head?_dropWhile hd⟩

theorem run_take {stops : List Char} (h : c ∉ stops) :
    Run stops ((c :: cs).take (run stops (c :: cs))) ((c :: cs).drop (run stops (c :: cs))) := by
  rw [run, take_length_takeWhile, drop_length_takeWhile]
  refine ⟨by simp [h], fun _ hd => ?_, fun _ hd => ?_⟩
  · simpa using List.mem_takeWhile_imp hd
  · simpa using not_head?_dropWhile hd

theorem head?_take_run {stops : List Char} (h : c ∉ stops) :
    ((c :: cs).take (run stops (c :: cs))).head? = some c := by
  simp [run, h]

theorem single {k : Token.Kind} (r : Reads b cs zs k [c] zs') (hk : k ≠ .newline) :
    Fits b zs (c :: cs) ⟨k, 1, zs', false⟩ :=
  ⟨r, by simp, by simp [hk]⟩

theorem openBlock (h : (Zone.current zs).isProse = true) :
    Fits b zs ('[' :: cs) (Lexeme.openBlock zs) :=
  single (.opens h) nofun

theorem closeBlock (hc : Zone.current zs ≠ .prose) (h : leave? zs' = leave? zs) :
    Fits b zs (']' :: cs) (Lexeme.closeBlock zs') := by
  unfold Lexeme.closeBlock
  split
  case h_1 ho => exact single (.closes hc (h ▸ ho)) nofun
  case h_2 ho => exact single (.unmatched hc (h ▸ ho) ho) nofun

theorem newline : Fits b zs ('\n' :: cs) (Lexeme.newline zs) := by
  refine ⟨?_, by simp [Lexeme.newline], rfl⟩
  rcases zs with _ | ⟨z, zs⟩
  case nil => exact .newline nofun
  case cons =>
    by_cases hz : z = .path
    case pos => subst hz; exact .break
    case neg => simpa [Lexeme.newline, Zone.current, hz] using .newline (by simpa [Zone.current])

theorem backslash : Fits b zs ('\\' :: cs) (Lexeme.backslash zs cs) := by
  unfold Lexeme.backslash
  split
  case isTrue h =>
    obtain ⟨cs, rfl⟩ := List.head?_eq_some_iff.mp h
    exact ⟨.escape, by simp, rfl⟩
  case isFalse h => exact single (.stray h) nofun

theorem prose (hz : Zone.current zs = .prose) (hb : b = true → isBlank c = false) (h₁ : c ≠ '\n')
    (h₂ : c ≠ '\\') : Fits b zs (c :: cs) (Lexeme.prose zs c cs) := by
  unfold Lexeme.prose
  split
  case isTrue h  => exact h ▸ openBlock (by simp [hz, Zone.isProse])
  case isFalse h =>
    have h : c ∉ proseStops := by simp [proseStops, *]
    exact ⟨.prose hz (run_take h) (by simpa [head?_take_run h]), length_run_le .., rfl⟩

theorem results (hb : b = true → isBlank c = false) (h₁ : c ≠ '\n') (h₂ : c ≠ '\\') :
    Fits b (.results :: zs) (c :: cs) (Lexeme.results (.results :: zs) c cs) := by
  unfold Lexeme.results
  split_ifs
  case pos h => exact h ▸ openBlock rfl
  case pos h => exact h ▸ single .bar nofun
  case pos h => exact h ▸ closeBlock nofun rfl
  case neg h₃ h₄ h₅ =>
    have h : c ∉ resultStops := by simp [resultStops, *]
    exact ⟨.result (run_take h) (by simpa [head?_take_run h]), length_run_le .., rfl⟩

theorem article (h : startsArticle (c :: cs) = true) :
    ((c :: cs).take 2 = ['a', 'n'] ∨ (c :: cs).take 2 = ['A', 'n']) ∧
    ((c :: cs).drop 2).head? = some ']' ∧ 2 ≤ (c :: cs).length := by
  unfold startsArticle at h
  split at h <;> simp_all

theorem path (i : InPath zs zs') (h₁ : c ≠ '\n') (h₂ : c ≠ '\\') (h₃ : isBlank c = false) :
    Fits b zs (c :: cs) (Lexeme.path zs' c cs) := by
  have hl : leave? zs' = leave? zs := by cases i <;> rfl
  have hc : Zone.current zs ≠ .prose := by cases i <;> nofun
  unfold Lexeme.path
  rw [if_neg (by simp [h₃])]
  split_ifs
  case pos h => exact h ▸ single (.dot i) nofun
  case pos h => exact h ▸ single (.question i) nofun
  case pos h => exact h ▸ single (.pipe i) nofun
  case pos h => exact h ▸ closeBlock hc hl
  case pos h =>
    have ⟨hw, hn, hl⟩ := article h
    exact ⟨.article i hw hn, hl, rfl⟩
  case neg h₄ h₅ h₆ h₇ h₈ =>
    have h : c ∉ segmentStops := by
      simp only [isBlank, Bool.or_eq_false_iff, decide_eq_false_iff_not] at h₃
      simp [segmentStops, *]
    refine ⟨.name i (run_take h) (by simp [head?_take_run h, h₂]) ?_, length_run_le .., rfl⟩
    simpa only [List.take_append_drop, Bool.not_eq_true] using h₈

theorem arguments (h₁ : c ≠ '\n') (h₂ : c ≠ '\\') :
    Fits b (.arguments :: zs) (c :: cs) (Lexeme.arguments (.arguments :: zs) c cs) := by
  unfold Lexeme.arguments
  split_ifs
  case pos h => exact ⟨.space (blanks_take h), length_blanks_le _, rfl⟩
  case pos h => exact h ▸ single .point nofun
  case pos h => exact h ▸ single .split nofun
  case pos h => exact h ▸ closeBlock nofun rfl
  case neg h₃ h₄ h₅ h₆ =>
    have h : c ∉ argumentStops := by
      simp only [isBlank, Bool.not_eq_true, Bool.or_eq_false_iff, decide_eq_false_iff_not] at h₃
      simp [argumentStops, *]
    exact ⟨.value (run_take h) (by simp [head?_take_run h, h₂]), length_run_le .., rfl⟩

end Fits

theorem fits_read (zs : List Zone) (lineStart : Bool) (c : Char) (cs : List Char) :
    Fits lineStart zs (c :: cs) (read zs lineStart c cs) := by
  unfold read
  split_ifs
  case pos h =>
    simp only [Bool.and_eq_true] at h
    exact ⟨.indent h.1.1 h.1.2 (Fits.blanks_take h.2), Fits.length_blanks_le _, rfl⟩
  case pos h => exact h ▸ .newline
  case pos h => exact h ▸ .backslash
  case neg hb h₁ h₂ =>
    rcases zs with _ | ⟨z, zs⟩
    case nil  => exact .prose rfl (by simpa [Zone.current, Zone.isProse] using hb) h₁ h₂
    case cons =>
      cases z <;> simp only [Zone.current]
      case prose     => exact .prose rfl (by simpa [Zone.current, Zone.isProse] using hb) h₁ h₂
      case results   => exact .results (by simpa [Zone.current, Zone.isProse] using hb) h₁ h₂
      case arguments => exact .arguments h₁ h₂
      case path =>
        by_cases h : isBlank c = true
        case pos =>
          simp only [path, h, if_true]
          exact ⟨.gap (Fits.blanks_take h), Fits.length_blanks_le _, rfl⟩
        case neg => exact .path (.stay zs) h₁ h₂ (by simpa using h)
      case opening =>
        by_cases h : isBlank c = true
        case pos =>
          simp only [opening, h, if_true]
          exact ⟨.lead (Fits.blanks_take h), Fits.length_blanks_le _, rfl⟩
        case neg =>
          simp only [opening, h]
          exact .path (.enter zs) h₁ h₂ (by simpa using h)

theorem forced_read (zs : List Zone) (lineStart : Bool) (c : Char) (cs : List Char) :
    (read zs lineStart c cs).forced = read zs lineStart c cs :=
  if_neg (fits_read zs lineStart c cs).length_pos.ne'

end Lexeme

namespace Scanner

-- The scanner `s` reads the token `t` from the characters `w`, and `s'` is the scanner after it.
structure Step (s : Scanner) (t : Token) (w : List Char) (s' : Scanner) : Prop where
  rest      : s.rest = w ++ s'.rest
  reads     : Lexeme.Reads s.lineStart s'.rest s.zones t.kind w s'.zones
  lineStart : s'.lineStart = decide (t.kind = .newline)
  token     : t = ⟨t.kind, ⟨s.position, ⟨s.line, s.col + w.length⟩⟩, s.offset⟩
  place     : (s'.line, s'.col, s'.offset) =
    if t.kind = .newline then (s.line + 1, 0, s.offset + (s.col + w.length))
    else (s.line, s.col + w.length, s.offset)

variable {s s' : Scanner} {t : Token}

theorem lexeme?_cons {c : Char} {cs : List Char} (h : s.rest = c :: cs) :
    s.lexeme? = some (Lexeme.read s.zones s.lineStart c cs) := by
  simp [lexeme?, h, Lexeme.forced_read]

theorem exists_step (h : s.next? = some (t, s')) : ∃ w, Step s t w s' := by
  cases hr : s.rest
  case nil => simp [next?_eq_none_iff.mpr hr] at h
  case cons c cs =>
    simp only [next?, lexeme?_cons hr, Option.map_some, Option.some.injEq, Prod.mk.injEq] at h
    obtain ⟨rfl, rfl⟩ := h
    have f := Lexeme.fits_read s.zones s.lineStart c cs
    generalize Lexeme.read s.zones s.lineStart c cs = l at f
    have hl : ((c :: cs).take l.length).length = l.length := List.length_take_of_le f.length_le
    refine ⟨(c :: cs).take l.length, ?rest, ?reads, f.lineStart, ?token, ?place⟩
    case reads => simpa [pass, token, hr] using f.reads
    case rest  => simp [pass, hr]
    case token => rw [hl]; rfl
    case place =>
      rw [hl]
      simp only [pass, token]
      split <;> simp_all

theorem tokens_cons (h : s.next? = some (t, s')) : s.tokens = t :: s'.tokens := by
  simp [tokens, run_of_next?_eq_some h]

-- Each token of a scan is read by a step.
theorem tokens_cases (s : Scanner) :
    (s.tokens = [] ∧ s.rest = []) ∨
    ∃ t w s', s.tokens = t :: s'.tokens ∧ Step s t w s' := by
  cases h : s.next?
  case none =>
    exact .inl ⟨by simp [tokens, run_of_next?_eq_none h], next?_eq_none_iff.mp h⟩
  case some p =>
    have ⟨w, hw⟩ := exists_step h
    exact .inr ⟨p.1, w, p.2, tokens_cons h, hw⟩

theorem step_of_tokens_cons {ts : List Token} (h : s.tokens = t :: ts) :
    ∃ w s', ts = s'.tokens ∧ Step s t w s' := by
  rcases s.tokens_cases with ⟨hn, -⟩ | ⟨t', w, s', ht, hw⟩
  · simp [hn] at h
  · simp only [ht, List.cons.injEq] at h
    exact ⟨w, s', h.2.symm, h.1 ▸ hw⟩

theorem tokens_eq_nil_iff : s.tokens = [] ↔ s.rest = [] := by
  rcases s.tokens_cases with ⟨hn, hr⟩ | ⟨t, w, s', ht, step⟩
  case inl => simp [hn, hr]
  case inr => simp [ht, step.rest, step.reads.ne_nil]

end Scanner
end Stencil

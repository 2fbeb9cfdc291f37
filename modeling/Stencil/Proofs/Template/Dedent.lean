import Stencil.Proofs.Template.Tokens
import Stencil.Proofs.Token.Ahead
import Stencil.Proofs.Token.Tiling

namespace Stencil

open Lexeme Grammar Zone

-- A text without its escapes.
def unescape : List Char → List Char
  | []                => []
  | '\\' :: '[' :: cs => '[' :: unescape cs
  | c :: cs           => c :: unescape cs

-- Drops up to `n` of the blanks that the characters begin with.
def dropBlanks (n : Nat) (cs : List Char) : List Char :=
  cs.drop (min n (blanks cs))

theorem length_dropBlanks_le (n : Nat) (cs : List Char) : (dropBlanks n cs).length ≤ cs.length := by
  simp [dropBlanks]

-- Drops up to `n` of the blanks behind each line end.
def dedent (n : Nat) : List Char → List Char
  | []      => []
  | c :: cs => c :: dedent n (if c = '\n' then dropBlanks n cs else cs)
termination_by cs => cs.length
decreasing_by
  have := length_dropBlanks_le n cs
  split <;> simp only [List.length_cons] <;> omega

-- A line of a text, without its end.
def lineAt (text : List Char) (n : Nat) : List Char :=
  ((text.splitOn '\n')[n]?).getD []

variable {n : Nat} {c : Char} {cs u v w : List Char}

theorem unescape_cons (h : c ≠ '\\') : unescape (c :: cs) = c :: unescape cs := by
  rw [unescape]
  simp [h]

theorem unescape_append (h : '\\' ∉ v) : unescape (v ++ w) = v ++ unescape w := by
  induction v
  case nil         => rfl
  case cons c v ih =>
    simp only [List.mem_cons, not_or] at h
    rw [List.cons_append, unescape_cons (Ne.symm h.1), ih h.2, List.cons_append]

theorem unescape_head_not_blank (h : ∀ c ∈ cs.head?, isBlank c = false) :
    ∀ c ∈ (unescape cs).head?, isBlank c = false := by
  fun_cases unescape cs
  case case1 => simp
  case case2 => simp [isBlank]
  case case3 => simpa using h

@[simp]
theorem dropBlanks_zero (cs : List Char) : dropBlanks 0 cs = cs := by
  simp [dropBlanks]

theorem dropBlanks_append (hv : ∀ c ∈ v, isBlank c = true) (hu : ∀ c ∈ u.head?, isBlank c = false) :
    dropBlanks n (v ++ u) = v.drop n ++ u := by
  have hb : blanks (v ++ u) = v.length := by
    rw [blanks, List.takeWhile_append_of_pos hv]
    cases u <;> simp_all
  rcases Nat.le_total n v.length with hn | hn
  case inl => rw [dropBlanks, hb, Nat.min_eq_left hn, List.drop_append_of_le_length hn]
  case inr => rw [dropBlanks, hb, Nat.min_eq_right hn, List.drop_left, List.drop_eq_nil_of_le hn,
    List.nil_append]

theorem dropBlanks_of_not_blank (h : ∀ c ∈ cs.head?, isBlank c = false) : dropBlanks n cs = cs := by
  simpa using dropBlanks_append (v := []) nofun h

@[simp]
theorem dedent_zero (cs : List Char) : dedent 0 cs = cs := by
  induction cs <;> simp_all [dedent]

theorem dedent_append (h : '\n' ∉ v) : dedent n (v ++ u) = v ++ dedent n u := by
  induction v
  case nil         => rfl
  case cons c v ih =>
    simp only [List.mem_cons, not_or] at h
    rw [List.cons_append, dedent, if_neg (Ne.symm h.1), ih h.2, List.cons_append]

-- Drops blanks at the front as well if a line begins there.
def dedentFrom (n : Nat) (lineStart : Bool) (cs : List Char) : List Char :=
  dedent n (if lineStart then dropBlanks n cs else cs)

variable {b : Bool}

theorem dedentFrom_nil : dedentFrom n b [] = [] := by
  cases b <;> simp [dedentFrom, dropBlanks, dedent]

theorem dedentFrom_newline : dedentFrom n b ('\n' :: cs) = '\n' :: dedentFrom n true cs := by
  have h : dropBlanks n ('\n' :: cs) = '\n' :: cs := dropBlanks_of_not_blank (by simp [isBlank])
  simp [dedentFrom, h, dedent]

theorem dedentFrom_plain (hn : '\n' ∉ v)
    (hb : b = true → ∀ c ∈ (v ++ u).head?, isBlank c = false) :
    dedentFrom n b (v ++ u) = v ++ dedentFrom n false u := by
  have h : (if b then dropBlanks n (v ++ u) else v ++ u) = v ++ u :=
    ite_eq_right_iff.mpr fun hb' => dropBlanks_of_not_blank (hb hb')
  rw [dedentFrom, h, dedent_append hn]
  rfl

theorem dedentFrom_blanks (hv : ∀ c ∈ v, isBlank c = true) (hu : ∀ c ∈ u.head?, isBlank c = false) :
    dedentFrom n true (v ++ u) = v.drop n ++ dedentFrom n false u := by
  have hn : '\n' ∉ v.drop n := fun hn => absurd (hv _ (List.mem_of_mem_drop hn)) (by decide)
  rw [dedentFrom, if_pos rfl, dropBlanks_append hv hu, dedent_append hn]
  rfl

theorem length_splitOn (cs : List Char) : (cs.splitOn c).length = cs.count c + 1 := by
  induction cs
  case nil          => rfl
  case cons d cs ih =>
    rw [List.splitOn_cons_eq_if_modifyHead, List.count_cons]
    split <;> simp [ih]

theorem lineAt_zero (cs : List Char) : lineAt cs 0 = cs.takeWhile (· ≠ '\n') := by
  unfold lineAt
  induction cs
  case nil          => rfl
  case cons c cs ih =>
    rw [List.splitOn_cons_eq_if_modifyHead, List.takeWhile_cons, ← ih]
    obtain ⟨l, ls, hl⟩ := List.exists_cons_of_ne_nil (List.splitOn_ne_nil '\n' cs)
    by_cases hc : c = '\n' <;> simp [hl, hc]

-- The line that goes on behind the text `v`.
theorem lineAt_append (v w : List Char) :
    lineAt (v ++ w) (v.count '\n') = (lastLine v ++ w).takeWhile (· ≠ '\n') := by
  obtain ⟨above, ha, he⟩ := exists_lastLine v
  have hc : v.count '\n' = above.count '\n' := by
    rw [congrArg (List.count '\n') ha, List.count_append,
      List.count_eq_zero.mpr (not_mem_lastLine v), Nat.add_zero]
  have hv : v ++ w = above ++ (lastLine v ++ w) := by rw [← List.append_assoc, ← ha]
  rw [hc, hv, ← lineAt_zero]
  rcases above.eq_nil_or_concat' with rfl | ⟨x, c, rfl⟩
  case inl => rfl
  case inr =>
    obtain rfl := he c (by simp)
    rw [lineAt, List.append_assoc, List.singleton_append, List.splitOn_append_cons_self,
      List.getElem?_append_right (by simp [length_splitOn]), length_splitOn]
    simp [lineAt]

-- The blanks that begin a line.
theorem blanks_takeWhile_line (cs : List Char) : blanks (cs.takeWhile (· ≠ '\n')) = blanks cs := by
  rw [blanks, blanks, List.takeWhile_takeWhile]
  congr 2
  funext c
  by_cases hc : c = '\n' <;> simp [hc, isBlank]

-- The four kinds of tokens in prose, and what they are made of.
theorem Lexeme.Reads.prose_cases {a b : Bool} {zs zs' : List Zone} {k : Token.Kind}
    {next : List Char} (r : Reads b next zs k w zs') (hz : Shows a zs) (hk : k.isProse = true) :
    (k = .escape ∧ w = ['\\', '[']) ∨ (k = .newline ∧ w = ['\n']) ∨
    (k = .blank ∧ b = true ∧ Blanks w next) ∨
    (k = .text ∧ '\\' ∉ w ∧ '\n' ∉ w ∧ (b = true → ∀ c ∈ w.head?, isBlank c = false)) := by
  have plain (he : k ≠ .escape) : '\\' ∉ w := fun hw => by
    have := r.prose_plain hz hk he _ hw
    cases a <;> simp [proseMarks] at this
  have hn := r.not_mem_newline
  cases r <;> simp [Token.Kind.isProse] at hk hn plain
  case escape                => simp
  case newline | «break»     => simp
  case indent hb _ hw        => simp [hb, hw]
  case prose hb | result hb  => exact .inr <| .inr <| .inr ⟨rfl, plain, hn, hb⟩
  all_goals cases a <;> simp [Shows, current] at hz

namespace Scanner

variable {s s' : Scanner} {t : Token} {ts : List Token} {before : List Char} {a : Bool}

theorem Step.indentOf_eq (step : Step s t w s') (h : Behind before s) (finish : Span) :
    Source.indentOf ⟨(before ++ s.rest).toArray, finish⟩ t =
    blanks (lineAt (before ++ s.rest) t.span.start.line) := by
  have cov := step.covers h
  rw [cov.indent, cov.start, ← step.rest]
  exact (congrArg blanks (lineAt_append before s.rest)).trans (blanks_takeWhile_line _) |>.symm

-- The tokens of a run of prose make its text without escapes and indents.
theorem Steps.flatMap_proseOf (e : Steps s ts w s') (h : Behind before s) (hz : Shows a s.zones)
    (hk : ∀ t ∈ ts, t.kind.isProse = true) (finish : Span) (n : Nat) :
    ts.flatMap (Source.proseOf ⟨(before ++ s.rest).toArray, finish⟩ n) =
    dedentFrom n s.lineStart (unescape w) := by
  induction e generalizing before
  case refl => exact dedentFrom_nil.symm
  case step s s₁ s₂ t ts v w step e ih =>
    have ⟨ht, hts⟩ := List.forall_mem_cons.mp hk
    have hzs := step.reads.prose_zones hz ht
    have ih := ih (step.behind h) (hzs ▸ hz) hts
    rw [List.append_assoc, ← step.rest] at ih
    rw [List.flatMap_cons, ih, Source.proseOf, step.slice_eq h, step.lineStart]
    rcases step.reads.prose_cases hz ht with
      ⟨hk, rfl⟩ | ⟨hk, rfl⟩ | ⟨hk, hb, hv⟩ | ⟨hk, hv, hn, hb⟩
    case inl             =>
      have hw : unescape (['\\', '['] ++ w) = ['['] ++ unescape w := rfl
      rw [hw, dedentFrom_plain (by simp) (by simp [isBlank])]
      simp [hk]
    case inr.inl         =>
      simpa [hk, unescape] using dedentFrom_newline.symm
    case inr.inr.inl     =>
      -- the token is all of the blanks at the front
      have hw (c) (hc : c ∈ w.head?) : isBlank c = false := hv.ends c (by rw [e.rest]; simp_all)
      have hv' : '\\' ∉ v := fun hv' => absurd (hv.blank _ hv') (by decide)
      rw [unescape_append hv', hb, dedentFrom_blanks hv.blank (unescape_head_not_blank hw)]
      simp [hk]
    case inr.inr.inr     =>
      have hb : s.lineStart = true → ∀ c ∈ (v ++ unescape w).head?, isBlank c = false := by
        obtain ⟨c, v, rfl⟩ := List.exists_cons_of_ne_nil step.reads.ne_nil
        exact hb
      rw [unescape_append hv, dedentFrom_plain hn hb]
      simp [hk]

example :
    let text := "a\n\t  b\\[\n c"
    (Token.scan text).flatMap (Source.proseOf (.ofTokens text []) 2) = "a\n b[\nc".toList := by
  decide +kernel

end Scanner
end Stencil

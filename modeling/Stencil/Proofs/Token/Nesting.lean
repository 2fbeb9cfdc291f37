import Stencil.Proofs.Token.Tiling

namespace Stencil

namespace Zone

-- All open blocks are read up to one of their alternatives.
inductive Settled : List Zone → Prop
  | prose          : Settled [.prose]
  | path {zs}      : Settled zs → Settled (.results :: .path :: .opening :: zs)
  | arguments {zs} : Settled zs → Settled (.results :: .arguments :: .path :: .opening :: zs)

-- The block that was opened last may be read up to some place in front of its first pipe.
inductive Nested : List Zone → Prop
  | settled {zs}   : Settled zs → Nested zs
  | opening {zs}   : Settled zs → Nested (.opening :: zs)
  | path {zs}      : Settled zs → Nested (.path :: .opening :: zs)
  | arguments {zs} : Settled zs → Nested (.arguments :: .path :: .opening :: zs)

namespace Nested

variable {zs : List Zone}

theorem of_isProse (h : Nested zs) (hz : (current zs).isProse = true) : Settled zs := by
  cases h
  case settled h => exact h
  all_goals simp [current, isProse] at hz

-- Outside of prose there is a block to leave.
theorem exists_leave? (h : Nested zs) (hz : current zs ≠ .prose) :
    ∃ outer, leave? zs = some outer ∧ Settled outer := by
  cases h
  case settled h =>
    cases h
    case prose            => contradiction
    case path h           => exact ⟨_, rfl, h⟩
    case arguments h      => exact ⟨_, rfl, h⟩
  case opening h | path h | arguments h => exact ⟨_, rfl, h⟩

theorem inPath {zs' : List Zone} (h : Nested zs) (hi : InPath zs zs') :
    ∃ outer, Settled outer ∧ zs' = .path :: .opening :: outer := by
  cases hi
  case enter =>
    cases h
    case settled h => cases h
    case opening h => exact ⟨_, h, rfl⟩
  case stay =>
    cases h
    case settled h => cases h
    case path h    => exact ⟨_, h, rfl⟩

theorem of_path (h : Nested (.path :: zs)) : Nested (.arguments :: .path :: zs) := by
  have ⟨outer, ho, hz⟩ := h.inPath (.stay zs)
  exact hz ▸ .arguments ho

theorem of_arguments (h : Nested (.arguments :: zs)) : Settled (.results :: .arguments :: zs) := by
  cases h
  case settled h   => cases h
  case arguments h => exact .arguments h

end Nested

theorem depth_of_leave?_some {zs outer : List Zone} (h : leave? zs = some outer) :
    depth zs = depth outer + 1 := by
  fun_induction leave? zs
  case case1       => simp at h
  case case2       => simp_all [depth]
  case case3 z zs hz ih =>
    have hz : z ≠ opening := hz
    simpa [depth, List.count_cons, hz] using ih h

theorem depth_of_leave?_none {zs : List Zone} (h : leave? zs = none) : depth zs = 0 := by
  fun_induction leave? zs
  case case1       => rfl
  case case2       => simp at h
  case case3 z zs hz ih =>
    have hz : z ≠ opening := hz
    simpa [depth, List.count_cons, hz] using ih h

end Zone

-- A bracket changes the number of open blocks by one, and no other token changes it.
theorem Lexeme.Reads.depth {b : Bool} {zs zs' : List Zone} {k : Token.Kind} {w next : List Char}
    (r : Reads b next zs k w zs') :
    (k = .bracketOpen ∧ Zone.depth zs' = Zone.depth zs + 1) ∨
    (k = .bracketClose ∧ Zone.depth zs = Zone.depth zs' + 1) ∨
    (k ≠ .bracketOpen ∧ k ≠ .bracketClose ∧ Zone.depth zs' = Zone.depth zs) := by
  have path {zs zs'} (h : Zone.InPath zs zs') : Zone.depth zs' = Zone.depth zs := by
    cases h <;> simp [Zone.depth]
  cases r
  case opens     => simp [Zone.depth]
  case closes    => simp [Zone.depth_of_leave?_some ‹_›]
  case unmatched => simp [Zone.depth_of_leave?_none, *]
  case dot | question | article | name => simp [path ‹_›]
  case pipe      => simpa [Zone.depth] using path ‹_›
  all_goals simp [Zone.depth]

namespace Lexeme.Reads

open Zone (Nested)

variable {b : Bool} {zs zs' : List Zone} {k : Token.Kind} {w next : List Char}

theorem nested (r : Reads b next zs k w zs') (h : Nested zs) : Nested zs' := by
  cases r
  case «break»   => exact h.of_path
  case opens hz  => exact .opening (h.of_isProse hz)
  case gap       => exact h.of_path
  case split     => exact .settled h.of_arguments
  case dot | question | article | name =>
    obtain ⟨outer, ho, rfl⟩ := h.inPath ‹_›
    exact .path ho
  case pipe =>
    obtain ⟨outer, ho, rfl⟩ := h.inPath ‹_›
    exact .settled (.path ho)
  case closes hz hl =>
    have ⟨outer, ho, hs⟩ := h.exists_leave? hz
    exact Option.some.inj (hl.symm.trans ho) ▸ .settled hs
  case unmatched hz hl _ =>
    have ⟨outer, ho, _⟩ := h.exists_leave? hz
    simp [ho] at hl
  all_goals exact h

theorem stray_eq (r : Reads b next zs .stray w zs') (h : Nested zs) :
    w = ['\\'] ∧ next.head? ≠ some '[' := by
  cases r
  case stray hn          => exact ⟨rfl, hn⟩
  case unmatched hz hl _ =>
    have ⟨outer, ho, _⟩ := h.exists_leave? hz
    simp [ho] at hl

end Lexeme.Reads

namespace Scanner

variable {s s' : Scanner} {ts : List Token} {w : List Char}

namespace Steps

theorem nested (e : Steps s ts w s') (h : Zone.Nested s.zones) : Zone.Nested s'.zones := by
  induction e
  case refl         => exact h
  case step e₁ _ ih => exact ih (e₁.reads.nested h)

theorem depth (e : Steps s ts w s') :
    Zone.depth s'.zones + ts.countP (·.kind = .bracketClose) =
    Zone.depth s.zones + ts.countP (·.kind = .bracketOpen) := by
  induction e
  case refl         => rfl
  case step e₁ _ ih =>
    simp only [List.countP_cons]
    rcases e₁.reads.depth with ⟨hk, hd⟩ | ⟨hk, hd⟩ | ⟨ho, hc, hd⟩
    case inl     => simp [hk]; omega
    case inr.inl => simp [hk]; omega
    case inr.inr => simp [ho, hc]; omega

end Steps

-- The scanner after the first tokens of a run.
def after (s : Scanner) (done : List (Token × Scanner)) : Scanner :=
  done.getLast?.elim s Prod.snd

theorem after_cons (p : Token × Scanner) (done : List (Token × Scanner)) :
    s.after (p :: done) = p.2.after done := by
  cases done <;> simp [after, List.getLast?_eq_some_getLast]

theorem next?_of_run {p : Token × Scanner} {ahead : List (Token × Scanner)}
    (h : s.run = p :: ahead) : s.next? = some p ∧ p.2.run = ahead := by
  cases hn : s.next?
  case none   => simp [run_of_next?_eq_none hn] at h
  case some q =>
    rw [run_of_next?_eq_some hn, List.cons.injEq] at h
    exact ⟨congrArg some h.1, h.1 ▸ h.2⟩

theorem exists_steps_after {done ahead : List (Token × Scanner)} (h : s.run = done ++ ahead) :
    ∃ w, Steps s (done.map Prod.fst) w (s.after done) := by
  induction done generalizing s
  case nil            => exact ⟨[], .refl s⟩
  case cons p done ih =>
    have ⟨hn, h⟩ := next?_of_run h
    have ⟨v, step⟩ := exists_step hn
    have ⟨w, e⟩ := ih h
    exact ⟨v ++ w, after_cons p done ▸ .step step e⟩

theorem run_after {done ahead : List (Token × Scanner)} (h : s.run = done ++ ahead) :
    (s.after done).run = ahead := by
  induction done generalizing s
  case nil            => exact h
  case cons p done ih => exact after_cons p done ▸ ih (next?_of_run h).2

-- At every place of a text the zones nest, and count the brackets; a closing bracket is read only
-- where there is a block to leave, some characters are read where any are left, and no character is
-- stray but a backslash that escapes nothing.
theorem nested_after (text : String) :
    (∀ done ahead, (start text).run = done ++ ahead →
      let s := (start text).after done
      Zone.Nested s.zones ∧
      Zone.depth s.zones + done.countP (·.1.kind = .bracketClose) =
        done.countP (·.1.kind = .bracketOpen) ∧
      (Zone.current s.zones ≠ .prose → Zone.leave? s.zones ≠ none) ∧
      (∀ c cs, s.rest = c :: cs → (Lexeme.read s.zones s.lineStart c cs).length ≠ 0)) ∧
    (∀ t ∈ Token.scan text, t.kind = .stray →
      t.slice text.toList.toArray = ['\\'] ∧ text.toList[t.past]? ≠ some '[') := by
  have h₀ : Zone.Nested (start text).zones := .settled .prose
  refine ⟨fun done ahead hr => ?_, fun t ht hk => ?_⟩
  · have ⟨w, e⟩ := exists_steps_after hr
    have hz := e.nested h₀
    refine ⟨hz, ?depth, ?leave, ?length⟩
    case depth =>
      have := e.depth
      simpa [List.countP_map, Function.comp_def, start, Zone.depth] using this
    case leave =>
      intro hc
      have ⟨outer, ho, _⟩ := hz.exists_leave? hc
      simp [ho]
    case length =>
      exact fun c cs _ => (Lexeme.fits_read _ _ c cs).length_pos.ne'
  · have ⟨us, v, s₁, w, s₂, e, step⟩ := exists_steps_of_mem ht
    have ⟨hw, hn⟩ := (hk ▸ step.reads).stray_eq (e.nested h₀)
    refine ⟨?slice, ?next⟩
    case slice => exact (e.slice_eq step (behind_start text)).trans hw
    case next  =>
      have hr : text.toList = v ++ (w ++ s₂.rest) := e.rest.trans (by rw [step.rest])
      rw [step.past_eq (e.behind (behind_start text)), hr]
      simpa [List.getElem?_append_right, ← List.head?_eq_getElem?] using hn

theorem nested_after_break :
    let text := "\\x[a|[b\n1"
    let s := (start text).after ((start text).run.take 8)
    s.zones = [.arguments, .path, .opening, .results, .path, .opening, .prose] ∧
    Zone.Nested s.zones ∧
    Zone.depth s.zones + ((start text).run.take 8).countP (·.1.kind = .bracketClose) =
      ((start text).run.take 8).countP (·.1.kind = .bracketOpen) ∧
    Zone.leave? s.zones ≠ none ∧
    (Lexeme.read s.zones s.lineStart '1' []).length ≠ 0 ∧
    ⟨.stray, ⟨⟨0, 0⟩, ⟨0, 1⟩⟩, 0⟩ ∈ Token.scan text ∧ text.toList[1]? ≠ some '[' := by
  intro text s
  have hr := (List.take_append_drop 8 (start text).run).symm
  have hz : s.zones = [.arguments, .path, .opening, .results, .path, .opening, .prose] := by
    decide +kernel
  have hs : s.rest = ['1'] := by decide +kernel
  have ht : ⟨.stray, ⟨⟨0, 0⟩, ⟨0, 1⟩⟩, 0⟩ ∈ Token.scan text := by decide +kernel
  have ⟨hn, hd, hl, he⟩ := (nested_after text).1 _ _ hr
  have ⟨_, hb⟩ := (nested_after text).2 _ ht rfl
  exact ⟨hz, hn, hd, hl (by rw [hz]; decide), he '1' [] hs, ht, hb⟩

end Scanner

end Stencil

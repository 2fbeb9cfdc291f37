import Stencil.Proofs.Template.Tokens

namespace Stencil
namespace Lexeme

open Grammar Zone

-- How a token of some kind begins in a zone.
def Begins (z : Zone) (c : Char) : Token.Kind → Prop
  | .text         => (z = .prose ∧ c ∉ proseStops) ∨ (z = .results ∧ c ∉ resultStops) ∨
      (z = .arguments ∧ c ∉ argumentStops ∧ c ≠ '\\')
  | .escape       => c = '\\'
  | .bracketOpen  => c = '[' ∧ z.isProse = true
  | .bracketClose => c = ']' ∧ z ≠ .prose
  | .pipe         => c = '|' ∧ z ≠ .prose
  | .dot          => c = '.' ∧ z.isProse = false
  | .question     => c = '?' ∧ (z = .opening ∨ z = .path)
  | .blank        => isBlank c = true
  | .name         => c ∉ segmentStops ∧ c ≠ '\\' ∧ (z = .opening ∨ z = .path)
  | .article      => (c = 'a' ∨ c = 'A') ∧ (z = .opening ∨ z = .path)
  | .newline      => c = '\n'
  | .stray        => c = '\\' ∨ (c = ']' ∧ z ≠ .prose)

namespace Reads

variable {b : Bool} {zs zs' outer : List Zone} {k : Token.Kind} {w next cs : List Char} {c : Char}

theorem head?_eq (r : Reads b next zs k w zs') (h : w ++ next = c :: cs) : w.head? = some c := by
  rcases w with _ | ⟨d, w⟩
  case nil  => exact absurd rfl r.ne_nil
  case cons => exact congrArg some (List.cons.inj h).1

theorem begins (r : Reads b next zs k w zs') (h : w ++ next = c :: cs) :
    Begins (current zs) c k := by
  have hw := List.mem_of_mem_head? (r.head?_eq h)
  have path {zs zs'} (h : InPath zs zs') : current zs = .opening ∨ current zs = .path := by
    cases h <;> simp [current]
  have head (hn : w.head? ≠ some '\\') : c ≠ '\\' := by
    rintro rfl
    exact hn (r.head?_eq h)
  cases r
  case indent | lead | gap | space => exact (‹Blanks _ _›).blank c hw
  case prose                       => exact .inl ⟨‹_›, (‹Run _ _ _›).plain c hw⟩
  case result                      => exact .inr (.inl ⟨rfl, (‹Run _ _ _›).plain c hw⟩)
  case value                       => exact .inr (.inr ⟨rfl, (‹Run _ _ _›).plain c hw, head ‹_›⟩)
  case name                        => exact ⟨(‹Run _ _ _›).plain c hw, head ‹_›, path ‹_›⟩
  case article                     =>
    refine ⟨?_, path ‹_›⟩
    rcases ‹_ ∨ _› with rfl | rfl
    case inl => exact .inl (List.cons.inj h).1.symm
    case inr => exact .inr (List.cons.inj h).1.symm
  case dot | question | pipe       =>
    obtain ⟨rfl, -⟩ := List.cons.inj h
    rcases path ‹_› with hz | hz <;> simp [Begins, hz, isProse]
  all_goals
    obtain ⟨rfl, -⟩ := List.cons.inj h
    simp_all [Begins, current, isProse]

theorem exists_begins (r : Reads b next zs k w zs') (h : w ++ next = cs) :
    ∃ c cs', cs = c :: cs' ∧ Begins (current zs) c k := by
  cases cs
  case nil        => simp [r.ne_nil] at h
  case cons c cs' => exact ⟨c, cs', rfl, r.begins h⟩

theorem exists_begins_append {v : List Char} (r : Reads b next zs k w zs')
    (h : w ++ next = v ++ cs) (hn : v ≠ []) :
    ∃ c v', v = c :: v' ∧ Begins (current zs) c k := by
  cases v
  case nil       => contradiction
  case cons c v' => exact ⟨c, v', rfl, r.begins h⟩

end Reads

namespace Begins

variable {z : Zone} {k : Token.Kind} {c : Char}

theorem isSpace_iff (h : Begins z c k) (hz : z = .opening ∨ z = .path ∨ z = .arguments) :
    k.isSpace = true ↔ isSpace c = true := by
  cases k <;> simp only [Begins] at h
  all_goals rcases hz with rfl | rfl | rfl
  all_goals simp_all [Token.Kind.isSpace, isSpace, isBlank, segmentStops, argumentStops]
  all_goals rcases h with rfl | rfl <;> simp

theorem isSegment (h : Begins z c k) (hz : z = .opening ∨ z = .path) (hc : c ∉ segmentStops)
    (hb : c ≠ '\\') : k.isSegment = true := by
  cases k <;> simp only [Begins] at h
  all_goals rcases hz with rfl | rfl
  all_goals simp_all [Token.Kind.isSegment, isBlank, segmentStops, isProse]

theorem isArgument_iff (h : Begins .arguments c k) :
    k.isArgument = true ↔ isSpace c = false ∧ c ∉ ['|', ']', '\\'] := by
  cases k <;> simp only [Begins] at h
  all_goals simp_all [Token.Kind.isArgument, isBlank, isSpace, argumentStops, isProse]
  all_goals grind

theorem isArgument_of_operand {v : List Char} (h : Begins .arguments c k) (hv : Operand (c :: v)) :
    k.isArgument = true := by
  have hp := hv.plain c (by simp)
  have hh := hv.head
  exact h.isArgument_iff.mpr (by simp_all)

theorem not_isArgument (h : Begins .arguments c k) (hc : isSpace c = true ∨ c ∈ ['|', ']']) :
    k.isArgument = false := by
  by_contra hk
  have ⟨hs, hp⟩ := h.isArgument_iff.mp (by simpa using hk)
  rcases hc with hc | hc
  case inl => simp [hs] at hc
  case inr => simp_all

theorem isProse_iff {a : Bool} (h : Begins (if a then .results else .prose) c k)
    (hb : c ≠ '\\') : k.isProse = true ↔ c ∉ proseMarks a := by
  cases a <;> cases k <;> simp only [Begins] at h
  all_goals simp_all [Token.Kind.isProse, isBlank, proseMarks, proseStops, resultStops, isProse]
  all_goals grind

end Begins

-- Characters with `p` that begin a text do not reach past its front if `p` fails behind that.
theorem append_prefix {p : Char → Prop} {v w next r : List Char} (hw : ∀ c ∈ w, p c)
    (hr : ∀ c ∈ r.head?, ¬p c) (h : w ++ next = v ++ r) : ∃ x, v = w ++ x ∧ next = x ++ r := by
  rcases List.append_eq_append_iff.mp h with ⟨x, rfl, rfl⟩ | ⟨x, rfl, rfl⟩
  case inl => exact ⟨x, rfl, rfl⟩
  case inr =>
    rcases x with _ | ⟨c, x⟩
    case nil  => exact ⟨[], by simp, rfl⟩
    case cons => simp_all

namespace Reads

variable {b : Bool} {zs zs' outer : List Zone} {k : Token.Kind} {w next cs : List Char}

-- A whole word is one token, also before the bracket that makes it an article.
theorem segment_ends (r : Reads b next zs k w zs') (hk : k.isSegment = true) :
    ∀ c ∈ next.head?, c ∈ segmentStops := by
  cases r <;> simp [Token.Kind.isSegment] at hk
  case article => simp [‹next.head? = _›, segmentStops]
  case name    => exact (‹Run _ _ _›).ends

theorem argument_ends (r : Reads b next (.arguments :: zs) k w zs') (hk : k.isArgument = true) :
    w = ['.'] ∨ ∀ c ∈ next.head?, c ∈ argumentStops := by
  cases r <;> simp [Token.Kind.isArgument] at hk
  case prose  => simp [current] at *
  case dot hi => cases hi
  case point  => exact .inl rfl
  case value  => exact .inr (‹Run _ _ _›).ends

theorem of_dot (r : Reads b next (.path :: zs) k w zs') (h : w ++ next = '.' :: cs) :
    k = .dot ∧ w = ['.'] ∧ zs' = .path :: zs := by
  have hb := r.begins h
  have hk : k = .dot := by
    cases k <;> simp [Begins, current, segmentStops, isBlank] at hb ⊢
  subst hk
  exact ⟨rfl, r.dot_path⟩

theorem of_question (r : Reads b next (.path :: zs) k w zs') (h : w ++ next = '?' :: cs) :
    k = .question ∧ w = ['?'] ∧ zs' = .path :: zs := by
  have hb := r.begins h
  have hk : k = .question := by
    cases k <;> simp [Begins, current, segmentStops, isBlank] at hb ⊢
  subst hk
  exact ⟨rfl, r.question_path⟩

theorem of_pipe (r : Reads b next zs k w zs') (h : w ++ next = '|' :: cs)
    (hz : current zs ≠ .prose) :
    k = .pipe ∧ w = ['|'] ∧ Shows true zs' ∧ leave? zs' = leave? zs := by
  have hb := r.begins h
  have hk : k = .pipe := by
    cases k <;> simp [Begins, hz, resultStops, segmentStops, argumentStops, isBlank] at hb ⊢
  subst hk
  exact ⟨rfl, r.pipe_results⟩

theorem of_close (r : Reads b next zs k w zs') (h : w ++ next = ']' :: cs)
    (hz : current zs ≠ .prose) (hl : leave? zs = some outer) :
    k = .bracketClose ∧ w = [']'] ∧ zs' = outer := by
  have hb := r.begins h
  have hk : k = .bracketClose ∨ k = .stray := by
    cases k <;> simp [Begins, hz, resultStops, segmentStops, argumentStops, isBlank] at hb ⊢
  rcases hk with rfl | rfl
  case inl =>
    obtain ⟨hw, hl'⟩ := r.close_leave
    exact ⟨rfl, hw, Option.some.inj (hl'.symm.trans hl)⟩
  case inr =>
    cases r
    case stray     => simp at h
    case unmatched => simp_all

theorem of_open {a : Bool} (r : Reads b next zs k w zs') (h : w ++ next = '[' :: cs)
    (hz : Shows a zs) : k = .bracketOpen ∧ w = ['['] ∧ zs' = .opening :: zs := by
  have hb := r.begins h
  rw [hz] at hb
  have hk : k = .bracketOpen := by
    cases a <;> cases k <;> simp [Begins, proseStops, resultStops, isBlank] at hb ⊢
  subst hk
  exact ⟨rfl, r.open_token hz⟩

theorem of_escape (r : Reads b next zs k w zs') (h : w ++ next = '\\' :: '[' :: cs) :
    k = .escape := by
  have hb := r.begins h
  have hk : k = .escape ∨ k = .stray := by
    cases k <;> simp [Begins, proseStops, resultStops, isBlank] at hb ⊢
  rcases hk with rfl | rfl
  case inl => rfl
  case inr => cases r <;> simp_all

end Reads
end Lexeme
end Stencil

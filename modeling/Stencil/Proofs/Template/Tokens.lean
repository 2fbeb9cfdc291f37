import Stencil.Proofs.Template.Grammar
import Stencil.Proofs.Token.Step

namespace Stencil

open Grammar Lexeme Zone

namespace Zone

-- Prose is read in these zones: outside of blocks, or in an alternative.
def Shows (inAlternative : Bool) (zs : List Zone) : Prop :=
  current zs = if inAlternative then .results else .prose

-- A block that was opened in `outer` is read, and no pipe of it yet.
inductive InHead (outer : List Zone) : List Zone → Prop
  | path      : InHead outer (.path :: .opening :: outer)
  | arguments : InHead outer (.arguments :: .path :: .opening :: outer)

theorem InHead.leave?_eq {outer zs : List Zone} (h : InHead outer zs) : leave? zs = some outer := by
  cases h <;> rfl

end Zone

theorem Grammar.Segment.not_stop {w : List Char} (h : Segment w) : ∀ c ∈ w, c ∉ segmentStops := by
  intro c hc
  have := h.plain c hc
  simp_all [segmentStops, isSpace]

namespace Zone.InPath

theorem of_path {zs zs' : List Zone} (h : InPath (.path :: zs) zs') : zs' = .path :: zs := by
  cases h; rfl

theorem of_opening {zs zs' : List Zone} (h : InPath (.opening :: zs) zs') :
    zs' = .path :: .opening :: zs := by
  cases h; rfl

end Zone.InPath

namespace Lexeme.Reads

variable {b : Bool} {zs zs' : List Zone} {k : Token.Kind} {w next : List Char}

theorem spaces_of_blanks (h : Blanks w next) : Spaces w := fun c hc => by
  have := h.blank c hc
  simp_all [isBlank, isSpace]

theorem spaces_newline : Spaces ['\n'] := by
  simp [Spaces, isSpace]

theorem space_opening (r : Reads b next (.opening :: zs) k w zs') (h : k.isSpace = true) :
    Spaces w ∧ zs' = .opening :: zs := by
  cases r <;> simp [Token.Kind.isSpace] at h
  case newline => exact ⟨spaces_newline, rfl⟩
  case lead    => exact ⟨spaces_of_blanks ‹_›, rfl⟩
  case indent  => simp [current, isProse] at *

theorem space_arguments (r : Reads b next (.arguments :: zs) k w zs') (h : k.isSpace = true) :
    Spaces w ∧ zs' = .arguments :: zs := by
  cases r <;> simp [Token.Kind.isSpace] at h
  case newline => exact ⟨spaces_newline, rfl⟩
  case space   => exact ⟨spaces_of_blanks ‹_›, rfl⟩
  case indent  => simp [current, isProse] at *

theorem space_kept (r : Reads b next zs k w zs')
    (hz : current zs = .opening ∨ current zs = .arguments) (h : k.isSpace = true) :
    Spaces w ∧ zs' = zs := by
  rcases zs with _ | ⟨z, zs⟩
  case nil  => simp [current] at hz
  case cons =>
    rcases hz with rfl | rfl
    case inl => exact r.space_opening h
    case inr => exact r.space_arguments h

theorem space_path (r : Reads b next (.path :: zs) k w zs') (h : k.isSpace = true) :
    Spaces w ∧ zs' = .arguments :: .path :: zs := by
  cases r <;> simp [Token.Kind.isSpace] at h
  case newline => simp [current] at *
  case «break» => exact ⟨spaces_newline, rfl⟩
  case gap     => exact ⟨spaces_of_blanks ‹_›, rfl⟩
  case indent  => simp [current, isProse] at *

theorem space_head {outer : List Zone} (r : Reads b next zs k w zs') (hz : InHead outer zs)
    (h : k.isSpace = true) : Spaces w ∧ zs' = .arguments :: .path :: .opening :: outer := by
  cases hz
  case path      => exact r.space_path h
  case arguments => exact r.space_arguments h

theorem segment (r : Reads b next zs k w zs') (h : k.isSegment = true) :
    InPath zs zs' ∧ Segment w := by
  cases r <;> simp [Token.Kind.isSegment] at h
  case article =>
    refine ⟨‹_›, ?_⟩
    rcases ‹_ ∨ _› with rfl | rfl <;> exact ⟨by simp, by simp [isSpace], by simp⟩
  case name =>
    have hw := ‹Run _ _ _›
    refine ⟨‹_›, hw.ne_nil, fun c hc => ?_, ‹_ ≠ _›⟩
    have := hw.plain c hc
    simp_all [segmentStops, isSpace]

theorem dot_path (r : Reads b next (.path :: zs) .dot w zs') : w = ['.'] ∧ zs' = .path :: zs := by
  cases r
  case dot hi => cases hi; exact ⟨rfl, rfl⟩

theorem question_path (r : Reads b next (.path :: zs) .question w zs') :
    w = ['?'] ∧ zs' = .path :: zs := by
  cases r
  case question hi => cases hi; exact ⟨rfl, rfl⟩

theorem argument (r : Reads b next (.arguments :: zs) k w zs') (h : k.isArgument = true) :
    Operand w ∧ zs' = .arguments :: zs := by
  cases r <;> simp [Token.Kind.isArgument] at h
  case prose => simp [current] at *
  case dot hi => cases hi
  case point =>
    refine ⟨⟨by simp, by simp [isSpace], by simp, fun u v h => ?_⟩, rfl⟩
    have := congrArg List.length h
    simp at this
    omega
  case value hw hb =>
    have hs : ∀ c ∈ w, c ∉ argumentStops := hw.plain
    refine ⟨⟨hw.ne_nil, fun c hc => ?_, hb, ?_⟩, rfl⟩
    · have := hs c hc
      simp_all [argumentStops, isSpace]
    · rintro u v rfl
      exact hs '.' (by simp) (by simp [argumentStops])

-- After a pipe, the block that is open is still the same.
theorem pipe_results (r : Reads b next zs .pipe w zs') :
    w = ['|'] ∧ Shows true zs' ∧ leave? zs' = leave? zs := by
  cases r
  case bar | split => exact ⟨rfl, rfl, rfl⟩
  case pipe hi     => cases hi <;> exact ⟨rfl, rfl, rfl⟩

theorem close_leave (r : Reads b next zs .bracketClose w zs') :
    w = [']'] ∧ leave? zs = some zs' := by
  cases r
  case closes h => exact ⟨rfl, h⟩

theorem prose_plain {a : Bool} (r : Reads b next zs k w zs') (hz : Shows a zs)
    (hk : k.isProse = true) (he : k ≠ .escape) : ∀ c ∈ w, c ∉ proseMarks a := by
  intro c hc
  cases r <;> simp [Token.Kind.isProse] at hk he
  case newline                   => cases a <;> simp_all [proseMarks]
  case indent                    =>
    have hb := (‹Blanks _ _›).blank c hc
    cases a <;> simp [proseMarks] <;> simp [isBlank] at hb <;> rcases hb with rfl | rfl <;> simp
  case prose                     =>
    have hs := (‹Run _ _ _›).plain c hc
    cases a <;> simp_all [Shows, proseMarks, proseStops]
  case result                    =>
    have hs := (‹Run _ _ _›).plain c hc
    cases a <;> simp_all [Shows, proseMarks, resultStops]
  all_goals cases a <;> simp [Shows, current] at hz

theorem prose_zones {a : Bool} (r : Reads b next zs k w zs') (hz : Shows a zs)
    (hk : k.isProse = true) : zs' = zs := by
  cases r <;> simp [Token.Kind.isProse] at hk <;> try rfl
  all_goals cases a <;> simp [Shows, current] at hz

theorem escape_word (r : Reads b next zs .escape w zs') : w = ['\\', '['] ∧ zs' = zs := by
  cases r
  case escape => exact ⟨rfl, rfl⟩

theorem prose_token {a : Bool} (r : Reads b next zs k w zs') (hz : Shows a zs)
    (hk : k.isProse = true) : zs' = zs ∧ ∀ block v, Prose block a v → Prose block a (w ++ v) := by
  refine ⟨r.prose_zones hz hk, fun block v hv => ?_⟩
  by_cases he : k = .escape
  case pos =>
    subst he
    exact r.escape_word.1 ▸ .escape hv
  case neg => exact .chars (r.prose_plain hz hk he) hv

theorem open_token {a : Bool} (r : Reads b next zs .bracketOpen w zs') (hz : Shows a zs) :
    w = ['['] ∧ zs' = .opening :: zs := by
  cases r
  case opens => exact ⟨rfl, rfl⟩

end Lexeme.Reads

end Stencil

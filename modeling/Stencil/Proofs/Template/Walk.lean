import Stencil.Proofs.Template.Reading
import Stencil.Proofs.Token.Brackets
import Stencil.Template.Descent

namespace Stencil
namespace Descent

-- These loops look at the next token before they take it.
def Loop.looks : Loop → Bool
  | space | pieces | text | argument => true
  | _                                => false

-- What holds of all that is written down. A round takes a token at least, except for one that
-- looks at the next token and leaves.
def Event.Sound : Event → Prop
  | round loop leaves before after =>
    after.left < before.left ∨ leaves = true ∧ loop.looks = true ∧ after.left = before.left
  | concat indent before after     => after.depth = before.depth ∧ (indent = none → after.left = 0)
  | block before after             => after.depth = before.depth ∧ after.left < before.left
  | nesting depth                  => depth ≤ maxNesting
  | skipping depth                 => 0 ≤ depth
  | noBracket | noText             => False

-- A descent at `d` goes on to `d'` and meets the faults `fs`.
structure Leads (d d' : Descent) (fs : List (Fault SyntaxError)) : Prop where
  tokens : ∃ ts, d.ahead = ts ++ d'.ahead ∧ d'.passed = d.passed ++ ts
  depth  : d'.depth = d.depth
  faults : d'.faults = d.faults ++ fs
  events : ∃ es, d'.trace = d.trace ++ es ∧ ∀ e ∈ es, e.Sound

namespace Leads

variable {d d₁ d₂ : Descent} {fs gs : List (Fault SyntaxError)} {e : Event}

theorem refl (d : Descent) : d.Leads d [] :=
  ⟨⟨[], by simp⟩, rfl, by simp, ⟨[], by simp⟩⟩

theorem trans (h : d.Leads d₁ fs) (h' : d₁.Leads d₂ gs) : d.Leads d₂ (fs ++ gs) := by
  have ⟨ts, ha, hp⟩ := h.tokens
  have ⟨ts', ha', hp'⟩ := h'.tokens
  have ⟨es, ht, hs⟩ := h.events
  have ⟨es', ht', hs'⟩ := h'.events
  refine ⟨⟨ts ++ ts', ?tokens⟩, h'.depth.trans h.depth, ?faults, ⟨es ++ es', ?events⟩⟩
  case tokens => simp [ha, hp, ha', hp']
  case faults => simp [h.faults, h'.faults]
  case events => exact ⟨by simp [ht, ht'], List.forall_mem_append.mpr ⟨hs, hs'⟩⟩

theorem length_le (h : d.Leads d₁ fs) : d₁.ahead.length ≤ d.ahead.length := by
  have ⟨ts, ha, _⟩ := h.tokens
  simp [ha]

theorem note (he : e.Sound) : d.Leads (d.note e) [] :=
  ⟨⟨[], by simp [Descent.note]⟩, rfl, by simp [Descent.note], ⟨[e], rfl, by simpa⟩⟩

theorem pass (d : Descent) : d.Leads d.pass [] :=
  ⟨⟨d.ahead.take 1, by simp [Descent.pass, ← List.drop_one]⟩, rfl, by simp [Descent.pass],
    ⟨[], by simp [Descent.pass]⟩⟩

theorem blame (d : Descent) (f : Fault SyntaxError) : d.Leads (d.blame f) [f] :=
  ⟨⟨[], by simp [Descent.blame]⟩, rfl, rfl, ⟨[], by simp [Descent.blame]⟩⟩

-- The nesting is counted up, and down again after something that leaves it as it was.
theorem nested (h : (d.nest (d.depth + 1)).Leads d₁ fs) (hd : d.depth < maxNesting) :
    d.Leads (d₁.nest (d₁.depth - 1)) fs := by
  have ⟨es, ht, hs⟩ := h.events
  have hn : d₁.depth - 1 = d.depth := by simp [h.depth, nest, Descent.note]
  refine ⟨h.tokens, hn, h.faults, ⟨.nesting (d.depth + 1) :: es ++ [.nesting d.depth], ?_, ?_⟩⟩
  · simp [nest, Descent.note] at ht ⊢
    simp [ht, hn]
  · simp only [List.cons_append, List.forall_mem_cons, List.forall_mem_append]
    exact ⟨hd, hs, hd.le, nofun⟩

end Leads
end Descent

namespace Walk

open Descent (Event Loop Mark)

-- A part of a descent comes to an end with the value `a` and the faults `fs`, and the tokens `rest`
-- are still ahead then.
def Ends {α : Type} (w : Walk α) (d : Descent) (a : α) (fs : List (Fault SyntaxError))
    (rest : List Token) : Prop :=
  ∃ d', w d = some (a, d') ∧ d.Leads d' fs ∧ d'.ahead = rest

variable {α β : Type} {a : α} {b : β} {w : Walk α} {f : α → Walk β} {d d₁ : Descent}
  {fs gs : List (Fault SyntaxError)} {t : Token} {ts us rest : List Token} {src : Source}

-- One part after the other

theorem run_bind (hw : w d = some (a, d₁)) : (w >>= f) d = f a d₁ := by
  simp [Bind.bind, StateT.bind, hw]

theorem Ends.behind (h : (f a).Ends d₁ b gs rest) (hw : w d = some (a, d₁)) (hl : d.Leads d₁ fs) :
    Ends (w >>= f) d b (fs ++ gs) rest := by
  have ⟨d₂, hf, hl', hr⟩ := h
  exact ⟨d₂, (run_bind hw).trans hf, hl.trans hl', hr⟩

theorem Ends.bind (h : w.Ends d a fs us)
    (hf : ∀ d₁, d.Leads d₁ fs → d₁.ahead = us → (f a).Ends d₁ b gs rest) :
    Ends (w >>= f) d b (fs ++ gs) rest := by
  have ⟨d₁, hw, hl, hu⟩ := h
  exact (hf d₁ hl hu).behind hw hl

-- What follows meets no faults.
theorem Ends.bind_nil (h : w.Ends d a fs us)
    (hf : ∀ d₁, d.Leads d₁ fs → d₁.ahead = us → (f a).Ends d₁ b [] rest) :
    Ends (w >>= f) d b fs rest := by
  simpa using h.bind hf

theorem ends_pure (h : d.ahead = rest) : Ends (pure a) d a [] rest :=
  ⟨d, rfl, .refl d, h⟩

theorem ends_here {f : Mark → Walk β} :
    Ends (here >>= f) d b fs rest ↔ (f d.mark).Ends d b fs rest :=
  .rfl

theorem ends_next? {f : Option Token → Walk β} :
    Ends (next? >>= f) d b fs rest ↔ (f d.ahead.head?).Ends d b fs rest :=
  .rfl

theorem ends_place {f : Span → Walk β} :
    Ends (place src >>= f) d b fs rest ↔
    (f (Token.spanAhead src.finish d.ahead)).Ends d b fs rest :=
  .rfl

theorem ends_note {e : Event} (he : e.Sound) : (note e).Ends d () [] d.ahead :=
  ⟨d.note e, rfl, .note he, rfl⟩

theorem ends_skipping {n : Int} (h : 0 ≤ n) : (note (.skipping n)).Ends d () [] d.ahead :=
  ends_note h

theorem ends_blame (f : Fault SyntaxError) : (blame f).Ends d () [f] d.ahead :=
  ⟨d.blame f, rfl, .blame d f, rfl⟩

theorem ends_again {loop : Loop} (h : d₁.ahead.length < d.ahead.length) :
    (again loop d.mark).Ends d₁ () [] d₁.ahead :=
  ends_note (.inl h)

theorem ends_leave {loop : Loop} (h : d₁.ahead.length < d.ahead.length) :
    (leave loop d.mark).Ends d₁ () [] d₁.ahead :=
  ends_note (.inl h)

theorem ends_leave_of_looks {loop : Loop} (hl : loop.looks = true) (h : d₁.ahead = d.ahead) :
    (leave loop d.mark).Ends d₁ () [] d₁.ahead :=
  ends_note (.inr ⟨rfl, hl, congrArg List.length h⟩)

-- Taking tokens

theorem ends_advance? (h : d.ahead = t :: ts) : advance?.Ends d (some t) [] ts := by
  rw [advance?, ends_next?, h]
  exact ⟨d.pass, rfl, .pass d, by simp [Descent.pass, h]⟩

theorem ends_advance?_of_nil (h : d.ahead = []) : advance?.Ends d none [] [] := by
  rw [advance?, ends_next?, h]
  exact ends_pure h

variable {k : Token.Kind}

theorem ends_consume? (h : d.ahead = t :: ts) (hk : t.kind = k) :
    (consume? k).Ends d (some t) [] ts := by
  rw [consume?, ends_next?, h]
  simpa [hk] using ends_advance? h

theorem ends_consume?_of_ne (h : d.ahead = ts) (hk : ∀ t ∈ ts.head?, t.kind ≠ k) :
    (consume? k).Ends d none [] ts := by
  rw [consume?, ends_next?, h]
  cases ts
  case nil       => exact ends_pure h
  case cons t ts => simpa [hk t (by simp)] using ends_pure h

-- A part of a descent ends with what a reader returned, and leaves the same tokens. Behind a fault
-- it is still in front of the next bracket.
def Finds {α : Type} (w : Walk (Except (Fault SyntaxError) α)) (d : Descent)
    (found : Except (Fault SyntaxError) (α × List Token)) : Prop :=
  ∃ rest, w.Ends d (found.map (·.1)) [] rest ∧ Token.Clear d.ahead rest ∧
    ∀ a us, found = .ok (a, us) → us = rest

theorem Finds.bind {f : α → Walk (Except (Fault SyntaxError) β)}
    {found : Except (Fault SyntaxError) (β × List Token)} (h : w.Ends d a [] us)
    (hc : Token.Clear d.ahead us)
    (hf : ∀ d₁, d.Leads d₁ [] → d₁.ahead = us → (f a).Finds d₁ found) :
    Finds (w >>= f) d found := by
  have ⟨d₁, hw, hl, hu⟩ := h
  have ⟨rest, hr, hc', he⟩ := hf d₁ hl hu
  exact ⟨rest, hr.behind hw hl, hc.trans (hu ▸ hc'), he⟩

theorem finds_here {f : Mark → Walk (Except (Fault SyntaxError) α)}
    {found : Except (Fault SyntaxError) (α × List Token)} :
    Finds (here >>= f) d found ↔ (f d.mark).Finds d found :=
  .rfl

theorem finds_ok {a : α} (h : d.ahead = rest) : Finds (pure (.ok a)) d (.ok (a, rest)) :=
  ⟨rest, ends_pure h, h ▸ .refl .., by simp⟩

theorem finds_error {f : Fault SyntaxError} : Finds (α := α) (pure (.error f)) d (.error f) :=
  ⟨_, ends_pure rfl, .refl .., by simp⟩

theorem clear_ahead (h : d.ahead = t :: ts) (hb : ¬t.IsBracket) : Token.Clear d.ahead ts :=
  h ▸ (Token.UpTo.refl _ ts).cons hb

end Walk

namespace Walker

open Walk
open Descent (Loop)

variable {d : Descent} {t : Token} {ts us : List Token} {src : Source}

theorem ends_runFrom (src : Source) (loop : Loop) (hl : loop.looks = true)
    (takes : Token.Kind → Bool) (chars : Token → List Char) (cs : List Char) (span? : Option Span)
    (h : d.ahead = ts) :
    (runFrom src loop takes chars cs span?).Ends d
      (cs ++ (ts.takeWhile (takes ·.kind)).flatMap chars,
        Span.hull? (span?.toList ++ (ts.takeWhile (takes ·.kind)).map (·.span)))
      [] (ts.dropWhile (takes ·.kind)) := by
  induction ts generalizing d cs span?
  case nil          =>
    rw [runFrom, ends_here, ends_next?, h]
    simpa using ends_pure h
  case cons t ts ih =>
    rw [runFrom, ends_here, ends_next?, h]
    by_cases ht : takes t.kind = true
    case neg =>
      simp only [List.head?_cons, ht]
      refine (ends_leave_of_looks hl rfl).bind fun d₁ _ h₁ => ?_
      simpa [ht] using ends_pure (h₁.trans h)
    case pos =>
      simp only [List.head?_cons, ht, if_true]
      refine (ends_advance? h).bind fun d₁ _ h₁ => ?_
      refine (ends_again (by simp [h, h₁])).bind fun d₂ _ h₂ => ?_
      have ih := ih (cs ++ chars t) (some (span?.elim t.span (·.through t.span))) (h₂.trans h₁)
      cases span? <;> simpa [ht, Span.hull?_cons_cons] using ih

-- A run that takes the next token.
theorem ends_run (src : Source) (loop : Loop) (hl : loop.looks = true) {takes : Token.Kind → Bool}
    (chars : Token → List Char) (h : d.ahead = t :: ts) (ht : takes t.kind = true) :
    (runFrom src loop takes chars [] none).Ends d
      ((t :: ts.takeWhile (takes ·.kind)).flatMap chars,
        some (Source.hull t (ts.takeWhile (takes ·.kind))))
      [] (ts.dropWhile (takes ·.kind)) := by
  simpa [ht, ← Source.hull?_map_span] using ends_runFrom src loop hl takes chars [] none h

theorem ends_space (src : Source) (h : d.ahead = ts) :
    (space src).Ends d (Span.hull? ((ts.takeWhile (·.kind.isSpace)).map (·.span))).isSome []
      (Token.dropSpace ts) :=
  (ends_runFrom src .space rfl (·.isSpace) (fun _ => []) [] none h).bind fun _ _ => ends_pure

theorem ends_space_of_space (src : Source) (h : d.ahead = t :: ts) (ht : t.kind.isSpace = true) :
    (space src).Ends d true [] (Token.dropSpace ts) := by
  simpa [Token.dropSpace, ht, Span.hull?] using ends_space src h

theorem ends_space_of_not (src : Source) (h : d.ahead = ts)
    (ht : ∀ t ∈ ts.head?, t.kind.isSpace = false) : (space src).Ends d false [] ts := by
  have found := ends_space src h
  cases ts
  case nil       => exact found
  case cons t ts => simpa [Token.dropSpace, ht t rfl, Span.hull?] using found

theorem ends_text (indent : Nat) (h : d.ahead = t :: ts) (ht : t.kind.isProse = true) :
    (text src indent).Ends d (src.prose indent t (ts.takeWhile (·.kind.isProse))) []
      (ts.dropWhile (·.kind.isProse)) := by
  rw [text]
  exact (ends_run src .text rfl (src.proseOf indent) h ht).bind fun _ _ => ends_pure

theorem ends_argument? (h : d.ahead = t :: ts) (ht : t.kind.isArgument = true) :
    (argument? src).Ends d (some (src.argument t (ts.takeWhile (·.kind.isArgument)))) []
      (ts.dropWhile (·.kind.isArgument)) := by
  rw [argument?]
  refine (ends_run src .argument rfl (·.slice src.chars) h ht).bind fun _ _ h₁ => ?_
  simp only [Source.argument]
  split
  case h_1 hx => simpa only [hx] using ends_pure h₁
  case h_2 hx => simpa only [hx] using ends_pure h₁

theorem ends_argument?_of_not (h : d.ahead = ts) (ht : ∀ t ∈ ts.head?, t.kind.isArgument = false) :
    (argument? src).Ends d none [] ts := by
  rw [argument?]
  have run := ends_runFrom src .argument rfl (·.isArgument) (·.slice src.chars) [] none h
  cases ts
  case nil       => exact run.bind fun _ _ => ends_pure
  case cons t ts =>
    simp only [ht t rfl, List.takeWhile_cons, List.dropWhile_cons] at run
    exact run.bind fun _ _ => ends_pure

theorem ends_segment? (h : d.ahead = t :: ts) (ht : t.kind.isSegment = true) :
    (segment? src).Ends d (some (src.segment t)) [] ts := by
  rw [segment?]
  by_cases hn : t.kind = .name
  case pos => exact (ends_consume? h hn).bind fun _ _ => ends_pure
  case neg =>
    have ha : t.kind = .article := by
      cases hk : t.kind <;> simp_all [Token.Kind.isSegment]
    refine (ends_consume?_of_ne h (by simpa)).bind fun _ _ h₁ => ?_
    exact (ends_consume? h₁ ha).bind fun _ _ => ends_pure

theorem ends_segment?_of_not (h : d.ahead = ts) (ht : ∀ t ∈ ts.head?, t.kind.isSegment = false) :
    (segment? src).Ends d none [] ts := by
  have ne {k : Token.Kind} (hk : k.isSegment = true) : ∀ t ∈ ts.head?, t.kind ≠ k := by
    rintro t hm rfl
    simp [ht t hm] at hk
  rw [segment?]
  refine (ends_consume?_of_ne h (ne rfl)).bind fun _ _ h₁ => ?_
  exact (ends_consume?_of_ne h₁ (ne rfl)).bind fun _ _ => ends_pure

theorem finds_segmentsFrom_of_ne_dot (segs : List Node) (h : d.ahead = ts)
    (hd : ∀ t ∈ ts.head?, t.kind ≠ .dot) :
    (segmentsFrom src segs).Finds d (.ok (segs, ts)) := by
  rw [segmentsFrom, finds_here]
  exact .bind (ends_consume?_of_ne h hd) (h ▸ .refl ..) fun _ _ => finds_ok

theorem finds_segmentsFrom_of_not_segment (segs : List Node) (h : d.ahead = t :: ts)
    (hd : t.kind = .dot) (ht : ∀ t ∈ ts.head?, t.kind.isSegment = false) :
    (segmentsFrom src segs).Finds d (.error ⟨t.span, .missingIdentifier⟩) := by
  have hb : ¬t.IsBracket := by simp [Token.IsBracket, hd]
  rw [segmentsFrom, finds_here]
  refine .bind (ends_consume? h hd) (clear_ahead h hb) fun d₁ _ h₁ => ?_
  refine .bind (ends_segment?_of_not h₁ ht) (h₁ ▸ .refl ..) fun d₂ _ h₂ => ?_
  exact .bind (ends_leave (by simp [h, h₂])) (.refl ..) fun _ _ _ => finds_error

theorem finds_segmentsFrom (src : Source) (segs : List Node) (h : d.ahead = ts) :
    (segmentsFrom src segs).Finds d
      ((src.moreSegments ts).map fun (more, rest) => (segs ++ more, rest)) := by
  fun_induction src.moreSegments ts generalizing d segs
  case case1       => simpa [Except.map] using finds_segmentsFrom_of_ne_dot segs h (by simp)
  case case3 hd    => simpa [Except.map] using finds_segmentsFrom_of_ne_dot segs h (by simpa)
  case case6 hd    => simpa [Except.map] using finds_segmentsFrom_of_ne_dot segs h (by simpa)
  case case2 hd    => exact finds_segmentsFrom_of_not_segment segs h hd (by simp)
  case case5 hd ht => exact finds_segmentsFrom_of_not_segment segs h hd (by simpa using ht)
  case case4 dot t ts hd ht ih =>
    have hb : ¬dot.IsBracket := by simp [Token.IsBracket, hd]
    have hb' : ¬t.IsBracket := Token.not_isBracket rfl rfl ht
    rw [segmentsFrom, finds_here]
    refine .bind (ends_consume? h hd) (clear_ahead h hb) fun d₁ _ h₁ => ?_
    refine .bind (ends_segment? h₁ ht) (clear_ahead h₁ hb') fun d₂ _ h₂ => ?_
    refine .bind (ends_again (by simp +arith [h, h₂])) (.refl ..) fun d₃ _ h₃ => ?_
    have ih := ih (segs ++ [src.segment t]) (h₃.trans h₂)
    cases hr : src.moreSegments ts <;> simpa [hr, Except.map] using ih

theorem finds_path_of_not_segment (h : d.ahead = ts)
    (ht : ∀ t ∈ ts.head?, t.kind.isSegment = false) : (path src).Finds d (src.path ts) := by
  rw [path, Source.path, Source.segments_of_not_segment ht]
  refine .bind (ends_segment?_of_not h ht) (h ▸ .refl ..) fun d₁ _ h₁ => ?_
  exact h₁ ▸ finds_error

theorem finds_path_of_segment (h : d.ahead = t :: ts) (ht : t.kind.isSegment = true) :
    (path src).Finds d (src.path (t :: ts)) := by
  have hb : ¬t.IsBracket := Token.not_isBracket rfl rfl ht
  rw [path, Source.path, Source.segments_of_segment ht]
  refine .bind (ends_segment? h ht) (clear_ahead h hb) fun d₁ _ h₁ => ?_
  have found := finds_segmentsFrom src [src.segment t] h₁
  rcases hm : src.moreSegments ts with f | ⟨more, us⟩
  all_goals
    rw [hm] at found
    obtain ⟨rest, hr, hc, he⟩ := found
    refine .bind hr hc fun d₂ _ h₂ => ?_
  case error => exact finds_error
  case ok    =>
    obtain rfl : us = rest := he _ _ rfl
    simp only [Except.map]
    split
    case h_1 => exact .bind (ends_consume?_of_ne h₂ (by simp)) (h₂ ▸ .refl ..) fun _ _ => finds_ok
    case h_2 mark us =>
      split
      case isTrue hq  =>
        have hb : ¬mark.IsBracket := by simp [Token.IsBracket, hq]
        exact .bind (ends_consume? h₂ hq) (clear_ahead h₂ hb) fun _ _ => finds_ok
      case isFalse hq =>
        exact .bind (ends_consume?_of_ne h₂ (by simpa)) (h₂ ▸ .refl ..) fun _ _ => finds_ok

theorem finds_path (src : Source) (h : d.ahead = ts) : (path src).Finds d (src.path ts) := by
  cases ts
  case nil       => exact finds_path_of_not_segment h (by simp)
  case cons t ts =>
    by_cases ht : t.kind.isSegment = true
    case pos => exact finds_path_of_segment h ht
    case neg => exact finds_path_of_not_segment h (by simpa using ht)

theorem ends_argumentsFrom_of_not_argument (args : List Node) (h : d.ahead = t :: ts)
    (ht : t.kind.isSpace = true) (hd : Token.dropSpace ts = us)
    (hu : ∀ t ∈ us.head?, t.kind.isArgument = false) :
    (argumentsFrom src args).Ends d args [] us := by
  have hlt : us.length < (t :: ts).length := Nat.lt_succ_of_le (hd ▸ Token.length_dropSpace_le ts)
  rw [argumentsFrom, ends_here]
  refine (ends_space_of_space src h ht).bind fun d₁ _ h₁ => ?_
  refine (ends_argument?_of_not (h₁.trans hd) hu).bind fun d₂ _ h₂ => ?_
  exact (ends_leave (by rwa [h, h₂])).bind fun d₃ _ h₃ => ends_pure (h₃.trans h₂)

theorem ends_argumentsFrom (src : Source) (args : List Node) (h : d.ahead = ts) :
    (argumentsFrom src args).Ends d (args ++ (src.argumentsFrom ts).1) []
      (src.argumentsFrom ts).2 := by
  fun_induction src.argumentsFrom ts generalizing d args
  case case2 ht hd         => simpa using ends_argumentsFrom_of_not_argument args h ht hd (by simp)
  case case4 ht a as hd ha =>
    simpa using ends_argumentsFrom_of_not_argument args h ht hd (by simpa using ha)
  case case1               =>
    rw [argumentsFrom, ends_here]
    refine (ends_space_of_not src h (by simp)).bind fun _ _ h₁ => ?_
    simpa using ends_pure h₁
  case case5 ht            =>
    rw [argumentsFrom, ends_here]
    refine (ends_space_of_not src h (by simpa using ht)).bind fun _ _ h₁ => ?_
    simpa using ends_pure h₁
  case case3 t ts ht a as hd ha more rest hr ih =>
    have hlt : (Token.dropSpace ts).length < (t :: ts).length :=
      Nat.lt_succ_of_le (Token.length_dropSpace_le ts)
    rw [argumentsFrom, ends_here]
    refine (ends_space_of_space src h ht).bind fun d₁ _ h₁ => ?_
    refine (ends_argument? (h₁.trans hd) ha).bind fun d₂ l₂ h₂ => ?_
    have hle : d₂.ahead.length ≤ (Token.dropSpace ts).length := h₁ ▸ l₂.length_le
    refine (ends_again (h ▸ hle.trans_lt hlt)).bind fun d₃ _ h₃ => ?_
    have more := ih (args ++ [src.argument a (as.takeWhile (·.kind.isArgument))]) (h₃.trans h₂)
    simpa [hr] using more

theorem ends_skipFrom (src : Source) (n : Nat) (h : d.ahead = ts) :
    (skipFrom src n).Ends d () [] (Token.skipBlock n ts) := by
  fun_induction Token.skipBlock n ts generalizing d
  all_goals rw [skipFrom, ends_here]
  case case1                 => exact (ends_advance?_of_nil h).bind fun _ _ => ends_pure
  case case2 n t ts ho ih    =>
    refine (ends_advance? h).bind fun d₁ _ h₁ => ?_
    dsimp only
    rw [if_pos ho]
    refine (ends_skipping (Int.natCast_nonneg (n + 1))).bind fun d₂ _ h₂ => ?_
    refine (ends_again (by simp [h, h₁, h₂])).bind fun d₃ _ h₃ => ?_
    exact ih (h₃.trans <| h₂.trans h₁)
  case case3 t ts ho hc      =>
    refine (ends_advance? h).bind fun d₁ _ h₁ => ?_
    dsimp only
    rw [if_neg ho, if_pos hc, if_pos Int.natCast_zero]
    exact h₁ ▸ ends_leave (by simp [h, h₁])
  case case4 t ts ho hc n ih =>
    have hn : ((n + 1 : Nat) : Int) - 1 = n := Int.add_sub_cancel n 1
    refine (ends_advance? h).bind fun d₁ _ h₁ => ?_
    dsimp only
    rw [if_neg ho, if_pos hc, if_neg (by omega), hn]
    refine (ends_skipping (Int.natCast_nonneg n)).bind fun d₂ _ h₂ => ?_
    refine (ends_again (by simp [h, h₁, h₂])).bind fun d₃ _ h₃ => ?_
    exact ih (h₃.trans <| h₂.trans h₁)
  case case5 n t ts ho hc ih =>
    refine (ends_advance? h).bind fun d₁ _ h₁ => ?_
    dsimp only
    rw [if_neg ho, if_neg hc]
    refine (ends_again (by simp [h, h₁])).bind fun d₂ _ h₂ => ?_
    exact ih (h₂.trans h₁)

end Walker
end Stencil

import Mathlib.Data.List.Forall2
import Stencil.Proofs.Node.Move
import Stencil.Proofs.Template.Reading

namespace Stencil

-- Some tokens of `source` stand in `target` as well: places are moved, and `behind` follows.
structure Transfer where
  move   : Position → Position
  source : Source
  target : Source
  behind : List Token

namespace Transfer

structure Copy (c : Transfer) (t t' : Token) : Prop where
  kind      : t'.kind = t.kind
  span      : t'.span = t.span.move c.move
  slice     : t'.slice c.target.chars = t.slice c.source.chars
  indent    : c.target.indentOf t' = c.source.indentOf t
  misplaced : c.target.misplaced t' = (c.source.misplaced t).move c.move

-- The tokens close `d` more blocks than they open, unless nothing follows them in either source.
inductive Copies (c : Transfer) : Nat → List Token → List Token → Prop
  | done {d} :
    d = 0 ∨ c.behind = [] ∧ c.target.finish = c.source.finish.move c.move → Copies c d [] c.behind
  | opens {d t t' ts ts'} :
    t.kind = .bracketOpen → c.Copy t t' → Copies c (d + 1) ts ts' → Copies c d (t :: ts) (t' :: ts')
  | closes {d t t' ts ts'} :
    t.kind = .bracketClose → c.Copy t t' → Copies c d ts ts' →
    Copies c (d + 1) (t :: ts) (t' :: ts')
  | keeps {d t t' ts ts'} :
    t.kind ≠ .bracketOpen → t.kind ≠ .bracketClose → c.Copy t t' → Copies c d ts ts' →
    Copies c d (t :: ts) (t' :: ts')

variable {c : Transfer} {d : Nat} {t t' : Token} {ts ts' us us' : List Token}

namespace Copy

theorem hull (h : c.Copy t t') (hs : List.Forall₂ c.Copy us us') :
    Source.hull t' us' = (Source.hull t us).move c.move := by
  have last {t t' us us'} (h : c.Copy t t') (hs : List.Forall₂ c.Copy us us') :
      ((t' :: us').getLast (by simp)).span = ((t :: us).getLast (by simp)).span.move c.move := by
    induction hs generalizing t t'
    case nil           => exact h.span
    case cons hu _ ih  => simpa using ih hu
  simp [Source.hull, Span.through, Span.move, h.span, last h hs]

theorem flatMap {α : Type} {g g' : Token → List α} (hg : ∀ t t', c.Copy t t' → g' t' = g t)
    (hs : List.Forall₂ c.Copy us us') : us'.flatMap g' = us.flatMap g := by
  induction hs
  case nil            => rfl
  case cons hu _ ih   => simp [hg _ _ hu, ih]

theorem proseOf (indent : Nat) (h : c.Copy t t') :
    c.target.proseOf indent t' = c.source.proseOf indent t := by
  simp [Source.proseOf, h.kind, h.slice]

theorem prose (indent : Nat) (h : c.Copy t t') (hs : List.Forall₂ c.Copy us us') :
    c.target.prose indent t' us' = (c.source.prose indent t us).move c.move := by
  have := flatMap (fun _ _ => proseOf indent) (hs.cons h)
  simp [Source.prose, Node.move, h.hull hs, this]

theorem argument (h : c.Copy t t') (hs : List.Forall₂ c.Copy us us') :
    c.target.argument t' us' = (c.source.argument t us).move c.move := by
  have := flatMap (fun _ _ h => h.slice) (hs.cons h)
  simp only [Source.argument, this, h.hull hs]
  cases (Binary64.read? ((t :: us).flatMap (·.slice c.source.chars))).filter (·.isFinite) <;> rfl

theorem segment (h : c.Copy t t') :
    c.target.segment t' = (c.source.segment t).move c.move := by
  simp [Source.segment, Token.content, Node.move, h.span, h.slice]

end Copy

namespace Copies

theorem of_nil (h : c.Copies (d + 1) [] ts') :
    ts' = [] ∧ c.target.finish = c.source.finish.move c.move := by
  cases h
  case done h => simpa using h

theorem of_cons (h : c.Copies d (t :: ts) ts') : ∃ t' us', ts' = t' :: us' ∧ c.Copy t t' := by
  cases h <;> exact ⟨_, _, rfl, ‹_›⟩

theorem of_open (h : c.Copies d (t :: ts) ts') (ht : t.kind = .bracketOpen) :
    ∃ t' us', ts' = t' :: us' ∧ c.Copy t t' ∧ c.Copies (d + 1) ts us' := by
  cases h
  case opens h hs  => exact ⟨_, _, rfl, h, hs⟩
  case closes      => simp_all
  case keeps       => contradiction

theorem of_close (h : c.Copies (d + 1) (t :: ts) ts') (ht : t.kind = .bracketClose) :
    ∃ t' us', ts' = t' :: us' ∧ c.Copy t t' ∧ c.Copies d ts us' := by
  cases h
  case closes h hs  => exact ⟨_, _, rfl, h, hs⟩
  case opens        => simp_all
  case keeps        => contradiction

theorem of_keep (h : c.Copies d (t :: ts) ts') (ho : t.kind ≠ .bracketOpen)
    (hc : t.kind ≠ .bracketClose) :
    ∃ t' us', ts' = t' :: us' ∧ c.Copy t t' ∧ c.Copies d ts us' := by
  cases h
  case keeps h hs => exact ⟨_, _, rfl, h, hs⟩
  case opens      => contradiction
  case closes     => contradiction

theorem of_not_open (h : c.Copies d (t :: ts) ts') (ho : t.kind ≠ .bracketOpen) :
    ∃ t' us' e, ts' = t' :: us' ∧ c.Copy t t' ∧ c.Copies e ts us' := by
  cases h
  case opens       => contradiction
  case closes h hs => exact ⟨_, _, _, rfl, h, hs⟩
  case keeps h hs  => exact ⟨_, _, _, rfl, h, hs⟩

-- The kinds in `p` are no brackets.
theorem of_run {p : Token.Kind → Bool} (ho : p .bracketOpen = false) (hc : p .bracketClose = false)
    (hp : p t.kind = true) (h : c.Copies d (t :: ts) ts') :
    ∃ t' us', ts' = t' :: us' ∧ c.Copy t t' ∧ c.Copies d ts us' := by
  refine h.of_keep ?_ ?_
  · intro hk
    simp [hk, ho] at hp
  · intro hk
    simp [hk, hc] at hp

theorem spanAhead (h : c.Copies (d + 1) ts ts') :
    Token.spanAhead c.target.finish ts' =
    (Token.spanAhead c.source.finish ts).move c.move := by
  cases ts
  case nil       => simpa [h.of_nil.1, Token.spanAhead] using h.of_nil.2
  case cons t ts =>
    obtain ⟨t', us', he, ht⟩ := h.of_cons
    simpa [he, Token.spanAhead] using ht.span

-- Such tokens stay inside their block.
theorem run {p : Token.Kind → Bool} (ho : p .bracketOpen = false) (hc : p .bracketClose = false)
    (h : c.Copies (d + 1) ts ts') :
    List.Forall₂ c.Copy (ts.takeWhile (p ·.kind)) (ts'.takeWhile (p ·.kind)) ∧
    c.Copies (d + 1) (ts.dropWhile (p ·.kind)) (ts'.dropWhile (p ·.kind)) := by
  induction ts generalizing ts'
  case nil => simpa [h.of_nil.1] using h
  case cons t ts ih =>
    by_cases hp : p t.kind = true
    case neg =>
      have ⟨t', us', he, ht⟩ := h.of_cons
      subst he
      simpa [hp, ht.kind] using h
    case pos =>
      have ⟨t', us', he, ht, hs⟩ := h.of_run ho hc hp
      have := ih hs
      subst he
      simpa [hp, ht.kind, ht] using this

end Copies

-- Two results of a step that may fail, each with the tokens that it leaves.
inductive Found (c : Transfer) {α : Type} (mv : α → α) (d : Nat) :
    Except (Fault SyntaxError) (α × List Token) → Except (Fault SyntaxError) (α × List Token) → Prop
  | error (e) : Found c mv d (.error e) (.error (e.move c.move))
  | ok {a ts ts'} : c.Copies d ts ts' → Found c mv d (.ok (a, ts)) (.ok (mv a, ts'))

theorem Found.map {α β : Type} {mv : α → α} {mv' : β → β} {g g' : α × List Token → β × List Token}
    {r r' : Except (Fault SyntaxError) (α × List Token)} (h : c.Found mv d r r')
    (hg : ∀ a ts ts', r = .ok (a, ts) → c.Copies d ts ts' →
      (g' (mv a, ts')).1 = mv' (g (a, ts)).1 ∧ c.Copies d (g (a, ts)).2 (g' (mv a, ts')).2) :
    c.Found mv' d (r.map g) (r'.map g') := by
  cases h
  case error e         => exact .error e
  case ok a ts ts' hts =>
    have ⟨hv, hc⟩ := hg a ts ts' rfl hts
    have : c.Found mv' d (.ok (g (a, ts))) (.ok (mv' (g (a, ts)).1, (g' (mv a, ts')).2)) := .ok hc
    rwa [← hv] at this

-- Two results of a reader. What is left may stand in a block that was not closed.
structure Alike (c : Transfer) {α : Type} (mv : α → α) (d : Nat) (r r' : Parsed α) : Prop where
  value  : r'.value = mv r.value
  faults : r'.faults = r.faults.map (Fault.move c.move)
  rest   : ∃ e, d ≤ e ∧ c.Copies e r.rest r'.rest

theorem Alike.mono {α : Type} {mv : α → α} {e : Nat} {r r' : Parsed α} (h : c.Alike mv e r r')
    (hd : d ≤ e) : c.Alike mv d r r' where
  value  := h.value
  faults := h.faults
  rest   := have ⟨i, hi, hr⟩ := h.rest; ⟨i, Nat.le_trans hd hi, hr⟩

end Transfer
end Stencil

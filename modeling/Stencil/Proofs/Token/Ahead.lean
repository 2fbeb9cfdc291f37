import Stencil.Proofs.Token.Place
import Stencil.Template.Source

namespace Stencil

open Lexeme

theorem Source.blanksFrom_append (u r : List Char) :
    blanksFrom (u ++ r).toArray u.length = (r.takeWhile isBlank).length := by
  induction r generalizing u
  case nil => rw [blanksFrom, dif_neg (by simp)]; rfl
  case cons c r ih =>
    have := ih (u ++ [c])
    simp only [List.append_assoc, List.singleton_append, List.length_append,
      List.length_singleton] at this
    rw [blanksFrom, dif_pos (by simp), this]
    by_cases hc : isBlank c = true <;> simp [hc]

def Position.behind (v : List Char) : Position :=
  ⟨v.count '\n', (lastLine v).length⟩

-- The token `t` covers the characters `w` of the text `chars`, behind `before` and before `next`.
-- It is read in the zones `zs`, and leads to the zones `zs'`.
structure Token.Covers (chars : Array Char) (before : List Char) (zs : List Zone) (t : Token)
    (w next : List Char) (zs' : List Zone) : Prop where
  reads  : ∃ b, Reads b next zs t.kind w zs'
  slice  : t.slice chars = w
  start  : t.span.start = .behind before
  stop   : t.span.stop = ⟨t.span.start.line, t.span.start.col + w.length⟩
  indent : ∀ finish, Source.indentOf ⟨chars, finish⟩ t =
    ((lastLine before ++ (w ++ next)).takeWhile isBlank).length

theorem Scanner.Step.covers {s s' : Scanner} {t : Token} {before w : List Char}
    (step : Step s t w s') (h : Behind before s) :
    t.Covers (before ++ s.rest).toArray before s.zones w s'.rest s'.zones where
  reads  := ⟨s.lineStart, step.reads⟩
  slice  := step.slice_eq h
  start  := by
    rw [step.token]
    exact Position.ext h.line h.col
  stop   := by rw [step.token]; rfl
  indent finish := by
    have ⟨above, ha, ho⟩ := h.exists_above
    have ho : t.offset = above.length := by rw [step.token, ho]
    rw [Source.indentOf, ho, ← Source.blanksFrom_append above, ← step.rest, ← List.append_assoc,
      ← ha]

-- In the text `chars`, `next` follows on `before`; scanned in the zones `zs`, it makes the tokens
-- `ts`.
inductive Ahead (chars : Array Char) : List Char → List Char → List Zone → List Token → Prop
  | mk {before : List Char} {s : Scanner} :
    s.Behind before → chars = (before ++ s.rest).toArray →
    Ahead chars before s.rest s.zones s.tokens

namespace Ahead

variable {chars : Array Char} {before next r v w : List Char} {zs : List Zone} {ts : List Token}

theorem start (text : String) :
    Ahead text.toList.toArray [] text.toList [.prose] (Token.scan text) :=
  .mk (Scanner.behind_start text) rfl

-- The first of the tokens, if there are any.
theorem cases (h : Ahead chars before next zs ts) :
    (next = [] ∧ ts = []) ∨
    ∃ t ts' w next' zs', ts = t :: ts' ∧ next = w ++ next' ∧
      t.Covers chars before zs w next' zs' ∧ Ahead chars (before ++ w) next' zs' ts' := by
  rcases h with ⟨h, rfl⟩
  rename_i s
  rcases s.tokens_cases with ⟨hn, hr⟩ | ⟨t, w, s', ht, step⟩
  case inl => exact .inl ⟨hr, hn⟩
  case inr =>
    refine .inr ⟨t, s'.tokens, w, s'.rest, s'.zones, ht, step.rest, step.covers h, ?_⟩
    exact .mk (step.behind h) (by rw [step.rest, List.append_assoc])

theorem of_nil (h : Ahead chars before [] zs ts) : ts = [] := by
  rcases h.cases with ⟨-, rfl⟩ | ⟨t, ts', w, next, zs', -, hn, c, -⟩
  case inl => rfl
  case inr =>
    have ⟨_, r⟩ := c.reads
    simp [r.ne_nil] at hn

theorem of_ne_nil (h : Ahead chars before next zs ts) (hn : next ≠ []) :
    ∃ t ts' w next' zs', ts = t :: ts' ∧ next = w ++ next' ∧
      t.Covers chars before zs w next' zs' ∧ Ahead chars (before ++ w) next' zs' ts' :=
  h.cases.resolve_left fun h => hn h.1

-- What it takes for the tokens of `v` to be just those of the kinds `p` at the front of `v ++ r`:
-- as long as some text of the form `G` is left, its first token is of such a kind.
structure Runs (p : Token.Kind → Bool) (zs : List Zone) (G : List Char → Prop) (r : List Char) :
    Prop where
  more : ∀ {b next k w zs' v}, Reads b next zs k w zs' → w ++ next = v ++ r → G v → v ≠ [] →
    p k = true ∧ zs' = zs ∧ ∃ x, v = w ++ x ∧ G x
  stop : ∀ {b next k w zs'}, Reads b next zs k w zs' → w ++ next = r → p k = false

theorem run {p : Token.Kind → Bool} {G : List Char → Prop} (R : Runs p zs G r)
    (h : Ahead chars before (v ++ r) zs ts) (hv : G v) :
    Ahead chars (before ++ v) r zs (ts.dropWhile (p ·.kind)) ∧
    (ts.takeWhile (p ·.kind)).flatMap (·.slice chars) = v ∧
    ∀ t ∈ ts.takeWhile (p ·.kind), ∃ b next, Reads b next zs t.kind (t.slice chars) zs := by
  -- by induction on the tokens: the first one covers a part of `v`, and `G` holds of what is left
  induction ts generalizing before v
  case nil =>
    rcases h.cases with ⟨hn, -⟩ | ⟨t, ts', w, next, zs', ht, -⟩
    case inr => simp at ht
    case inl =>
      obtain ⟨rfl, rfl⟩ := List.append_eq_nil_iff.mp hn
      exact ⟨by simpa using h, rfl, nofun⟩
  case cons t ts ih =>
    rcases h.cases with ⟨-, hn⟩ | ⟨t', ts', w, next, zs', ht, hw, c, h'⟩
    case inl => simp at hn
    case inr =>
      obtain ⟨rfl, rfl⟩ := List.cons.inj ht
      have ⟨b, reads⟩ := c.reads
      by_cases hn : v = []
      case pos =>
        subst hn
        have hk := R.stop reads hw.symm
        exact ⟨by simpa [hk] using h, by simp [hk], by simp [hk]⟩
      case neg =>
        obtain ⟨hk, rfl, x, rfl, hx⟩ := R.more reads hw.symm hv hn
        have hnext : next = x ++ r := by simpa using hw.symm
        have ⟨hd, hs, ht⟩ := ih (hnext ▸ h') hx
        refine ⟨by simpa [hk] using hd, by simpa [hk, c.slice] using hs, ?_⟩
        simp only [hk, List.takeWhile_cons_of_pos, List.mem_cons, forall_eq_or_imp]
        exact ⟨⟨b, next, c.slice ▸ reads⟩, ht⟩

end Ahead
end Stencil

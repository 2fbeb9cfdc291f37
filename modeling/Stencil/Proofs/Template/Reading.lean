import Stencil.Template.Basic

namespace Stencil

theorem exists_of_map_eq_ok {ε α β : Type} {f : α → β} {x : Except ε α} {b : β}
    (h : x.map f = .ok b) : ∃ a, x = .ok a ∧ f a = b := by
  cases x <;> simp [Except.map] at h
  case ok a => exact ⟨a, rfl, h⟩

namespace Source

variable {src : Source} {t a : Token} {ts as : List Token}

theorem hull?_map_span (t : Token) (ts : List Token) :
    Span.hull? ((t :: ts).map (·.span)) = some (hull t ts) := by
  rw [List.map_cons, Span.hull?]
  simp only [← List.map_cons, List.getLast_map, hull]

-- Paths

theorem moreSegments_of_ne_dot (h : t.kind ≠ .dot) :
    src.moreSegments (t :: ts) = .ok ([], t :: ts) := by
  cases ts <;> simp [moreSegments, h]

theorem moreSegments_of_segment (h : t.kind = .dot) (ha : a.kind.isSegment = true) :
    src.moreSegments (t :: a :: as) =
    (src.moreSegments as).map fun (segs, rest) => (src.segment a :: segs, rest) := by
  simp [moreSegments, h, ha]

theorem moreSegments_of_not_segment (h : t.kind = .dot)
    (ha : ∀ a ∈ ts.head?, a.kind.isSegment = false) :
    src.moreSegments (t :: ts) = .error ⟨t.span, .missingIdentifier⟩ := by
  cases ts <;> simp_all [moreSegments]

theorem segments_of_segment (h : t.kind.isSegment = true) :
    src.segments (t :: ts) =
    (src.moreSegments ts).map fun (segs, rest) => (src.segment t :: segs, rest) := by
  rw [segments, if_pos h]

theorem segments_of_not_segment (h : ∀ t ∈ ts.head?, t.kind.isSegment = false) :
    src.segments ts = .error ⟨Token.spanAhead src.finish ts, .missingIdentifier⟩ := by
  cases ts
  case nil       => rfl
  case cons t ts => simp [segments, Token.spanAhead, h t rfl]

theorem segments_ne_nil {segs : List Node} {rest : List Token}
    (h : src.segments ts = .ok (segs, rest)) : segs ≠ [] := by
  unfold segments at h
  split at h
  case h_1 => cases h
  case h_2 t ts =>
    split at h
    case isFalse => cases h
    case isTrue  =>
      obtain ⟨_, _, he⟩ := exists_of_map_eq_ok h
      cases he
      exact List.cons_ne_nil _ _

-- Arguments

theorem argumentsFrom_nil : src.argumentsFrom [] = ([], []) := by
  rw [argumentsFrom]

theorem argumentsFrom_of_not_space (h : t.kind.isSpace = false) :
    src.argumentsFrom (t :: ts) = ([], t :: ts) := by
  rw [argumentsFrom, if_neg (by simp [h])]

theorem argumentsFrom_of_argument (h : t.kind.isSpace = true) (hd : Token.dropSpace ts = a :: as)
    (ha : a.kind.isArgument = true) :
    src.argumentsFrom (t :: ts) =
    ((src.argument a (as.takeWhile (·.kind.isArgument)) ::
      (src.argumentsFrom (as.dropWhile (·.kind.isArgument))).1),
      (src.argumentsFrom (as.dropWhile (·.kind.isArgument))).2) := by
  rw [argumentsFrom, if_pos h]
  split
  case h_1 hn      => simp [hd] at hn
  case h_2 b bs hb =>
    obtain ⟨rfl, rfl⟩ := List.cons.inj (hd.symm.trans hb)
    rw [if_pos ha]

theorem argumentsFrom_of_not_argument (h : t.kind.isSpace = true)
    (ha : ∀ a ∈ (Token.dropSpace ts).head?, a.kind.isArgument = false) :
    src.argumentsFrom (t :: ts) = ([], Token.dropSpace ts) := by
  rw [argumentsFrom, if_pos h]
  split
  case h_1 hn      => rw [hn]
  case h_2 b bs hb => rw [hb, if_neg (by simp [ha b (by simp [hb])])]

-- Prose and blocks

variable {blocks : BlockReader} {indent : Option Nat}

theorem pieces_nil : src.pieces blocks indent [] = ⟨[], [], []⟩ := by
  rw [pieces]

theorem pieces_of_open (h : t.kind = .bracketOpen) :
    src.pieces blocks indent (t :: ts) =
    let block := blocks.read t ts
    let more := src.pieces blocks indent block.rest
    ⟨block.value.toList ++ more.value, block.faults ++ more.faults, more.rest⟩ := by
  rw [pieces, if_pos h]

theorem pieces_of_prose (h : t.kind.isProse = true) :
    src.pieces blocks indent (t :: ts) =
    let more := src.pieces blocks indent (ts.dropWhile (·.kind.isProse))
    ⟨src.prose (indent.getD 0) t (ts.takeWhile (·.kind.isProse)) :: more.value, more.faults,
      more.rest⟩ := by
  have ho : t.kind ≠ .bracketOpen := by rintro ho; simp [ho, Token.Kind.isProse] at h
  rw [pieces, if_neg ho, if_pos h]

theorem pieces_of_end (h : t.kind = .pipe ∨ t.kind = .bracketClose) (hi : indent.isSome = true) :
    src.pieces blocks indent (t :: ts) = ⟨[], [], t :: ts⟩ := by
  rw [pieces]
  rcases h with h | h <;> simp [h, hi, Token.Kind.isProse]

theorem pieces_of_misplaced (ho : t.kind ≠ .bracketOpen) (hp : t.kind.isProse = false)
    (he : indent.isSome = true → t.kind ≠ .pipe ∧ t.kind ≠ .bracketClose) :
    src.pieces blocks indent (t :: ts) =
    let more := src.pieces blocks indent ts
    ⟨more.value, src.misplaced t :: more.faults, more.rest⟩ := by
  rw [pieces, if_neg ho, if_neg (by simp [hp]), if_neg]
  simp only [Bool.and_eq_true, Bool.or_eq_true, decide_eq_true_eq, not_and, not_or]
  exact he

theorem rest_pieces_none : (src.pieces blocks none ts).rest = [] := by
  fun_induction src.pieces blocks none ts
  case case4 => contradiction
  all_goals first | rfl | assumption

theorem alternatives_nil : src.alternatives blocks [] = ⟨[], [], []⟩ := by
  rw [alternatives]

theorem alternatives_of_pipe (h : t.kind = .pipe) :
    src.alternatives blocks (t :: ts) =
    let first := src.concat blocks (some (src.indentOf t)) ts
    let more := src.alternatives blocks first.rest
    ⟨first.value :: more.value, first.faults ++ more.faults, more.rest⟩ := by
  rw [alternatives, if_pos h]

theorem alternatives_of_ne_pipe (h : t.kind ≠ .pipe) :
    src.alternatives blocks (t :: ts) = ⟨[], [], t :: ts⟩ := by
  rw [alternatives, if_neg h]

-- An alternative ends at a pipe or a closing bracket.
theorem rest_head_pieces {i : Nat} :
    ∀ c ∈ (src.pieces blocks (some i) ts).rest.head?, c.kind = .pipe ∨ c.kind = .bracketClose := by
  fun_induction src.pieces blocks (some i) ts
  case case1     => simp
  case case4 h   => simpa using h
  all_goals assumption

-- The alternatives of a block end at a closing bracket, or else there are none.
theorem alternatives_of_rest_head {c : Token}
    (h : c ∈ (src.alternatives blocks ts).rest.head?) (hc : c.kind ≠ .bracketClose) :
    src.alternatives blocks ts = ⟨[], [], ts⟩ := by
  fun_induction src.alternatives blocks ts
  case case1 | case3      => rfl
  case case2 t ts _ first more ih =>
    have hm : more = ⟨[], [], first.rest⟩ := ih h
    have hr : c ∈ first.rest.head? := by simpa [hm] using h
    obtain ⟨us, hus⟩ : ∃ us, first.rest = c :: us := List.head?_eq_some_iff.mp hr
    have hp : c.kind = .pipe := (rest_head_pieces c hr).resolve_right hc
    simp [more, hus, alternatives_of_pipe hp] at hm

theorem readBlock_of_close {inner : BlockReader} {p : Node} {rest : List Token}
    (hp : src.path (Token.dropSpace ts) = .ok (p, rest))
    (hc : (src.alternatives inner (src.argumentsFrom rest).2).rest = a :: as)
    (ha : a.kind = .bracketClose) :
    src.readBlock inner t ts =
    let args := src.argumentsFrom rest
    let alts := src.alternatives inner args.2
    ⟨some (assemble p args.1 alts.value), alts.faults, as⟩ := by
  simp [readBlock, hp, close, hc, ha]

end Source
end Stencil

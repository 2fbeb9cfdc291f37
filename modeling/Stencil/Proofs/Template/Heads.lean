import Stencil.Proofs.Template.Fronts
import Stencil.Proofs.Template.Piece
import Stencil.Proofs.Template.Reading
import Stencil.Proofs.Token.Ahead

namespace Stencil

open Grammar Lexeme Zone

namespace Ahead

variable {chars : Array Char} {before r v w g : List Char} {zs zs' outer : List Zone}
  {ts : List Token} {c : Char}

-- The token at the front is this one character, in all ways to read it.
theorem take {k : Token.Kind} {Z : List Zone → Prop} (h : Ahead chars before (c :: r) zs ts)
    (H : ∀ {b next k' w zs'}, Reads b next zs k' w zs' → w ++ next = c :: r →
      k' = k ∧ w = [c] ∧ Z zs') :
    ∃ t ts' zs', ts = t :: ts' ∧ t.kind = k ∧ Z zs' ∧ t.Covers chars before zs [c] r zs' ∧
      Ahead chars (before ++ [c]) r zs' ts' := by
  have ⟨t, ts', w, next, zs', ht, hw, cov, h'⟩ := h.of_ne_nil (by simp)
  have ⟨b, reads⟩ := cov.reads
  obtain ⟨hk, rfl, hz⟩ := H reads hw.symm
  obtain rfl : r = next := by simpa using hw
  exact ⟨t, ts', zs', ht, hk, hz, cov, h'⟩

theorem begins {t : Token} (h : Ahead chars before r zs (t :: ts)) :
    ∃ c r', r = c :: r' ∧ Begins (current zs) c t.kind := by
  rcases h.cases with ⟨-, hn⟩ | ⟨t', ts', w, next, zs', ht, hw, cov, -⟩
  case inl => simp at hn
  case inr =>
    obtain ⟨rfl, rfl⟩ := List.cons.inj ht
    have ⟨b, reads⟩ := cov.reads
    exact reads.exists_begins hw.symm

-- Space

theorem runs_space (hr : ∀ c ∈ r.head?, isSpace c = false)
    (hz : current zs = .opening ∨ current zs = .arguments) :
    Runs Token.Kind.isSpace zs Spaces r where
  more {b next k w zs' v} reads h hv hn := by
    obtain ⟨c, v', hc, hb⟩ := reads.exists_begins_append h hn
    have hk := (hb.isSpace_iff (hz.imp_right .inr)).mpr (hv c (by simp [hc]))
    obtain ⟨hw, hzs⟩ := reads.space_kept hz hk
    obtain ⟨x, hx, _⟩ := append_prefix hw (fun c hc => by simp [hr c hc]) h
    exact ⟨hk, hzs, x, hx, fun c hc => hv c (by simp [hx, hc])⟩
  stop {b next k w zs'} reads h := by
    obtain ⟨c, r', rfl, hb⟩ := reads.exists_begins h
    simpa [hr c rfl] using hb.isSpace_iff (hz.imp_right .inr)

theorem dropSpace (h : Ahead chars before (g ++ r) zs ts) (hg : Spaces g)
    (hr : ∀ c ∈ r.head?, isSpace c = false)
    (hz : current zs = .opening ∨ current zs = .arguments) :
    Ahead chars (before ++ g) r zs (Token.dropSpace ts) :=
  (h.run (runs_space hr hz) hg).1

-- Behind a path, the first space opens the zone of the arguments.
theorem space (h : Ahead chars before (g ++ r) zs ts) (hz : InHead outer zs) (hn : g ≠ [])
    (hg : Spaces g) (hr : ∀ c ∈ r.head?, isSpace c = false) :
    ∃ t ts', ts = t :: ts' ∧ t.kind.isSpace = true ∧
      Ahead chars (before ++ g) r (.arguments :: .path :: .opening :: outer)
        (Token.dropSpace ts') := by
  obtain ⟨t, ts', w, next, zs', ht, hw, cov, h'⟩ := h.of_ne_nil (by simp [hn])
  obtain ⟨b, reads⟩ := cov.reads
  obtain ⟨c, g', hc, hb⟩ := reads.exists_begins_append hw.symm hn
  have hk : t.kind.isSpace = true :=
    (hb.isSpace_iff (by cases hz <;> simp [current])).mpr (hg c (by simp [hc]))
  obtain ⟨hws, rfl⟩ := reads.space_head hz hk
  obtain ⟨x, rfl, rfl⟩ := append_prefix hws (fun c hc => by simp [hr c hc]) hw.symm
  refine ⟨t, ts', ht, hk, ?_⟩
  have hx : Spaces x := fun c hc => hg c (by simp [hc])
  rw [← List.append_assoc]
  exact h'.dropSpace hx hr (.inr rfl)

-- Paths

theorem segment (h : Ahead chars before (w ++ r) zs ts) (hw : Segment w)
    (hr : ∀ c ∈ r.head?, c ∈ segmentStops) (hz : current zs = .opening ∨ current zs = .path) :
    ∃ t ts' zs', ts = t :: ts' ∧ t.kind.isSegment = true ∧ t.slice chars = w ∧ InPath zs zs' ∧
      Ahead chars (before ++ w) r zs' ts' := by
  obtain ⟨t, ts', v, next, zs', ht, hv, cov, h'⟩ := h.of_ne_nil (by simp [hw.ne_nil])
  obtain ⟨b, reads⟩ := cov.reads
  have hk : t.kind.isSegment = true := by
    obtain ⟨c, w', hc, hb⟩ := reads.exists_begins_append hv.symm hw.ne_nil
    exact hb.isSegment hz (hw.not_stop c (by simp [hc])) fun h => hw.head (by simp [hc, h])
  obtain ⟨hi, hv'⟩ := reads.segment hk
  obtain ⟨rfl, rfl⟩ := append_unique hv'.not_stop
    (fun c hc => not_not_intro (reads.segment_ends hk c hc)) hw.not_stop
    (fun c hc => not_not_intro (hr c hc)) hv.symm
  exact ⟨t, ts', zs', ht, hk, cov.slice, hi, h'⟩

variable {src : Source} {ws : List (List Char)}

theorem erase_segment {t : Token} (h : t.slice src.chars = w) :
    (src.segment t).erase = .name .origin (String.ofList w) := by
  rw [← h]
  rfl

-- What may stand behind a segment.
theorem spelled_behind_segment (ws : List (List Char)) (hr : ∀ c ∈ r.head?, c ∈ segmentStops) :
    ∀ c ∈ (ws.flatMap ('.' :: ·) ++ r).head?, c ∈ segmentStops := by
  cases ws
  case nil  => exact hr
  case cons => simp [segmentStops]

theorem moreSegments (h : Ahead src.chars before (ws.flatMap ('.' :: ·) ++ r) (.path :: zs) ts)
    (hw : ∀ w ∈ ws, Segment w) (hr : ∀ c ∈ r.head?, c ∈ segmentStops ∧ c ≠ '.') :
    ∃ segs rest, src.moreSegments ts = .ok (segs, rest) ∧
      segs.map Node.erase = ws.map (fun w => .name .origin (String.ofList w)) ∧
      Ahead src.chars (before ++ ws.flatMap ('.' :: ·)) r (.path :: zs) rest := by
  induction ws generalizing before ts
  case nil =>
    refine ⟨[], ts, ?_, rfl, by simpa using h⟩
    cases ts
    case nil  => rfl
    case cons =>
      obtain ⟨c, r', rfl, hb⟩ := h.begins
      exact Source.moreSegments_of_ne_dot fun hd => (hr c rfl).2 (hd ▸ hb).1
  case cons w ws ih =>
    rw [List.flatMap_cons, List.append_assoc, List.cons_append] at h
    obtain ⟨t, ts', zs', rfl, hk, rfl, -, h⟩ := h.take Reads.of_dot
    have hn := spelled_behind_segment ws fun c hc => (hr c hc).1
    obtain ⟨t', ts', zs', rfl, hk', hs, hi, h⟩ := h.segment (hw w (by simp)) hn (.inr rfl)
    obtain rfl := hi.of_path
    obtain ⟨segs, rest, hm, he, h⟩ := ih h fun w hw' => hw w (by simp [hw'])
    refine ⟨src.segment t' :: segs, rest, ?_, ?_, ?_⟩
    · rw [Source.moreSegments_of_segment hk hk', hm]
      rfl
    · simp [he, erase_segment hs]
    · simpa using h

theorem intercalate_cons (w : List Char) (ws : List (List Char)) :
    ['.'].intercalate (w :: ws) = w ++ ws.flatMap ('.' :: ·) := by
  induction ws generalizing w
  case nil          => simp
  case cons v ws ih => rw [List.intercalate_cons_cons, ih]; simp

theorem segments (h : Ahead src.chars before (['.'].intercalate ws ++ r) (.opening :: zs) ts)
    (hn : ws ≠ []) (hw : ∀ w ∈ ws, Segment w) (hr : ∀ c ∈ r.head?, c ∈ segmentStops ∧ c ≠ '.') :
    ∃ segs rest, src.segments ts = .ok (segs, rest) ∧
      segs.map Node.erase = ws.map (fun w => .name .origin (String.ofList w)) ∧
      Ahead src.chars (before ++ ['.'].intercalate ws) r (.path :: .opening :: zs) rest := by
  obtain ⟨w, ws, hws⟩ := List.exists_cons_of_ne_nil hn
  subst hws
  rw [intercalate_cons, List.append_assoc] at h
  have hn := spelled_behind_segment ws fun c hc => (hr c hc).1
  obtain ⟨t, ts', zs', rfl, hk, hs, hi, h⟩ := h.segment (hw w (by simp)) hn (.inl rfl)
  obtain rfl := hi.of_opening
  obtain ⟨segs, rest, hm, he, h⟩ := h.moreSegments (fun w hw' => hw w (by simp [hw'])) hr
  refine ⟨src.segment t :: segs, rest, ?_, ?_, ?_⟩
  · rw [Source.segments, if_pos hk, hm]
    rfl
  · simp [he, erase_segment hs]
  · rw [intercalate_cons]
    simpa using h

theorem path {hd : Head} (hf : hd.Fits)
    (h : Ahead src.chars before
      (['.'].intercalate hd.path ++ ((if hd.asks then ['?'] else []) ++ r)) (.opening :: zs) ts)
    (hr : ∀ c ∈ r.head?, c ∈ segmentStops ∧ c ≠ '.' ∧ c ≠ '?') :
    ∃ p rest, src.path ts = .ok (p, rest) ∧ p.erase = hd.pathTree ∧
      Ahead src.chars (before ++ (['.'].intercalate hd.path ++ if hd.asks then ['?'] else [])) r
        (.path :: .opening :: zs) rest := by
  have hn : ∀ c ∈ ((if hd.asks then ['?'] else []) ++ r).head?, c ∈ segmentStops ∧ c ≠ '.' := by
    split
    case isTrue  => simp [segmentStops]
    case isFalse => exact fun c hc => ⟨(hr c hc).1, (hr c hc).2.1⟩
  obtain ⟨segs, rest, hs, he, h⟩ := h.segments hf.path_ne_nil hf.path hn
  by_cases ha : hd.asks = true
  case pos =>
    simp only [ha, if_true, List.cons_append, List.nil_append] at h ⊢
    obtain ⟨t, ts', zs', rfl, hk, rfl, -, h⟩ := h.take Reads.of_question
    refine ⟨_, ts', by rw [Source.path, hs]; simp [Except.map, hk]; rfl, ?_, by simpa using h⟩
    simp [Node.erase, Node.move, Head.pathTree, ha, Head.segments, ← he]
    rfl
  case neg =>
    simp only [ha] at h ⊢
    refine ⟨.path segs, rest, ?_, ?_, by simpa using h⟩
    · rw [Source.path, hs]
      cases rest
      case nil       => rfl
      case cons t ts =>
        obtain ⟨c, r', rfl, hb⟩ := h.begins
        have hq : t.kind ≠ .question := fun hq => (hr c rfl).2.2 (hq ▸ hb).1
        simp [Except.map, hq]
    · simp [Node.path, Node.erase, Node.move, Head.pathTree, ha, Head.segments, ← he]
      rfl

-- Arguments

theorem runs_operand (hr : ∀ c ∈ r.head?, isSpace c = true ∨ c ∈ ['|', ']']) :
    Runs Token.Kind.isArgument (.arguments :: zs) (fun v => v = [] ∨ Operand v) r where
  more {b next k w zs' v} reads h hv hn := by
    have hv := hv.resolve_left hn
    have ⟨c, v', hc, hb⟩ := reads.exists_begins_append h hn
    have hk := hb.isArgument_of_operand (hc ▸ hv)
    have ⟨hw, hzs⟩ := reads.argument hk
    have hstop (c) (hc : c ∈ r.head?) : ¬(isSpace c = false ∧ c ∉ ['|', ']']) := by
      rintro ⟨hs, hp⟩
      rcases hr c hc with h | h
      case inl => simp [hs] at h
      case inr => exact hp h
    have ⟨x, hx, hnext⟩ := append_prefix hw.plain hstop h
    refine ⟨hk, hzs, x, hx, ?_⟩
    by_cases hxn : x = []
    case pos => exact .inl hxn
    case neg =>
      refine .inr ⟨hxn, fun c hc => hv.plain c (by simp [hx, hc]), ?_, fun u y hu => ?_⟩
      · -- a backslash at the front of `x` would follow on a point
        intro hb
        have ⟨y, hy⟩ := List.head?_eq_some_iff.mp hb
        rcases reads.argument_ends hk with hw | hw
        case inl => exact hv.point [] y (by simp [hx, hw, hy])
        case inr => simpa [argumentStops] using hw '\\' (by simp [hnext, hy])
      · exact hv.point (w ++ u) y (by simp [hx, hu])
  stop {b next k w zs'} reads h := by
    obtain ⟨c, r', rfl, hb⟩ := reads.exists_begins h
    exact hb.not_isArgument (hr c rfl)

theorem erase_argument {t : Token} {us : List Token}
    (h : (t :: us).flatMap (·.slice src.chars) = v) :
    (src.argument t us).erase = Head.argument v := by
  simp only [Source.argument, Head.argument, h]
  cases (Binary64.read? v).filter (·.isFinite) <;> rfl

variable {args : List (List Char × List Char)} {trail : List Char}

-- What may stand behind a path or an argument.
theorem spelled_behind (ha : ∀ a ∈ args, a.1 ≠ [] ∧ Spaces a.1 ∧ Operand a.2) (ht : Spaces trail)
    (hr : ∀ c ∈ r.head?, c ∈ ['|', ']']) :
    ∀ c ∈ (args.flatMap (fun a => a.1 ++ a.2) ++ (trail ++ r)).head?,
      isSpace c = true ∨ c ∈ ['|', ']'] := by
  intro c hc
  rcases args with _ | ⟨a, args⟩
  case cons =>
    have ⟨hn, hg, _⟩ := ha a (by simp)
    have ⟨d, g, hd⟩ := List.exists_cons_of_ne_nil hn
    exact .inl (hg c (by simp_all))
  case nil =>
    rcases trail with _ | ⟨d, trail⟩
    case nil  => exact .inr (hr c (by simpa using hc))
    case cons => exact .inl (ht c (by simp_all))

theorem argumentsFrom
    (h : Ahead src.chars before (args.flatMap (fun a => a.1 ++ a.2) ++ (trail ++ r)) zs ts)
    (hz : InHead outer zs) (ha : ∀ a ∈ args, a.1 ≠ [] ∧ Spaces a.1 ∧ Operand a.2)
    (ht : Spaces trail) (hr : ∀ c ∈ r.head?, c ∈ ['|', ']']) :
    (src.argumentsFrom ts).1.map Node.erase = args.map (fun a => Head.argument a.2) ∧
    ∃ zs', InHead outer zs' ∧
      Ahead src.chars (before ++ (args.flatMap (fun a => a.1 ++ a.2) ++ trail)) r zs'
        (src.argumentsFrom ts).2 := by
  have hs : ∀ c ∈ r.head?, isSpace c = false := by
    intro c hc
    have := hr c hc
    simp only [List.mem_cons, List.not_mem_nil, or_false] at this
    rcases this with rfl | rfl <;> rfl
  induction args generalizing before zs ts
  case nil =>
    rw [List.flatMap_nil, List.nil_append] at h
    by_cases hn : trail = []
    case pos =>
      subst hn
      have he : src.argumentsFrom ts = ([], ts) := by
        cases ts
        case nil  => exact Source.argumentsFrom_nil
        case cons =>
          obtain ⟨c, r', rfl, hb⟩ := h.begins
          have hi := hb.isSpace_iff (by cases hz <;> simp [current])
          exact Source.argumentsFrom_of_not_space (by simpa [hs c rfl] using hi)
      rw [he]
      exact ⟨rfl, zs, hz, by simpa using h⟩
    case neg =>
      obtain ⟨t, ts', rfl, hk, h⟩ := h.space hz hn ht hs
      have he : src.argumentsFrom (t :: ts') = ([], Token.dropSpace ts') := by
        refine Source.argumentsFrom_of_not_argument hk fun a hd => ?_
        obtain ⟨as, hd⟩ := List.head?_eq_some_iff.mp hd
        rw [hd] at h
        obtain ⟨c, r', rfl, hb⟩ := h.begins
        exact hb.not_isArgument (.inr (hr c rfl))
      rw [he]
      exact ⟨rfl, _, .arguments, by simpa using h⟩
  case cons a args ih =>
    obtain ⟨hn, hg, hv⟩ := ha a (by simp)
    obtain ⟨c, v', hc⟩ := List.exists_cons_of_ne_nil hv.ne_nil
    have hcs := (hv.plain c (by simp [hc])).1
    rw [List.flatMap_cons, List.append_assoc, List.append_assoc] at h
    obtain ⟨t, ts', rfl, hk, h⟩ := h.space hz hn hg (by simp [hc, hcs])
    have hr' := spelled_behind (fun a (ha' : a ∈ args) => ha a (by simp [ha'])) ht hr
    obtain ⟨hd, hsl, _⟩ := h.run (runs_operand hr') (.inr hv)
    rcases hts : Token.dropSpace ts' with _ | ⟨t', ts⟩
    case nil => simp [hts, hc] at hsl
    case cons =>
      rw [hts] at h hd hsl
      obtain ⟨c', r', he, hb⟩ := h.begins
      obtain rfl : c = c' := by simp_all
      have hk' := hb.isArgument_of_operand (hc ▸ hv)
      simp only [hk', List.takeWhile_cons_of_pos, List.dropWhile_cons_of_pos] at hd hsl
      obtain ⟨hm, zs', hz', h⟩ := ih hd .arguments fun a ha' => ha a (by simp [ha'])
      rw [Source.argumentsFrom_of_argument hk hts hk']
      exact ⟨by simp [hm, erase_argument hsl], zs', hz', by simpa using h⟩

theorem head {hd : Head} (hf : hd.Fits)
    (h : Ahead src.chars before (hd.spell ++ r) (.opening :: zs) ts)
    (hr : ∀ c ∈ r.head?, c ∈ ['|', ']']) :
    ∃ p rest, src.path (Token.dropSpace ts) = .ok (p, rest) ∧ p.erase = hd.pathTree ∧
      (src.argumentsFrom rest).1.map Node.erase = hd.arguments.map (fun a => Head.argument a.2) ∧
      ∃ zs', InHead zs zs' ∧
        Ahead src.chars (before ++ hd.spell) r zs' (src.argumentsFrom rest).2 := by
  have hb := spelled_behind hf.arguments hf.trail hr
  simp only [Head.spell, List.append_assoc] at h ⊢
  have hp : ∀ c ∈ (['.'].intercalate hd.path ++ ((if hd.asks then ['?'] else []) ++
      (hd.arguments.flatMap (fun a => a.1 ++ a.2) ++ (hd.trail ++ r)))).head?,
      isSpace c = false := by
    obtain ⟨w, ws, hws⟩ := List.exists_cons_of_ne_nil hf.path_ne_nil
    have hw := hf.path w (by simp [hws])
    obtain ⟨c, w', hc⟩ := List.exists_cons_of_ne_nil hw.ne_nil
    have := hw.plain c (by simp [hc])
    simp_all [intercalate_cons]
  have h := h.dropSpace hf.lead hp (.inl rfl)
  obtain ⟨p, rest, hpath, he, h⟩ := h.path hf <| by
    intro c hc
    rcases hb c hc with hs | hs <;> simp [isSpace] at hs
    case inl => rcases hs with (rfl | rfl) | rfl <;> simp [segmentStops]
    case inr => rcases hs with rfl | rfl <;> simp [segmentStops]
  obtain ⟨hm, zs', hz, h⟩ := h.argumentsFrom .path hf.arguments hf.trail hr
  exact ⟨p, rest, hpath, he, hm, zs', hz, by simpa using h⟩

end Ahead
end Stencil

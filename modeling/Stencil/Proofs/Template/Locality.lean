import Stencil.Proofs.Template.Transfer

namespace Stencil
namespace Transfer

variable {c : Transfer} {d : Nat} {t t' : Token} {ts ts' : List Token}

theorem dropSpace (h : c.Copies (d + 1) ts ts') :
    c.Copies (d + 1) (Token.dropSpace ts) (Token.dropSpace ts') :=
  (h.run (p := Token.Kind.isSpace) rfl rfl).2

-- `depth` blocks were opened since the one that is left out.
theorem skipBlock (depth : Nat) (h : c.Copies (d + depth + 1) ts ts') :
    ∃ e, d ≤ e ∧ c.Copies e (Token.skipBlock depth ts) (Token.skipBlock depth ts') := by
  induction ts generalizing depth ts'
  case nil =>
    have he := h.of_nil.1
    subst he
    exact ⟨d + depth + 1, by omega, h⟩
  case cons t ts ih =>
    by_cases ho : t.kind = .bracketOpen
    case pos =>
      obtain ⟨t', us', he, ht, hs⟩ := h.of_open ho
      subst he
      simpa [Token.skipBlock, ho, ht.kind] using ih (depth + 1) hs
    by_cases hc : t.kind = .bracketClose
    case pos =>
      obtain ⟨t', us', he, ht, hs⟩ := h.of_close hc
      subst he
      cases depth
      case zero       => exact ⟨d, d.le_refl, by simpa [Token.skipBlock, hc, ht.kind] using hs⟩
      case succ depth => simpa [Token.skipBlock, hc, ht.kind] using ih depth hs
    case neg =>
      obtain ⟨t', us', he, ht, hs⟩ := h.of_keep ho hc
      subst he
      simpa [Token.skipBlock, ho, hc, ht.kind] using ih depth hs

theorem moreSegments (h : c.Copies (d + 1) ts ts') :
    c.Found (List.map (Node.move c.move)) (d + 1) (c.source.moreSegments ts)
      (c.target.moreSegments ts') := by
  fun_induction c.source.moreSegments ts generalizing ts'
  case case1 =>
    rw [h.of_nil.1]
    exact .ok (h.of_nil.1 ▸ h)
  case case3 t hd | case6 t _ _ hd =>
    obtain ⟨t', us', he, ht⟩ := h.of_cons
    subst he
    rw [Source.moreSegments_of_ne_dot (by rwa [ht.kind])]
    exact .ok h
  case case2 t hd =>
    obtain ⟨t', us', he, ht, hs⟩ := h.of_keep (by simp [hd]) (by simp [hd])
    subst he
    rw [Source.moreSegments_of_not_segment (by rwa [ht.kind]) (by simp [hs.of_nil.1]), ht.span]
    exact .error _
  case case5 t a ts hd ha =>
    obtain ⟨t', us', he, ht, hs⟩ := h.of_keep (by simp [hd]) (by simp [hd])
    obtain ⟨a', as', he', ha'⟩ := hs.of_cons
    subst he he'
    rw [Source.moreSegments_of_not_segment (by rwa [ht.kind]) (by simpa [ha'.kind] using ha),
      ht.span]
    exact .error _
  case case4 t a ts hd ha ih =>
    obtain ⟨t', us', he, ht, hs⟩ := h.of_keep (by simp [hd]) (by simp [hd])
    obtain ⟨a', as', he', ha', hs'⟩ := hs.of_run (p := Token.Kind.isSegment) rfl rfl ha
    subst he he'
    rw [Source.moreSegments_of_segment (by rwa [ht.kind]) (by rwa [ha'.kind])]
    refine (ih hs').map fun segs rest rest' _ hr => ?_
    exact ⟨by simp [ha'.segment], hr⟩

theorem segments (h : c.Copies (d + 1) ts ts') :
    c.Found (List.map (Node.move c.move)) (d + 1) (c.source.segments ts)
      (c.target.segments ts') := by
  cases ts
  case nil =>
    obtain ⟨he, hf⟩ := h.of_nil
    subst he
    simp only [Source.segments, hf]
    exact .error _
  case cons t ts =>
    by_cases hk : t.kind.isSegment = true
    case neg =>
      obtain ⟨t', us', he, ht⟩ := h.of_cons
      subst he
      simp only [Source.segments, ht.kind, hk, ht.span]
      exact .error _
    case pos =>
      obtain ⟨t', us', he, ht, hs⟩ := h.of_run (p := Token.Kind.isSegment) rfl rfl hk
      subst he
      simp only [Source.segments, ht.kind, hk, if_true]
      refine (moreSegments hs).map fun segs rest rest' _ hr => ?_
      exact ⟨by simp [ht.segment], hr⟩

theorem path (h : c.Copies (d + 1) ts ts') :
    c.Found (Node.move c.move) (d + 1) (c.source.path ts) (c.target.path ts') := by
  refine (segments h).map fun segs rest rest' he hr => ?_
  have hn := c.source.segments_ne_nil he
  cases rest
  case nil =>
    have he := hr.of_nil.1
    subst he
    exact ⟨Node.path_map_move hn, hr⟩
  case cons mark ts =>
    by_cases hm : mark.kind = .question
    case neg =>
      have ⟨mark', ts', he, ht⟩ := hr.of_cons
      subst he
      simpa [ht.kind, hm, Node.path_map_move hn] using hr
    case pos =>
      have ⟨mark', ts', he, ht, hs⟩ := hr.of_keep (by simp [hm]) (by simp [hm])
      subst he
      simp only [ht.kind, hm, if_true]
      refine ⟨?_, hs⟩
      rw [Node.hull_map_move hn, Node.move, Node.moveAll_eq_map, ht.span]
      rfl

theorem argumentsFrom (h : c.Copies (d + 1) ts ts') :
    (c.target.argumentsFrom ts').1 = (c.source.argumentsFrom ts).1.map (Node.move c.move) ∧
    c.Copies (d + 1) (c.source.argumentsFrom ts).2 (c.target.argumentsFrom ts').2 := by
  fun_induction c.source.argumentsFrom ts generalizing ts'
  case case1 =>
    rw [h.of_nil.1, Source.argumentsFrom_nil]
    exact ⟨rfl, h.of_nil.1 ▸ h⟩
  case case5 t ts hs =>
    obtain ⟨t', us', he, ht⟩ := h.of_cons
    subst he
    rw [Source.argumentsFrom_of_not_space (by simpa [ht.kind] using hs)]
    exact ⟨rfl, h⟩
  case case2 t ts hs hd =>
    obtain ⟨t', us', he, ht, hts⟩ := h.of_run (p := Token.Kind.isSpace) rfl rfl hs
    have hr := hd ▸ dropSpace hts
    subst he
    rw [Source.argumentsFrom_of_not_argument (by rwa [ht.kind]) (by simp [hr.of_nil.1])]
    exact ⟨rfl, hr⟩
  case case4 t ts hs a as hd ha =>
    obtain ⟨t', us', he, ht, hts⟩ := h.of_run (p := Token.Kind.isSpace) rfl rfl hs
    have hr := hd ▸ dropSpace hts
    obtain ⟨a', as', he', ha'⟩ := hr.of_cons
    subst he
    rw [Source.argumentsFrom_of_not_argument (by rwa [ht.kind]) (by simpa [he', ha'.kind] using ha)]
    exact ⟨rfl, hr⟩
  case case3 t ts hs a as hd ha args rest hr ih =>
    obtain ⟨t', us', he, ht, hts⟩ := h.of_run (p := Token.Kind.isSpace) rfl rfl hs
    have hr := hd ▸ dropSpace hts
    obtain ⟨a', as', he', ha', has⟩ := hr.of_run (p := Token.Kind.isArgument) rfl rfl ha
    obtain ⟨hu, hw⟩ := has.run (p := Token.Kind.isArgument) rfl rfl
    obtain ⟨hv, hc⟩ := ih hw
    subst he
    rw [Source.argumentsFrom_of_argument (by rwa [ht.kind]) he' (by rwa [ha'.kind])]
    simp_all [ha'.argument hu]

-- Nodes

theorem gather_move {f : Position → Position} (ahead : Span) (ns : List Node) :
    Source.gather (ahead.move f) (ns.map (Node.move f)) = (Source.gather ahead ns).move f := by
  rcases ns with _ | ⟨n, _ | ⟨m, ns⟩⟩
  case nil | cons.nil => rfl
  case cons.cons      =>
    have h := List.getLast_map (f := Node.move f) (l := n :: m :: ns) (by simp)
    simp only [List.map_cons] at h
    simp only [List.map_cons, Source.gather, h, Node.span_move, Node.move, Node.moveAll]
    simp [Span.through, Span.move]

theorem assemble_move {f : Position → Position} (path : Node) (args alts : List Node) :
    Source.assemble (path.move f) (args.map (Node.move f)) (alts.map (Node.move f)) =
    (Source.assemble path args alts).move f := by
  simp only [Source.assemble, Source.listSpan, Node.hull?_map_move, Node.span_move, Node.move,
    Node.moveAll_eq_map]
  cases Node.hull? args <;> cases Node.hull? alts <;> rfl

-- Two readers of blocks.
def ReadAlike (c : Transfer) (blocks blocks' : BlockReader) : Prop :=
  ∀ d t t' ts ts', c.Copy t t' → c.Copies (d + 1) ts ts' →
    c.Alike (Option.map (Node.move c.move)) d (blocks.read t ts) (blocks'.read t' ts')

variable {blocks blocks' : BlockReader}

theorem pieces (H : c.ReadAlike blocks blocks') (indent : Nat) (h : c.Copies (d + 1) ts ts') :
    c.Alike (List.map (Node.move c.move)) (d + 1) (c.source.pieces blocks (some indent) ts)
      (c.target.pieces blocks' (some indent) ts') := by
  fun_induction c.source.pieces blocks (some indent) ts generalizing d ts'
  case case1 =>
    rw [h.of_nil.1, Source.pieces_nil]
    exact ⟨rfl, rfl, d + 1, Nat.le_refl _, h.of_nil.1 ▸ h⟩
  case case2 t ts ho found more ih =>
    obtain ⟨t', us', he, ht, hs⟩ := h.of_open ho
    obtain ⟨hv, hf, e, hd, hr⟩ := H _ _ _ _ _ ht hs
    obtain ⟨e, rfl⟩ := Nat.exists_eq_succ_of_ne_zero (by omega : e ≠ 0)
    obtain ⟨hv', hf', e', hd', hr'⟩ := ih hr
    subst he
    rw [Source.pieces_of_open (by rwa [ht.kind])]
    refine ⟨?_, ?_, e', by omega, hr'⟩
    · cases hb : (blocks.read t ts).value <;> simp [hv, hv', hb, found, more]
    · simp [hf, hf', found, more]
  case case3 t ts _ hp more ih =>
    obtain ⟨t', us', he, ht, hs⟩ := h.of_run (p := Token.Kind.isProse) rfl rfl hp
    obtain ⟨hu, hw⟩ := hs.run (p := Token.Kind.isProse) rfl rfl
    obtain ⟨hv, hf, hr⟩ := ih hw
    subst he
    rw [Source.pieces_of_prose (by rwa [ht.kind])]
    exact ⟨by simp [hv, ht.prose _ hu, more], hf, hr⟩
  case case4 t ts _ hp hi =>
    obtain ⟨t', us', he, ht⟩ := h.of_cons
    subst he
    simp only [Bool.and_eq_true, Bool.or_eq_true, decide_eq_true_eq] at hi
    rw [Source.pieces_of_end (by rw [ht.kind]; exact hi.2) hi.1]
    exact ⟨rfl, rfl, d + 1, Nat.le_refl _, h⟩
  case case5 t ts ho hp hi more ih =>
    simp only [Option.isSome_some, Bool.true_and, Bool.or_eq_true, decide_eq_true_eq, not_or] at hi
    obtain ⟨t', us', he, ht, hs⟩ := h.of_keep ho hi.2
    obtain ⟨hv, hf, hr⟩ := ih hs
    subst he
    rw [Source.pieces_of_misplaced (by rwa [ht.kind]) (by simpa [ht.kind] using hp)
      (by rw [ht.kind]; exact fun _ => hi)]
    exact ⟨hv, by simp [hf, ht.misplaced, more], hr⟩

theorem concat (H : c.ReadAlike blocks blocks') (indent : Nat) (h : c.Copies (d + 1) ts ts') :
    c.Alike (Node.move c.move) (d + 1) (c.source.concat blocks (some indent) ts)
      (c.target.concat blocks' (some indent) ts') := by
  have ⟨hv, hf, e, hd, hr⟩ := pieces H indent h
  refine ⟨?_, hf, e, hd, hr⟩
  obtain ⟨e, rfl⟩ := Nat.exists_eq_succ_of_ne_zero (by omega : e ≠ 0)
  simp only [Source.concat, hv, hr.spanAhead, gather_move]

theorem alternatives (H : c.ReadAlike blocks blocks') (h : c.Copies (d + 1) ts ts') :
    c.Alike (List.map (Node.move c.move)) (d + 1) (c.source.alternatives blocks ts)
      (c.target.alternatives blocks' ts') := by
  fun_induction c.source.alternatives blocks ts generalizing d ts'
  case case1 =>
    rw [h.of_nil.1, Source.alternatives_nil]
    exact ⟨rfl, rfl, d + 1, Nat.le_refl _, h.of_nil.1 ▸ h⟩
  case case2 t ts hp first more ih =>
    obtain ⟨t', us', he, ht, hs⟩ := h.of_keep (by simp [hp]) (by simp [hp])
    obtain ⟨hv, hf, e, hd, hr⟩ := concat H (c.source.indentOf t) hs
    obtain ⟨e, rfl⟩ := Nat.exists_eq_succ_of_ne_zero (by omega : e ≠ 0)
    obtain ⟨hv', hf', e', hd', hr'⟩ := ih hr
    subst he
    rw [Source.alternatives_of_pipe (by rwa [ht.kind]), ht.indent]
    refine ⟨?_, ?_, e', by omega, hr'⟩
    · simp [hv, hv', first, more]
    · simp [hf, hf', first, more]
  case case3 t ts hp =>
    obtain ⟨t', us', he, ht⟩ := h.of_cons
    subst he
    rw [Source.alternatives_of_ne_pipe (by rwa [ht.kind])]
    exact ⟨rfl, rfl, d + 1, Nat.le_refl _, h⟩

theorem close {n : Node} {faults : List (Fault SyntaxError)} (ht : c.Copy t t')
    (h : c.Copies (d + 1) ts ts') :
    c.Alike (Option.map (Node.move c.move)) d (Source.close t n faults ts)
      (Source.close t' (n.move c.move) (faults.map (Fault.move c.move)) ts') := by
  cases ts
  case nil =>
    have he := h.of_nil.1
    subst he
    refine ⟨rfl, ?_, d + 1, by omega, h⟩
    simp [Source.close, ht.span, Fault.move]
  case cons a as =>
    by_cases hc : a.kind = .bracketClose
    case pos =>
      obtain ⟨a', as', he, ha, hs⟩ := h.of_close hc
      subst he
      have hc' := ha.kind.trans hc
      simp only [Source.close, List.head?_cons, Option.map_some, hc, hc', if_true, List.tail_cons]
      exact ⟨rfl, rfl, d, Nat.le_refl d, hs⟩
    case neg =>
      obtain ⟨a', as', he, ha⟩ := h.of_cons
      subst he
      have hc' := ha.kind ▸ hc
      simp only [Source.close, List.head?_cons, Option.map_some, Option.some.injEq, hc, hc',
        if_false]
      exact ⟨rfl, by simp [ht.span, Fault.move], d + 1, by omega, h⟩

theorem readBlock (H : c.ReadAlike blocks blocks') (ht : c.Copy t t')
    (h : c.Copies (d + 1) ts ts') :
    c.Alike (Option.map (Node.move c.move)) d (c.source.readBlock blocks t ts)
      (c.target.readBlock blocks' t' ts') := by
  have hp := path (dropSpace h)
  unfold Source.readBlock
  revert hp
  generalize c.source.path (Token.dropSpace ts) = r, c.target.path (Token.dropSpace ts') = r'
  rintro (e | ⟨hr⟩)
  case error => exact ⟨rfl, rfl, skipBlock 0 h⟩
  case ok p rest rest' =>
    have ⟨ha, hs⟩ := argumentsFrom hr
    have ⟨hv, hf, e, hd, hu⟩ := alternatives H hs
    obtain ⟨e, rfl⟩ := Nat.exists_eq_succ_of_ne_zero (by omega : e ≠ 0)
    simp only [ha, hv, hf, assemble_move]
    exact (close ht hu).mono (by omega)

theorem blocks_alike (c : Transfer) (n : Nat) :
    c.ReadAlike (c.source.blocks n) (c.target.blocks n) := by
  induction n
  case succ n ih => exact fun _ _ _ _ _ ht h => readBlock ih ht h
  case zero      =>
    intro d t t' ts ts' ht h
    exact ⟨rfl, by simp [Source.blocks, ht.span, Fault.move], skipBlock 0 h⟩

end Transfer
end Stencil

import Stencil.Proofs.Template.Origin
import Stencil.Proofs.Token.Brackets

namespace Stencil

-- The number of blocks that are reported to have no close.
def unclosed (fs : List (Fault SyntaxError)) : Nat :=
  fs.countP (·.cause = .missingClose)

-- Between the tokens `ts` and `rest`, the blocks that stay open are those that the faults report,
-- unless the text ends there.
def Counts (ts : List Token) (fs : List (Fault SyntaxError)) (rest : List Token) : Prop :=
  ∃ used e, ts = used ++ rest ∧ Token.level? 0 used = some e ∧ (rest ≠ [] → e = unclosed fs)

namespace Counts

variable {t : Token} {ts us rest : List Token} {fs gs : List (Fault SyntaxError)}

theorem of_clear (h : Token.Clear ts rest) : Counts ts [] rest := by
  obtain ⟨us, rfl, hu⟩ := h
  exact ⟨us, 0, rfl, Token.level?_of_no_bracket hu, fun _ => rfl⟩

theorem of_misplaced {f : Fault SyntaxError} (h : ¬t.IsBracket) (hf : f.cause ≠ .missingClose) :
    Counts (t :: ts) [f] ts :=
  ⟨[t], 0, rfl, Token.level?_of_no_bracket (by simpa using h), fun _ => by simp [unclosed, hf]⟩

theorem trans (h : Counts ts fs us) (h' : Counts us gs rest) : Counts ts (fs ++ gs) rest := by
  obtain ⟨x, d, rfl, hx, hd⟩ := h
  obtain ⟨y, e, rfl, hy, he⟩ := h'
  refine ⟨x ++ y, e + d, (List.append_assoc ..).symm, ?level, fun hr => ?unclosed⟩
  case level    =>
    rw [Token.level?_append, hx]
    simpa using Token.level?_add hy d
  case unclosed =>
    rw [he hr, hd (by simp [hr]), Nat.add_comm]
    simp [unclosed]

end Counts

theorem eq_error_of_map {ε α β : Type} {f : α → β} {x : Except ε α} {e : ε}
    (h : x.map f = .error e) : x = .error e := by
  cases x <;> simp_all [Except.map]

namespace Source

open Token (Clear UpTo not_isBracket)

-- Where a path is missed: at a token up to the first bracket, or at the end of the text.
inductive MissesAt (src : Source) (ts : List Token) : Fault SyntaxError → Prop
  | token {t us} : Clear ts (t :: us) → MissesAt src ts ⟨t.span, .missingIdentifier⟩
  | finish       : MissesAt src ts ⟨src.finish, .missingIdentifier⟩

variable {src : Source} {t : Token} {ts us rest : List Token} {p : Node} {ns : List Node}
  {f : Fault SyntaxError}

-- Paths and arguments hold no brackets, and a path is missed up to the first bracket.

theorem clear_segment (ht : t.kind.isSegment = true) (h : Clear ts rest) : Clear (t :: ts) rest :=
  h.cons (not_isBracket rfl rfl ht)

theorem clear_moreSegments (h : src.moreSegments ts = .ok (ns, rest)) : Clear ts rest := by
  fun_induction src.moreSegments ts generalizing ns rest
  case case1 | case3 | case6 =>
    cases h
    exact .refl _ _
  case case2 | case5 => cases h
  case case4 dot t ts hd ht ih =>
    obtain ⟨⟨ns', rest'⟩, hr, he⟩ := exists_of_map_eq_ok h
    cases he
    exact (clear_segment ht (ih hr)).cons (by simp [Token.IsBracket, hd])

theorem clear_segments (h : src.segments ts = .ok (ns, rest)) : Clear ts rest := by
  unfold segments at h
  split at h
  case h_1 => cases h
  case h_2 =>
    split at h
    case isFalse   => cases h
    case isTrue ht =>
      obtain ⟨⟨ns', rest'⟩, hr, he⟩ := exists_of_map_eq_ok h
      cases he
      exact clear_segment ht (clear_moreSegments hr)

theorem clear_path (h : src.path ts = .ok (p, rest)) : Clear ts rest := by
  obtain ⟨⟨ns, rest'⟩, hr, he⟩ := exists_of_map_eq_ok h
  have hs := clear_segments hr
  dsimp only at he
  split at he
  case h_1 =>
    cases he
    exact hs
  case h_2 mark _ =>
    split at he <;> cases he
    case isFalse   => exact hs
    case isTrue hm => exact hs.trans <| (UpTo.refl _ rest).cons (by simp [Token.IsBracket, hm])

theorem clear_argumentsFrom (src : Source) (ts : List Token) :
    Clear ts (src.argumentsFrom ts).2 := by
  have space {t : Token} {ts us : List Token} (ht : t.kind.isSpace = true)
      (hd : Token.dropSpace ts = us) : Clear (t :: ts) us :=
    hd ▸ (Clear.dropWhile rfl rfl ts).cons (not_isBracket rfl rfl ht)
  fun_induction src.argumentsFrom ts
  case case1 | case5     => exact .refl _ _
  case case2 ht hd       => exact space ht hd
  case case4 ht _ _ hd _ => exact space ht hd
  case case3 ht a as hd ha args rest hr ih =>
    have run : Clear as (as.dropWhile (·.kind.isArgument)) := .dropWhile rfl rfl as
    have ih := run.trans ih
    simp only [hr] at ih
    exact (space ht hd).trans <| ih.cons (not_isBracket rfl rfl ha)

theorem MissesAt.cause_eq (h : src.MissesAt ts f) : f.cause = .missingIdentifier := by
  cases h <;> rfl

theorem MissesAt.clear (h : src.MissesAt us f) (hc : Clear ts us) : src.MissesAt ts f := by
  cases h
  case token h => exact .token (hc.trans h)
  case finish  => exact .finish

theorem misses_moreSegments (h : src.moreSegments ts = .error f) : src.MissesAt ts f := by
  fun_induction src.moreSegments ts generalizing f
  case case1 | case3 | case6 => cases h
  case case2 | case5         =>
    cases h
    exact .token (.refl _ _)
  case case4 dot t ts hd ht ih =>
    have hc : Clear (dot :: t :: ts) ts :=
      (clear_segment ht (.refl _ ts)).cons (by simp [Token.IsBracket, hd])
    exact (ih (eq_error_of_map h)).clear hc

theorem misses_path (h : src.path ts = .error f) : src.MissesAt ts f := by
  have h : src.segments ts = .error f := eq_error_of_map h
  unfold segments at h
  split at h
  case h_1 =>
    cases h
    exact .finish
  case h_2 =>
    split at h
    case isFalse   =>
      cases h
      exact .token (.refl _ _)
    case isTrue ht =>
      exact (misses_moreSegments (eq_error_of_map h)).clear (clear_segment ht (.refl _ _))

-- A token out of place is no fault of a block.
theorem misplaced_cause_not_mem (src : Source) (t : Token) :
    (src.misplaced t).cause ∉ [.missingIdentifier, .missingClose, .tooDeep] := by
  unfold misplaced
  dsimp only
  split
  case isFalse => simp
  case isTrue  => split <;> simp

end Source

-- What the reader takes of a block with its opening bracket is counted.
def BlockReader.Counts (blocks : BlockReader) : Prop :=
  ∀ t ts, t.kind = .bracketOpen →
    Stencil.Counts (t :: ts) (blocks.read t ts).faults (blocks.read t ts).rest

namespace Source

open Token (Clear UpTo)

variable {src : Source} {blocks : BlockReader} {t : Token} {ts us rest : List Token} {n : Node}

theorem counts_pieces (H : blocks.Counts) (src : Source) (i : Nat) (ts : List Token) :
    Counts ts (src.pieces blocks (some i) ts).faults (src.pieces blocks (some i) ts).rest := by
  fun_induction src.pieces blocks (some i) ts
  case case1 | case4          => exact .of_clear (.refl _ _)
  case case2 ho _ _ ih        => exact (H _ _ ho).trans ih
  case case3 t ts _ hp _ ih   =>
    have hc : Clear (t :: ts) (ts.dropWhile (·.kind.isProse)) :=
      (Clear.dropWhile rfl rfl ts).cons (Token.not_isBracket rfl rfl hp)
    exact (Counts.of_clear hc).trans ih
  case case5 t ts ho _ he _ ih =>
    have hb : ¬t.IsBracket := by simp_all [Token.IsBracket]
    have hm : (src.misplaced t).cause ≠ .missingClose := fun h =>
      src.misplaced_cause_not_mem t (by simp [h])
    exact (Counts.of_misplaced hb hm).trans ih

theorem counts_alternatives (H : blocks.Counts) (src : Source) (ts : List Token) :
    Counts ts (src.alternatives blocks ts).faults (src.alternatives blocks ts).rest := by
  fun_induction src.alternatives blocks ts
  case case1 | case3     => exact .of_clear (.refl _ _)
  case case2 t ts hp first more ih =>
    have hb : ¬t.IsBracket := by simp [Token.IsBracket, hp]
    have hc : Counts (t :: ts) [] ts := .of_clear <| (UpTo.refl _ ts).cons hb
    exact hc.trans <| (counts_pieces H src (src.indentOf t) ts).trans ih

-- From the opening bracket of a block up to where its alternatives end.
theorem counts_head {k : Nat} (H : (src.blocks k).Counts) {p : Node}
    (hp : src.path (Token.dropSpace ts) = .ok (p, us)) :
    Counts ts ((Stage.choices src k us).read src).faults
      ((Stage.choices src k us).read src).rest := by
  have hc : Clear ts (src.argumentsFrom us).2 :=
    (Clear.dropWhile rfl rfl ts).trans <| (clear_path hp).trans (clear_argumentsFrom src us)
  exact (Counts.of_clear hc).trans (counts_alternatives H src _)

theorem counts_skipBlock {f : Fault SyntaxError} (ht : t.kind = .bracketOpen)
    (hf : f.cause ≠ .missingClose) : Counts (t :: ts) [f] (Token.skipBlock 0 ts) := by
  rcases Token.outside_skipBlock 0 ts with ⟨inside, c, he, hc, hl⟩ | ⟨hr, hl⟩
  case inl =>
    exact ⟨t :: (inside ++ [c]), 0, by simpa using he, Token.level?_block ht hc hl,
      fun _ => by simp [unclosed, hf]⟩
  case inr =>
    obtain ⟨e, hl⟩ := Option.ne_none_iff_exists'.mp hl
    refine ⟨t :: ts, e + 1, by simp [hr], ?_, fun h => absurd hr h⟩
    rw [Token.level?_open ht, Token.level?_add hl 1]

theorem counts_open {fs : List (Fault SyntaxError)} (ht : t.kind = .bracketOpen)
    (h : Counts ts fs us) : Counts (t :: ts) (fs ++ [⟨t.span, .missingClose⟩]) us := by
  obtain ⟨used, e, rfl, hl, he⟩ := h
  refine ⟨t :: used, e + 1, rfl, ?_, fun hr => by simp [he hr, unclosed]⟩
  rw [Token.level?_open ht, Token.level?_add hl 1]

-- The closing bracket behind the tokens `inside` and behind those of a block.
theorem level_of_counts {fs : List (Fault SyntaxError)} {c : Token}
    (h : Counts ts fs (c :: rest)) :
    ∃ inside, ts = inside ++ c :: rest ∧ Token.level? 0 inside = some (unclosed fs) := by
  obtain ⟨used, e, hu, hl, he⟩ := h
  exact ⟨used, hu, he (by simp) ▸ hl⟩

theorem counts_closed {fs : List (Fault SyntaxError)} {c : Token} (ht : t.kind = .bracketOpen)
    (hc : c.kind = .bracketClose) (h : Counts ts fs (c :: rest)) : Counts (t :: ts) fs rest := by
  obtain ⟨inside, rfl, hl⟩ := level_of_counts h
  exact ⟨t :: (inside ++ [c]), unclosed fs, by simp, Token.level?_block ht hc hl, fun _ => rfl⟩

theorem counts_blocks (src : Source) (n : Nat) : (src.blocks n).Counts := by
  induction n <;> intro t ts ht
  case zero      => exact counts_skipBlock ht (by simp)
  case succ n ih =>
    have h := Stage.outcome src (n + 1) t ts
    generalize (src.blocks (n + 1)).read t ts = block at h
    cases h
    case lost hp          => exact counts_skipBlock ht (by simp [(misses_path hp).cause_eq])
    case kept hp hk hr    => exact counts_closed ht hk (hr ▸ counts_head ih hp)
    case unclosed hp _    => exact counts_open ht (counts_head ih hp)

-- The bracket that a block takes closes it as many times over as there are blocks inside of it that
-- are reported to have no close.
theorem exists_close_of_kept {m : Nat} (h : ((src.blocks m).read t ts).value = some n) :
    ∃ inside c, ts = inside ++ c :: ((src.blocks m).read t ts).rest ∧ c.kind = .bracketClose ∧
      Token.level? 0 inside = some (unclosed ((src.blocks m).read t ts).faults) := by
  have ho := Stage.outcome src m t ts
  generalize (src.blocks m).read t ts = block at h ho
  cases ho <;> cases h
  case kept k p us c rest hp hr hk =>
    obtain ⟨inside, hi, hl⟩ := level_of_counts (hr ▸ counts_head (counts_blocks src k) hp)
    exact ⟨inside, c, hi, hk, hl⟩

-- A block without a close never takes the bracket that the count gives it.
theorem own_close_of_unclosed {k : Nat} {inside after : List Token} {c : Token}
    (h : Stage.Unclosed src k t (inside ++ c :: after) us) (hc : Token.Closes inside c) :
    ∃ left, left <:+ inside ∧ ((Stage.choices src k us).read src).rest = left ++ c :: after := by
  obtain ⟨p, hp⟩ := h.path
  obtain ⟨used, e, hu, hl, -⟩ := counts_head (counts_blocks src k) hp
  rcases List.append_eq_append_iff.mp hu with ⟨_ | ⟨u, z⟩, rfl, hz⟩ | ⟨z, rfl, hz⟩
  case inl.nil  => exact ⟨[], List.nil_suffix, hz.symm⟩
  case inl.cons =>
    obtain ⟨rfl, -⟩ := List.cons.inj hz
    simp [hc.level?_eq_none z] at hl
  case inr      => exact ⟨z, List.suffix_append used z, hz⟩

-- Unless the text ends, a block without a close has no alternatives.
theorem choices_of_unclosed {k : Nat} (h : Stage.Unclosed src k t ts us) :
    ((Stage.choices src k us).read src).rest = [] ∨
      (Stage.choices src k us).read src = ⟨[], [], (src.argumentsFrom us).2⟩ := by
  refine or_iff_not_imp_left.mpr fun hr => ?_
  obtain ⟨c, rest, hc⟩ := List.exists_cons_of_ne_nil hr
  have hc : c ∈ ((Stage.choices src k us).read src).rest.head? := by simp [hc]
  exact alternatives_of_rest_head hc (h.close c hc)

theorem exists_unclosed {s : Stage} (hs : Stage.Reaches src ts s)
    {f : Fault SyntaxError} (hf : f ∈ (s.read src).faults) (hc : f.cause = .missingClose) :
    ∃ n i t us vs, Stage.Reaches src ts (.pieces (n + 1) i (t :: us)) ∧
      Stage.Unclosed src n t us vs ∧ f = ⟨t.span, .missingClose⟩ := by
  cases Stage.faultOrigin_of_mem hs hf
  case unclosed hs hu  => exact ⟨_, _, _, _, _, hs, hu, rfl⟩
  case deep            => cases hc
  case lost hp         => simp [(misses_path hp).cause_eq] at hc
  case misplaced t _ _ =>
    have hm := src.misplaced_cause_not_mem t
    simp [hc] at hm

theorem unclosed_eq_zero_iff {fs : List (Fault SyntaxError)} :
    unclosed fs = 0 ↔ ∀ f ∈ fs, f.cause ≠ .missingClose := by
  simp [unclosed, List.countP_eq_zero]

end Source

namespace Template

open Node (Appears)

-- Each block that is kept ends at a closing bracket, and each block of the tree is kept somewhere.
-- The bracket is its own if no block inside of it is reported to have no close. A block is reported
-- so if there is no bracket where it should close. It leaves what follows to the pieces around it:
-- all of its alternatives, unless the text ends, and its own bracket.
theorem kept_block_closes (text : String) :
    let src := Source.ofTokens text (Token.scan text)
    let reaches := Stage.Reaches src (Token.scan text)
    (∀ n i t ts b, reaches (.pieces n i (t :: ts)) → t.kind = .bracketOpen →
      ((src.blocks n).read t ts).value = some b →
      let block := (src.blocks n).read t ts
      ∃ before inside c, Token.scan text = before ++ t :: (inside ++ c :: block.rest) ∧
        c.kind = .bracketClose ∧ Token.level? 0 inside = some (unclosed block.faults) ∧
        (Token.Closes inside c ↔ ∀ f ∈ block.faults, f.cause ≠ .missingClose)) ∧
    (∀ a s p as rs, (Node.block s p as rs).Appears a (read text).root →
      ∃ n i t ts, reaches (.pieces n i (t :: ts)) ∧ t.kind = .bracketOpen ∧
        ((src.blocks n).read t ts).value = some (.block s p as rs)) ∧
    (∀ n i t ts us, reaches (.pieces (n + 1) i (t :: ts)) → Stage.Unclosed src n t ts us →
      let alts := (Stage.choices src n us).read src
      let more := (Stage.pieces (n + 1) i alts.rest).read src
      (Stage.pieces (n + 1) i (t :: ts)).read src =
        ⟨more.value, alts.faults ++ ⟨t.span, .missingClose⟩ :: more.faults, more.rest⟩ ∧
      reaches (.pieces (n + 1) i alts.rest) ∧
      (alts.rest = [] ∨ alts = ⟨[], [], (src.argumentsFrom us).2⟩) ∧
      ∀ inside c after, ts = inside ++ c :: after → Token.Closes inside c →
        ∃ left, left <:+ inside ∧ alts.rest = left ++ c :: after) ∧
    ∀ f ∈ (read text).faults, f.cause = .missingClose →
      ∃ n i t ts us, reaches (.pieces (n + 1) i (t :: ts)) ∧ Stage.Unclosed src n t ts us ∧
        f = ⟨t.span, .missingClose⟩ := by
  intro src reaches
  refine ⟨?closes, ?found, ?leaves, fun f hf hc => Source.exists_unclosed .refl hf hc⟩
  case closes =>
    intro n i t ts b hs ht hb block
    obtain ⟨before, hbefore⟩ := hs.suffix
    obtain ⟨inside, c, hts, hc, hl⟩ := Source.exists_close_of_kept hb
    refine ⟨before, inside, c, ?_, hc, hl, ?_⟩
    · rw [← hbefore]
      exact congrArg (before ++ t :: ·) hts
    · rw [← Source.unclosed_eq_zero_iff]
      exact ⟨fun h => Option.some.inj (hl.symm.trans h.level), fun h => ⟨hc, h ▸ hl⟩⟩
  case found =>
    intro a s p as rs h
    generalize hm : Node.block s p as rs = m at h
    cases origin_of_appears (hm ▸ .block) h
    case prose         => cases hm
    case empty         => cases hm
    case block hs ht h => exact ⟨_, _, _, _, hs, ht, hm ▸ h⟩
  case leaves =>
    intro n i t ts us hs hu alts more
    have hmore : reaches (.pieces (n + 1) i alts.rest) :=
      congrArg Parsed.rest hu.read_eq ▸ hs.tail (.behind hu.opens)
    refine ⟨hu.read_pieces, hmore, Source.choices_of_unclosed hu, ?_⟩
    rintro inside c after rfl hc
    exact Source.own_close_of_unclosed hu hc

-- Blocks that are left out do not matter, and a block without its bracket leaves that one.
theorem kept_block_closes_around_skipped :
    (let text := "[a|[.]|x]"
    let src := Source.ofTokens text (Token.scan text)
    let ts := Token.scan text
    let block := (src.blocks maxNesting).read ts.head! ts.tail
    ts.head!.kind = .bracketOpen ∧ block.faults.length = 1 ∧
    (∃ b, block.value = some b ∧ ∃ before inside c,
      ts = before ++ ts.head! :: (inside ++ c :: block.rest) ∧ Token.Closes inside c) ∧
    ∃ s p as rs, (read text).root = .block s p as rs ∧ ∃ n i t us,
      Stage.Reaches src ts (.pieces n i (t :: us)) ∧ t.kind = .bracketOpen ∧
      ((src.blocks n).read t us).value = some (.block s p as rs)) ∧
    let text := "[f|[a?b|x]|y]"
    let src := Source.ofTokens text (Token.scan text)
    let reaches := Stage.Reaches src (Token.scan text)
    ∃ n i t ts us, reaches (.pieces (n + 1) i (t :: ts)) ∧ Stage.Unclosed src n t ts us ∧
      t.span = ⟨⟨0, 3⟩, ⟨0, 4⟩⟩ ∧
      reaches (.pieces (n + 1) i ((Stage.choices src n us).read src).rest) := by
  refine ⟨?skipped, ?unclosed⟩
  case skipped =>
    intro text src ts block
    have hts : ts.head! :: ts.tail = ts := by decide +kernel
    have hk : ts.head!.kind = .bracketOpen := by decide +kernel
    obtain ⟨b, hb⟩ : ∃ b, block.value = some b := Option.isSome_iff_exists.mp (by decide +kernel)
    have hf : ∀ f ∈ block.faults, f.cause ≠ .missingClose := by decide +kernel
    obtain ⟨hcloses, hfound, -⟩ := kept_block_closes text
    obtain ⟨before, inside, c, he, hc, hl, hi⟩ :=
      hcloses maxNesting none ts.head! ts.tail b (by rw [hts]; exact .refl) hk hb
    refine ⟨hk, by decide +kernel, ⟨b, hb, before, inside, c, he, hi.mpr hf⟩, ?_⟩
    have hroot : (read text).root.isBlock = true := by decide +kernel
    cases hr : (read text).root <;> simp [hr, Node.isBlock] at hroot
    case block s p as rs => exact ⟨s, p, as, rs, rfl, hfound false s p as rs (hr ▸ .refl)⟩
  case unclosed =>
    intro text src reaches
    obtain ⟨-, -, hleaves, hreported⟩ := kept_block_closes text
    obtain ⟨n, i, t, ts, us, hs, hu, ht⟩ :=
      hreported ⟨⟨⟨0, 3⟩, ⟨0, 4⟩⟩, .missingClose⟩ (by decide +kernel) rfl
    obtain ⟨-, hmore, -, -⟩ := hleaves n i t ts us hs hu
    exact ⟨n, i, t, ts, us, hs, hu, (congrArg Fault.span ht).symm, hmore⟩

-- The inner block ends at the letter that is out of place, and all that follows it is read as a
-- part of the outer block.
theorem outer_block_takes_inner_bracket :
    let text := "[f|[a?b|x]|y]"
    let src := Source.ofTokens text (Token.scan text)
    ∃ t inside c rest,
      Stage.Reaches src (Token.scan text) (.pieces maxNesting none (t :: (inside ++ c :: rest))) ∧
      t.kind = .bracketOpen ∧
      ((src.blocks maxNesting).read t (inside ++ c :: rest)).value.isSome = true ∧
      ((src.blocks maxNesting).read t (inside ++ c :: rest)).rest = rest ∧
      c.kind = .bracketClose ∧ ¬Token.Closes inside c ∧
      (read text).root.children.map (fun n => (n.kind, n.span)) =
        [("eval", ⟨⟨0, 1⟩, ⟨0, 9⟩⟩), ("string", ⟨⟨0, 11⟩, ⟨0, 12⟩⟩)] := by
  intro text src
  let ts := Token.scan text
  have hts : ts = ts.head! :: ((ts.drop 1).take 8 ++ ts[9]! :: ts.drop 10) := by decide +kernel
  refine ⟨ts.head!, (ts.drop 1).take 8, ts[9]!, ts.drop 10, hts ▸ .refl, ?_⟩
  refine ⟨by decide +kernel, by decide +kernel, by decide +kernel, by decide +kernel, ?_, ?_⟩
  · intro h
    exact absurd h.level (by decide +kernel)
  · decide +kernel

end Template
end Stencil

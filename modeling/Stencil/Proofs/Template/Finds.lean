import Mathlib.Data.List.Infix
import Mathlib.Data.List.TakeWhile
import Mathlib.Tactic.Common
import Stencil.Proofs.Template.Reading

namespace Stencil
namespace Source

variable (src : Source)

-- What the readers can find, whether or not a text has faults; tokens in between may be left out.
-- Whatever holds of all trees that are read is shown by induction on these relations.

inductive FindsSegments : List Token → List Node → List Token → Prop
  | last {t ts} : t.kind.isSegment = true → FindsSegments (t :: ts) [src.segment t] ts
  | dot {t dot ts ns rest} :
    t.kind.isSegment = true → FindsSegments ts ns rest →
    FindsSegments (t :: dot :: ts) (src.segment t :: ns) rest

inductive FindsPath : List Token → Node → List Token → Prop
  | plain {ts ns rest} : src.FindsSegments ts ns rest → FindsPath ts (.path ns) rest
  | marked {ts ns mark rest} :
    src.FindsSegments ts ns (mark :: rest) →
    FindsPath ts (.present (((Node.hull? ns).getD .origin).through mark.span) ns) rest

inductive FindsArguments : List Token → List Node → List Token → Prop
  | nil {ts rest} : rest <:+ ts → FindsArguments ts [] rest
  | cons {ts t us vs ns rest} :
    t :: us ++ vs <:+ ts → (∀ u ∈ t :: us, u.kind.isArgument = true) → FindsArguments vs ns rest →
    FindsArguments ts (src.argument t us :: ns) rest

-- Here `block` tells what a block can be made of.
inductive FindsPieces (block : List Token → Node → List Token → Prop) :
    List Token → List Node → List Token → Prop
  | nil {ts rest} : rest <:+ ts → FindsPieces block ts [] rest
  | text {ts t us vs ns rest} (indent : Nat) :
    t :: us ++ vs <:+ ts → FindsPieces block vs ns rest →
    FindsPieces block ts (src.prose indent t us :: ns) rest
  | block {ts us n vs ns rest} :
    us <:+ ts → block us n vs → vs <:+ us → FindsPieces block vs ns rest →
    FindsPieces block ts (n :: ns) rest

inductive FindsAlternatives (block : List Token → Node → List Token → Prop) :
    List Token → List Node → List Token → Prop
  | nil {ts} : FindsAlternatives block ts [] ts
  | cons {pipe ts ns us alts rest} :
    src.FindsPieces block ts ns us → FindsAlternatives block us alts rest →
    FindsAlternatives block (pipe :: ts) (gather (Token.spanAhead src.finish us) ns :: alts) rest

inductive FindsBlock (block : List Token → Node → List Token → Prop) :
    List Token → Node → List Token → Prop
  | mk {ts us p vs args ws alts xs rest} :
    us <:+ ts → src.FindsPath us p vs → src.FindsArguments vs args ws →
    src.FindsAlternatives block ws alts xs → rest <:+ xs →
    FindsBlock block ts (assemble p args alts) rest

-- Blocks that nest at most `n` deep.
def FindsNested : Nat → List Token → Node → List Token → Prop
  | 0     => fun _ _ _ => False
  | n + 1 => src.FindsBlock (FindsNested n)

variable {src} {block : List Token → Node → List Token → Prop} {ts rest : List Token}
  {ns : List Node} {p : Node}

-- Nothing is left but tokens that were ahead.

theorem FindsSegments.suffix (h : src.FindsSegments ts ns rest) : rest <:+ ts := by
  induction h
  case last t ts _     => exact List.suffix_cons t ts
  case dot t dot _ _ _ _ _ ih =>
    exact ih.trans <| (List.suffix_cons dot _).trans (List.suffix_cons t _)

theorem FindsPath.suffix (h : src.FindsPath ts p rest) : rest <:+ ts := by
  cases h
  case plain h  => exact h.suffix
  case marked h => exact (List.suffix_cons _ _).trans h.suffix

theorem FindsArguments.suffix (h : src.FindsArguments ts ns rest) : rest <:+ ts := by
  induction h
  case nil h            => exact h
  case cons hu _ _ ih   => exact ih.trans <| (List.suffix_append _ _).trans hu

theorem FindsPieces.suffix (h : src.FindsPieces block ts ns rest) : rest <:+ ts := by
  induction h
  case nil h              => exact h
  case text hu _ ih       => exact ih.trans <| (List.suffix_append _ _).trans hu
  case block hu _ hv _ ih => exact ih.trans <| hv.trans hu

theorem FindsAlternatives.suffix (h : src.FindsAlternatives block ts ns rest) : rest <:+ ts := by
  induction h
  case nil        => exact List.suffix_rfl
  case cons hp _ ih => exact ih.trans <| hp.suffix.trans (List.suffix_cons _ _)

-- The readers find what these relations tell.

theorem finds_segments_cons {t : Token} (ht : t.kind.isSegment = true)
    (h : src.moreSegments ts = .ok (ns, rest)) :
    src.FindsSegments (t :: ts) (src.segment t :: ns) rest := by
  fun_induction src.moreSegments ts generalizing t ns rest
  case case1 | case3 | case6 =>
    cases h
    exact .last ht
  case case2 | case5 => cases h
  case case4 dot u ts _ hu ih =>
    obtain ⟨⟨ns', rest'⟩, hr, he⟩ := exists_of_map_eq_ok h
    cases he
    exact .dot ht (ih hu hr)

theorem finds_segments (h : src.segments ts = .ok (ns, rest)) :
    src.FindsSegments ts ns rest := by
  unfold segments at h
  split at h
  case h_1 => cases h
  case h_2 =>
    split at h
    case isFalse   => cases h
    case isTrue ht =>
      obtain ⟨⟨ns', rest'⟩, hr, he⟩ := exists_of_map_eq_ok h
      cases he
      exact finds_segments_cons ht hr

theorem finds_path (h : src.path ts = .ok (p, rest)) : src.FindsPath ts p rest := by
  obtain ⟨⟨ns, rest'⟩, hr, he⟩ := exists_of_map_eq_ok h
  have hs := finds_segments hr
  dsimp only at he
  split at he
  case h_1 =>
    cases he
    exact .plain hs
  case h_2 =>
    split at he <;> cases he
    case isTrue  => exact .marked hs
    case isFalse => exact .plain hs

theorem dropSpace_suffix (ts : List Token) : Token.dropSpace ts <:+ ts :=
  List.dropWhile_suffix _

theorem skipBlock_suffix (depth : Nat) (ts : List Token) : Token.skipBlock depth ts <:+ ts := by
  fun_induction Token.skipBlock depth ts
  case case1 => exact List.suffix_rfl
  case case3 => exact List.suffix_cons _ _
  all_goals exact List.IsSuffix.trans ‹_› (List.suffix_cons _ _)

-- A run of tokens with what is behind it.
theorem run_suffix {q : Token → Bool} {t : Token} {us : List Token} (h : t :: us <:+ ts) :
    t :: us.takeWhile q ++ us.dropWhile q <:+ ts := by
  rwa [List.cons_append, List.takeWhile_append_dropWhile]

theorem finds_arguments (src : Source) (ts : List Token) :
    src.FindsArguments ts (src.argumentsFrom ts).1 (src.argumentsFrom ts).2 := by
  fun_induction src.argumentsFrom ts
  case case1 | case5 => exact .nil List.suffix_rfl
  case case2         => exact .nil (List.nil_suffix)
  case case4 t ts _ a as hd _ =>
    exact .nil <| hd ▸ (dropSpace_suffix ts).trans (List.suffix_cons t ts)
  case case3 t ts _ a as hd ha args rest hr ih =>
    have hs : a :: as <:+ t :: ts := hd ▸ (dropSpace_suffix ts).trans (List.suffix_cons t ts)
    refine .cons (run_suffix hs) ?_ (by simpa [hr] using ih)
    rintro u (_ | ⟨_, hu⟩)
    · exact ha
    · exact List.mem_takeWhile_imp (p := fun u : Token => u.kind.isArgument) hu

end Source

-- All blocks that the reader finds are made as `block` tells.
structure BlockReader.Finds (blocks : BlockReader) (block : List Token → Node → List Token → Prop) :
    Prop where
  suffix : ∀ t ts, (blocks.read t ts).rest <:+ ts
  found  : ∀ t ts n, (blocks.read t ts).value = some n → block ts n (blocks.read t ts).rest

namespace Source

variable {src : Source} {block : List Token → Node → List Token → Prop} {blocks : BlockReader}
  {ts : List Token}

theorem FindsPieces.skip {us rest : List Token} {ns : List Node} (hu : us <:+ ts) :
    src.FindsPieces block us ns rest → src.FindsPieces block ts ns rest
  | .nil h            => .nil (h.trans hu)
  | .text i h hp      => .text i (h.trans hu) hp
  | .block h hb hv hp => .block (h.trans hu) hb hv hp

theorem finds_pieces (src : Source) (H : blocks.Finds block) (indent : Option Nat)
    (ts : List Token) :
    src.FindsPieces block ts (src.pieces blocks indent ts).value
      (src.pieces blocks indent ts).rest := by
  fun_induction src.pieces blocks indent ts
  case case1 | case4 => exact .nil List.suffix_rfl
  case case5 ih      => exact ih.skip (List.suffix_cons ..)
  case case3 ih      => exact .text _ (run_suffix List.suffix_rfl) ih
  case case2 t ts _ found more ih =>
    have hs : found.rest <:+ ts := H.suffix t ts
    cases hv : found.value
    case none   => simpa using ih.skip (hs.trans (List.suffix_cons t ts))
    case some n =>
      simpa using .block (List.suffix_cons t ts) (H.found t ts n hv) hs ih

theorem finds_alternatives (src : Source) (H : blocks.Finds block) (ts : List Token) :
    src.FindsAlternatives block ts (src.alternatives blocks ts).value
      (src.alternatives blocks ts).rest := by
  fun_induction src.alternatives blocks ts
  case case1 | case3 => exact .nil
  case case2 ih      => exact .cons (src.finds_pieces H _ _) ih

theorem finds_readBlock (H : blocks.Finds block) {t : Token} {n : Node}
    (h : (src.readBlock blocks t ts).value = some n) :
    src.FindsBlock block ts n (src.readBlock blocks t ts).rest := by
  unfold readBlock at h ⊢
  split at h
  case h_1         => cases h
  case h_2 p us hp =>
    have hs := src.finds_alternatives H (src.argumentsFrom us).2
    simp only [close] at h ⊢
    split at h
    case isFalse   => cases h
    case isTrue hc =>
      cases h
      rw [if_pos hc]
      exact .mk (dropSpace_suffix ts) (finds_path hp) (finds_arguments src us) hs
        (List.tail_suffix _)

theorem close_suffix (t : Token) (n : Node) (fs : List (Fault SyntaxError)) (ts : List Token) :
    (close t n fs ts).rest <:+ ts := by
  unfold close
  split
  case isTrue  => exact List.tail_suffix ts
  case isFalse => exact List.suffix_rfl

theorem readBlock_suffix (H : blocks.Finds block) (t : Token) (ts : List Token) :
    (src.readBlock blocks t ts).rest <:+ ts := by
  unfold readBlock
  split
  case h_1         => exact skipBlock_suffix 0 ts
  case h_2 p us hp =>
    have hs := (src.finds_alternatives H (src.argumentsFrom us).2).suffix
    have hu := (finds_path hp).suffix.trans (dropSpace_suffix ts)
    exact (close_suffix ..).trans <| hs.trans <| (finds_arguments src us).suffix.trans hu

theorem finds_blocks (src : Source) (n : Nat) : (src.blocks n).Finds (src.FindsNested n) := by
  induction n
  case zero      => exact ⟨fun _ ts => skipBlock_suffix 0 ts, nofun⟩
  case succ n ih => exact ⟨readBlock_suffix ih, fun _ _ _ h => finds_readBlock ih h⟩

end Source

-- The tree of a text is gathered from what is found outside of blocks.
theorem Template.exists_pieces (text : String) :
    ∃ ns rest, let src := Source.ofTokens text (Token.scan text)
      src.FindsPieces (src.FindsNested maxNesting) (Token.scan text) ns rest ∧
      (read text).root = Source.gather (Token.spanAhead src.finish rest) ns :=
  ⟨_, _, Source.finds_pieces _ (Source.finds_blocks _ maxNesting) none _, rfl⟩

end Stencil

import Stencil.Proofs.Template.Closing

namespace Stencil

open Token (UpTo)

namespace Source

-- The node is made of tokens with `P`.
inductive MadeOf (src : Source) (P : Token → Prop) : Node → Prop
  | segment {t}          : P t → MadeOf src P (src.segment t)
  | path {ns}            : (∀ n ∈ ns, MadeOf src P n) → MadeOf src P (.path ns)
  | marked {ns mark}     :
    (∀ n ∈ ns, MadeOf src P n) → P mark →
    MadeOf src P (.present (((Node.hull? ns).getD .origin).through mark.span) ns)
  | argument {t us}      : (∀ u ∈ t :: us, P u) → MadeOf src P (src.argument t us)
  | prose {n t us}       :
    n = 0 ∨ (∃ pipe, P pipe ∧ n = src.indentOf pipe) → (∀ u ∈ t :: us, P u) →
    MadeOf src P (src.prose n t us)
  | gathered {ns rest}   :
    (∀ t ∈ rest.head?, P t) → (∀ n ∈ ns, MadeOf src P n) →
    MadeOf src P (gather (Token.spanAhead src.finish rest) ns)
  | block {p args alts}  :
    MadeOf src P p → (∀ n ∈ args, MadeOf src P n) → (∀ n ∈ alts, MadeOf src P n) →
    MadeOf src P (assemble p args alts)

-- The fault is found at a token with `P`, or at the end of the text.
inductive Blames (src : Source) (P : Token → Prop) : Fault SyntaxError → Prop
  | misplaced {t} : P t → Blames src P (src.misplaced t)
  | token {t c}   :
    P t → c ∈ [.missingIdentifier, .missingClose, .tooDeep] → Blames src P ⟨t.span, c⟩
  | finish        : Blames src P ⟨src.finish, .missingIdentifier⟩

variable {src : Source} {P : Token → Prop} {ts rest : List Token} {ns : List Node} {p : Node}
  {f : Fault SyntaxError} {t : Token}

theorem FindsSegments.madeOf (h : src.FindsSegments ts ns rest) (hu : UpTo P ts rest) :
    ∀ n ∈ ns, src.MadeOf P n := by
  induction h
  case last             => simpa using MadeOf.segment (hu.head List.suffix_rfl).1
  case dot hs ih        =>
    have ⟨ht, hu⟩ := hu.head (hs.suffix.trans (List.suffix_cons _ _))
    have ⟨_, hu⟩ := hu.head hs.suffix
    exact List.forall_mem_cons.mpr ⟨.segment ht, ih hu⟩

theorem FindsPath.madeOf (h : src.FindsPath ts p rest) (hu : UpTo P ts rest) :
    src.MadeOf P p := by
  cases h
  case plain h  => exact .path (h.madeOf hu)
  case marked h =>
    have ⟨hs, hm⟩ := hu.split h.suffix (List.suffix_cons _ _)
    exact .marked (h.madeOf hs) (hm.head List.suffix_rfl).1

theorem FindsArguments.madeOf (h : src.FindsArguments ts ns rest) (hu : UpTo P ts rest) :
    ∀ n ∈ ns, src.MadeOf P n := by
  induction h
  case nil               => nofun
  case cons hs _ hr ih   =>
    have ⟨_, hu⟩ := hu.split hs (hr.suffix.trans (List.suffix_append _ _))
    have ⟨ht, hu⟩ := hu.split (List.suffix_append _ _) hr.suffix
    exact List.forall_mem_cons.mpr ⟨.argument (ht.forall_mem rfl), ih hu⟩

-- A path is missed at a token that is left out with the block, or at the end of the text.
theorem MissesAt.blames (h : src.MissesAt ts f) (hu : UpTo P ts (Token.skipBlock 0 ts)) :
    src.Blames P f := by
  cases h
  case finish  => exact .finish
  case token h =>
    obtain ⟨used, he, ht⟩ := (Token.outside_skipBlock 0 ts).mem_of_clear h
    exact .token (hu.forall_mem he _ ht) (by simp)

-- The path and the arguments of a block.
theorem madeOf_head {us : List Token} (hp : src.path (Token.dropSpace ts) = .ok (p, us))
    (hu : UpTo P ts (src.argumentsFrom us).2) :
    src.MadeOf P p ∧ ∀ n ∈ (src.argumentsFrom us).1, src.MadeOf P n := by
  have hpath := finds_path hp
  have hargs := finds_arguments src us
  have ⟨_, hu⟩ := hu.split (dropSpace_suffix ts) (hargs.suffix.trans hpath.suffix)
  have ⟨hu, hu'⟩ := hu.split hpath.suffix hargs.suffix
  exact ⟨hpath.madeOf hu, hargs.madeOf hu'⟩

end Source

namespace Stage

-- Prose at the stage is indented like a line with a token with `P`, or not at all.
def IndentsBy (src : Source) (P : Token → Prop) : Stage → Prop
  | pieces _ i _    => i.getD 0 = 0 ∨ ∃ pipe, P pipe ∧ i.getD 0 = src.indentOf pipe
  | alternatives .. => True

-- All that is read from a stage on is made of tokens with `P`. The place of an empty alternative is
-- that of the token behind it.
structure MadeOf (src : Source) (P : Token → Prop) (s : Stage) : Prop where
  nodes  : (∀ t ∈ (s.read src).rest.head?, P t) → ∀ n ∈ (s.read src).value, src.MadeOf P n
  faults : ∀ f ∈ (s.read src).faults, src.Blames P f

variable {src : Source} {P : Token → Prop} {t : Token} {ts : List Token} {s : Stage} {n : Nat}

theorem madeOf_block
    (H : ∀ k p us, n = k + 1 → src.path (Token.dropSpace ts) = .ok (p, us) →
      UpTo P (choices src k us).ahead ((choices src k us).read src).rest →
      (choices src k us).MadeOf src P)
    (ht : P t) (hu : UpTo P ts ((src.blocks n).read t ts).rest) :
    (∀ b ∈ ((src.blocks n).read t ts).value, src.MadeOf P b) ∧
    ∀ f ∈ ((src.blocks n).read t ts).faults, src.Blames P f := by
  have ho := outcome src n t ts
  generalize (src.blocks n).read t ts = block at ho hu
  cases ho
  case deep             => exact ⟨by simp, by simpa using .token ht (by simp)⟩
  case lost hp          =>
    have hm := (Source.misses_path hp).clear (.dropWhile rfl rfl ts)
    exact ⟨by simp, by simpa using hm.blames hu⟩
  case kept k _ us c rest hp hr _ =>
    have hs : c :: rest <:+ _ := hr ▸ rest_suffix src (choices src k us)
    have hc := List.suffix_cons c rest
    have ⟨h₁, h₂⟩ := hu.split (choices_suffix hp) (hc.trans hs)
    have ⟨h₃, h₄⟩ := h₂.split hs hc
    have h := H _ _ _ rfl hp (hr ▸ h₃)
    have ⟨hpath, hargs⟩ := Source.madeOf_head hp h₁
    refine ⟨?_, h.faults⟩
    have halts := h.nodes (by simpa [hr] using (h₄.head List.suffix_rfl).1)
    simpa using .block hpath hargs halts
  case unclosed hp _    =>
    have ⟨_, h₂⟩ := hu.split (choices_suffix hp) (rest_suffix src _)
    have h := H _ _ _ rfl hp h₂
    refine ⟨by simp, List.forall_mem_append.mpr ⟨h.faults, ?_⟩⟩
    simpa using .token ht (by simp)

theorem madeOf_of_upTo (hi : s.IndentsBy src P) (hu : UpTo P s.ahead (s.read src).rest) :
    s.MadeOf src P := by
  induction s using (wellFounded_leads src).induction
  case _ s later =>
  cases front src s
  case none hr             => exact ⟨by simp [hr], by simp [hr]⟩
  case misplaced n i t ts ho hp he =>
    rw [read_of_misplaced ho hp he] at hu
    have ⟨ht, hu⟩ := hu.head (rest_suffix src (pieces n i ts))
    have h := later _ (.misplaced ho hp he) hi hu
    constructor <;> rw [read_of_misplaced ho hp he]
    case nodes  => exact h.nodes
    case faults => exact List.forall_mem_cons.mpr ⟨.misplaced ht, h.faults⟩
  case prose n i t ts hp   =>
    rw [read_of_prose hp] at hu
    have hs : ts.dropWhile (·.kind.isProse) <:+ t :: ts :=
      (List.dropWhile_suffix _).trans (List.suffix_cons t ts)
    have ⟨hrun, hu⟩ := hu.split hs (rest_suffix src (pieces n i _))
    have h := later _ (.prose hp) hi hu
    constructor <;> rw [read_of_prose hp]
    case faults => exact h.faults
    case nodes  =>
      exact fun hr => List.forall_mem_cons.mpr ⟨.prose hi hrun.forall_mem_run, h.nodes hr⟩
  case block n i t ts ho   =>
    rw [read_of_open ho] at hu
    have hs : ((src.blocks n).read t ts).rest <:+ ts := (src.finds_blocks n).suffix t ts
    have ⟨hb, hu⟩ := hu.split (hs.trans (List.suffix_cons t ts)) (rest_suffix src (pieces n i _))
    have ⟨ht, hb⟩ := hb.head hs
    have ⟨hv, hf⟩ := madeOf_block
      (fun _ _ _ hn hp hc => by subst hn; exact later _ (.inside ho hp) trivial hc) ht hb
    have h := later _ (.behind ho) hi hu
    constructor <;> rw [read_of_open ho]
    case faults => exact List.forall_mem_append.mpr ⟨hf, h.faults⟩
    case nodes  => exact fun hr => List.forall_mem_append.mpr ⟨by simpa using hv, h.nodes hr⟩
  case alternative n t ts hp =>
    rw [read_of_pipe hp] at hu
    have ⟨ht, hu⟩ := hu.head <| (rest_suffix src (alternatives n _)).trans
      (rest_suffix src (pieces n (some (src.indentOf t)) ts))
    have ⟨h₁, h₂⟩ := hu.split (rest_suffix src (pieces n (some (src.indentOf t)) ts))
      (rest_suffix src (alternatives n _))
    have hfirst := later _ (.alternative hp) (.inr ⟨t, ht, rfl⟩) h₁
    have hmore := later _ (.next hp) trivial h₂
    constructor <;> rw [read_of_pipe hp]
    case faults => exact List.forall_mem_append.mpr ⟨hfirst.faults, hmore.faults⟩
    case nodes  =>
      intro hr
      have hr' := h₂.head?_of_rest hr
      exact List.forall_mem_cons.mpr ⟨.gathered hr' (hfirst.nodes hr'), hmore.nodes hr⟩

end Stage
end Stencil

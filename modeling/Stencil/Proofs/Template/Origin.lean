import Stencil.Proofs.Template.Shape
import Stencil.Proofs.Template.Stage

namespace Stencil
namespace Node

def isArguments : Node → Bool
  | arguments .. => true
  | _            => false

def isResults : Node → Bool
  | results .. => true
  | _          => false

-- The node `m` is `n` or lies below it, and not in arguments. The mark tells whether it lies in an
-- alternative of a block.
inductive Appears (m : Node) : Bool → Node → Prop
  | refl : Appears m false m
  | child {a : Bool} {n c : Node} :
    n.isArguments = false → c ∈ n.children → Appears m a c → Appears m (a || n.isResults) n

namespace Appears

variable {m : Node} {a : Bool} {s : Span} {v : String}

theorem of_text (h : Appears m a (text s v)) : a = false ∧ m = text s v := by
  rcases h with _ | ⟨_, hc, _⟩
  case refl  => exact ⟨rfl, rfl⟩
  case child => cases hc

theorem not_name (hm : m.IsPiece) : ¬Appears m a (name s v) := by
  rintro (_ | ⟨_, hc, _⟩)
  case refl  => cases hm
  case child => cases hc

theorem not_arguments (hm : m.IsPiece) {ns : List Node} : ¬Appears m a (arguments s ns) := by
  rintro (_ | ⟨h, _, _⟩)
  case refl  => cases hm
  case child => cases h

theorem of_results (hm : m.IsPiece) {ns : List Node} (h : Appears m a (results s ns)) :
    a = true ∧ ∃ n ∈ ns, ∃ b, Appears m b n := by
  rcases h with _ | ⟨_, hc, h⟩
  case refl  => cases hm
  case child => exact ⟨by simp [isResults], _, hc, _, h⟩

-- A piece below one node for several pieces is one of these or lies below it.
theorem of_gather (hm : m.IsPiece) {ahead : Span} {ns : List Node}
    (h : Appears m a (Source.gather ahead ns)) :
    (ns = [] ∧ a = false ∧ m = Source.gather ahead []) ∨ ∃ n ∈ ns, Appears m a n := by
  rcases ns with _ | ⟨n, _ | ⟨k, ns⟩⟩
  case nil       =>
    obtain ⟨rfl, rfl⟩ := h.of_text
    exact .inl ⟨rfl, rfl, rfl⟩
  case cons.nil  => exact .inr ⟨n, by simp, h⟩
  case cons.cons =>
    rcases h with _ | ⟨_, hc, h⟩
    case refl  => cases hm
    case child => exact .inr ⟨_, hc, by simpa [Source.gather, isResults] using h⟩

end Appears
end Node

namespace Source

open Node

variable {src : Source} {ts rest : List Token} {ns : List Node} {m p : Node} {a : Bool}

theorem FindsSegments.names (h : src.FindsSegments ts ns rest) :
    ∀ n ∈ ns, ∃ s v, n = .name s v := by
  induction h
  case last        => simp [segment]
  case dot _ _ ih  => exact List.forall_mem_cons.mpr ⟨⟨_, _, rfl⟩, ih⟩

theorem FindsPath.not_appears (h : src.FindsPath ts p rest) (hm : m.IsPiece) : ¬Appears m a p := by
  have names {ns rest} (h : src.FindsSegments ts ns rest) {a c} (hc : c ∈ ns) :
      ¬Appears m a c := by
    obtain ⟨s, v, rfl⟩ := h.names c hc
    exact Appears.not_name hm
  rintro (_ | ⟨_, hc, ha⟩)
  case refl  => cases h <;> cases hm
  case child =>
    cases h
    case plain h  => exact names h hc ha
    case marked h => exact names h hc ha

end Source

namespace Stage

open Node

-- What the pieces of the tree are found as, when the tokens `ts` are read.
inductive Origin (src : Source) (ts : List Token) : Bool → Node → Prop
  | prose {n i t us} :
    Reaches src ts (pieces n i (t :: us)) → t.kind.isProse = true →
    Origin src ts i.isSome (src.prose (i.getD 0) t (us.takeWhile (·.kind.isProse)))
  | block {n i t us b} :
    Reaches src ts (pieces n i (t :: us)) → t.kind = .bracketOpen →
    ((src.blocks n).read t us).value = some b → Origin src ts i.isSome b
  | empty {n i us} :
    Reaches src ts (pieces n i us) → ((pieces n i us).read src).value = [] →
    Origin src ts i.isSome
      (Source.gather (Token.spanAhead src.finish ((pieces n i us).read src).rest) [])

-- What the faults are found at, when the tokens `ts` are read: a token out of place, or a block
-- with a fault of its own.
inductive FaultOrigin (src : Source) (ts : List Token) : Fault SyntaxError → Prop
  | misplaced {n i t us}    :
    Reaches src ts (pieces n i (t :: us)) → FaultOrigin src ts (src.misplaced t)
  | deep {i t us}           :
    Reaches src ts (pieces 0 i (t :: us)) → t.kind = .bracketOpen →
    FaultOrigin src ts ⟨t.span, .tooDeep⟩
  | lost {n i t us f}       :
    Reaches src ts (pieces (n + 1) i (t :: us)) → t.kind = .bracketOpen →
    src.path (Token.dropSpace us) = .error f → FaultOrigin src ts f
  | unclosed {n i t us vs}  :
    Reaches src ts (pieces (n + 1) i (t :: us)) → Unclosed src n t us vs →
    FaultOrigin src ts ⟨t.span, .missingClose⟩

variable {src : Source} {ts : List Token} {s : Stage} {m c : Node} {a : Bool}
  {f : Fault SyntaxError}

theorem faultOrigin_of_mem (hs : Reaches src ts s) (hf : f ∈ (s.read src).faults) :
    FaultOrigin src ts f := by
  induction s using (wellFounded_leads src).induction
  case _ s ih =>
  have later {s'} (h : Leads src s s') := ih s' h (hs.tail h)
  cases front src s
  case none hr               => simp [hr] at hf
  case prose hp              => exact later (.prose hp) (by simpa [read_of_prose hp] using hf)
  case alternative hp        =>
    rw [read_of_pipe hp, List.mem_append] at hf
    exact hf.elim (later (.alternative hp)) (later (.next hp))
  case misplaced ho hp he    =>
    rw [read_of_misplaced ho hp he, List.mem_cons] at hf
    rcases hf with rfl | hf
    case inl => exact .misplaced hs
    case inr => exact later (.misplaced ho hp he) hf
  case block n i t us ho     =>
    rw [read_of_open ho, List.mem_append] at hf
    rcases hf with hf | hf
    case inr => exact later (.behind ho) hf
    case inl =>
      have h := outcome src n t us
      generalize (src.blocks n).read t us = block at hf h
      cases h
      case deep           => exact List.mem_singleton.mp hf ▸ .deep hs ho
      case lost hp        => exact List.mem_singleton.mp hf ▸ .lost hs ho hp
      case kept hp _ _    => exact later (.inside ho hp) hf
      case unclosed hp hc =>
        rcases List.mem_append.mp hf with hf | hf
        case inl => exact later (.inside ho hp) hf
        case inr => exact List.mem_singleton.mp hf ▸ .unclosed hs ⟨ho, ⟨_, hp⟩, hc⟩

theorem origin_of_mem (hm : m.IsPiece) (hs : Reaches src ts s) (hc : c ∈ (s.read src).value)
    (ha : Appears m a c) : Origin src ts (a || s.inAlternative) m := by
  induction s using (wellFounded_leads src).induction generalizing c a
  case _ s ih =>
  have later {s' c a} (h : Leads src s s') (hc : c ∈ (s'.read src).value) (ha : Appears m a c) :
      Origin src ts (a || s'.inAlternative) m :=
    ih s' h (hs.tail h) hc ha
  cases front src s
  case none hr        => simp [hr] at hc
  case misplaced ho hp he =>
    rw [read_of_misplaced ho hp he] at hc
    exact (later (.misplaced ho hp he) hc ha :)
  case prose hp       =>
    rw [read_of_prose hp, List.mem_cons] at hc
    rcases hc with rfl | hc
    case inr => exact (later (.prose hp) hc ha :)
    case inl =>
      obtain ⟨rfl, rfl⟩ := ha.of_text
      exact .prose hs hp
  case alternative hp =>
    rw [read_of_pipe hp, List.mem_cons] at hc
    rcases hc with rfl | hc
    case inr => exact (later (.next hp) hc ha :)
    case inl =>
      rcases ha.of_gather hm with ⟨hn, rfl, rfl⟩ | ⟨d, hd, ha⟩
      case inl => exact .empty (hs.tail (.alternative hp)) hn
      case inr => exact (later (.alternative hp) hd ha :)
  case block n i t us ho =>
    rw [read_of_open ho, List.mem_append, Option.mem_toList] at hc
    rcases hc with hb | hc
    case inr => exact (later (.behind ho) hc ha :)
    case inl =>
      -- either the block itself, or a piece of one of its alternatives
      rcases ha with _ | ⟨_, hc', ha⟩
      case refl  => exact .block hs ho hb
      case child =>
        have h := outcome src n t us
        generalize (src.blocks n).read t us = block at h hb
        cases h <;> cases hb
        case kept hp _ _ _ =>
          simp only [Source.assemble, children, List.mem_cons, List.not_mem_nil, or_false] at hc'
          rcases hc' with rfl | rfl | rfl
          case inl     => exact absurd ha ((Source.finds_path hp).not_appears hm)
          case inr.inl => exact absurd ha (Appears.not_arguments hm)
          case inr.inr =>
            obtain ⟨rfl, d, hd, b, hb⟩ := ha.of_results hm
            simpa [inAlternative] using later (.inside ho hp) hd hb

end Stage

namespace Template

theorem origin_of_appears {text : String} {m : Node} {a : Bool} (hm : m.IsPiece)
    (h : m.Appears a (read text).root) :
    Stage.Origin (Source.ofTokens text (Token.scan text)) (Token.scan text) a m := by
  rcases Node.Appears.of_gather hm h with ⟨hn, rfl, rfl⟩ | ⟨n, hn, h⟩
  case inl => exact .empty .refl hn
  case inr => simpa [Stage.start, Stage.inAlternative] using Stage.origin_of_mem hm .refl hn h

end Template
end Stencil

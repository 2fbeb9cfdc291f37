import Mathlib.Logic.Relation
import Stencil.Proofs.Node.Within
import Stencil.Proofs.Template.Finds

namespace Stencil

-- Pieces are read, in an alternative if `indent` is set, or else the alternatives of a block.
-- Blocks may nest `n` deep, and the tokens `ts` are ahead.
inductive Stage
  | pieces (n : Nat) (indent : Option Nat) (ts : List Token)
  | alternatives (n : Nat) (ts : List Token)

namespace Stage

def start (ts : List Token) : Stage :=
  pieces maxNesting none ts

def ahead : Stage → List Token
  | pieces _ _ ts | alternatives _ ts => ts

def inAlternative : Stage → Bool
  | pieces _ indent _ => indent.isSome
  | alternatives ..   => true

-- What is read from a stage on.
def read (src : Source) : Stage → Parsed (List Node)
  | pieces n indent ts => src.pieces (src.blocks n) indent ts
  | alternatives n ts  => src.alternatives (src.blocks n) ts

-- The alternatives of a block, if its path leaves the tokens `us`.
abbrev choices (src : Source) (n : Nat) (us : List Token) : Stage :=
  alternatives n (src.argumentsFrom us).2

inductive Leads (src : Source) : Stage → Stage → Prop
  | prose {n i t ts}       :
    t.kind.isProse = true →
    Leads src (pieces n i (t :: ts)) (pieces n i (ts.dropWhile (·.kind.isProse)))
  | misplaced {n i t ts}   :
    t.kind ≠ .bracketOpen → t.kind.isProse = false →
    (i.isSome = true → t.kind ≠ .pipe ∧ t.kind ≠ .bracketClose) →
    Leads src (pieces n i (t :: ts)) (pieces n i ts)
  | behind {n i t ts}      :
    t.kind = .bracketOpen →
    Leads src (pieces n i (t :: ts)) (pieces n i ((src.blocks n).read t ts).rest)
  | inside {n i t ts p us} :
    t.kind = .bracketOpen → src.path (Token.dropSpace ts) = .ok (p, us) →
    Leads src (pieces (n + 1) i (t :: ts)) (choices src n us)
  | alternative {n t ts}   :
    t.kind = .pipe →
    Leads src (alternatives n (t :: ts)) (pieces n (some (src.indentOf t)) ts)
  | next {n t ts}          :
    t.kind = .pipe →
    Leads src (alternatives n (t :: ts))
      (alternatives n (src.concat (src.blocks n) (some (src.indentOf t)) ts).rest)

-- What stands at the front of a stage, if anything is read there.
inductive Front (src : Source) : Stage → Prop
  | none {s}               : s.read src = ⟨[], [], s.ahead⟩ → Front src s
  | prose {n i t ts}       : t.kind.isProse = true → Front src (pieces n i (t :: ts))
  | misplaced {n i t ts}   :
    t.kind ≠ .bracketOpen → t.kind.isProse = false →
    (i.isSome = true → t.kind ≠ .pipe ∧ t.kind ≠ .bracketClose) → Front src (pieces n i (t :: ts))
  | block {n i t ts}       : t.kind = .bracketOpen → Front src (pieces n i (t :: ts))
  | alternative {n t ts}   : t.kind = .pipe → Front src (alternatives n (t :: ts))

-- What can come of a block. Only a block that nests too deep or has no path is left out up to its
-- closing bracket.
inductive Outcome (src : Source) (t : Token) (ts : List Token) : Nat → Parsed (Option Node) → Prop
  | deep                 : Outcome src t ts 0 ⟨none, [⟨t.span, .tooDeep⟩], Token.skipBlock 0 ts⟩
  | lost {n f}           :
    src.path (Token.dropSpace ts) = .error f →
    Outcome src t ts (n + 1) ⟨none, [f], Token.skipBlock 0 ts⟩
  | kept {n p us c rest} :
    src.path (Token.dropSpace ts) = .ok (p, us) →
    ((choices src n us).read src).rest = c :: rest → c.kind = .bracketClose →
    Outcome src t ts (n + 1)
      ⟨some (Source.assemble p (src.argumentsFrom us).1 ((choices src n us).read src).value),
        ((choices src n us).read src).faults, rest⟩
  | unclosed {n p us}    :
    src.path (Token.dropSpace ts) = .ok (p, us) →
    (∀ c ∈ ((choices src n us).read src).rest.head?, c.kind ≠ .bracketClose) →
    Outcome src t ts (n + 1)
      ⟨none, ((choices src n us).read src).faults ++ [⟨t.span, .missingClose⟩],
        ((choices src n us).read src).rest⟩

-- The block of `t` has a path that leaves the tokens `us`, but behind its alternatives, where it
-- should close, there is no closing bracket.
structure Unclosed (src : Source) (n : Nat) (t : Token) (ts us : List Token) : Prop where
  opens : t.kind = .bracketOpen
  path  : ∃ p, src.path (Token.dropSpace ts) = .ok (p, us)
  close : ∀ c ∈ ((choices src n us).read src).rest.head?, c.kind ≠ .bracketClose

-- Reading the tokens `ts` passes by the stage `s`.
def Reaches (src : Source) (ts : List Token) (s : Stage) : Prop :=
  Relation.ReflTransGen (Leads src) (start ts) s

variable {src : Source} {s s' : Stage} {t : Token} {ts : List Token} {n : Nat} {i : Option Nat}
  {m c : Node}

theorem read_of_prose (h : t.kind.isProse = true) :
    read src (pieces n i (t :: ts)) =
    let more := read src (pieces n i (ts.dropWhile (·.kind.isProse)))
    ⟨src.prose (i.getD 0) t (ts.takeWhile (·.kind.isProse)) :: more.value, more.faults,
      more.rest⟩ :=
  Source.pieces_of_prose h

theorem read_of_misplaced (ho : t.kind ≠ .bracketOpen) (hp : t.kind.isProse = false)
    (he : i.isSome = true → t.kind ≠ .pipe ∧ t.kind ≠ .bracketClose) :
    read src (pieces n i (t :: ts)) =
    let more := read src (pieces n i ts)
    ⟨more.value, src.misplaced t :: more.faults, more.rest⟩ :=
  Source.pieces_of_misplaced ho hp he

theorem read_of_open (h : t.kind = .bracketOpen) :
    read src (pieces n i (t :: ts)) =
    let block := (src.blocks n).read t ts
    let more := read src (pieces n i block.rest)
    ⟨block.value.toList ++ more.value, block.faults ++ more.faults, more.rest⟩ :=
  Source.pieces_of_open h

theorem read_of_pipe (h : t.kind = .pipe) :
    read src (alternatives n (t :: ts)) =
    let first := read src (pieces n (some (src.indentOf t)) ts)
    let more := read src (alternatives n first.rest)
    ⟨Source.gather (Token.spanAhead src.finish first.rest) first.value :: more.value,
      first.faults ++ more.faults, more.rest⟩ :=
  Source.alternatives_of_pipe h

theorem front (src : Source) (s : Stage) : Front src s := by
  rcases s with ⟨n, i, _ | ⟨t, ts⟩⟩ | ⟨n, _ | ⟨t, ts⟩⟩
  case pieces.nil        => exact .none Source.pieces_nil
  case alternatives.nil  => exact .none Source.alternatives_nil
  case pieces.cons       =>
    by_cases ho : t.kind = .bracketOpen
    case pos => exact .block ho
    by_cases hp : t.kind.isProse = true
    case pos => exact .prose hp
    by_cases he : i.isSome = true ∧ (t.kind = .pipe ∨ t.kind = .bracketClose)
    case pos => exact .none (Source.pieces_of_end he.2 he.1)
    case neg => exact .misplaced ho (by simpa using hp) (by simpa [not_or] using he)
  case alternatives.cons =>
    by_cases hp : t.kind = .pipe
    case pos => exact .alternative hp
    case neg => exact .none (Source.alternatives_of_ne_pipe hp)

theorem outcome (src : Source) (n : Nat) (t : Token) (ts : List Token) :
    Outcome src t ts n ((src.blocks n).read t ts) := by
  cases n
  case zero   => exact .deep
  case succ n =>
    change Outcome src t ts (n + 1) (src.readBlock (src.blocks n) t ts)
    unfold Source.readBlock
    split
    case h_1 hp      => exact .lost hp
    case h_2 p us hp =>
      dsimp only [Source.close]
      split
      case isFalse hc =>
        exact .unclosed hp fun c h hk => hc (Option.map_eq_some_iff.mpr ⟨c, h, hk⟩)
      case isTrue hc  =>
        cases hr : (src.alternatives (src.blocks n) (src.argumentsFrom us).2).rest
        case nil         => simp [hr] at hc
        case cons c rest => exact .kept hp hr (by simpa [hr] using hc)

theorem read_of_lost {f : Fault SyntaxError} (h : src.path (Token.dropSpace ts) = .error f) :
    (src.blocks (n + 1)).read t ts = ⟨none, [f], Token.skipBlock 0 ts⟩ := by
  change src.readBlock (src.blocks n) t ts = _
  rw [Source.readBlock, h]

theorem Unclosed.read_eq {us : List Token} (h : Unclosed src n t ts us) :
    (src.blocks (n + 1)).read t ts =
    ⟨none, ((choices src n us).read src).faults ++ [⟨t.span, .missingClose⟩],
      ((choices src n us).read src).rest⟩ := by
  obtain ⟨-, ⟨p, hp⟩, hc⟩ := h
  have ho := outcome src (n + 1) t ts
  revert ho
  generalize (src.blocks (n + 1)).read t ts = block
  rintro (_ | h' | ⟨h', hr, hk⟩ | ⟨h', _⟩) <;> cases hp.symm.trans h'
  case kept     => exact absurd hk (hc _ (by simp [hr]))
  case unclosed => rfl

-- What a block without a close leaves is read by the pieces around it.
theorem Unclosed.read_pieces {us : List Token} (h : Unclosed src n t ts us) :
    read src (pieces (n + 1) i (t :: ts)) =
    let alts := (choices src n us).read src
    let more := read src (pieces (n + 1) i alts.rest)
    ⟨more.value, alts.faults ++ ⟨t.span, .missingClose⟩ :: more.faults, more.rest⟩ := by
  rw [read_of_open h.opens, h.read_eq]
  simp

-- A block with a path passes on the faults of its alternatives.
theorem faults_prefix_of_path {p : Node} {us : List Token}
    (h : src.path (Token.dropSpace ts) = .ok (p, us)) :
    ((choices src n us).read src).faults <+: ((src.blocks (n + 1)).read t ts).faults := by
  have ho := outcome src (n + 1) t ts
  revert ho
  generalize (src.blocks (n + 1)).read t ts = block
  rintro (_ | h' | ⟨h', _, _⟩ | ⟨h', _⟩) <;> cases h.symm.trans h'
  case kept     => exact List.prefix_rfl
  case unclosed => exact List.prefix_append _ _

theorem rest_suffix (src : Source) (s : Stage) : (read src s).rest <:+ s.ahead := by
  cases s
  case pieces n i ts       => exact (src.finds_pieces (src.finds_blocks n) i ts).suffix
  case alternatives n ts   => exact (src.finds_alternatives (src.finds_blocks n) ts).suffix

theorem choices_suffix {p : Node} {us : List Token}
    (h : src.path (Token.dropSpace ts) = .ok (p, us)) : (choices src n us).ahead <:+ ts :=
  (Source.finds_arguments src us).suffix.trans <|
    (Source.finds_path h).suffix.trans (Source.dropSpace_suffix ts)

-- One step

theorem Leads.suffix (h : Leads src s s') : ∃ t ts, s.ahead = t :: ts ∧ s'.ahead <:+ ts := by
  cases h
  case prose                => exact ⟨_, _, rfl, List.dropWhile_suffix _⟩
  case misplaced            => exact ⟨_, _, rfl, List.suffix_rfl⟩
  case behind               => exact ⟨_, _, rfl, (src.finds_blocks _).suffix _ _⟩
  case inside hp            => exact ⟨_, _, rfl, choices_suffix hp⟩
  case alternative          => exact ⟨_, _, rfl, List.suffix_rfl⟩
  case next                 => exact ⟨_, _, rfl, rest_suffix src (pieces _ _ _)⟩

-- The tokens ahead get fewer with each step.
theorem wellFounded_leads (src : Source) : WellFounded fun s' s => Leads src s s' := by
  refine Subrelation.wf (fun {s' s} h => ?_) (measure fun s : Stage => s.ahead.length).wf
  have ⟨t, ts, ht, hs⟩ := h.suffix
  change s'.ahead.length < s.ahead.length
  rw [ht, List.length_cons]
  exact Nat.lt_succ_of_le hs.length_le

theorem Leads.faults_infix (h : Leads src s s') :
    (read src s').faults <:+: (read src s).faults := by
  cases h
  case prose ht           => rw [read_of_prose ht]
  case misplaced ho hp he =>
    rw [read_of_misplaced ho hp he]
    exact (List.suffix_cons _ _).isInfix
  case behind ht          =>
    rw [read_of_open ht]
    exact (List.suffix_append _ _).isInfix
  case inside ht hp       =>
    rw [read_of_open ht]
    exact ((faults_prefix_of_path hp).trans (List.prefix_append _ _)).isInfix
  case alternative ht     =>
    rw [read_of_pipe ht]
    exact (List.prefix_append _ _).isInfix
  case next ht            =>
    rw [read_of_pipe ht]
    exact (List.suffix_append _ _).isInfix

-- A run

namespace Reaches

theorem suffix (h : Reaches src ts s) : s.ahead <:+ ts := by
  induction h
  case refl        => exact List.suffix_rfl
  case tail h' ih  =>
    have ⟨t, us, ht, hs⟩ := h'.suffix
    exact (hs.trans (List.suffix_cons t us)).trans (ht ▸ ih)

theorem faults_infix (h : Reaches src ts s) :
    (read src s).faults <:+: (read src (start ts)).faults := by
  induction h
  case refl        => exact List.infix_rfl
  case tail h' ih  => exact h'.faults_infix.trans ih

theorem faults_nil (h : Reaches src ts s) (hf : (read src (start ts)).faults = []) :
    (read src s).faults = [] :=
  List.eq_nil_of_infix_nil (hf ▸ h.faults_infix)

end Reaches
end Stage
end Stencil

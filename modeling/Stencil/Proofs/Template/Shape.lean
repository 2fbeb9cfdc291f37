import Stencil.Proofs.Node.Within
import Stencil.Proofs.Template.Finds
import Stencil.Proofs.Template.Tokens
import Stencil.Proofs.Token.Tiling

namespace Stencil

open Grammar (Segment)

namespace Node

inductive IsPiece : Node → Prop
  | text {s v}         : IsPiece (.text s v)
  | block {s p as rs}  : IsPiece (.block s p as rs)

inductive IsAlternative : Node → Prop
  | piece {n}          : IsPiece n → IsAlternative n
  | concat {s ns}      : IsAlternative (.concat s ns)

inductive IsPath : Node → Prop
  | retrieve {s ns}    : IsPath (.retrieve s ns)
  | present {s ns}     : IsPath (.present s ns)

inductive IsOperand : Node → Prop
  | text {s v}         : IsOperand (.text s v)
  | number {s x l}     : IsOperand (.number s x l)

-- The children of a node are such as the kind of the node asks for. Accesses and errors have no
-- place in a tree that is read.
inductive WellFormed : Node → Prop
  | text {s v}           : WellFormed (.text s v)
  | name {s v}           : Segment v.toList → WellFormed (.name s v)
  | number {s x literal} :
    x.isFinite = true → Binary64.read? literal.toList = some x → WellFormed (.number s x literal)
  | concat {s ns}        : 2 ≤ ns.length → (∀ n ∈ ns, IsPiece n) → WellFormed (.concat s ns)
  | retrieve {s ns}      :
    ns ≠ [] → (∀ n ∈ ns, ∃ s v, n = .name s v) → WellFormed (.retrieve s ns)
  | present {s ns}       :
    ns ≠ [] → (∀ n ∈ ns, ∃ s v, n = .name s v) → WellFormed (.present s ns)
  | arguments {s ns}     : (∀ n ∈ ns, IsOperand n) → WellFormed (.arguments s ns)
  | results {s ns}       : (∀ n ∈ ns, IsAlternative n) → WellFormed (.results s ns)
  | block {s p s₁ as s₂ rs} :
    IsPath p → WellFormed (.block s p (.arguments s₁ as) (.results s₂ rs))

theorem Every.operands {s t u : Span} {p : Node} {as rs : List Node}
    (h : (block s p (arguments t as) (results u rs)).Every WellFormed) :
    ∀ a ∈ as, IsOperand a ∧ WellFormed a := by
  have h : (arguments t as).Every WellFormed := h.of_mem (by simp [children])
  intro a ha
  refine ⟨?_, h a (.child ha .refl)⟩
  cases h _ .refl
  case arguments hk => exact hk a ha

theorem Every.alternatives {s t u : Span} {p : Node} {as rs : List Node}
    (h : (block s p (arguments t as) (results u rs)).Every WellFormed) :
    ∀ r ∈ rs, IsAlternative r := by
  have h : (results u rs).Every WellFormed := h.of_mem (by simp [children])
  cases h _ .refl
  case results hk => exact hk

-- All of the tree is well formed, and its blocks nest at most `k` deep.
structure Sound (k : Nat) (n : Node) : Prop where
  every : n.Every WellFormed
  nests : n.NestsAtMost k

namespace Sound

variable {k : Nat} {n : Node}

theorem of_children (h : WellFormed n) (hn : n.isBlock = false)
    (hc : ∀ c ∈ n.children, Sound k c) : Sound k n where
  every := .of_children h fun c hm => (hc c hm).every
  nests := .of_children hn fun c hm => (hc c hm).nests

theorem succ_of_children (h : WellFormed n) (hc : ∀ c ∈ n.children, Sound k c) :
    Sound (k + 1) n where
  every := .of_children h fun c hm => (hc c hm).every
  nests := .succ_of_children fun c hm => (hc c hm).nests

theorem text (k : Nat) (s : Span) (v : String) : Sound k (.text s v) :=
  .of_children .text rfl nofun

end Sound
end Node

namespace Source

open Node

variable {src : Source} {ts us rest : List Token} {ns : List Node} {n p : Node} {k : Nat}
  {block : List Token → Node → List Token → Prop}

-- The tokens that can stand in a path are spelled as its segments.
def Spells (src : Source) (ts : List Token) : Prop :=
  ∀ t ∈ ts, t.kind.isSegment = true → Segment (t.slice src.chars)

theorem Spells.suffix (h : src.Spells ts) (hu : us <:+ ts) : src.Spells us :=
  fun t ht => h t (hu.subset ht)

theorem sound_segment {t : Token} (h : Segment (t.slice src.chars)) :
    (∃ s v, src.segment t = .name s v) ∧ Sound k (src.segment t) := by
  refine ⟨⟨_, _, rfl⟩, .of_children (.name ?_) rfl nofun⟩
  simpa [Token.content] using h

theorem FindsSegments.sound (h : src.FindsSegments ts ns rest) (hs : src.Spells ts) :
    ns ≠ [] ∧ ∀ n ∈ ns, (∃ s v, n = .name s v) ∧ Sound k n := by
  induction h
  case last ht =>
    have := sound_segment (k := k) (hs _ (by simp) ht)
    simpa using this
  case dot t _ _ _ _ ht _ ih =>
    have h₁ := sound_segment (k := k) (hs t (by simp) ht)
    have h₂ := (ih fun u hu => hs u (by simp [hu])).2
    exact ⟨List.cons_ne_nil _ _, List.forall_mem_cons.mpr ⟨h₁, h₂⟩⟩

theorem FindsPath.sound (h : src.FindsPath ts p rest) (hs : src.Spells ts) :
    IsPath p ∧ Sound k p := by
  cases h
  case plain h =>
    have ⟨hn, hns⟩ := h.sound (k := k) hs
    have ⟨hnames, hns⟩ := forall₂_and.mp hns
    exact ⟨.retrieve, .of_children (.retrieve hn hnames) rfl hns⟩
  case marked h =>
    have ⟨hn, hns⟩ := h.sound (k := k) hs
    have ⟨hnames, hns⟩ := forall₂_and.mp hns
    exact ⟨.present, .of_children (.present hn hnames) rfl hns⟩

theorem sound_argument (src : Source) (t : Token) (us : List Token) :
    IsOperand (src.argument t us) ∧ Sound k (src.argument t us) := by
  simp only [argument]
  split
  case h_1 x hx =>
    obtain ⟨hr, hf⟩ := Option.filter_eq_some_iff.mp hx
    exact ⟨.number, .of_children (.number hf (by simpa using hr)) rfl nofun⟩
  case h_2 => exact ⟨.text, .text k _ _⟩

theorem FindsArguments.sound (h : src.FindsArguments ts ns rest) :
    ∀ n ∈ ns, IsOperand n ∧ Sound k n := by
  induction h
  case nil          => nofun
  case cons _ _ _ ih => exact List.forall_mem_cons.mpr ⟨sound_argument .., ih⟩

theorem FindsPieces.sound (h : src.FindsPieces block ts ns rest) (hs : src.Spells ts)
    (H : ∀ {ts n rest}, block ts n rest → src.Spells ts → IsPiece n ∧ Sound k n) :
    ∀ n ∈ ns, IsPiece n ∧ Sound k n := by
  induction h
  case nil => nofun
  case text hu _ ih =>
    have ih := ih (hs.suffix <| (List.suffix_append _ _).trans hu)
    exact List.forall_mem_cons.mpr ⟨⟨.text, .text k _ _⟩, ih⟩
  case block hu hb hv _ ih =>
    have ih := ih (hs.suffix <| hv.trans hu)
    exact List.forall_mem_cons.mpr ⟨H hb (hs.suffix hu), ih⟩

theorem sound_gather (ahead : Span) (h : ∀ n ∈ ns, IsPiece n ∧ Sound k n) :
    IsAlternative (gather ahead ns) ∧ Sound k (gather ahead ns) := by
  rcases ns with _ | ⟨n, _ | ⟨m, ns⟩⟩
  case nil       => exact ⟨.piece .text, .text k _ _⟩
  case cons.nil  =>
    have ⟨hp, hn⟩ := h n (by simp)
    exact ⟨.piece hp, hn⟩
  case cons.cons =>
    have ⟨hp, hns⟩ := forall₂_and.mp h
    exact ⟨.concat, .of_children (.concat (by simp) hp) rfl hns⟩

theorem FindsAlternatives.sound (h : src.FindsAlternatives block ts ns rest) (hs : src.Spells ts)
    (H : ∀ {ts n rest}, block ts n rest → src.Spells ts → IsPiece n ∧ Sound k n) :
    ∀ n ∈ ns, IsAlternative n ∧ Sound k n := by
  induction h
  case nil => nofun
  case cons hp _ ih =>
    have hs := hs.suffix (List.suffix_cons _ _)
    exact List.forall_mem_cons.mpr ⟨sound_gather _ (hp.sound hs H), ih (hs.suffix hp.suffix)⟩

theorem FindsBlock.sound (h : src.FindsBlock block ts n rest) (hs : src.Spells ts)
    (H : ∀ {ts n rest}, block ts n rest → src.Spells ts → IsPiece n ∧ Sound k n) :
    IsPiece n ∧ Sound (k + 1) n := by
  obtain ⟨hu, hp, ha, hr, _⟩ := h
  have hs := hs.suffix hu
  obtain ⟨hpath, hps⟩ := hp.sound (k := k) hs
  obtain ⟨hoperands, has⟩ := forall₂_and.mp (ha.sound (k := k))
  obtain ⟨halts, hrs⟩ := forall₂_and.mp (hr.sound (hs.suffix <| ha.suffix.trans hp.suffix) H)
  refine ⟨.block, .succ_of_children (.block hpath) ?_⟩
  simp only [assemble, children, List.forall_mem_cons]
  refine ⟨hps, ?arguments, ?results, List.forall_mem_nil _⟩
  case arguments => exact .of_children (.arguments hoperands) rfl has
  case results   => exact .of_children (.results halts) rfl hrs

theorem FindsNested.sound (h : src.FindsNested k ts n rest) (hs : src.Spells ts) :
    IsPiece n ∧ Sound k n := by
  induction k generalizing ts n rest
  case zero      => exact h.elim
  case succ k ih => exact FindsBlock.sound h hs ih

end Source

theorem Token.spells_scan (text : String) :
    (Source.ofTokens text (scan text)).Spells (scan text) := by
  intro t ht hk
  have ⟨us, v, s₁, w, s₂, e, step⟩ := Scanner.exists_steps_of_mem ht
  have hw : t.slice text.toList.toArray = w := e.slice_eq step (Scanner.behind_start text)
  exact hw ▸ (step.reads.segment hk).2

namespace Template

theorem sound_root (text : String) :
    (read text).root.IsAlternative ∧ Node.Sound maxNesting (read text).root := by
  have ⟨_, _, h, hr⟩ := exists_pieces text
  exact hr ▸ Source.sound_gather _ (h.sound (Token.spells_scan text) Source.FindsNested.sound)

theorem root_sound (text : String) :
    (read text).root.IsAlternative ∧ (read text).root.Every Node.WellFormed ∧
    (read text).root.NestsAtMost 64 := by
  have ⟨ns, rest, h, hr⟩ := exists_pieces text
  have hs := h.sound (Token.spells_scan text) Source.FindsNested.sound
  have ⟨ha, hn⟩ := hr ▸ Source.sound_gather _ hs
  exact ⟨ha, hn.every, hn.nests⟩

end Template
end Stencil

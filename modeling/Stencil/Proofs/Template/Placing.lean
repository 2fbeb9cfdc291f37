import Stencil.Proofs.Node.Within
import Stencil.Proofs.Template.Finds
import Stencil.Proofs.Token.Excerpt

namespace Stencil
namespace Node

-- The children of a node stand one behind the other. The alternatives of a block stand behind its
-- arguments only if there are any, for an empty list of them stands where the path ends.
def Apart : Node → Prop
  | concat _ ns | arguments _ ns | results _ ns | retrieve _ ns | present _ ns =>
    ns.Pairwise (·.span.stop ≤ ·.span.start)
  | block _ p as rs =>
    p.span.stop ≤ as.span.start ∧ (rs.children ≠ [] → as.span.stop ≤ rs.span.start)
  | access .. | name .. | text .. | number .. | error .. => True

-- The text at the node's place is what the node holds.
def Quoted (text : List Char) : Node → Prop
  | name s v | .text s v => s.excerpt text = v.toList
  | number s _ literal   => s.excerpt text = literal.toList
  | _                    => True

-- Prose need not be quoted, for it loses backslashes and indents, but arguments are.
def Spelled (text : List Char) : Node → Prop
  | .text ..       => True
  | arguments _ ns => ∀ n ∈ ns, n.Quoted text
  | n              => n.Quoted text

structure WellPlaced (text : List Char) (n : Node) : Prop where
  start_le : n.span.start ≤ n.span.stop
  inside   : ∀ c ∈ n.children, n.span.start ≤ c.span.start ∧ c.span.stop ≤ n.span.stop
  apart    : n.Apart
  spelled  : n.Spelled text

-- The nodes stand between `p` and `q`, one behind the other, and all below them is well placed.
structure Arranged (text : List Char) (p : Position) (ns : List Node) (q : Position) : Prop where
  row   : Span.Row p (ns.map (·.span)) q
  every : ∀ n ∈ ns, n.Every (WellPlaced text)

variable {text : List Char} {p q r : Position} {n path args rs : Node} {ns ms alts : List Node}

theorem Apart.of_leaf (h : n.children = []) : n.Apart := by
  cases n <;> simp_all [Apart, children]

theorem Quoted.spelled_of_leaf (h : n.Quoted text) (hn : n.children = []) : n.Spelled text := by
  cases n <;> simp_all [Spelled, children]

theorem hull?_cons (n : Node) (ns : List Node) :
    hull? (n :: ns) = some (n.span.through ((n :: ns).getLast (List.cons_ne_nil n ns)).span) := by
  rw [hull?, List.map_cons, Span.hull?]
  simp only [← List.map_cons, List.getLast_map]

theorem listSpan_cons (path n : Node) (ns : List Node) :
    Source.listSpan path (n :: ns) =
    n.span.through ((n :: ns).getLast (List.cons_ne_nil n ns)).span := by
  rw [Source.listSpan, hull?_cons, Option.getD_some]

namespace Arranged

theorem nil (h : p ≤ q) : Arranged text p [] q :=
  ⟨.nil h, nofun⟩

theorem mono_left (h : Arranged text q ns r) (hp : p ≤ q) : Arranged text p ns r :=
  ⟨h.row.mono_left hp, h.every⟩

theorem mono_right (h : Arranged text p ns q) (hr : q ≤ r) : Arranged text p ns r :=
  ⟨h.row.mono_right hr, h.every⟩

theorem append (h : Arranged text p ns q) (hm : Arranged text q ms r) :
    Arranged text p (ns ++ ms) r where
  row   := by simpa using h.row.append hm.row
  every := by simpa [or_imp, forall_and] using ⟨h.every, hm.every⟩

theorem pairwise (h : Arranged text p ns q) : ns.Pairwise (·.span.stop ≤ ·.span.start) :=
  List.pairwise_map.mp h.row.pairwise

theorem bounds (h : Arranged text p ns q) (hn : n ∈ ns) :
    p ≤ n.span.start ∧ n.span.start ≤ n.span.stop ∧ n.span.stop ≤ q :=
  h.row.bounds (List.mem_map_of_mem hn)

theorem hull (h : Arranged text p (n :: ns) q) :
    let s := n.span.through ((n :: ns).getLast (List.cons_ne_nil n ns)).span
    p ≤ s.start ∧ s.stop ≤ q ∧ Arranged text s.start (n :: ns) s.stop :=
  have ⟨hp, hq, h'⟩ := h.row.hull
  ⟨hp, hq, h', h.every⟩

-- A list of a block reaches over its nodes.
theorem listSpan (h : Arranged text path.span.stop ns q) :
    let s := Source.listSpan path ns
    path.span.stop ≤ s.start ∧ s.stop ≤ q ∧ Arranged text s.start ns s.stop := by
  cases ns
  case nil  => exact ⟨Position.le_refl _, h.row.le, .nil (Position.le_refl _)⟩
  case cons =>
    rw [listSpan_cons]
    exact h.hull

-- A node whose children are arranged within its span.
theorem single (hp : p ≤ n.span.start) (hq : n.span.stop ≤ q)
    (h : Arranged text n.span.start n.children n.span.stop) (ha : n.Apart)
    (hs : n.Spelled text) : Arranged text p [n] q where
  row   := .cons hp h.row.le (.nil hq)
  every := by
    have inside : ∀ c ∈ n.children, n.span.start ≤ c.span.start ∧ c.span.stop ≤ n.span.stop :=
      fun c hc => ⟨(h.bounds hc).1, (h.bounds hc).2.2⟩
    simpa using Every.of_children ⟨h.row.le, inside, ha, hs⟩ h.every

-- The lists of a block need not stand one behind the other.
theorem block {s : Span} (h : Arranged text s.start [path, args] s.stop)
    (hr : Arranged text path.span.stop [rs] s.stop)
    (hb : rs.children ≠ [] → args.span.stop ≤ rs.span.start) (hp : p ≤ s.start)
    (hq : s.stop ≤ q) : Arranged text p [.block s path args rs] q where
  row   := .cons hp h.row.le (.nil hq)
  every := by
    have hpath := h.bounds (n := path) (by simp)
    have hargs := h.bounds (n := args) (by simp)
    have hres  := hr.bounds (n := rs) (by simp)
    have apart : path.span.stop ≤ args.span.start := by simpa using h.pairwise
    have start_le := Position.le_trans hpath.1 <| Position.le_trans hpath.2.1 hres.1
    simp only [List.mem_singleton, forall_eq]
    refine .of_children ⟨h.row.le, ?inside, ⟨apart, hb⟩, trivial⟩ ?every
    case inside =>
      simpa [children] using
        ⟨⟨hpath.1, hpath.2.2⟩, ⟨hargs.1, hargs.2.2⟩, ⟨start_le, hres.2.2⟩⟩
    case every  => simpa [children, and_assoc] using And.intro h.every hr.every

theorem assemble {e : Position} (hp : Arranged text p [path] q) (hn : Arranged text q ns r)
    (hs : ∀ n ∈ ns, n.Quoted text) (hm : Arranged text r ms e) :
    Arranged text p [Source.assemble path ns ms] e := by
  have refl := Position.le_refl
  have ⟨hp₁, hp₂, hp₃⟩ := hp.bounds (n := path) (by simp)
  have ⟨hn₁, hn₂, hn₃⟩ := (hn.mono_left hp₃).listSpan
  have hargs := single (n := .arguments _ ns) hn₁ (refl _) hn₃ hn.pairwise hs
  have hpath : Arranged text path.span.start [path] path.span.stop :=
    ⟨.cons (refl _) hp₂ (.nil (refl _)), hp.every⟩
  have h := hpath.append hargs
  cases ms
  case nil =>
    have hres : Arranged text path.span.stop [.results (.point path.span.stop) []] _ :=
      single (refl _) hargs.row.le (.nil (refl _)) .nil trivial
    have := block (s := ⟨path.span.start, _⟩) h hres nofun hp₁ (Position.le_trans hn₂ hm.row.le)
    cases ns <;> exact this
  case cons m ms =>
    have ⟨hm₁, hm₂, hm₃⟩ := hm.hull
    have hres := single (n := .results _ (m :: ms)) hm₁ (refl _) hm₃ hm.pairwise trivial
    have h := h.mono_right (Position.le_trans hn₂ hres.row.le)
    have hres := hres.mono_left (Position.le_trans hp₃ hn.row.le)
    have := block (s := ⟨path.span.start, _⟩) h hres (fun _ => Position.le_trans hn₂ hm₁) hp₁ hm₂
    rw [Source.assemble, hull?_cons, listSpan_cons]
    exact this

end Arranged
end Node

namespace Source

open Node (Arranged)

variable {src : Source} {p q : Position} {t : Token} {ts us vs rest : List Token} {n : Node}
  {ns as alts : List Node} {block : List Token → Node → List Token → Prop}

-- Tokens that no line end parts are spelled in the text as they are one by one.
def Quotes (src : Source) (ts : List Token) : Prop :=
  ∀ t us, t :: us <:+: ts → (∀ u ∈ t :: us, u.kind ≠ .newline) →
    (hull t us).excerpt src.chars.toList = (t :: us).flatMap (·.slice src.chars)

theorem Quotes.suffix (h : src.Quotes ts) (hu : us <:+ ts) : src.Quotes us :=
  fun t us ht => h t us (ht.trans hu.isInfix)

theorem Quotes.run (h : src.Quotes ts) (hu : t :: us ++ vs <:+ ts)
    (hk : ∀ u ∈ t :: us, u.kind ≠ .newline) :
    (hull t us).excerpt src.chars.toList = (t :: us).flatMap (·.slice src.chars) :=
  h t us ((List.prefix_append _ _).isInfix.trans hu.isInfix) hk

-- The tokens stand behind `p`, one behind the other.
structure Ahead (src : Source) (p : Position) (ts : List Token) : Prop where
  row    : Span.Row p (ts.map (·.span)) src.finish.start
  quotes : src.Quotes ts

namespace Ahead

theorem suffix (h : src.Ahead p ts) (hu : us <:+ ts) : src.Ahead p us :=
  ⟨h.row.suffix (hu.map _), h.quotes.suffix hu⟩

theorem run (h : src.Ahead p ts) (hu : t :: us ++ vs <:+ ts) :
    let s := hull t us
    p ≤ s.start ∧ s.start ≤ s.stop ∧ src.Ahead s.stop vs := by
  have h := h.suffix hu
  have ⟨q, hs, hr⟩ := Span.Row.exists_of_append (List.map_append ▸ h.row)
  have ⟨hp, hq, hs⟩ := hs.hull
  exact ⟨hp, hs.le, hr.mono_left hq, h.quotes.suffix (List.suffix_append _ _)⟩

theorem first (h : src.Ahead p (t :: ts)) :
    p ≤ t.span.start ∧ t.span.start ≤ t.span.stop ∧ src.Ahead t.span.stop ts :=
  have hu : t :: [] ++ ts <:+ t :: ts := List.suffix_rfl
  h.run hu

-- Up to the next token there is nothing.
theorem spanAhead (h : src.Ahead p ts) :
    let q := (Token.spanAhead src.finish ts).start
    p ≤ q ∧ src.Ahead q ts := by
  cases ts
  case nil  => exact ⟨h.row.le, .nil (Position.le_refl _), h.quotes⟩
  case cons =>
    have ⟨hp, hs, hr⟩ := h.first
    exact ⟨hp, .cons (Position.le_refl _) hs hr.row, h.quotes⟩

end Ahead

-- Wherever the tokens stand, the nodes are arranged there, and what is left stands behind them.
def Places (src : Source) (ts : List Token) (ns : List Node) (rest : List Token) : Prop :=
  ∀ p, src.Ahead p ts → ∃ q, Arranged src.chars.toList p ns q ∧ src.Ahead q rest

namespace Places

theorem nil (h : rest <:+ ts) : src.Places ts [] rest :=
  fun p hp => ⟨p, .nil (Position.le_refl p), hp.suffix h⟩

theorem skip (hu : us <:+ ts) (h : src.Places us ns rest) : src.Places ts ns rest :=
  fun p hp => h p (hp.suffix hu)

theorem append (h : src.Places ts ns us) (ha : src.Places us as rest) :
    src.Places ts (ns ++ as) rest := by
  intro p hp
  have ⟨q, hn, hq⟩ := h p hp
  have ⟨r, ha, hr⟩ := ha q hq
  exact ⟨r, hn.append ha, hr⟩

-- A node without children, in the place of some tokens.
theorem leaf (hu : t :: us ++ vs <:+ ts) (hs : n.span = hull t us) (hc : n.children = [])
    (hn : src.Quotes ts → n.Spelled src.chars.toList) : src.Places ts [n] vs := by
  intro p hp
  have ⟨h₁, h₂, hr⟩ := hp.run hu
  rw [← hs] at h₁ h₂ hr
  have h : Arranged src.chars.toList n.span.start n.children n.span.stop := hc ▸ .nil h₂
  exact ⟨_, .single h₁ (Position.le_refl _) h (.of_leaf hc) (hn hp.quotes), hr⟩

end Places

-- Paths

theorem places_segment (hk : t.kind.isSegment = true) :
    src.Places (t :: ts) [src.segment t] ts := by
  have hu : t :: [] ++ ts <:+ t :: ts := List.suffix_rfl
  have hk : ∀ u ∈ [t], u.kind ≠ .newline := by
    simpa using fun h => by simp [h, Token.Kind.isSegment] at hk
  refine .leaf hu rfl rfl fun hq => ?_
  have hr := hq.run hu hk
  simpa [segment, Node.Spelled, Node.Quoted, Token.content, hull, Span.through] using hr

theorem FindsSegments.places (h : src.FindsSegments ts ns rest) :
    ns ≠ [] ∧ src.Places ts ns rest := by
  induction h
  case last hk               => exact ⟨List.cons_ne_nil _ _, places_segment hk⟩
  case dot dot _ _ _ hk _ ih =>
    have ih := ih.2.skip (List.suffix_cons dot _)
    exact ⟨List.cons_ne_nil _ _, (places_segment hk).append ih⟩

theorem FindsPath.places (h : src.FindsPath ts n rest) : src.Places ts [n] rest := by
  intro p hp
  cases h
  case plain ns h =>
    have ⟨hn, h⟩ := h.places
    obtain ⟨m, ns, rfl⟩ := List.exists_cons_of_ne_nil hn
    have ⟨q, hq, hr⟩ := h p hp
    have ⟨h₁, h₂, h₃⟩ := hq.hull
    rw [Node.path, Node.hull?_cons]
    exact ⟨q, .single h₁ h₂ h₃ hq.pairwise trivial, hr⟩
  case marked ns mark h =>
    have ⟨hn, h⟩ := h.places
    obtain ⟨m, ns, rfl⟩ := List.exists_cons_of_ne_nil hn
    have ⟨q, hq, hr⟩ := h p hp
    have ⟨h₁, h₂, h₃⟩ := hq.hull
    have ⟨hm₁, hm₂, hr⟩ := hr.first
    have hm := h₃.mono_right <| Position.le_trans h₂ <| Position.le_trans hm₁ hm₂
    rw [Node.hull?_cons]
    exact ⟨_, .single h₁ (Position.le_refl _) hm hq.pairwise trivial, hr⟩

-- Arguments

theorem span_argument (src : Source) (t : Token) (us : List Token) :
    (src.argument t us).span = hull t us := by
  simp only [argument]
  split <;> rfl

theorem children_argument (src : Source) (t : Token) (us : List Token) :
    (src.argument t us).children = [] := by
  simp only [argument]
  split <;> rfl

theorem Quotes.argument (h : src.Quotes ts) (hu : t :: us ++ vs <:+ ts)
    (hk : ∀ u ∈ t :: us, u.kind.isArgument = true) :
    (src.argument t us).Quoted src.chars.toList := by
  have hk : ∀ u ∈ t :: us, u.kind ≠ .newline := by
    intro u hu hn
    simpa [hn, Token.Kind.isArgument] using hk u hu
  have := h.run hu hk
  simp only [Source.argument]
  split <;> simpa [Node.Quoted] using this

theorem FindsArguments.quoted (h : src.FindsArguments ts ns rest) (hq : src.Quotes ts) :
    ∀ n ∈ ns, n.Quoted src.chars.toList := by
  induction h
  case nil              => nofun
  case cons hu hk _ ih  =>
    have ih := ih <| hq.suffix <| (List.suffix_append _ _).trans hu
    exact List.forall_mem_cons.mpr ⟨hq.argument hu hk, ih⟩

theorem FindsArguments.places (h : src.FindsArguments ts ns rest) : src.Places ts ns rest := by
  induction h
  case nil hr           => exact .nil hr
  case cons t us vs _ _ hu hk _ ih =>
    have hc := src.children_argument t us
    have ha := Places.leaf hu (src.span_argument t us) hc fun hq =>
      (hq.argument hu hk).spelled_of_leaf hc
    exact ha.append ih

-- Pieces, alternatives and blocks

theorem FindsPieces.places (H : ∀ {ts n rest}, block ts n rest → src.Places ts [n] rest)
    (h : src.FindsPieces block ts ns rest) : src.Places ts ns rest := by
  induction h
  case nil hr         => exact .nil hr
  case text t us _ _ _ indent hu _ ih =>
    have ht : src.Places _ [src.prose indent t us] _ := .leaf hu rfl rfl fun _ => trivial
    exact ht.append ih
  case block hu hb _ _ ih => exact ((H hb).skip hu).append ih

theorem Places.gather (h : src.Places ts ns us) :
    src.Places ts [gather (Token.spanAhead src.finish us) ns] us := by
  intro p hp
  have ⟨q, hn, hr⟩ := h p hp
  rcases ns with _ | ⟨n, _ | ⟨m, ns⟩⟩
  case nil       =>
    have ⟨hq, hr⟩ := hr.spanAhead
    have hle := Position.le_refl (Token.spanAhead src.finish us).start
    exact ⟨_, .single (Position.le_trans hn.row.le hq) hle (.nil hle) trivial trivial, hr⟩
  case cons.nil  => exact ⟨q, hn, hr⟩
  case cons.cons =>
    have ⟨h₁, h₂, h₃⟩ := hn.hull
    exact ⟨q, .single h₁ h₂ h₃ hn.pairwise trivial, hr⟩

theorem FindsAlternatives.places (H : ∀ {ts n rest}, block ts n rest → src.Places ts [n] rest)
    (h : src.FindsAlternatives block ts ns rest) : src.Places ts ns rest := by
  induction h
  case nil        => exact .nil List.suffix_rfl
  case cons pipe _ _ _ _ _ hp _ ih =>
    have hp := (hp.places H).gather.skip (List.suffix_cons pipe _)
    exact hp.append ih

theorem FindsBlock.places (H : ∀ {ts n rest}, block ts n rest → src.Places ts [n] rest)
    (h : src.FindsBlock block ts n rest) : src.Places ts [n] rest := by
  intro p hp
  obtain ⟨hu, hpath, hargs, halts, hrest⟩ := h
  have ⟨q, h₁, hq⟩ := hpath.places p (hp.suffix hu)
  have ⟨r, h₂, hr⟩ := hargs.places q hq
  have ⟨e, h₃, he⟩ := halts.places H r hr
  exact ⟨e, h₁.assemble h₂ (hargs.quoted hq.quotes) h₃, he.suffix hrest⟩

theorem FindsNested.places {k : Nat} (h : src.FindsNested k ts n rest) :
    src.Places ts [n] rest := by
  induction k generalizing ts n rest
  case zero      => exact h.elim
  case succ k ih => exact FindsBlock.places ih h

end Source

theorem Token.ahead_scan (text : String) :
    (Source.ofTokens text (scan text)).Ahead ⟨0, 0⟩ (scan text) where
  row    := row_scan text
  quotes := fun _ _ hu _ => excerpt_hull hu

theorem Template.arranged_root (text : String) :
    Node.Arranged text.toList ⟨0, 0⟩ [(read text).root] (.behind text.toList) := by
  have ⟨ns, rest, h, hr⟩ := exists_pieces text
  have ⟨q, hn, ha⟩ := (h.places Source.FindsNested.places).gather _ (Token.ahead_scan text)
  rw [hr]
  exact hn.mono_right <| Position.le_trans ha.row.le <| Token.finish_scan_le text

theorem Template.root_wellPlaced (text : String) :
    (read text).root.Every (Node.WellPlaced text.toList) := by
  have ⟨ns, rest, h, hr⟩ := exists_pieces text
  have ⟨q, hn, _⟩ := (h.places Source.FindsNested.places).gather _ (Token.ahead_scan text)
  rw [hr]
  exact hn.every _ (by simp)

end Stencil

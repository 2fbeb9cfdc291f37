import Stencil.Proofs.Number.Spelling
import Stencil.Proofs.Render.Failure
import Stencil.Proofs.Render.Rules
import Stencil.Proofs.Template.Placing

namespace Stencil

theorem join_map_flatMap {α β : Type} (f : β → String) (g : α → List β) (as : List α) :
    String.join ((as.flatMap g).map f) =
    String.join (as.map fun a => String.join ((g a).map f)) := by
  simp [← String.toList_inj, List.map_flatMap, List.flatMap_map, List.flatMap_assoc]

open Node (IsAlternative IsOperand IsPath IsPiece WellFormed WellPlaced Within)

namespace Node

variable {ctx : Context} {m n : Node}

-- The node `m` is shown as a part of `n`. Of the alternatives of a block only the chosen one is.
inductive Visible (ctx : Context) (m : Node) : Node → Prop
  | refl : Visible ctx m m
  | piece {s ns c} : c ∈ ns → Visible ctx m c → Visible ctx m (concat s ns)
  | chosen {s p as t rs i r} :
    (block s p as (results t rs)).Gives ctx (.selection i) → rs[i]? = some r →
    Visible ctx m r → Visible ctx m (block s p as (results t rs))

theorem Visible.within (h : m.Visible ctx n) : m.Within n := by
  induction h
  case refl => exact .refl
  case piece hc _ ih => exact .child hc ih
  case chosen s p as t rs _ r _ hr _ ih =>
    have hr : r ∈ (results t rs).children := List.mem_of_getElem? hr
    exact .child (c := results t rs) (by simp [children]) (.child hr ih)

-- The text that a node shows in its own place. A block that chooses an alternative that is left out
-- shows nothing there, and so does a block that fails.
inductive Shows (ctx : Context) : Node → String → Prop
  | prose {s v}  : Shows ctx (text s v) v
  | text {b v}   : b.Gives ctx (.text v) → Shows ctx b v
  | number {b x} :
    b.Gives ctx (.number x) → x.Spelled (x.render .code) → Shows ctx b (x.render .code)
  | absent {s p as t rs i} :
    (block s p as (results t rs)).Gives ctx (.selection i) → rs.length ≤ i →
    Shows ctx (block s p as (results t rs)) ""
  | failed {b}   : b.Fails ctx → Shows ctx b ""

end Node

-- The pieces are what is shown of the node, as some fragment has it, one behind the other.
structure Fragment.Highlights (ctx : Context) (n : Node) (f : Fragment)
    (pieces : List (Node × String)) : Prop where
  spans : f.spans = pieces.map (·.1.span)
  text  : f.text = String.join (pieces.map (·.2))
  shown : pieces ≠ []
  row   : Span.Row n.span.start f.spans n.span.stop
  each  : ∀ e ∈ pieces, e.1.Visible ctx n ∧ e.1.Shows ctx e.2

namespace Fragment.Highlights

variable {ctx : Context} {n r p : Node} {f g : Fragment} {v : String}
  {pieces : List (Node × String)}

theorem own (h : n.Shows ctx v) (hs : f.spans = [n.span]) (hv : f.text = v)
    (hn : n.span.start ≤ n.span.stop) : Highlights ctx n f [(n, v)] where
  spans := hs
  text  := by simp [hv]
  shown := List.cons_ne_nil _ _
  row   := hs ▸ .cons (Position.le_refl _) hn (.nil (Position.le_refl _))
  each  := by simpa using ⟨.refl, h⟩

theorem chosen {s t : Span} {as : Node} {rs : List Node} {i : Nat}
    (h : Highlights ctx r g pieces)
    (hi : (Node.block s p as (.results t rs)).Gives ctx (.selection i)) (hr : rs[i]? = some r)
    (hs : f.spans = g.spans) (hv : f.text = g.text) (hp : s.start ≤ r.span.start)
    (hq : r.span.stop ≤ s.stop) :
    Highlights ctx (.block s p as (.results t rs)) f pieces where
  spans := hs.trans h.spans
  text  := hv.trans h.text
  shown := h.shown
  row   := hs ▸ (h.row.mono_left hp).mono_right hq
  each  := fun e he => ⟨.chosen hi hr (h.each e he).1, (h.each e he).2⟩

theorem concat {s : Span} {ns : List Node} {parts : Node → List (Node × String)}
    (h : ∀ n ∈ ns, Highlights ctx n (ctx.evaluate n).1 (parts n)) (hn : ns ≠ [])
    (hrow : Span.Row s.start (ns.map (·.span)) s.stop) :
    Highlights ctx (.concat s ns) (ctx.evaluate (.concat s ns)).1 (ns.flatMap parts) := by
  have hf := ctx.fragment_concat s ns
  have hspans : (ctx.evaluate (.concat s ns)).1.spans =
      ns.flatMap fun n => (ctx.evaluate n).1.spans := by
    simp [hf, Context.concat, List.flatMap_map]
  refine ⟨?spans, ?text, ?shown, ?row, ?each⟩
  case spans =>
    rw [hspans, List.map_flatMap]
    exact List.flatMap_congr fun n hn => (h n hn).spans
  case text =>
    have ht : ns.map (fun n => (ctx.evaluate n).1.text) =
        ns.map fun n => String.join ((parts n).map (·.2)) :=
      List.map_congr_left fun n hn => (h n hn).text
    rw [join_map_flatMap, ← ht, hf]
    simp [Context.concat, Fragment.text, Value.render, Function.comp_def]
  case shown =>
    obtain ⟨n, ns, rfl⟩ := List.exists_cons_of_ne_nil hn
    simp [(h n (by simp)).shown]
  case row => exact hspans ▸ hrow.flatMap fun n hn => (h n hn).row
  case each =>
    intro e he
    obtain ⟨n, hn, he⟩ := List.mem_flatMap.mp he
    obtain ⟨hv, hs⟩ := (h n hn).each e he
    exact ⟨.piece hn hv, hs⟩

end Fragment.Highlights

namespace Context

variable {ctx : Context} {chars : List Char}

theorem exists_highlights_block {s t u : Span} {p : Node} {as rs : List Node} (hp : IsPath p)
    (has : ∀ a ∈ as, IsOperand a ∧ WellFormed a) (hs : s.start ≤ s.stop)
    (hin : ∀ r ∈ rs, s.start ≤ r.span.start ∧ r.span.stop ≤ s.stop)
    (ih : ∀ r ∈ rs, ∃ pieces, Fragment.Highlights ctx r (ctx.evaluate r).1 pieces) :
    let n := Node.block s p (.arguments t as) (.results u rs)
    ∃ pieces, Fragment.Highlights ctx n (ctx.evaluate n).1 pieces := by
  intro n
  by_cases hf : n.Fails ctx
  case pos =>
    have h := evaluate_of_fails hf
    exact ⟨_, .own (.failed hf) (congrArg (·.spans) h) (congrArg (·.text) h) hs⟩
  case neg =>
    obtain ⟨o, code, ho, h⟩ := exists_outcome_of_not_fails hp hf
    have hg : n.Gives ctx o := gives_of_outcome hp has ho
    cases o
    case text v   => exact ⟨_, .own (.text hg) (congrArg (·.spans) h) (congrArg (·.text) h) hs⟩
    case number x =>
      have hg := Node.Shows.number hg x.spelled_render
      exact ⟨_, .own hg (congrArg (·.spans) h) (congrArg (·.text) h) hs⟩
    case selection i =>
      have hi : (ctx.blockOf s p (.arguments t as) (.results u rs)).alternatives[i]? =
          rs[i]?.map fun r => (ctx.evaluate r).1.orEmptyLiteral := by
        simp [blockOf, items_results]
      rw [Block.reveal, hi] at h
      cases hr : rs[i]? <;> rw [hr] at h
      case none =>
        have hg := Node.Shows.absent hg (by simpa using hr)
        exact ⟨_, .own hg (congrArg (·.spans) h) (congrArg (·.text) h) hs⟩
      case some r =>
        have hm := List.mem_of_getElem? hr
        obtain ⟨h₁, h₂⟩ := hin r hm
        obtain ⟨pieces, ih⟩ := ih r hm
        refine ⟨pieces, ih.chosen hg hr ?spans ?text h₁ h₂⟩
        case spans => exact (congrArg (·.spans) h).trans (Fragment.spans_orEmptyLiteral _)
        case text  => exact (congrArg (·.text) h).trans (Fragment.text_orEmptyLiteral _)

theorem exists_highlights_concat {s : Span} {ns : List Node} (hn : ns ≠ []) (hs : s.start ≤ s.stop)
    (hap : ns.Pairwise (·.span.stop ≤ ·.span.start))
    (hin : ∀ n ∈ ns, s.start ≤ n.span.start ∧ n.span.start ≤ n.span.stop ∧ n.span.stop ≤ s.stop)
    (ih : ∀ n ∈ ns, ∃ pieces, Fragment.Highlights ctx n (ctx.evaluate n).1 pieces) :
    let n := Node.concat s ns
    ∃ pieces, Fragment.Highlights ctx n (ctx.evaluate n).1 pieces := by
  choose! parts ih using ih
  have hrow : Span.Row s.start (ns.map (·.span)) s.stop :=
    .of_pairwise (List.pairwise_map.mpr hap) hs (List.forall_mem_map.mpr hin)
  exact ⟨_, .concat ih hn hrow⟩

theorem exists_highlights (n : Node) (hk : IsAlternative n) (hw : n.Every WellFormed)
    (hp : n.Every (WellPlaced chars)) :
    ∃ pieces, Fragment.Highlights ctx n (ctx.evaluate n).1 pieces := by
  -- By size, for the alternatives of a block are not its children but theirs.
  have ih (c : Node) (hc : c.size < n.size) (hk : IsAlternative c) (hw : c.Every WellFormed)
      (hp : c.Every (WellPlaced chars)) :
      ∃ pieces, Fragment.Highlights ctx c (ctx.evaluate c).1 pieces :=
    exists_highlights c hk hw hp
  obtain ⟨hle, hin, hap, -⟩ := hp n .refl
  cases hk
  case concat s ns =>
    cases hw _ .refl
    case concat hlen hk =>
      refine exists_highlights_concat (by rintro rfl; simp at hlen) hle hap ?inside fun c hc => ?ih
      case inside =>
        exact fun c hc => ⟨(hin c hc).1, (hp c (.child hc .refl)).start_le, (hin c hc).2⟩
      case ih     =>
        have hsize : c.size < (Node.concat s ns).size := Node.size_lt_of_mem_children hc
        exact ih c hsize (.piece (hk c hc)) (hw.of_mem hc) (hp.of_mem hc)
  case piece hk =>
    cases hk
    case text s v => exact ⟨_, .own .prose rfl rfl hle⟩
    case block s p as rs =>
      cases hw _ .refl
      case block t as u rs hpath =>
        have hrs := hin (.results u rs) (by simp [Node.children])
        have hrw : (Node.results u rs).Every WellFormed := hw.of_mem (by simp [Node.children])
        have hrp : (Node.results u rs).Every (WellPlaced chars) :=
          hp.of_mem (by simp [Node.children])
        refine exists_highlights_block hpath hw.operands hle ?inside fun r hm => ?ih
        case inside =>
          intro r hm
          obtain ⟨h₁, h₂⟩ := (hrp _ .refl).inside r hm
          exact ⟨Position.le_trans hrs.1 h₁, Position.le_trans h₂ hrs.2⟩
        case ih =>
          have hk := hw.alternatives r hm
          exact ih r (Node.size_lt_of_alternative hm) hk (hrw.of_mem hm) (hrp.of_mem hm)
termination_by n.size
decreasing_by exact hc

end Context

-- The places of a rendering stand one behind the other in the text, and what is shown is parted
-- among them: each shows the text of a node that stands there.
theorem render_spans_faithful (ctx : Context) (text : String) :
    let r := render ctx text
    ∃ pieces : List (Node × String),
      pieces ≠ [] ∧ r.spans = pieces.map (·.1.span) ∧ r.result = String.join (pieces.map (·.2)) ∧
      Span.Row ⟨0, 0⟩ r.spans (.behind text.toList) ∧
      ∀ e ∈ pieces, e.1.Within (Template.read text).root ∧
        e.1.Visible ctx (Template.read text).root ∧ e.1.Shows ctx e.2 := by
  have hw := Template.sound_root text
  have hr := Template.arranged_root text
  obtain ⟨pieces, h⟩ := ctx.exists_highlights _ hw.1 hw.2.every (hr.every _ (by simp))
  obtain ⟨hp, _, hq⟩ := hr.bounds (List.mem_singleton_self _)
  have hs : (render ctx text).spans = pieces.map (·.1.span) := by
    simp [render, Node.render_eq, Rendering.ofFragment, h.spans, h.shown]
  refine ⟨pieces, h.shown, hs, ?text, ?row, ?each⟩
  case text => simpa [render, Node.render_eq, Rendering.ofFragment] using h.text
  case row  => exact hs ▸ h.spans ▸ (h.row.mono_left hp).mono_right hq
  case each => exact fun e he => ⟨(h.each e he).1.within, h.each e he⟩

end Stencil

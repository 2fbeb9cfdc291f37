import Stencil.Proofs.Node.Replace
import Stencil.Proofs.Render.WithoutCode

namespace Stencil

open Node (segmentNames WellFormed)

-- The path of the block leads nowhere, or there is a fault in what it leads to.
inductive Node.Fails (ctx : Context) : Node → Prop
  | unresolved {s t segs as rs e} :
    ctx.bindings.lookup (segmentNames segs) = .error e →
    Fails ctx (.block s (.retrieve t segs) as rs)
  | reported {s p as rs} :
    ctx.ownFaults (.block s p as rs) ≠ [] → Fails ctx (.block s p as rs)

variable {ctx : Context} {n m b : Node}

theorem Context.evaluate_of_fails (h : b.Fails ctx) :
    (ctx.evaluate b).1 = .blank b.span := by
  cases h
  case unresolved s t segs as rs e h =>
    have hm : (ctx.blockOf s (.retrieve t segs) as rs).path.value = .missing :=
      value_retrieve_of_lookup_error h
    obtain ⟨code, hs, _⟩ := ctx.exists_settle s (.retrieve t segs) as rs
    rw [hs, Block.settle_of_missing hm]
    rfl
  case reported s p as rs h =>
    obtain ⟨code, hs, hf⟩ := ctx.exists_settle s p as rs
    rw [hf] at h
    exact hs.trans (Block.settle_of_faults h)

-- A block that does not fail comes to something and shows that.
theorem Context.exists_outcome_of_not_fails {s : Span} {p as rs : Node} (hp : Node.IsPath p)
    (h : ¬(Node.block s p as rs).Fails ctx) :
    ∃ o code, (ctx.blockOf s p as rs).outcome = .ok o ∧
      (ctx.evaluate (.block s p as rs)).1 = (ctx.blockOf s p as rs).reveal code o := by
  have hm : (ctx.blockOf s p as rs).path.value ≠ .missing := by
    cases hp
    case present         => simp [blockOf, evaluate, leaf, Fragment.ofValue]
    case retrieve t segs =>
      cases hl : ctx.bindings.lookup (segmentNames segs)
      case error => exact absurd (.unresolved hl) h
      case ok x  =>
        have hx : (ctx.blockOf s (.retrieve t segs) as rs).path.value = .symbol x :=
          value_retrieve_of_lookup hl
        simp [hx]
  obtain ⟨code, hs, hf⟩ := ctx.exists_settle s p as rs
  rw [Block.settle_of_ne_missing hm] at hs hf
  cases ho : (ctx.blockOf s p as rs).outcome
  case error => exact absurd (.reported (by simp [hf, ho])) h
  case ok o  => exact ⟨o, code, rfl, by simpa [ho] using hs⟩

-- The fragments are equal but for code, and the first faults are the second ones and `faults`.
structure Evaluated.Removes (faults : List (Fault EvalError)) (e e' : Evaluated) : Prop where
  fragment : e.1.Agree e'.1
  faults   : ∃ before after, e.2 = before ++ faults ++ after ∧ e'.2 = before ++ after

namespace Evaluated.Removes

variable {faults : List (Fault EvalError)} {e e' : Evaluated} {c c' rs rs' : Node}

theorem join {n n' : Node} (h : Removes faults e e') (us vs : List Evaluated)
    (hc : (ctx.combine n ((us ++ e :: vs).map (·.1))).Agree
      (ctx.combine n' ((us ++ e' :: vs).map (·.1)))) :
    Removes faults (ctx.join n (us ++ e :: vs)) (ctx.join n' (us ++ e' :: vs)) := by
  obtain ⟨before, after, he, he'⟩ := h.faults
  let own := (ctx.combine n ((us ++ e :: vs).map (·.1))).2
  refine ⟨hc.fragment, us.flatMap (·.2) ++ before, after ++ vs.flatMap (·.2) ++ own, ?_, ?_⟩
  · simp [Context.join, he, own]
  · simp [Context.join, he', own, hc.faults]

theorem around (h : Removes faults e e') (us vs : List Evaluated) :
    ((us ++ e :: vs).map (·.1)).map (·.withoutCode) =
    ((us ++ e' :: vs).map (·.1)).map (·.withoutCode) := by
  simp [h.fragment.withoutCode]

theorem concat (h : Removes faults (ctx.evaluate c) (ctx.evaluate c')) (s : Span)
    (us vs : List Node) :
    Removes faults (ctx.evaluate (.concat s (us ++ c :: vs)))
      (ctx.evaluate (.concat s (us ++ c' :: vs))) := by
  simp only [Context.evaluate, Context.evaluateAll_eq_map, List.map_append, List.map_cons]
  exact h.join _ _ ⟨Context.concat_agree (h.around ..), rfl⟩

theorem results (h : Removes faults (ctx.evaluate c) (ctx.evaluate c')) (s : Span)
    (us vs : List Node) :
    Removes faults (ctx.evaluate (.results s (us ++ c :: vs)))
      (ctx.evaluate (.results s (us ++ c' :: vs))) := by
  simp only [Context.evaluate, Context.evaluateAll_eq_map, List.map_append, List.map_cons]
  exact h.join _ _ ⟨Context.collect_agree (h.around ..), rfl⟩

theorem block {p : Node} (h : Removes faults (ctx.evaluate rs) (ctx.evaluate rs'))
    (hp : p.IsAddress) (s : Span) (as : Node) :
    Removes faults (ctx.evaluate (.block s p as rs)) (ctx.evaluate (.block s p as rs')) := by
  let found := (ctx.evaluate p).1
  let args := (ctx.evaluate as).1
  have hown : (ctx.block s p found args (ctx.evaluate rs).1).Agree
      (ctx.block s p found args (ctx.evaluate rs').1) :=
    Context.block_agree hp.exists_pathName .refl rfl h.fragment
  simp only [Context.evaluate]
  exact h.join [ctx.evaluate p, ctx.evaluate as] [] hown

end Evaluated.Removes

namespace Node

theorem shallow_of_names {ns : List Node} (hb : n.isBlock = false) (hc : n.children = ns)
    (h : ∀ n ∈ ns, ∃ s v, n = .name s v) : n.Shallow := by
  refine ⟨hb, fun c hm => ?_⟩
  obtain ⟨s, v, rfl⟩ := h c (hc ▸ hm)
  exact ⟨rfl, rfl⟩

theorem IsPath.shallow {p : Node} (hp : IsPath p) (h : WellFormed p) : p.Shallow := by
  cases hp <;> cases h
  case retrieve h => exact shallow_of_names rfl rfl h
  case present h  => exact shallow_of_names rfl rfl h

theorem shallow_arguments {s : Span} {ns : List Node} (h : ∀ n ∈ ns, IsOperand n) :
    (arguments s ns).Shallow := by
  refine ⟨rfl, fun c hc => ?_⟩
  cases h c hc <;> exact ⟨rfl, rfl⟩

theorem Fails.of_isBlock (h : b.isBlock = true) (hf : ctx.ownFaults b ≠ []) : b.Fails ctx := by
  cases b
  case block => exact .reported hf
  all_goals cases h

theorem Fails.isBlock (h : b.Fails ctx) : b.isBlock = true := by
  cases h <;> rfl

theorem Fails.not_shallow (hb : b.Fails ctx) {is : List Nat} (h : n.at? is = some b) :
    ¬n.Shallow := fun hn => by
  simpa [hb.isBlock] using hn.not_isBlock h

-- By induction on the way down: a step changes but the fragment and the faults of one child. Paths
-- and arguments hold no blocks, so no way to a block leads through them.
theorem Fails.removes (hb : b.Fails ctx) {is : List Nat} (hn : n.Every WellFormed)
    (h : n.at? is = some b) :
    Evaluated.Removes (ctx.evaluate b).2 (ctx.evaluate n)
      (ctx.evaluate (n.replaceAt is (.text b.span ""))) := by
  induction is generalizing n
  case nil =>
    obtain rfl := Option.some.inj h
    refine ⟨?_, [], [], by simp, rfl⟩
    rw [Context.evaluate_of_fails hb]
    exact .ofValue rfl ..
  case cons i is ih =>
    obtain ⟨c, hi, hc⟩ := Option.bind_eq_some_iff.mp h
    have ih := ih (hn.of_mem (List.mem_of_getElem? hi)) hc
    cases hn _ .refl
    case concat s ns _ _ =>
      change ns[i]? = some c at hi
      obtain ⟨us, vs, hns, hm⟩ := exists_modify_eq hi (·.replaceAt is (.text b.span ""))
      rw [replaceAt, modifyChild, hm, hns]
      exact ih.concat ..
    case results s ns _ =>
      change ns[i]? = some c at hi
      obtain ⟨us, vs, hns, hm⟩ := exists_modify_eq hi (·.replaceAt is (.text b.span ""))
      rw [replaceAt, modifyChild, hm, hns]
      exact ih.results ..
    case block s p s₁ as s₂ rs hp =>
      rcases i with _ | _ | _ | i <;> cases hi
      case zero =>
        have hw := hn c (.child (by simp [children]) .refl)
        exact absurd (hp.shallow hw) (hb.not_shallow hc)
      case succ.zero =>
        cases hn (.arguments s₁ as) (.child (by simp [children]) .refl)
        case arguments has => exact absurd (shallow_arguments has) (hb.not_shallow hc)
      case succ.succ.zero => exact ih.block hp.isAddress s (.arguments s₁ as)
    case retrieve hne hns =>
      exact absurd (IsPath.retrieve.shallow (.retrieve hne hns)) (hb.not_shallow h)
    case present hne hns =>
      exact absurd (IsPath.present.shallow (.present hne hns)) (hb.not_shallow h)
    case arguments hns => exact absurd (shallow_arguments hns) (hb.not_shallow h)
    all_goals cases hi

end Node

namespace Template

open Node

-- In the place of a block that fails, an empty text does as well: nothing else is shown or reported
-- but for the faults of the block and of what stands in it.
theorem render_replaceAt_of_fails {text : String} {is : List Nat}
    (h : (read text).root.at? is = some b) (hb : b.Fails ctx) :
    let r := (read text).root.render ctx
    let r' := ((read text).root.replaceAt is (.text b.span "")).render ctx
    r'.result = r.result ∧ r'.spans = r.spans ∧
    ∃ before after,
      r.faults = before ++ (b.render ctx).faults ++ after ∧ r'.faults = before ++ after := by
  have hr := hb.removes (sound_root text).2.every h
  have hs : ((read text).root.replaceAt is (.text b.span "")).span = (read text).root.span :=
    span_replaceAt h rfl
  simpa only [render_eq, Rendering.ofFragment, hs, hr.fragment.text, hr.fragment.spans, true_and]
    using hr.faults

-- The block stands in an alternative that is shown, and has none to show itself.
theorem render_replaceAt_of_fails_in_alternative :
    let ctx : Context := ⟨.ofList [("ok", .boolean false)], true⟩
    let root := (read "a[ok||no [ok]!]").root
    let is := [1, 2, 1, 1]
    let r := root.render ctx
    r.result = "ano !" ∧ ∃ b,
      root.at? is = some b ∧ b.Fails ctx ∧
      let r' := (root.replaceAt is (.text b.span "")).render ctx
      r'.result = r.result ∧ r'.spans = r.spans ∧
      ∃ before after,
        r.faults = before ++ (b.render ctx).faults ++ after ∧ r'.faults = before ++ after := by
  intro ctx root is r
  have hr : r.result = "ano !" := by decide +kernel
  have hblock : ((root.at? is).getD root).isBlock = true := by decide +kernel
  have hfaults : ctx.ownFaults ((root.at? is).getD root) ≠ [] := by decide +kernel
  obtain ⟨b, h⟩ : ∃ b, root.at? is = some b := Option.isSome_iff_exists.mp (by decide +kernel)
  rw [h, Option.getD_some] at hblock hfaults
  have hb : b.Fails ctx := .of_isBlock hblock hfaults
  exact ⟨hr, b, h, hb, render_replaceAt_of_fails h hb⟩

end Template
end Stencil

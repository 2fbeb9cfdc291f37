import Stencil.Proofs.Render.Highlight

namespace Stencil

namespace Outcome

variable {name value : String} {args : List Fragment} {alts : List String} {o : Outcome}

theorem between_of_length_le {holds : Bool} (h : alts ≠ []) (hl : alts.length ≤ 2) :
    between name alts holds = .ok (.selection (if holds then 0 else 1)) := by
  rcases alts with _ | ⟨_, _ | ⟨_, _ | _⟩⟩ <;> simp_all [between]

theorem ofNumber_of_thresholds {x : Binary64} {ts : List Binary64} (ha : args ≠ []) (hr : alts ≠ [])
    (hl : alts.length ≤ args.length + 1) (hts : Block.thresholds? args = some ts) :
    ofNumber name args alts x =
    .ok (.selection ((lastIndex? (fun t => t ≤ x) ts).getD ts.length)) := by
  rcases args with _ | ⟨a, args⟩
  case nil => contradiction
  rcases alts with _ | ⟨r, alts⟩
  case nil => contradiction
  simp_all [ofNumber]

theorem ofFunction_of_call {f : Function} (ha : ∀ max ∈ f.maxArguments, args.length ≤ max)
    (hr : ∀ max ∈ f.maxResults, alts.length ≤ max)
    (hf : f.call (args.map Block.argument) alts = .ok o)
    (hi : ∀ i, o = .selection i → i < alts.length) : ofFunction name args alts f = .ok o := by
  have within {n : Nat} {limit : Option Nat} (h : ∀ max ∈ limit, n ≤ max) :
      Block.exceeded? n limit = none := by
    simpa [Block.exceeded?] using h
  simp only [ofFunction, within ha, within hr, hf]
  cases o
  case selection i => simp [hi i rfl]
  all_goals rfl

end Outcome

open Node (IsAlternative IsOperand IsPath WellFormed WellPlaced)

namespace Context

variable {ctx : Context} {s u v : Span} {p : Node} {as rs : List Node} {o : Outcome}

theorem outcome_of_gives (has : ∀ a ∈ as, IsOperand a ∧ WellFormed a)
    (h : (Node.block s p (.arguments u as) (.results v rs)).Gives ctx o) :
    (ctx.blockOf s p (.arguments u as) (.results v rs)).outcome = .ok o := by
  have ops : ∀ a ∈ as, IsOperand a := fun a ha => (has a ha).1
  simp only [Block.outcome, blockOf, items_arguments, texts_results]
  cases h
  case present hr hl => exact Outcome.between_of_length_le (by simpa using hr) (by simpa using hl)
  case boolean hx hr hl =>
    rw [value_retrieve_of_lookup hx]
    exact Outcome.between_of_length_le (by simpa using hr) (by simpa using hl)
  case string hx =>
    rw [value_retrieve_of_lookup hx]
    rfl
  case compare a _ hx hr hl =>
    obtain ⟨ha, hw⟩ := has a (List.mem_singleton_self a)
    have hlit : (ctx.evaluate a).1.orEmptyLiteral.literal = a.spelling := literal_of_isOperand ha hw
    rw [value_retrieve_of_lookup hx, ← hlit]
    refine (Outcome.between_of_length_le (by simpa using hr) (by simpa using hl)).trans ?_
    simp only [decide_eq_true_eq]
  case number hx =>
    rw [value_retrieve_of_lookup hx]
    rfl
  case range hx ha hts hr hl =>
    rw [value_retrieve_of_lookup hx]
    rw [← thresholds?_map ops] at hts
    exact Outcome.ofNumber_of_thresholds (by simpa using ha) (by simpa using hr)
      (by simpa using hl) hts
  case call hx ha hr hi hf =>
    rw [value_retrieve_of_lookup hx]
    rw [← map_argument ops] at hf
    exact Outcome.ofFunction_of_call (by simpa using ha) (by simpa using hr) hf (by simpa using hi)

theorem gives_iff_outcome (hp : IsPath p) (has : ∀ a ∈ as, IsOperand a ∧ WellFormed a) :
    (Node.block s p (.arguments u as) (.results v rs)).Gives ctx o ↔
    (ctx.blockOf s p (.arguments u as) (.results v rs)).outcome = .ok o :=
  ⟨outcome_of_gives has, gives_of_outcome hp has⟩

-- A block with an outcome shows it, and has nothing to report.
theorem exists_reveal {as rs : Node} (h : (ctx.blockOf s p as rs).outcome = .ok o) :
    ∃ code, (ctx.evaluate (.block s p as rs)).1 = (ctx.blockOf s p as rs).reveal code o ∧
      ctx.ownFaults (.block s p as rs) = [] := by
  have hm : (ctx.blockOf s p as rs).path.value ≠ .missing := by
    intro hm
    simp [Block.outcome, hm, Outcome.ofValue] at h
  obtain ⟨code, hs, hf⟩ := ctx.exists_settle s p as rs
  rw [Block.settle_of_ne_missing hm, h] at hs hf
  exact ⟨code, hs, hf⟩

-- The faults of a node are those of its children and its own.
theorem faults_evaluate {n : Node} (h : n.isCompound = true) :
    (ctx.evaluate n).2 = (n.children.flatMap fun c => (ctx.evaluate c).2) ++ ctx.ownFaults n := by
  rw [evaluate_of_compound h, join, ownFaults, List.flatMap_map, List.map_map]
  rfl

theorem spans_ne_nil {text : List Char} {n : Node} (hk : IsAlternative n)
    (hw : n.Every WellFormed) (hp : n.Every (WellPlaced text)) : (ctx.evaluate n).1.spans ≠ [] := by
  obtain ⟨pieces, h⟩ := ctx.exists_highlights n hk hw hp
  simpa [h.spans] using h.shown

end Context

namespace Node

variable {ctx : Context} {s u v : Span} {p b : Node} {as rs : List Node} {o : Outcome}

-- The evaluated parts of the block make a fragment, without an error.
inductive Succeeds (ctx : Context) : Node → Fragment → Prop
  | mk {s p as rs f} :
    (ctx.blockOf s p as rs).evaluate ctx.emitCode = .ok f → Succeeds ctx (block s p as rs) f

def operands : Node → List Node
  | block _ _ (arguments _ as) _ => as
  | _                            => []

def alternatives : Node → List Node
  | block _ _ _ (results _ rs) => rs
  | _                          => []

-- The rendering of a node is that of another one, or an empty text in the node's own place.
def ShowsAs (ctx : Context) (n : Node) : Option Node → Prop
  | some r =>
    (n.render ctx).result = (r.render ctx).result ∧ (n.render ctx).spans = (r.render ctx).spans
  | none   => (n.render ctx).result = "" ∧ (n.render ctx).spans = [n.span]

-- What a block shows for its outcome, in terms of renderings.
def Displays (ctx : Context) (b : Node) : Outcome → Prop
  | .text v      => (b.render ctx).result = v ∧ (b.render ctx).spans = [b.span]
  | .number x    =>
    (b.render ctx).result = x.render .code ∧ x.Spelled (b.render ctx).result ∧
    (b.render ctx).spans = [b.span]
  | .selection i => b.ShowsAs ctx b.alternatives[i]?

theorem succeeds_iff_outcome {as rs : Node} :
    (∃ f, (block s p as rs).Succeeds ctx f) ↔ ∃ o, (ctx.blockOf s p as rs).outcome = .ok o := by
  obtain ⟨code, h⟩ := (ctx.blockOf s p as rs).reveals_evaluate ctx.emitCode
  constructor
  case mp =>
    rintro ⟨f, ⟨hf⟩⟩
    rw [h] at hf
    cases ho : (ctx.blockOf s p as rs).outcome
    case error => simp [ho, Except.map] at hf
    case ok o  => exact ⟨o, rfl⟩
  case mpr =>
    rintro ⟨o, ho⟩
    exact ⟨_, .mk (by rw [h, ho]; rfl)⟩

theorem operands_of_wellFormed {b : Node} (hw : b.Every WellFormed) :
    ∀ a ∈ b.operands, IsOperand a ∧ WellFormed a := by
  cases hw _ .refl
  case block => exact hw.operands
  all_goals exact List.forall_mem_nil _

theorem Gives.deterministic {b : Node} {o' : Outcome} (hw : b.Every WellFormed) (h : b.Gives ctx o)
    (h' : b.Gives ctx o') : o' = o := by
  cases hw _ .refl
  case block =>
    have ho := Context.outcome_of_gives hw.operands h
    exact Except.ok.inj ((Context.outcome_of_gives hw.operands h').symm.trans ho)
  all_goals cases h

theorem succeeds_of_gives {b : Node} (hw : b.Every WellFormed) (h : b.Gives ctx o) :
    ∃ f, b.Succeeds ctx f := by
  cases hw _ .refl
  case block => exact succeeds_iff_outcome.mpr ⟨o, Context.outcome_of_gives hw.operands h⟩
  all_goals cases h

theorem displays_of_reveal {code : String} (hrs : ∀ r ∈ rs, (ctx.evaluate r).1.spans ≠ [])
    (h : (ctx.evaluate (block s p (arguments u as) (results v rs))).1 =
      (ctx.blockOf s p (.arguments u as) (.results v rs)).reveal code o) :
    (block s p (arguments u as) (results v rs)).Displays ctx o := by
  have hr (i : Nat) : (ctx.blockOf s p (.arguments u as) (.results v rs)).alternatives[i]? =
      rs[i]?.map fun r => (ctx.evaluate r).1.orEmptyLiteral := by
    simp [Context.blockOf, Context.items_results]
  cases o
  case text   => rw [Displays, render_eq, h]; exact ⟨rfl, rfl⟩
  case number x => rw [Displays, render_eq, h]; exact ⟨rfl, x.spelled_render, rfl⟩
  case selection i =>
    rw [Block.reveal, hr] at h
    rw [Displays, alternatives]
    cases hi : rs[i]? <;> rw [hi] at h
    case none   => rw [ShowsAs, render_eq, h]; exact ⟨rfl, rfl⟩
    case some r =>
      have hs := hrs r (List.mem_of_getElem? hi)
      simp [ShowsAs, render_eq, Rendering.ofFragment, h, Block.choose, hs, Fragment.text,
        Value.render]

theorem not_fails_iff_gives (hp : IsPath p) (has : ∀ a ∈ as, IsOperand a ∧ WellFormed a) :
    ¬(block s p (arguments u as) (results v rs)).Fails ctx ↔
    ∃ o, (block s p (arguments u as) (results v rs)).Gives ctx o := by
  constructor
  case mp =>
    intro h
    obtain ⟨o, _, ho, _⟩ := Context.exists_outcome_of_not_fails hp h
    exact ⟨o, Context.gives_of_outcome hp has ho⟩
  case mpr =>
    rintro ⟨o, h⟩ hf
    have ho := Context.outcome_of_gives has h
    cases hf
    case unresolved hx =>
      rw [Block.outcome, Context.blockOf, Context.value_retrieve_of_lookup_error hx] at ho
      cases ho
    case reported hr =>
      obtain ⟨_, _, hown⟩ := Context.exists_reveal ho
      exact hr hown

end Node

namespace Template

open Node

variable {text : String} {ctx : Context} {b : Node} {o : Outcome}

theorem every_within (hb : b.Within (read text).root) :
    b.Every WellFormed ∧ b.Every (WellPlaced text.toList) :=
  ⟨(sound_root text).2.every.of_within hb,
    ((arranged_root text).every _ (List.mem_singleton_self _)).of_within hb⟩

theorem displays_of_gives (hb : b.Within (read text).root) (h : b.Gives ctx o) :
    b.Displays ctx o := by
  obtain ⟨hw, hp⟩ := every_within hb
  cases hw _ .refl
  case block s p u as v rs _ =>
    obtain ⟨code, he, _⟩ := Context.exists_reveal (Context.outcome_of_gives hw.operands h)
    refine displays_of_reveal (fun r hr => ?_) he
    have hwr : (results v rs).Every WellFormed := hw.of_mem (by simp [children])
    have hpr : (results v rs).Every (WellPlaced text.toList) := hp.of_mem (by simp [children])
    exact Context.spans_ne_nil (hw.alternatives r hr) (hwr.of_mem hr) (hpr.of_mem hr)
  all_goals cases h

-- The rules say of every block of a template when it succeeds, and with what. A block that succeeds
-- reports nothing on its own, and its arguments are meant as they stand in the text.
theorem block_succeeds_iff (text : String) (ctx : Context) {b : Node}
    (hb : b.Within (read text).root) (hk : b.isBlock = true) :
    ((∃ f, b.Succeeds ctx f) ↔ ∃ o, b.Gives ctx o) ∧
    (¬b.Fails ctx ↔ ∃ o, b.Gives ctx o) ∧
    (∀ o, b.Gives ctx o →
      (∀ o', b.Gives ctx o' → o' = o) ∧ b.Displays ctx o ∧
      (b.render ctx).faults = b.children.flatMap fun c => (c.render ctx).faults) ∧
    ∀ a ∈ b.operands, a.span.excerpt text.toList = a.spelling.toList := by
  obtain ⟨hw, hp⟩ := every_within hb
  cases hw _ .refl <;> try cases hk
  case block s p u as v rs hpath =>
    have has := hw.operands
    refine ⟨?succeeds, not_fails_iff_gives hpath has, fun o h => ?shown, ?spelled⟩
    case succeeds =>
      rw [succeeds_iff_outcome]
      exact exists_congr fun o => (Context.gives_iff_outcome hpath has).symm
    case shown =>
      refine ⟨fun _ => h.deterministic hw, displays_of_gives hb h, ?_⟩
      obtain ⟨_, _, hown⟩ := Context.exists_reveal (Context.outcome_of_gives has h)
      simp only [faults_render]
      rw [Context.faults_evaluate rfl, hown, List.append_nil]
    case spelled =>
      have hq : (arguments u as).Spelled text.toList :=
        (hp (.arguments u as) (.child (by simp [children]) .refl)).spelled
      intro a ha
      have hq : a.Quoted text.toList := hq a ha
      cases (has a ha).1
      case text   => exact hq
      case number => exact hq

-- A block in the alternative that another block chooses calls a function with a text and a number.
theorem block_succeeds_iff_call :
    let f : Function := ⟨fun as _ => .ok (.selection as.length), some 2, none, none⟩
    let ctx : Context := ⟨.ofList [("f", .function f), ("ok", .boolean true)], true⟩
    let root := (read "[ok|a[f x 1|b|c|d]]").root
    ∃ b, root.at? [2, 0, 1] = some b ∧ (b.render ctx).result = "d" ∧ ¬b.Fails ctx ∧
      (∃ o g, b.Gives ctx o ∧ b.Displays ctx o ∧ b.Succeeds ctx g) ∧
      ∀ a ∈ b.operands, a.span.excerpt "[ok|a[f x 1|b|c|d]]".toList = a.spelling.toList := by
  intro f ctx root
  obtain ⟨b, h⟩ : ∃ b, root.at? [2, 0, 1] = some b :=
    Option.isSome_iff_exists.mp (by decide +kernel)
  have hk : ((root.at? [2, 0, 1]).getD root).isBlock = true := by decide +kernel
  have hr : (((root.at? [2, 0, 1]).getD root).render ctx).result = "d" := by decide +kernel
  rw [h, Option.getD_some] at hk hr
  have hn : ¬b.Fails ctx := by
    intro hf
    rw [render_eq, Context.evaluate_of_fails hf] at hr
    have : "" = "d" := hr
    contradiction
  obtain ⟨hs, hg, hd, hq⟩ := block_succeeds_iff _ ctx (within_of_at? h) hk
  obtain ⟨o, ho⟩ := hg.mp hn
  obtain ⟨g, hgs⟩ := hs.mpr ⟨o, ho⟩
  exact ⟨b, h, hr, hn, ⟨o, g, ho, (hd o ho).2.1, hgs⟩, hq⟩

end Template
end Stencil

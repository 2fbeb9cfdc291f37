import Stencil.Proofs.Render.Outcome
import Stencil.Proofs.Template.Shape

namespace Stencil

namespace Fragment

@[simp]
theorem value_orEmptyLiteral (f : Fragment) : f.orEmptyLiteral.value = f.value := by
  unfold orEmptyLiteral
  split <;> rfl

@[simp]
theorem spans_orEmptyLiteral (f : Fragment) : f.orEmptyLiteral.spans = f.spans := by
  unfold orEmptyLiteral
  split <;> rfl

@[simp]
theorem text_orEmptyLiteral (f : Fragment) : f.orEmptyLiteral.text = f.text := by
  simp [text]

theorem orEmptyLiteral_of_ne {f : Fragment} (h : f.code ≠ "") : f.orEmptyLiteral = f := by
  simp [orEmptyLiteral, h]

end Fragment

namespace Outcome

variable {name value : String} {args : List Fragment} {alts : List String} {o : Outcome}

theorem of_between {holds : Bool} (h : between name alts holds = .ok o) :
    alts ≠ [] ∧ alts.length ≤ 2 ∧ selection (if holds then 0 else 1) = o := by
  rcases alts with _ | ⟨_, _ | ⟨_, _ | _⟩⟩ <;> simp_all [between]

theorem of_ofBoolean {flag : Bool} (h : ofBoolean name args alts flag = .ok o) :
    args = [] ∧ between name alts flag = .ok o := by
  cases args
  case nil  => exact ⟨rfl, h⟩
  case cons => cases h

theorem of_ofText (h : ofText name args alts value = .ok o) :
    args = [] ∧ alts = [] ∧ text value = o ∨
    ∃ a, args = [a] ∧ between name alts (a.literal = value) = .ok o := by
  rcases args with _ | ⟨a, _ | _⟩ <;> rcases alts with _ | _ <;> simp_all [ofText]

theorem of_ofNumber {x : Binary64} (h : ofNumber name args alts x = .ok o) :
    args = [] ∧ alts = [] ∧ number x = o ∨
    args ≠ [] ∧ alts ≠ [] ∧ alts.length ≤ args.length + 1 ∧
      ∃ ts, Block.thresholds? args = some ts ∧
        selection ((lastIndex? (fun t => t ≤ x) ts).getD ts.length) = o := by
  unfold ofNumber at h
  split at h
  case h_1 => exact .inl ⟨rfl, rfl, Except.ok.inj h⟩
  case h_4 hargs halts _ =>
    dsimp only at h
    split at h
    case isTrue => cases h
    case isFalse hlen =>
      cases hts : Block.thresholds? args
      case none    => simp [hts] at h
      case some ts =>
        rw [hts] at h
        exact .inr ⟨hargs, halts, Nat.not_lt.mp hlen, ts, rfl, Except.ok.inj h⟩
  all_goals cases h

theorem of_ofFunction {f : Function} (h : ofFunction name args alts f = .ok o) :
    (∀ max ∈ f.maxArguments, args.length ≤ max) ∧ (∀ max ∈ f.maxResults, alts.length ≤ max) ∧
    f.call (args.map Block.argument) alts = .ok o ∧ ∀ i, o = .selection i → i < alts.length := by
  unfold ofFunction at h
  split at h
  case h_1 => cases h
  case h_2 => cases h
  case h_3 ha hr =>
    have within {n : Nat} {limit : Option Nat} (h : Block.exceeded? n limit = none) :
        ∀ max ∈ limit, n ≤ max := by
      simpa [Block.exceeded?] using h
    refine ⟨within ha, within hr, ?_⟩
    rcases hf : f.call (args.map Block.argument) alts with m | y | x | i <;>
      simp only [hf, reduceCtorEq, Except.ok.injEq] at h
    case ok.text      => exact ⟨congrArg Except.ok h, by simp [← h]⟩
    case ok.number    => exact ⟨congrArg Except.ok h, by simp [← h]⟩
    case ok.selection =>
      by_cases hi : i < alts.length
      case neg => simp [hi] at h
      case pos =>
        have h : selection i = o := by simpa [hi] using h
        exact ⟨congrArg Except.ok h, by simp [← h, hi]⟩

end Outcome

namespace Node

-- How an argument is spelled.
def spelling : Node → String
  | text _ v           => v
  | number _ _ literal => literal
  | _                  => ""

-- An argument as a function sees it.
def operand : Node → Argument
  | number _ x _ => .number x
  | text _ v     => .text v
  | _            => .text ""

def number? : Node → Option Binary64
  | number _ x _ => some x
  | _            => none

-- The outcome of a block, by what its path leads to.
inductive Gives (ctx : Context) : Node → Outcome → Prop
  | present {s t segs u v rs} :
    rs ≠ [] → rs.length ≤ 2 →
    Gives ctx (block s (present t segs) (arguments u []) (results v rs))
      (.selection (if ctx.bindings.binds (segmentNames segs) then 0 else 1))
  | boolean {s t segs u v rs flag} :
    ctx.bindings.lookup (segmentNames segs) = .ok (.boolean flag) →
    rs ≠ [] → rs.length ≤ 2 →
    Gives ctx (block s (retrieve t segs) (arguments u []) (results v rs))
      (.selection (if flag then 0 else 1))
  | string {s t segs u v x} :
    ctx.bindings.lookup (segmentNames segs) = .ok (.string x) →
    Gives ctx (block s (retrieve t segs) (arguments u []) (results v [])) (.text x)
  | compare {s t segs u a v rs x} :
    ctx.bindings.lookup (segmentNames segs) = .ok (.string x) →
    rs ≠ [] → rs.length ≤ 2 →
    Gives ctx (block s (retrieve t segs) (arguments u [a]) (results v rs))
      (.selection (if a.spelling = x then 0 else 1))
  | number {s t segs u v x} :
    ctx.bindings.lookup (segmentNames segs) = .ok (.number x) →
    Gives ctx (block s (retrieve t segs) (arguments u []) (results v [])) (.number x)
  | range {s t segs u as v rs x ts} :
    ctx.bindings.lookup (segmentNames segs) = .ok (.number x) →
    as ≠ [] → rs ≠ [] → rs.length ≤ as.length + 1 → as.mapM number? = some ts →
    Gives ctx (block s (retrieve t segs) (arguments u as) (results v rs))
      (.selection ((lastIndex? (fun t => t ≤ x) ts).getD ts.length))
  | call {s t segs u as v rs f o} :
    ctx.bindings.lookup (segmentNames segs) = .ok (.function f) →
    (∀ max ∈ f.maxArguments, as.length ≤ max) → (∀ max ∈ f.maxResults, rs.length ≤ max) →
    f.call (as.map operand) (rs.map fun r => (r.render ctx).result) = .ok o →
    (∀ i, o = .selection i → i < rs.length) →
    Gives ctx (block s (retrieve t segs) (arguments u as) (results v rs)) o

end Node

namespace Context

variable {ctx : Context} {s u v : Span} {p a : Node} {as rs ns : List Node} {o : Outcome}

open Node (IsOperand IsPath WellFormed)

theorem items_arguments (ctx : Context) (s : Span) (ns : List Node) :
    (ctx.evaluate (.arguments s ns)).1.items =
    ns.map fun n => (ctx.evaluate n).1.orEmptyLiteral := by
  simp [evaluate, evaluateAll_eq_map, join, combine, collect, Fragment.items, Function.comp_def]

theorem items_results (ctx : Context) (s : Span) (ns : List Node) :
    (ctx.evaluate (.results s ns)).1.items =
    ns.map fun n => (ctx.evaluate n).1.orEmptyLiteral := by
  simp [evaluate, evaluateAll_eq_map, join, combine, collect, Fragment.items, Function.comp_def]

theorem argument_of_isOperand (h : IsOperand a) :
    Block.argument (ctx.evaluate a).1.orEmptyLiteral = a.operand := by
  rw [Block.argument, Fragment.value_orEmptyLiteral]
  cases h
  case text   => simp [evaluate, leaf, Fragment.ofValue, Node.operand, Fragment.text, Value.render]
  case number => rfl

theorem numberOf?_of_isOperand (h : IsOperand a) :
    Block.numberOf? (ctx.evaluate a).1.orEmptyLiteral = a.number? := by
  rw [Block.numberOf?, Fragment.value_orEmptyLiteral]
  cases h <;> rfl

theorem literal_of_isOperand (h : IsOperand a) (hw : WellFormed a) :
    (ctx.evaluate a).1.orEmptyLiteral.literal = a.spelling := by
  cases h
  case text =>
    rw [Fragment.literal, Fragment.value_orEmptyLiteral, Fragment.text_orEmptyLiteral]
    rfl
  case number =>
    cases hw
    case number l _ hx =>
      have hl : l ≠ "" := by
        rintro rfl
        cases hx
      simp only [evaluate, leaf]
      rw [Fragment.orEmptyLiteral_of_ne hl]
      rfl

theorem texts_results (ctx : Context) (s : Span) (ns : List Node) :
    (ctx.evaluate (.results s ns)).1.items.map (·.text) =
    ns.map fun n => (n.render ctx).result := by
  simp [items_results, Node.render_eq, Rendering.ofFragment]

theorem map_argument (h : ∀ n ∈ ns, IsOperand n) :
    (ns.map fun n => (ctx.evaluate n).1.orEmptyLiteral).map Block.argument =
    ns.map Node.operand := by
  simpa using fun n hn => argument_of_isOperand (h n hn)

theorem thresholds?_map (h : ∀ n ∈ ns, IsOperand n) :
    Block.thresholds? (ns.map fun n => (ctx.evaluate n).1.orEmptyLiteral) =
    ns.mapM Node.number? := by
  induction ns
  case nil          => rfl
  case cons n ns ih =>
    have ⟨hn, hns⟩ := List.forall_mem_cons.mp h
    have ih := ih hns
    simp only [Block.thresholds?] at ih ⊢
    simp only [List.map_cons, List.mapM_cons, numberOf?_of_isOperand hn, ih]

theorem gives_of_ofSymbol {t : Span} {segs : List Node} {x : Symbol} {name : String}
    (has : ∀ a ∈ as, IsOperand a ∧ WellFormed a)
    (hx : ctx.bindings.lookup (Node.segmentNames segs) = .ok x)
    (h : Outcome.ofSymbol name (as.map fun a => (ctx.evaluate a).1.orEmptyLiteral)
      (rs.map fun r => (r.render ctx).result) x = .ok o) :
    (Node.block s (.retrieve t segs) (.arguments u as) (.results v rs)).Gives ctx o := by
  have ops : ∀ a ∈ as, IsOperand a := fun a ha => (has a ha).1
  cases x
  case boolean flag =>
    have ⟨ha, h⟩ := Outcome.of_ofBoolean h
    obtain ⟨hr, hl, rfl⟩ := Outcome.of_between h
    obtain rfl := List.map_eq_nil_iff.mp ha
    exact .boolean hx (by simpa using hr) (by simpa using hl)
  case string x =>
    rcases Outcome.of_ofText h with ⟨ha, hr, rfl⟩ | ⟨a, ha, h⟩
    case inl =>
      obtain rfl := List.map_eq_nil_iff.mp ha
      obtain rfl := List.map_eq_nil_iff.mp hr
      exact .string hx
    case inr =>
      obtain ⟨n, rfl, rfl⟩ := List.map_eq_singleton_iff.mp ha
      obtain ⟨hr, hl, rfl⟩ := Outcome.of_between h
      have ⟨hn, hw⟩ := has n (by simp)
      rw [literal_of_isOperand hn hw]
      simpa using Node.Gives.compare hx (by simpa using hr) (by simpa using hl)
  case number x =>
    rcases Outcome.of_ofNumber h with ⟨ha, hr, rfl⟩ | ⟨ha, hr, hl, ts, hts, rfl⟩
    case inl =>
      obtain rfl := List.map_eq_nil_iff.mp ha
      obtain rfl := List.map_eq_nil_iff.mp hr
      exact .number hx
    case inr =>
      rw [thresholds?_map ops] at hts
      exact .range hx (by simpa using ha) (by simpa using hr) (by simpa using hl) hts
  case function f =>
    have ⟨ha, hr, hf, hi⟩ := Outcome.of_ofFunction h
    rw [map_argument ops] at hf
    exact .call hx (by simpa using ha) (by simpa using hr) hf (by simpa using hi)
  case object => cases h

theorem gives_of_outcome (hp : IsPath p) (has : ∀ a ∈ as, IsOperand a ∧ WellFormed a)
    (h : (ctx.blockOf s p (.arguments u as) (.results v rs)).outcome = .ok o) :
    (Node.block s p (.arguments u as) (.results v rs)).Gives ctx o := by
  simp only [Block.outcome, blockOf, items_arguments, texts_results] at h
  cases hp
  case present t segs =>
    have ⟨ha, h⟩ := Outcome.of_ofBoolean h
    obtain ⟨hr, hl, rfl⟩ := Outcome.of_between h
    obtain rfl := List.map_eq_nil_iff.mp ha
    exact .present (by simpa using hr) (by simpa using hl)
  case retrieve t segs =>
    cases hx : ctx.bindings.lookup (Node.segmentNames segs)
    case error =>
      rw [value_retrieve_of_lookup_error hx] at h
      cases h
    case ok x =>
      rw [value_retrieve_of_lookup hx] at h
      exact gives_of_ofSymbol has hx h

end Context
end Stencil

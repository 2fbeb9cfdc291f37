import Stencil.Proofs.Node.Move
import Stencil.Proofs.Render.Outcome
import Stencil.Proofs.Symbol.WithoutCode
import Stencil.Proofs.Template.Shape

namespace Stencil

mutual

def Value.withoutCode : Value → Value
  | .symbol s   => .symbol s.withoutCode
  | .list items => .list (Fragment.withoutCodeAll items)
  | .text s     => .text s
  | .number x   => .number x
  | .boolean b  => .boolean b
  | .missing    => .missing

def Fragment.withoutCode : Fragment → Fragment
  | ⟨v, spans, _⟩ => ⟨v.withoutCode, spans, ""⟩

def Fragment.withoutCodeAll : List Fragment → List Fragment
  | []      => []
  | f :: fs => Fragment.withoutCode f :: Fragment.withoutCodeAll fs

end

theorem Symbol.text_withoutCode (s : Symbol) : s.withoutCode.text = s.text := by
  cases s <;> rfl

namespace Value

@[simp]
theorem render_withoutCode (v : Value) : v.withoutCode.render = v.render := by
  cases v
  case symbol s => exact s.text_withoutCode
  all_goals rfl

theorem withoutCode_eq_missing {v : Value} : v.withoutCode = .missing ↔ v = .missing := by
  cases v <;> simp [withoutCode]

theorem withoutCode_eq_symbol {v : Value} {s : Symbol} :
    v.withoutCode = .symbol s ↔ ∃ x, v = .symbol x ∧ x.withoutCode = s := by
  cases v <;> simp [withoutCode]

end Value

namespace Fragment

variable {f g : Fragment} {fs gs : List Fragment}

@[simp]
theorem withoutCodeAll_eq_map (fs : List Fragment) : withoutCodeAll fs = fs.map withoutCode := by
  induction fs
  case nil          => rfl
  case cons f fs ih => simp [withoutCodeAll, ih]

@[simp]
theorem value_withoutCode (f : Fragment) : f.withoutCode.value = f.value.withoutCode := by
  cases f; rfl

@[simp]
theorem spans_withoutCode (f : Fragment) : f.withoutCode.spans = f.spans := by
  cases f; rfl

@[simp]
theorem text_withoutCode (f : Fragment) : f.withoutCode.text = f.text := by
  simp [text]

theorem items_withoutCode (f : Fragment) : f.withoutCode.items = f.items.map withoutCode := by
  obtain ⟨v, _, _⟩ := f
  cases v <;> simp [withoutCode, Value.withoutCode, items]

theorem withoutCode_orEmptyLiteral (f : Fragment) :
    f.orEmptyLiteral.withoutCode = f.withoutCode := by
  unfold orEmptyLiteral
  cases f
  split <;> rfl

theorem map_text_eq (h : fs.map withoutCode = gs.map withoutCode) :
    fs.map (·.text) = gs.map (·.text) := by
  simpa [Function.comp_def] using congrArg (List.map text) h

theorem map_spans_eq (h : fs.map withoutCode = gs.map withoutCode) :
    fs.map (·.spans) = gs.map (·.spans) := by
  simpa [Function.comp_def] using congrArg (List.map Of.spans) h

-- The fragments are equal but for code. A symbol comes with its path, which has to be the same.
structure Agree (f g : Fragment) : Prop where
  withoutCode : f.withoutCode = g.withoutCode
  path        : ∀ s, f.value = .symbol s → f.code = g.code

namespace Agree

theorem refl {f : Fragment} : Agree f f :=
  ⟨rfl, fun _ _ => rfl⟩

theorem text (h : Agree f g) : f.text = g.text := by
  rw [← text_withoutCode, h.withoutCode, text_withoutCode]

theorem spans (h : Agree f g) : f.spans = g.spans := by
  rw [← spans_withoutCode, h.withoutCode, spans_withoutCode]

theorem value (h : Agree f g) : f.value.withoutCode = g.value.withoutCode := by
  rw [← value_withoutCode, h.withoutCode, value_withoutCode]

theorem items (h : Agree f g) :
    f.items.map Fragment.withoutCode = g.items.map Fragment.withoutCode := by
  rw [← items_withoutCode, h.withoutCode, items_withoutCode]

-- A value that is no symbol comes with any code.
theorem ofValue {v : Value} {s t : Span} (hs : s = t) (code code' : String)
    (hv : ∀ x, v ≠ .symbol x := by simp) : Agree (.ofValue v s code) (.ofValue v t code') :=
  hs ▸ ⟨rfl, fun x hx => absurd hx (hv x)⟩

end Agree
end Fragment

-- What is shown is equal but for code, and what is reported is equal.
structure Evaluated.Agree (e e' : Evaluated) : Prop where
  fragment : e.1.Agree e'.1
  faults   : e.2 = e'.2

theorem Outcome.ofValue_withoutCode (name : String) (args : List Fragment) (alts : List String)
    (v : Value) : ofValue name args alts v.withoutCode = ofValue name args alts v := by
  cases v
  case symbol s => cases s <;> rfl
  all_goals rfl

namespace Block

variable {b c : Block}

-- Everything that the outcomes of the blocks depend on is equal, and the alternatives are equal but
-- for code.
structure Agree (b c : Block) : Prop where
  name         : b.name = c.name
  span         : b.span = c.span
  value        : b.path.value.withoutCode = c.path.value.withoutCode
  arguments    : b.arguments = c.arguments
  alternatives : b.alternatives.map (·.withoutCode) = c.alternatives.map (·.withoutCode)

namespace Agree

theorem outcome (h : Agree b c) : b.outcome = c.outcome := by
  unfold Block.outcome
  rw [← Outcome.ofValue_withoutCode, h.value, Outcome.ofValue_withoutCode, h.name, h.arguments,
    Fragment.map_text_eq h.alternatives]

theorem choose (h : Agree b c) (i : Nat) (code code' : String) :
    (b.choose b.alternatives[i]? code).Agree (c.choose c.alternatives[i]? code') := by
  have hi : b.alternatives[i]?.map (·.withoutCode) = c.alternatives[i]?.map (·.withoutCode) := by
    simpa using congrArg (·[i]?) h.alternatives
  cases hb : b.alternatives[i]? <;> cases hc : c.alternatives[i]? <;>
    simp only [hb, hc, Option.map_none, Option.map_some, reduceCtorEq, Option.some.injEq] at hi
  case none.none     => exact .ofValue h.span ..
  case some.some f g =>
    have ht := congrArg Fragment.text hi
    have hs := congrArg Fragment.Of.spans hi
    rw [Fragment.text_withoutCode, Fragment.text_withoutCode] at ht
    rw [Fragment.spans_withoutCode, Fragment.spans_withoutCode] at hs
    refine ⟨?_, fun _ h => by cases h⟩
    simp [Block.choose, Fragment.withoutCode, ht, hs]

theorem reveal (h : Agree b c) (o : Outcome) (code code' : String) :
    (b.reveal code o).Agree (c.reveal code' o) := by
  cases o
  case text      => exact .ofValue h.span ..
  case number    => exact .ofValue h.span ..
  case selection => exact h.choose ..

theorem settle (h : Agree b c) (code code' : String) :
    (b.settle code).Agree (c.settle code') := by
  have hm : b.path.value = .missing ↔ c.path.value = .missing := by
    rw [← Value.withoutCode_eq_missing, h.value, Value.withoutCode_eq_missing]
  have blank : (Fragment.blank b.span).Agree (.blank c.span) := .ofValue h.span ..
  by_cases hb : b.path.value = .missing
  case pos =>
    rw [Block.settle_of_missing hb, Block.settle_of_missing (hm.mp hb)]
    exact ⟨blank, rfl⟩
  case neg =>
    rw [Block.settle_of_ne_missing hb, Block.settle_of_ne_missing (mt hm.mpr hb), h.outcome]
    cases c.outcome
    case error => exact ⟨blank, by rw [h.span]⟩
    case ok o  => exact ⟨h.reveal o .., rfl⟩

end Agree
end Block

namespace Node

-- A path that is looked up at its beginning and then goes on by single segments.
inductive IsChain : Node → Prop
  | retrieve {s ns}  : IsChain (.retrieve s ns)
  | access {s l t v} : IsChain l → IsChain (.access s l (.name t v))

inductive IsAddress : Node → Prop
  | chain {p}        : IsChain p → IsAddress p
  | present {s ns}   : IsAddress (.present s ns)

-- Arguments are operands, and a block has a path and a list of arguments.
def Conforms : Node → Prop
  | .arguments _ ns => ∀ n ∈ ns, IsOperand n
  | .block _ p as _ => IsAddress p ∧ ∃ s ns, as = .arguments s ns
  | _               => True

theorem IsPath.isAddress {p : Node} (h : IsPath p) : IsAddress p := by
  cases h
  case retrieve => exact .chain .retrieve
  case present  => exact .present

theorem WellFormed.conforms {n : Node} (h : WellFormed n) : n.Conforms := by
  cases h
  case arguments h => exact h
  case block h     => exact ⟨h.isAddress, _, _, rfl⟩
  all_goals trivial

theorem IsAddress.exists_pathName {p : Node} (h : IsAddress p) :
    ∃ name, p.pathName? = some name := by
  rcases h with h | _
  case present => exact ⟨_, rfl⟩
  induction h
  case retrieve    => exact ⟨_, rfl⟩
  case access h ih =>
    obtain ⟨name, ih⟩ := ih
    exact ⟨_, by rw [pathName?, ih]; rfl⟩

end Node

-- What a node evaluates to, apart from code.
def Evaluated.withoutCode (e : Evaluated) : Evaluated :=
  (e.1.withoutCode, e.2)

theorem Evaluated.Agree.withoutCode {e e' : Evaluated} (h : e.Agree e') :
    e.withoutCode = e'.withoutCode :=
  Prod.ext h.fragment.withoutCode h.faults

namespace Context

variable {ctx ctx' : Context} {f f' g g' : Fragment} {fs gs : List Fragment}

theorem retrieve_agree (hb : ctx.bindings.withoutCode = ctx'.bindings.withoutCode) (s : Span)
    (names : List String) : (ctx.retrieve s names).Agree (ctx'.retrieve s names) := by
  have h := congrArg (·.lookup names) hb
  simp only [Bindings.lookup_withoutCode] at h
  unfold retrieve
  cases hl : ctx.bindings.lookup names <;> cases hl' : ctx'.bindings.lookup names <;>
    simp only [hl, hl', Except.map, reduceCtorEq, Except.error.injEq, Except.ok.injEq] at h
  case error.error => exact ⟨.ofValue rfl .., by rw [h]⟩
  case ok.ok       =>
    refine ⟨⟨?_, fun _ _ => rfl⟩, rfl⟩
    simp [Fragment.ofValue, Fragment.withoutCode, Value.withoutCode, h]

theorem leaf_agree (hb : ctx.bindings.withoutCode = ctx'.bindings.withoutCode) (n : Node) :
    (ctx.leaf n).Agree (ctx'.leaf n) := by
  cases n
  case retrieve => exact retrieve_agree hb ..
  case present s segs =>
    have h := congrArg (·.binds (Node.segmentNames segs)) hb
    simp only [Bindings.binds_withoutCode] at h
    refine ⟨?_, rfl⟩
    simp only [leaf, h]
    exact .ofValue rfl ..
  case error => exact ⟨⟨rfl, fun _ h => by cases h⟩, rfl⟩
  all_goals exact ⟨.ofValue rfl .., rfl⟩

theorem concat_agree (h : fs.map (·.withoutCode) = gs.map (·.withoutCode)) :
    (concat fs).Agree (concat gs) := by
  have hs := congrArg List.flatten (Fragment.map_spans_eq h)
  rw [← List.flatMap_def, ← List.flatMap_def] at hs
  refine ⟨?_, fun _ h => by cases h⟩
  simp [concat, Fragment.withoutCode, Value.withoutCode, Fragment.map_text_eq h, hs]

theorem collect_agree (h : fs.map (·.withoutCode) = gs.map (·.withoutCode)) :
    (collect fs).Agree (collect gs) := by
  refine ⟨?_, fun _ h => by cases h⟩
  simpa [collect, Fragment.withoutCode, Value.withoutCode, Function.comp_def,
    Fragment.withoutCode_orEmptyLiteral] using h

theorem access_agree (hf : f.Agree f') (hg : g.Agree g') (s right : Span) :
    (access s right f g).Agree (access s right f' g') := by
  have hv := hf.value
  unfold access
  rw [hg.text]
  by_cases hx : ∃ x, f.value = .symbol x
  case pos =>
    obtain ⟨x, hx⟩ := hx
    obtain ⟨y, hy, hxy⟩ := Value.withoutCode_eq_symbol.mp (hx ▸ hv).symm
    have h := congrArg (·.step f.code g'.text) hxy
    simp only [Symbol.step_withoutCode] at h
    simp only [hx, hy, ← hf.path x hx]
    cases hs : x.step f.code g'.text <;> cases hs' : y.step f.code g'.text <;>
      simp only [hs, hs', Except.map, reduceCtorEq, Except.error.injEq, Except.ok.injEq] at h
    case error.error => exact ⟨.ofValue rfl .., by rw [h]⟩
    case ok.ok       =>
      refine ⟨⟨?_, fun _ _ => rfl⟩, rfl⟩
      simp [Fragment.ofValue, Fragment.withoutCode, Value.withoutCode, h]
  case neg =>
    have hy : ¬∃ y, f'.value = .symbol y := by
      rintro ⟨y, hy⟩
      obtain ⟨x, h, _⟩ := Value.withoutCode_eq_symbol.mp (hy ▸ hv)
      exact hx ⟨x, h⟩
    split
    case h_1 h => exact absurd ⟨_, h⟩ hx
    case h_2   =>
      split
      case h_1 h => exact absurd ⟨_, h⟩ hy
      case h_2   => exact ⟨.ofValue rfl .., rfl⟩

theorem block_agree {s : Span} {p : Node} {args args' alts alts' : Fragment}
    (hp : ∃ name, p.pathName? = some name) (hf : f.Agree f') (ha : args.items = args'.items)
    (hr : alts.Agree alts') :
    (ctx.block s p f args alts).Agree (ctx'.block s p f' args' alts') := by
  obtain ⟨name, hp⟩ := hp
  obtain ⟨code, hb⟩ := ctx.exists_block_eq s p f args alts
  obtain ⟨code', hb'⟩ := ctx'.exists_block_eq s p f' args' alts'
  have h : Block.Agree ⟨name, s, f, args.items, alts.items⟩
      ⟨name, s, f', args'.items, alts'.items⟩ :=
    ⟨rfl, rfl, hf.value, ha, hr.items⟩
  rw [hb, hb', hp]
  exact h.settle ..

theorem join_agree {n n' : Node} {es es' : List Evaluated}
    (h : es.map Evaluated.withoutCode = es'.map Evaluated.withoutCode)
    (hc : (ctx.combine n (es.map (·.1))).Agree (ctx'.combine n' (es'.map (·.1)))) :
    (ctx.join n es).Agree (ctx'.join n' es') := by
  have hf : es.flatMap (·.2) = es'.flatMap (·.2) := by
    simpa [Evaluated.withoutCode, List.flatMap_map] using congrArg (List.flatMap (·.2)) h
  exact ⟨hc.fragment, by simp [join, hf, hc.faults]⟩

theorem evaluate_arguments_eq (ctx ctx' : Context) (s : Span) {ns : List Node}
    (h : ∀ n ∈ ns, n.IsOperand) :
    ctx.evaluate (.arguments s ns) = ctx'.evaluate (.arguments s ns) := by
  have hns : ns.map ctx.evaluate = ns.map ctx'.evaluate := by
    refine List.map_congr_left fun n hn => ?_
    cases h n hn <;> rfl
  rw [evaluate_of_compound rfl, evaluate_of_compound rfl, Node.children, hns]
  rfl

theorem evaluate_agree (hb : ctx.bindings.withoutCode = ctx'.bindings.withoutCode) (n : Node)
    (hn : n.Every Node.Conforms) : (ctx.evaluate n).Agree (ctx'.evaluate n) := by
  have ih : ∀ c ∈ n.children, (ctx.evaluate c).Agree (ctx'.evaluate c) :=
    fun c hc => evaluate_agree hb c (hn.of_mem hc)
  have h : (n.children.map ctx.evaluate).map Evaluated.withoutCode =
      (n.children.map ctx'.evaluate).map Evaluated.withoutCode := by
    simpa using fun c hc => (ih c hc).withoutCode
  have hfs : ((n.children.map ctx.evaluate).map (·.1)).map (·.withoutCode) =
      ((n.children.map ctx'.evaluate).map (·.1)).map (·.withoutCode) := by
    simpa [Evaluated.withoutCode, Function.comp_def] using congrArg (List.map Prod.fst) h
  by_cases hc : n.isCompound = true
  case neg =>
    rw [Bool.not_eq_true] at hc
    rw [evaluate_of_not_compound hc, evaluate_of_not_compound hc]
    exact leaf_agree hb n
  rw [evaluate_of_compound hc, evaluate_of_compound hc]
  apply join_agree h
  cases n
  case concat    => exact ⟨concat_agree hfs, rfl⟩
  case arguments => exact ⟨collect_agree hfs, rfl⟩
  case results   => exact ⟨collect_agree hfs, rfl⟩
  case access l r =>
    exact access_agree (ih l (by simp [Node.children])).fragment
      (ih r (by simp [Node.children])).fragment ..
  case block s p as rs =>
    obtain ⟨hp, t, ns, rfl⟩ := hn _ .refl
    have has := hn (.arguments t ns) (.child (by simp [Node.children]) .refl)
    have ha := congrArg (·.1.items) (evaluate_arguments_eq ctx ctx' t has)
    exact block_agree hp.exists_pathName (ih p (by simp [Node.children])).fragment ha
      (ih rs (by simp [Node.children])).fragment
  all_goals cases hc
termination_by n.size
decreasing_by exact Node.size_lt_of_mem_children hc

end Context

namespace Node

theorem render_of_withoutCode_eq {ctx ctx' : Context}
    (hb : ctx.bindings.withoutCode = ctx'.bindings.withoutCode) :
    (∀ n : Node, n.Every Conforms →
      (n.render ctx).result = (n.render ctx').result ∧
      (n.render ctx).spans = (n.render ctx').spans ∧
      (n.render ctx).faults = (n.render ctx').faults) ∧
    ∀ text, (Template.read text).root.Every Conforms := by
  refine ⟨fun n hn => ?agree, fun text m hm => ?conforms⟩
  case conforms => exact ((Template.sound_root text).2.every m hm).conforms
  case agree    =>
    have h := Context.evaluate_agree hb n hn
    rw [render_eq, render_eq]
    exact ⟨h.fragment.text, by simp only [Rendering.ofFragment, h.fragment.spans], h.faults⟩

-- Code on and with a way to write it of the function's own, against code off and without.
theorem render_of_withoutCode_eq_for_call :
    let f : Function := ⟨fun _ rs => .ok (.text ("<" ++ rs.headD "" ++ ">")), none, some 1, none⟩
    let g : Function := { f with toCode := some fun _ _ _ => "call" }
    let ctx : Context := ⟨.ofList [("o", .object [("f", .function g)])], true⟩
    let ctx' : Context := ⟨.ofList [("o", .object [("f", .function f)])], false⟩
    let s := Span.origin
    let n := block s (access s (retrieve s [name s "o"]) (name s "f"))
      (arguments s [number s (.zero false) "0"]) (results s [text s "a"])
    ctx.bindings.withoutCode = ctx'.bindings.withoutCode ∧ n.Every Conforms ∧
    (n.render ctx).code = some "call" ∧ (n.render ctx').code = none ∧
    (n.render ctx).result = "<a>" ∧ (n.render ctx').result = "<a>" := by
  intro f g ctx ctx' s n
  have hb : ctx.bindings.withoutCode = ctx'.bindings.withoutCode := rfl
  have hn : n.Every Conforms := by
    have path : (retrieve s [name s "o"]).Every Conforms :=
      .of_children trivial (List.forall_mem_singleton.mpr (.of_leaf trivial rfl))
    have args : (arguments s [number s (.zero false) "0"]).Every Conforms :=
      .of_children (List.forall_mem_singleton.mpr .number)
        (List.forall_mem_singleton.mpr (.of_leaf trivial rfl))
    have alts : (results s [text s "a"]).Every Conforms :=
      .of_children trivial (List.forall_mem_singleton.mpr (.of_leaf trivial rfl))
    have access : (access s (retrieve s [name s "o"]) (name s "f")).Every Conforms :=
      .of_children trivial (by simpa [children] using ⟨path, .of_leaf trivial rfl⟩)
    exact .of_children ⟨.chain (.access .retrieve), _, _, rfl⟩
      (by simpa [n, children] using ⟨access, args, alts⟩)
  have hr := ((render_of_withoutCode_eq hb).1 n hn).1
  have h : (n.render ctx').result = "<a>" := by
    decide +kernel
  have hc : (n.render ctx).code = some "call" := by
    decide +kernel
  exact ⟨hb, hn, hc, rfl, hr.trans h, h⟩

end Node
end Stencil

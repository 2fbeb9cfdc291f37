import Stencil.Proofs.Code.Expression
import Stencil.Proofs.Render.Decisions

namespace Stencil

open Code (Decision Expression Vocabulary)
open Node (IsAlternative IsOperand IsPath IsPiece WellFormed segmentNames listedCode)

namespace Grammar

theorem Path.dotted {names : List String} (hn : names ≠ []) (h : ∀ v ∈ names, Segment v.toList) :
    Path (Node.dotted names).toList := by
  induction names
  case nil              => contradiction
  case cons v names ih  =>
    have ⟨hv, hs⟩ := List.forall_mem_cons.mp h
    rcases names with _ | ⟨w, names⟩
    case nil  => simpa [Node.dotted] using Path.last hv
    case cons =>
      have := Path.dot hv (ih (List.cons_ne_nil _ _) hs)
      simpa [Node.dotted] using this

end Grammar

namespace Node

variable {ns as : List Node} {p : Node} {ts : List Binary64}

theorem segments_segmentNames (hn : ns ≠ []) (h : ∀ n ∈ ns, ∃ s v, n = .name s v)
    (hw : ∀ n ∈ ns, WellFormed n) :
    segmentNames ns ≠ [] ∧ ∀ v ∈ segmentNames ns, Grammar.Segment v.toList := by
  constructor
  case left =>
    obtain ⟨n, ns, rfl⟩ := List.exists_cons_of_ne_nil hn
    obtain ⟨s, v, rfl⟩ := h n (List.mem_cons_self ..)
    simp [segmentNames, segment?]
  case right =>
    intro v hv
    obtain ⟨n, hm, hv⟩ := List.mem_filterMap.mp hv
    obtain ⟨s, v', rfl⟩ := h n hm
    obtain rfl := Option.some.inj hv
    cases hw _ hm
    case name hs => exact hs

-- A path is named as the segments in it are written.
theorem IsPath.path_dotted (hp : IsPath p) (hw : p.Every WellFormed) :
    p.pathName? = some (dotted (segmentNames p.children)) ∧
    Grammar.Path (dotted (segmentNames p.children)).toList := by
  have hws (n) (hn : n ∈ p.children) : WellFormed n := hw n (.child hn .refl)
  cases hp <;> cases hw _ .refl
  case retrieve hn hs =>
    obtain ⟨hn, hs⟩ := segments_segmentNames hn hs hws
    exact ⟨rfl, .dotted hn hs⟩
  case present hn hs =>
    obtain ⟨hn, hs⟩ := segments_segmentNames hn hs hws
    exact ⟨rfl, .dotted hn hs⟩

end Node

theorem Bindings.toCode_of_lookup {b : Bindings} {path : List String} {f : Function}
    (hb : b.withoutCode = b) (h : b.lookup path = .ok (.function f)) : f.toCode = none := by
  have hf := hb ▸ b.lookup_withoutCode path
  rw [h] at hf
  have hf : f = f.withoutCode := by simpa [Except.map, Symbol.withoutCode] using hf
  rw [hf]
  rfl

theorem Fragment.expression_orEmptyLiteral {V : Vocabulary} {f : Fragment}
    (h : f.code = "" ∨ Expression V f.code) : Expression V f.orEmptyLiteral.code := by
  by_cases hc : f.code = ""
  case pos => simpa [orEmptyLiteral, hc] using Expression.literal ""
  case neg => simpa [orEmptyLiteral, hc] using h

namespace Block

variable {b : Block} {f : Fragment} {g : Function}

theorem code_ofFunction (h : b.ofFunction true g = .ok f) : f.code = b.callCode g := by
  unfold ofFunction at h
  split at h
  case h_1 => cases h
  case h_2 => cases h
  case h_3 =>
    dsimp only at h
    split at h
    case h_1 => cases h
    case h_2 => rw [← Except.ok.inj h]; rfl
    case h_3 => rw [← Except.ok.inj h]; rfl
    case h_4 =>
      split at h
      case h_1 => rw [← Except.ok.inj h, code_choose]; rfl
      case h_2 => cases h

end Block

namespace Template

open Node

-- The paths of a template, and the numbers among its arguments as they are spelled in the text.
def vocabulary (text : String) : Vocabulary where
  path p     := ∃ n : Node, n.Within (read text).root ∧ n.pathName? = some p ∧ Grammar.Path p.toList
  number x l := ∃ s, (Node.number s x l).Within (read text).root ∧
    s.excerpt text.toList = l.toList ∧ x.isFinite = true ∧ Binary64.read? l.toList = some x
  path_ne_empty := by
    rintro p ⟨_, _, _, hp⟩ rfl
    exact hp.ne_nil rfl
  finite     := fun ⟨_, _, _, hf, _⟩ => hf
  read       := fun ⟨_, _, _, _, hx⟩ => hx

variable {text : String} {ctx : Context} {b p a n : Node}

theorem path_vocabulary (hp : IsPath p) (h : p.Within (read text).root) :
    (vocabulary text).path (dotted (segmentNames p.children)) :=
  have ⟨hn, hd⟩ := hp.path_dotted (every_within h).1
  ⟨p, h, hn, hd⟩

theorem path_code {s : Span} {segs : List Node} (h : (retrieve s segs).Within (read text).root) :
    (vocabulary text).path (ctx.evaluate (retrieve s segs)).1.code := by
  rw [Context.code_retrieve]
  exact path_vocabulary .retrieve h

theorem number_vocabulary {s : Span} {x : Binary64} {l : String}
    (h : (Node.number s x l).Within (read text).root) : (vocabulary text).number x l := by
  obtain ⟨hw, hp⟩ := every_within h
  cases hw _ .refl
  case number hf hx => exact ⟨s, h, (hp _ .refl).spelled, hf, hx⟩

theorem expression_operand (ha : IsOperand a) (h : a.Within (read text).root) :
    Expression (vocabulary text) (ctx.evaluate a).1.orEmptyLiteral.code := by
  refine Fragment.expression_orEmptyLiteral (.inr ?_)
  cases ha
  case text   => exact .literal _
  case number => exact .number (number_vocabulary h)

theorem expression_decides {path : List String} {d : Decision Node} (hd : b.Decides ctx path d)
    (hb : b.Within (read text).root)
    (ih : ∀ r ∈ b.alternatives, Expression (vocabulary text) (listedCode ctx r)) :
    Expression (vocabulary text) (d.spell (dotted path) (listedCode ctx)) := by
  cases hd
  case present     => exact .of_between (path_vocabulary .present hb.of_path) trivial ih
  case boolean     => exact .of_between (path_vocabulary .retrieve hb.of_path) trivial ih
  case compare     => exact .of_between (path_vocabulary .retrieve hb.of_path) trivial ih
  case range _ hts =>
    refine .of_thresholds (path_vocabulary .retrieve hb.of_path) (fun x hx => ?bound) ih
    case bound =>
      obtain ⟨s, l, hm⟩ := exists_number_of_mapM hts hx
      exact ⟨l, number_vocabulary (hb.of_operand hm)⟩

-- A block that comes to something is written as a chain of conditions, as its path, or as a call.
theorem expression_of_gives {o : Outcome} (hg : b.Gives ctx o) (hb : b.Within (read text).root)
    (he : ctx.emitCode = true) (hc : ctx.bindings.withoutCode = ctx.bindings)
    (ih : ∀ r ∈ b.alternatives, Expression (vocabulary text) (listedCode ctx r)) :
    Expression (vocabulary text) (ctx.evaluate b).1.code := by
  obtain ⟨hw, -⟩ := every_within hb
  obtain ⟨f, hs⟩ := succeeds_of_gives hw hg
  rw [evaluate_of_succeeds hs]
  have decides {path : List String} {d : Decision Node} (hd : b.Decides ctx path d) :
      Expression (vocabulary text) f.code :=
    hd.code he hw hs ▸ expression_decides hd hb ih
  cases hg
  case present hr _                   =>
    obtain ⟨r, rs, rfl⟩ := List.exists_cons_of_ne_nil hr
    exact decides .present
  case boolean hx hr _                =>
    obtain ⟨r, rs, rfl⟩ := List.exists_cons_of_ne_nil hr
    exact decides (.boolean hx)
  case compare hx hr _                =>
    obtain ⟨r, rs, rfl⟩ := List.exists_cons_of_ne_nil hr
    exact decides (.compare hx)
  case range hx ha _ _ hts            => exact decides (.range hx ha hts)
  case string hx | number hx          =>
    obtain ⟨hs⟩ := hs
    simp only [Block.evaluate, Context.blockOf, Context.value_retrieve_of_lookup hx,
      Context.items_arguments, Context.items_results, List.map_nil, Block.ofText,
      Block.ofNumber] at hs
    rw [← Except.ok.inj hs]
    exact .path (path_code hb.of_path)
  case call hx _ _ _ _                =>
    obtain ⟨hs⟩ := hs
    simp only [he, Block.evaluate, Context.blockOf, Context.value_retrieve_of_lookup hx] at hs
    rw [Block.code_ofFunction hs, Block.callCode, Bindings.toCode_of_lookup hc hx]
    refine .of_call (path_code hb.of_path) ?arguments ?results
    case arguments =>
      simpa [Context.items_arguments] using
        fun a ha => expression_operand (hw.operands a ha).1 (hb.of_operand ha)
    case results   => simpa [Context.items_results, listedCode_eq he, alternatives] using ih

end Template

namespace Node

-- Nothing but blocks that fail.
inductive Blank (ctx : Context) : Node → Prop
  | failed {b}    : b.Fails ctx → Blank ctx b
  | concat {s ns} : (∀ n ∈ ns, n.Fails ctx) → Blank ctx (concat s ns)

theorem blank_concat_iff {ctx : Context} {s : Span} {ns : List Node} :
    (concat s ns).Blank ctx ↔ ∀ n ∈ ns, n.Fails ctx := by
  constructor
  case mp =>
    rintro (hf | hf)
    · cases hf.isBlock
    · exact hf
  case mpr => exact .concat

theorem blank_iff_fails {ctx : Context} {n : Node} (hk : IsPiece n) :
    n.Blank ctx ↔ n.Fails ctx := by
  constructor
  case mp =>
    rintro (hf | _)
    · exact hf
    · cases hk
  case mpr => exact .failed

-- There is no code for a node that is blank, and an expression for any other one.
structure Emits (ctx : Context) (V : Vocabulary) (n : Node) : Prop where
  blank      : (ctx.evaluate n).1.code = "" ↔ n.Blank ctx
  expression : (ctx.evaluate n).1.code = "" ∨ Expression V (ctx.evaluate n).1.code

namespace Emits

variable {ctx : Context} {V : Vocabulary} {n : Node} {s : Span} {ns : List Node}

theorem of_fails (h : n.Fails ctx) : n.Emits ctx V := by
  have hc := congrArg (·.code) (Context.evaluate_of_fails h)
  exact ⟨iff_of_true hc (.failed h), .inl hc⟩

theorem of_expression (h : Expression V (ctx.evaluate n).1.code) (hn : ¬n.Blank ctx) :
    n.Emits ctx V :=
  ⟨iff_of_false h.ne_empty hn, .inr h⟩

theorem listed (h : n.Emits ctx V) (he : ctx.emitCode = true) :
    Expression V (listedCode ctx n) := by
  rw [listedCode_eq he]
  exact Fragment.expression_orEmptyLiteral h.expression

theorem concat (hk : ∀ n ∈ ns, IsPiece n) (h : ∀ n ∈ ns, n.Emits ctx V) :
    (Node.concat s ns).Emits ctx V := by
  let codes := (ns.map fun n => (ctx.evaluate n).1.code).filter (· ≠ "")
  have hcode : (ctx.evaluate (.concat s ns)).1.code = " + ".intercalate codes := by
    simp [Context.fragment_concat, Context.concat, codes, Function.comp_def]
  have hcodes : codes = [] ↔ (Node.concat s ns).Blank ctx := by
    have hnil : codes = [] ↔ ∀ n ∈ ns, (ctx.evaluate n).1.code = "" := by
      simp [codes, List.filter_eq_nil_iff]
    rw [hnil, blank_concat_iff]
    exact forall₂_congr fun n hn => (h n hn).blank.trans (blank_iff_fails (hk n hn))
  by_cases hn : codes = []
  case pos =>
    have he : (ctx.evaluate (.concat s ns)).1.code = "" := by rw [hcode, hn]; rfl
    exact ⟨iff_of_true he (hcodes.mp hn), .inl he⟩
  case neg =>
    refine of_expression ?_ (mt hcodes.mpr hn)
    rw [hcode]
    refine .of_intercalate hn fun e he => ?_
    obtain ⟨he, hne⟩ := List.mem_filter.mp he
    obtain ⟨n, hm, rfl⟩ := List.mem_map.mp he
    exact (h n hm).expression.resolve_left (by simpa using hne)

end Emits
end Node

namespace Template

open Node

variable {text : String} {ctx : Context}

theorem emits_block {s u v : Span} {p : Node} {as rs : List Node}
    (hb : (block s p (arguments u as) (results v rs)).Within (read text).root)
    (he : ctx.emitCode = true) (hc : ctx.bindings.withoutCode = ctx.bindings)
    (ih : ∀ r ∈ rs, r.Emits ctx (vocabulary text)) :
    (block s p (arguments u as) (results v rs)).Emits ctx (vocabulary text) := by
  obtain ⟨hw, -⟩ := every_within hb
  cases hw _ .refl
  case block hp =>
    by_cases hf : (block s p (arguments u as) (results v rs)).Fails ctx
    case pos => exact .of_fails hf
    case neg =>
      obtain ⟨o, hg⟩ := (not_fails_iff_gives hp hw.operands).mp hf
      refine .of_expression ?_ (mt (blank_iff_fails .block).mp hf)
      exact expression_of_gives hg hb he hc fun r hr => (ih r hr).listed he

theorem emits (n : Node) (hk : IsAlternative n) (hn : n.Within (read text).root)
    (he : ctx.emitCode = true) (hc : ctx.bindings.withoutCode = ctx.bindings) :
    n.Emits ctx (vocabulary text) := by
  -- By size, for the alternatives of a block are not its children but theirs.
  have ih (c : Node) (hlt : c.size < n.size) (hk : IsAlternative c)
      (hn : c.Within (read text).root) : c.Emits ctx (vocabulary text) := emits c hk hn he hc
  obtain ⟨hw, -⟩ := every_within hn
  cases hk
  case concat s ns =>
    cases hw _ .refl
    case concat _ hk =>
      refine .concat hk fun c hm => ?_
      exact ih c (size_lt_of_mem_children (n := concat s ns) hm) (.piece (hk c hm))
        (.trans (.child (n := concat s ns) hm .refl) hn)
  case piece hk =>
    cases hk
    case text s v =>
      refine .of_expression (.literal v) fun hb => ?_
      cases (blank_iff_fails .text).mp hb |>.isBlock
    case block =>
      cases hw _ .refl
      case block =>
        exact emits_block hn he hc fun r hr =>
          ih r (size_lt_of_alternative hr) (hw.alternatives r hr) (hn.of_alternative hr)
termination_by n.size
decreasing_by exact hlt

-- The code of a text is an expression, and there is none if there is nothing but blocks that fail.
theorem code_expression (b : Bindings) (hb : b.withoutCode = b) (text : String) :
    let ctx : Context := ⟨b, true⟩
    let V := vocabulary text
    ∃ code, (Stencil.render ctx text).code = some code ∧ (code = "" ∨ Expression V code) ∧
      (code = "" ↔ (read text).root.Blank ctx) ∧ ¬Expression V "" := by
  intro ctx V
  have h : (read text).root.Emits ctx V := emits _ (sound_root text).1 .refl rfl hb
  refine ⟨_, ?_, h.expression, h.blank, fun h => h.ne_empty rfl⟩
  simp [Stencil.render, render_eq, Rendering.ofFragment, ctx]

-- The blocks that fail leave no gap in the code of what is around them, and the thresholds of a
-- block are bounds in its code.
theorem code_expression_around_failures :
    let f : Function := ⟨fun _ _ => .ok (.text "t"), none, none, none⟩
    let b : Bindings := ⟨[("f", .function f), ("n", .number (.ofNat 7)), ("ok", .boolean true)]⟩
    let ctx : Context := ⟨b, true⟩
    let text := "[gone][ok|[gone]|x[f a 1.50|[gone]|y]][n 1 5.50|low|[gone]|high]"
    let code := "(ok ? \"\" : \"x\" + f([\"a\", 1.50], [\"\", \"y\"])) + " ++
      "(n >= 5.5 ? \"\" : (n >= 1 ? \"low\" : \"high\"))"
    b.withoutCode = b ∧ (Stencil.render ctx text).code = some code ∧
    Expression (vocabulary text) code ∧ ¬(read text).root.Blank ctx ∧
    (Stencil.render ctx "[gone][ok]").code = some "" ∧ (read "[gone][ok]").root.Blank ctx := by
  intro f b ctx text code
  have hb : b.withoutCode = b := rfl
  have hcode : (Stencil.render ctx text).code = some code := by decide +kernel
  have hnone : (Stencil.render ctx "[gone][ok]").code = some "" := by decide +kernel
  have ⟨c, hc, hx, hblank, _⟩ := code_expression b hb text
  have ⟨c', hc', _, hblank', _⟩ := code_expression b hb "[gone][ok]"
  obtain rfl := Option.some.inj (hc.symm.trans hcode)
  obtain rfl := Option.some.inj (hc'.symm.trans hnone)
  have hne : code ≠ "" := by decide
  exact ⟨hb, hcode, hx.resolve_left hne, mt hblank.mpr hne, hnone, hblank'.mp rfl⟩

end Template
end Stencil

import Stencil.Proofs.Code.Decision
import Stencil.Proofs.Render.Ranges

namespace Stencil

open Node (WellFormed)

namespace Block

variable {b : Block} {f : Fragment} {x : Binary64}

@[simp]
theorem code_choose (b : Block) (chosen : Option Fragment) (code : String) :
    (b.choose chosen code).code = code := by
  cases chosen <;> rfl

theorem code_between {holds : Bool} {condition : String}
    (h : b.between true holds condition = .ok f) :
    ∃ yes others, b.alternatives = yes :: others ∧
      f.code = Code.condition (others.head?.map (·.code)) [⟨condition, yes.code⟩] := by
  obtain ⟨name, span, path, args, alts⟩ := b
  rcases alts with _ | ⟨yes, _ | ⟨no, _ | ⟨g, fs⟩⟩⟩ <;>
    simp only [between, twoWay, Except.map, reduceCtorEq, Except.ok.injEq] at h
  case cons.nil      => exact ⟨yes, [], rfl, by rw [← h, code_choose]; rfl⟩
  case cons.cons.nil => exact ⟨yes, [no], rfl, by rw [← h, code_choose]; rfl⟩

theorem code_ofBoolean {flag : Bool} (h : b.ofBoolean true flag = .ok f) :
    ∃ yes others, b.alternatives = yes :: others ∧
      f.code = Code.condition (others.head?.map (·.code)) [⟨b.path.code, yes.code⟩] := by
  unfold ofBoolean at h
  split at h
  case isTrue  => exact code_between h
  case isFalse => cases h

theorem code_ofText {value : String} {a : Fragment} (ha : b.arguments = [a])
    (h : b.ofText true value = .ok f) :
    ∃ yes others, b.alternatives = yes :: others ∧
      f.code = Code.condition (others.head?.map (·.code))
        [⟨b.path.code ++ " == " ++ Code.quote a.literal, yes.code⟩] := by
  simp only [ofText, ha] at h
  exact code_between h

theorem code_ofNumber (ha : b.arguments ≠ []) (h : b.ofNumber true x = .ok f) :
    ∃ ts, thresholds? b.arguments = some ts ∧
      f.code = Code.condition (b.alternatives[ts.length]?.map (·.code))
        (thresholdBranches b.path.code ts b.alternatives) := by
  unfold ofNumber at h
  split at h
  case h_1 h₁ _ => exact absurd h₁ ha
  case h_2      => cases h
  case h_3      => cases h
  case h_4      =>
    dsimp only at h
    split at h
    case isTrue => cases h
    case isFalse =>
      cases hts : thresholds? b.arguments
      case none    => simp [hts] at h
      case some ts =>
        rw [hts, Except.ok.injEq] at h
        exact ⟨ts, rfl, by rw [← h, code_choose]; rfl⟩

end Block

theorem Context.code_retrieve (ctx : Context) (s : Span) (segs : List Node) :
    (ctx.evaluate (.retrieve s segs)).1.code = Node.dotted (Node.segmentNames segs) := by
  rw [evaluate, leaf, retrieve]
  split <;> rfl

namespace Node

open Code (Decision)

-- The chain of conditions in the code of a block, and the path that it asks about.
inductive Decides (ctx : Context) : Node → List String → Decision Node → Prop
  | present {s t segs u v r rs} :
    Decides ctx (block s (present t segs) (arguments u []) (results v (r :: rs)))
      (segmentNames segs) (.between .present r rs)
  | boolean {s t segs u v r rs flag} :
    ctx.bindings.lookup (segmentNames segs) = .ok (.boolean flag) →
    Decides ctx (block s (retrieve t segs) (arguments u []) (results v (r :: rs)))
      (segmentNames segs) (.between .holds r rs)
  | compare {s t segs u a v r rs x} :
    ctx.bindings.lookup (segmentNames segs) = .ok (.string x) →
    Decides ctx (block s (retrieve t segs) (arguments u [a]) (results v (r :: rs)))
      (segmentNames segs) (.between (.equals a.spelling) r rs)
  | range {s t segs u as v rs x ts} :
    ctx.bindings.lookup (segmentNames segs) = .ok (.number x) →
    as ≠ [] → as.mapM number? = some ts →
    Decides ctx (block s (retrieve t segs) (arguments u as) (results v rs))
      (segmentNames segs) (.thresholds ts rs)

-- The code of an alternative among others: if it has none, that of an empty text.
def listedCode (ctx : Context) (r : Node) : String :=
  let code := (r.render ctx).code.getD ""
  if code = "" then Code.quote "" else code

-- A number is at a threshold that there is an alternative for, and at one that there is none for.
def Skips (ctx : Context) (b : Node) : Prop :=
  ∃ path x ts, b.subject? = some path ∧ ctx.bindings.lookup path = .ok (.number x) ∧
    b.operands.mapM number? = some ts ∧
    (∃ t ∈ ts.take b.alternatives.length, t ≤ x) ∧ ∃ t ∈ ts.drop b.alternatives.length, t ≤ x

variable {ctx : Context} {b : Node} {path : List String} {d : Decision Node} {i : Nat}
  {f : Fragment}

theorem listedCode_eq (he : ctx.emitCode = true) :
    listedCode ctx = fun r => (ctx.evaluate r).1.orEmptyLiteral.code := by
  funext r
  simp only [listedCode, render_eq, Rendering.ofFragment, he, if_true, Option.getD_some,
    Fragment.orEmptyLiteral]
  split <;> rfl

theorem evaluate_of_succeeds (h : b.Succeeds ctx f) : (ctx.evaluate b).1 = f := by
  cases h
  case mk s p as rs h =>
    rw [Context.evaluate_block, Context.block]
    split
    case h_1 hm => simp [Block.evaluate, Context.blockOf, hm] at h
    case h_2    =>
      rw [Context.blockOf] at h
      simp only [h]

theorem Ranges.decides {x : Binary64} {ts : List Binary64} (h : b.Ranges path ts)
    (hw : WellFormed b) (hx : ctx.bindings.lookup path = .ok (.number x)) :
    b.Decides ctx path (.thresholds ts b.alternatives) := by
  obtain ⟨s, t, segs, u, as, v, rs, rfl, rfl, ha, _⟩ := h.exists_eq_block hw
  exact .range hx ha h.thresholds

theorem spell_between {test : Code.Test} {r : Node} {rs : List Node} {name : String}
    {yes : Fragment} {others : List Fragment} (he : ctx.emitCode = true)
    (h : (r :: rs).map (fun r => (ctx.evaluate r).1.orEmptyLiteral) = yes :: others) :
    (Decision.between test r rs).spell name (listedCode ctx) =
    Code.condition (others.head?.map (·.code)) [⟨test.spell name, yes.code⟩] := by
  obtain ⟨rfl, rfl⟩ := List.cons.inj h
  simp [Decision.spell, Decision.between, listedCode_eq he, List.head?_map, Function.comp_def]

theorem spell_thresholds {ts : List Binary64} {name : String} (he : ctx.emitCode = true)
    (rs : List Node) :
    (Decision.thresholds ts rs).spell name (listedCode ctx) =
    Code.condition ((rs.map fun r => (ctx.evaluate r).1.orEmptyLiteral)[ts.length]?.map (·.code))
      (Block.thresholdBranches name ts (rs.map fun r => (ctx.evaluate r).1.orEmptyLiteral)) := by
  simp [Decision.spell, Decision.thresholds, Block.thresholdBranches, listedCode_eq he,
    List.zip_map_right, Function.comp_def, Code.Test.spell]

theorem Decides.code (h : b.Decides ctx path d) (he : ctx.emitCode = true) (hw : b.Every WellFormed)
    (hs : b.Succeeds ctx f) : f.code = d.spell (dotted path) (listedCode ctx) := by
  obtain @⟨s, p, as, rs, _, hs⟩ := hs
  rw [he, Block.evaluate, Context.blockOf] at hs
  cases h
  case present t segs u v r rs =>
    obtain ⟨yes, others, halts, hcode⟩ := Block.code_ofBoolean hs
    rw [hcode, spell_between he ((ctx.items_results v (r :: rs)).symm.trans halts)]
    rfl
  case boolean t segs u v r rs flag hx =>
    simp only [Context.value_retrieve_of_lookup hx] at hs
    obtain ⟨yes, others, halts, hcode⟩ := Block.code_ofBoolean hs
    rw [hcode, spell_between he ((ctx.items_results v (r :: rs)).symm.trans halts),
      Context.code_retrieve]
    rfl
  case compare t segs u a v r rs x hx =>
    simp only [Context.value_retrieve_of_lookup hx] at hs
    obtain ⟨ha, hwa⟩ := hw.operands a (List.mem_singleton_self a)
    obtain ⟨yes, others, halts, hcode⟩ := Block.code_ofText (Context.items_arguments ctx u [a]) hs
    rw [hcode, spell_between he ((ctx.items_results v (r :: rs)).symm.trans halts),
      Context.code_retrieve, Context.literal_of_isOperand ha hwa]
    rfl
  case range t segs u as v rs x ts hx ha hts =>
    simp only [Context.value_retrieve_of_lookup hx, Context.items_arguments] at hs
    obtain ⟨us, hus, hcode⟩ := Block.code_ofNumber (by simpa using ha) hs
    rw [Context.thresholds?_map fun a ha => (hw.operands a ha).1, hts] at hus
    obtain rfl := Option.some.inj hus
    rw [hcode, spell_thresholds he, Context.code_retrieve, Context.items_results]

theorem not_skips_of_lookup {x : Symbol} (hp : b.subject? = some path)
    (hx : ctx.bindings.lookup path = .ok x) (hn : ∀ y, x ≠ .number y) : ¬b.Skips ctx := by
  rintro ⟨path', y, ts, hp', hy, _⟩
  obtain rfl := Option.some.inj (hp.symm.trans hp')
  exact hn y (Except.ok.inj (hx.symm.trans hy))

theorem skips_iff {x : Binary64} {ts : List Binary64} (hp : b.subject? = some path)
    (hx : ctx.bindings.lookup path = .ok (.number x)) (hts : b.operands.mapM number? = some ts) :
    b.Skips ctx ↔
    (∃ t ∈ ts.take b.alternatives.length, t ≤ x) ∧ ∃ t ∈ ts.drop b.alternatives.length, t ≤ x := by
  constructor
  case mp =>
    rintro ⟨path', y, us, hp', hy, hus, h⟩
    obtain rfl := Option.some.inj (hp.symm.trans hp')
    obtain rfl := Symbol.number.inj (Except.ok.inj (hx.symm.trans hy))
    obtain rfl := Option.some.inj (hts.symm.trans hus)
    exact h
  case mpr => exact fun h => ⟨path, x, ts, hp, hx, hts, h⟩

-- A number at a threshold without an alternative selects none.
theorem Skips.alternatives_eq_none (h : b.Skips ctx) (hg : b.Gives ctx (.selection i)) :
    b.alternatives[i]? = none := by
  obtain ⟨path, y, us, hp, hy, hus, -, t, ht, hty⟩ := h
  cases hg
  case present => cases hp
  case range s t segs u as v rs x ts hx _ _ _ hts =>
    obtain rfl := Option.some.inj hp
    obtain rfl := Symbol.number.inj (Except.ok.inj (hx.symm.trans hy))
    obtain rfl := Option.some.inj (hts.symm.trans hus)
    obtain ⟨j, hj⟩ := List.getElem?_of_mem ht
    rw [List.getElem?_drop] at hj
    cases hk : lastIndex? (fun t => t ≤ x) ts
    case none   => simpa [hty] using lastIndex?_eq_none_iff.mp hk _ (List.mem_of_getElem? hj)
    case some k =>
      have hle : rs.length + j ≤ k := le_lastIndex? hk hj (by simpa using hty)
      exact List.getElem?_eq_none (Nat.le_of_add_right_le hle)
  all_goals
    obtain rfl := Option.some.inj hp
    simp_all

-- A block that chooses an alternative without a call does so by a chain of conditions.
theorem exists_decides (hg : b.Gives ctx (.selection i))
    (hc : ∀ path g, b.subject? = some path → ctx.bindings.lookup path ≠ .ok (.function g)) :
    ∃ path d, b.Decides ctx path d ∧
      (d.follow (ctx.bindings.lookup path).toOption = b.alternatives[i]? ↔ ¬b.Skips ctx) := by
  cases hg
  case present s t segs u v rs hr _ =>
    obtain ⟨r, rs, rfl⟩ := List.exists_cons_of_ne_nil hr
    refine ⟨_, _, .present, iff_of_true ?_ ?_⟩
    · rw [Decision.follow_between, Bindings.binds]
      cases ctx.bindings.lookup (segmentNames segs) <;> rfl
    · rintro ⟨_, _, _, hp, _⟩
      cases hp
  case boolean s t segs u v rs flag hx hr _ =>
    obtain ⟨r, rs, rfl⟩ := List.exists_cons_of_ne_nil hr
    refine ⟨_, _, .boolean hx, iff_of_true ?_ (not_skips_of_lookup rfl hx (by simp))⟩
    rw [Decision.follow_between, hx]
    rfl
  case compare s t segs u a v rs x hx hr _ =>
    obtain ⟨r, rs, rfl⟩ := List.exists_cons_of_ne_nil hr
    refine ⟨_, _, .compare hx, iff_of_true ?_ (not_skips_of_lookup rfl hx (by simp))⟩
    rw [Decision.follow_between, hx]
    simp [Except.toOption, Code.Test.passes, alternatives]
  case range s t segs u as v rs x ts hx ha _ _ hts =>
    refine ⟨_, _, .range hx ha hts, ?_⟩
    let b := block s (retrieve t segs) (arguments u as) (results v rs)
    have hs := skips_iff (b := b) rfl hx hts
    rw [hx]
    exact Decision.follow_thresholds_eq_iff.trans (not_congr hs.symm)
  case call hx _ _ _ _ => exact absurd hx (hc _ _ rfl)

end Node

namespace Template

open Node

variable {ctx : Context} {b : Node} {i : Nat}

-- The code of a block leads to the alternative that is shown, or to an empty text if there is none,
-- unless it skips a threshold.
theorem code_decides {text : String} (hb : b.Within (read text).root) (he : ctx.emitCode = true)
    (hg : b.Gives ctx (.selection i))
    (hc : ∀ path f, b.subject? = some path → ctx.bindings.lookup path ≠ .ok (.function f)) :
    ∃ path d, b.Decides ctx path d ∧
      (b.render ctx).code = some (d.spell (dotted path) (listedCode ctx)) ∧
      b.ShowsAs ctx b.alternatives[i]? ∧
      (d.follow (ctx.bindings.lookup path).toOption = b.alternatives[i]? ↔ ¬b.Skips ctx) ∧
      (b.Skips ctx → b.alternatives[i]? = none) := by
  obtain ⟨hw, _⟩ := every_within hb
  obtain ⟨path, d, hd, hf⟩ := exists_decides hg hc
  obtain ⟨f, hs⟩ := succeeds_of_gives hw hg
  refine ⟨path, d, hd, ?code, displays_of_gives hb hg, hf, fun h => h.alternatives_eq_none hg⟩
  case code =>
    simp only [render_eq, Rendering.ofFragment, he, if_true]
    rw [evaluate_of_succeeds hs, hd.code he hw hs]

-- The second threshold has no alternative.
theorem ranges_of_skipping :
    (read "[n 1 5|low]").root.Ranges ["n"] [.ofNat 1, .ofNat 5] where
  subject      := by decide +kernel
  thresholds   := by decide +kernel
  ne_nil       := List.cons_ne_nil _ _
  alternatives := List.ne_nil_of_length_pos (by decide +kernel)
  length_le    := by decide +kernel

-- Below that threshold the code means what is shown.
theorem code_decides_below :
    let ctx : Context := ⟨.ofList [("n", .number (.ofNat 3))], true⟩
    let b := (read "[n 1 5|low]").root
    b.Gives ctx (.selection 0) ∧ ¬b.Skips ctx ∧ (b.render ctx).result = "low" ∧
    ∃ path d, b.Decides ctx path d ∧
      (b.render ctx).code = some (d.spell (dotted path) (listedCode ctx)) ∧
      d.follow (ctx.bindings.lookup path).toOption = b.alternatives[0]? := by
  intro ctx b
  have hr : b.Ranges ["n"] [.ofNat 1, .ofNat 5] := ranges_of_skipping
  have hb : b.Within b := .refl
  have hx : ctx.bindings.lookup ["n"] = .ok (.number (.ofNat 3)) := rfl
  have hg : b.Gives ctx (.selection 0) :=
    (hr.gives_iff (every_within hb).1 hx).mpr (by decide +kernel)
  have hs : ¬b.Skips ctx := by
    rw [skips_iff hr.subject hx hr.thresholds]
    decide +kernel
  have hc : ∀ path f, b.subject? = some path → ctx.bindings.lookup path ≠ .ok (.function f) := by
    intro path f hp
    obtain rfl := Option.some.inj (hr.subject.symm.trans hp)
    simp [hx]
  obtain ⟨path, d, hd, hcode, _, hf, _⟩ := code_decides hb rfl hg hc
  exact ⟨hg, hs, by decide +kernel, path, d, hd, hcode, hf.mpr hs⟩

-- At that threshold nothing is shown, but the code leads to the alternative of the one before it.
theorem code_decides_skipped :
    let ctx : Context := ⟨.ofList [("n", .number (.ofNat 7))], true⟩
    let b := (read "[n 1 5|low]").root
    b.Gives ctx (.selection 1) ∧ (b.render ctx).result = "" ∧
    (b.render ctx).code = some "(n >= 1 ? \"low\" : \"\")" ∧
    ∃ d r, b.Decides ctx ["n"] d ∧ d.spell "n" (listedCode ctx) = "(n >= 1 ? \"low\" : \"\")" ∧
      d.follow (ctx.bindings.lookup ["n"]).toOption = some r ∧ (r.render ctx).result = "low" := by
  intro ctx b
  have hr : b.Ranges ["n"] [.ofNat 1, .ofNat 5] := ranges_of_skipping
  have hb : b.Within b := .refl
  have hw := (every_within hb).1
  have hx : ctx.bindings.lookup ["n"] = .ok (.number (.ofNat 7)) := rfl
  have hlow : b.alternatives[0]?.map (fun r => (r.render ctx).result) = some "low" := by
    decide +kernel
  obtain ⟨r, hfirst, hresult⟩ := Option.map_eq_some_iff.mp hlow
  refine ⟨(hr.gives_iff hw hx).mpr (by decide +kernel), by decide +kernel, by decide +kernel,
    _, r, hr.decides (hw _ .refl) hx, by decide +kernel, ?_, hresult⟩
  have hi : (lastIndex? (fun t => t ≤ .ofNat 7)
      ([Binary64.ofNat 1, .ofNat 5].take b.alternatives.length)).getD 2 = 0 := by
    decide +kernel
  rw [hx]
  exact (Code.Decision.follow_thresholds.trans (congrArg (b.alternatives[·]?) hi)).trans hfirst

end Template
end Stencil

import Stencil.Proofs.Render.Machine
import Stencil.Proofs.Symbol.Walk

namespace Stencil

namespace Node

-- One more segment after a path, and the span of the path with it.
structure Access where
  span    : Span
  segment : Span
  name    : String

def follow (left : Node) (steps : List Access) : Node :=
  steps.foldl (fun l a => .access a.span l (.name a.segment a.name)) left

theorem pathName?_follow {segs : List Node} {s : Span} {steps : List Access}
    (h : segmentNames segs ≠ []) :
    ((retrieve s segs).follow steps).pathName? =
    some (dotted (segmentNames segs ++ steps.map (·.name))) := by
  suffices H : ∀ left names, names ≠ [] → pathName? left = some (dotted names) →
      (left.follow steps).pathName? = some (dotted (names ++ steps.map (·.name))) from
    H _ _ h rfl
  intro left names hn hl
  induction steps generalizing left names
  case nil           => simpa [follow] using hl
  case cons a as ih =>
    have ha : pathName? (.access a.span left (.name a.segment a.name)) =
        some (dotted (names ++ [a.name])) := by
      simp [pathName?, hl, segment?, dotted_concat hn]
    simpa [follow] using ih _ _ (by simp) ha

end Node

open Node (Access dotted dotted_concat segmentNames)

-- Where the path of a block stands does not matter to the block.
theorem Block.evaluate_congr_path (emit : Bool) (b : Block) {f g : Fragment}
    (hv : f.value = g.value) (hc : f.code = g.code) :
    evaluate emit { b with path := f } = evaluate emit { b with path := g } := by
  obtain ⟨v, s, c⟩ := f
  obtain ⟨v', t, c'⟩ := g
  obtain rfl : v = v' := hv
  obtain rfl : c = c' := hc
  cases v
  case symbol s => cases s <;> rfl
  all_goals rfl

namespace Context

variable {ctx : Context} {left : Node} {a : Access} {steps : List Access} {names : List String}
  {x y : Symbol} {e : LookupError}

theorem evaluate_access_name (ctx : Context) (s t : Span) (left : Node) (name : String) :
    let step := access s t (ctx.evaluate left).1 (.ofValue (.text name) t name)
    ctx.evaluate (.access s left (.name t name)) =
    (step.1, (ctx.evaluate left).2 ++ step.2) := by
  simp [evaluate, join, combine, leaf, Node.span]

-- The path `n` leads to the symbol `x` by way of `names`.
structure Reaches (ctx : Context) (n : Node) (names : List String) (x : Symbol) : Prop where
  value  : (ctx.evaluate n).1.value = .symbol x
  code   : (ctx.evaluate n).1.code = dotted names
  faults : (ctx.evaluate n).2 = []

-- The path `n` leads nowhere, and the faults of it are `faults`.
structure Strays (ctx : Context) (n : Node) (faults : List (Fault EvalError)) : Prop where
  value  : (ctx.evaluate n).1.value = .missing
  faults : (ctx.evaluate n).2 = faults

theorem Reaches.access (h : ctx.Reaches left names x) (hn : names ≠ [])
    (hs : x.step (dotted names) a.name = .ok y) :
    ctx.Reaches (.access a.span left (.name a.segment a.name)) (names ++ [a.name]) y := by
  constructor <;> rw [evaluate_access_name]
  all_goals
    simp [Context.access, h.value, h.code, h.faults, Fragment.ofValue, Fragment.text, Value.render,
      hs, dotted_concat hn]

theorem Reaches.access_error (h : ctx.Reaches left names x)
    (hs : x.step (dotted names) a.name = .error e) :
    ctx.Strays (.access a.span left (.name a.segment a.name)) [⟨a.segment, .lookup e⟩] := by
  constructor <;> rw [evaluate_access_name]
  all_goals
    simp [Context.access, h.value, h.code, h.faults, Fragment.ofValue, Fragment.text, Value.render,
      hs]

theorem Strays.follow {faults : List (Fault EvalError)} (h : ctx.Strays left faults)
    (steps : List Access) : ctx.Strays (left.follow steps) faults := by
  induction steps generalizing left
  case nil          => exact h
  case cons a as ih =>
    apply ih
    constructor <;> rw [evaluate_access_name]
    all_goals simp [access, h.value, h.faults, Fragment.ofValue]

theorem Reaches.follow (h : ctx.Reaches left names x) (hn : names ≠ [])
    (hw : x.walk (dotted names) (steps.map (·.name)) = .ok y) :
    ctx.Reaches (left.follow steps) (names ++ steps.map (·.name)) y := by
  induction steps generalizing left names x
  case nil =>
    cases hw
    simpa [Node.follow] using h
  case cons a as ih =>
    simp only [List.map_cons, Symbol.walk] at hw
    split at hw
    case h_2      => cases hw
    case h_1 z hz =>
      have h := h.access hn hz
      rw [← dotted_concat hn] at hw
      simpa [Node.follow] using ih h (by simp) hw

-- A walk that fails stops at one of its steps.
theorem Reaches.follow_error (h : ctx.Reaches left names x) (hn : names ≠ [])
    (hw : x.walk (dotted names) (steps.map (·.name)) = .error e) :
    ∃ before a after y, steps = before ++ a :: after ∧
      x.walk (dotted names) (before.map (·.name)) = .ok y ∧
      y.step (dotted (names ++ before.map (·.name))) a.name = .error e ∧
      ctx.Strays (left.follow steps) [⟨a.segment, .lookup e⟩] := by
  induction steps generalizing left names x
  case nil          => cases hw
  case cons a as ih =>
    simp only [List.map_cons, Symbol.walk] at hw
    split at hw
    case h_2 hs   =>
      cases hw
      exact ⟨[], a, as, x, rfl, rfl, by simpa using hs, (h.access_error hs).follow as⟩
    case h_1 z hz =>
      have h := h.access hn hz
      rw [← dotted_concat hn] at hw
      obtain ⟨before, c, after, y, he, hy, hc, hf⟩ := ih h (by simp) hw
      refine ⟨a :: before, c, after, y, by rw [he]; rfl, ?walk, ?step, hf⟩
      case walk => simpa [Symbol.walk, hz, dotted_concat hn] using hy
      case step => simpa using hc

end Context

namespace Node

-- Where a path that begins with `names` and goes on with `steps` fails: at its beginning, or at the
-- first step that leads nowhere.
inductive FailsAt (b : Bindings) (s : Span) (names : List String) :
    List Access → LookupError → Span → Prop
  | start {steps e} : b.lookup names = .error e → FailsAt b s names steps e s
  | step {before a after x e} :
    b.lookup (names ++ before.map (·.name)) = .ok x →
    b.lookup (names ++ (before ++ [a]).map (·.name)) = .error e →
    FailsAt b s names (before ++ a :: after) e a.segment

variable {ctx : Context} {segs flat : List Node} {steps : List Access} {s t u : Span}
  {p q as rs : Node} {x : Symbol} {e : LookupError}

theorem reaches_retrieve (h : ctx.bindings.lookup (segmentNames segs) = .ok x) :
    ctx.Reaches (.retrieve s segs) (segmentNames segs) x := by
  constructor <;> simp [Context.evaluate, Context.leaf, Context.retrieve, h, Fragment.ofValue]

theorem strays_retrieve (h : ctx.bindings.lookup (segmentNames segs) = .error e) :
    ctx.Strays (.retrieve s segs) [⟨s, .lookup e⟩] := by
  constructor <;> simp [Context.evaluate, Context.leaf, Context.retrieve, h, Fragment.ofValue]

theorem reaches_follow (hs : segmentNames segs ≠ [])
    (h : ctx.bindings.lookup (segmentNames segs ++ steps.map (·.name)) = .ok x) :
    ctx.Reaches ((retrieve s segs).follow steps) (segmentNames segs ++ steps.map (·.name)) x := by
  rw [Bindings.lookup_append hs] at h
  cases hl : ctx.bindings.lookup (segmentNames segs)
  case error => simp [hl, Except.bind] at h
  case ok    =>
    rw [hl] at h
    exact (reaches_retrieve hl).follow hs h

theorem strays_follow (hs : segmentNames segs ≠ [])
    (h : ctx.bindings.lookup (segmentNames segs ++ steps.map (·.name)) = .error e) :
    ∃ place, FailsAt ctx.bindings s (segmentNames segs) steps e place ∧
      ctx.Strays ((retrieve s segs).follow steps) [⟨place, .lookup e⟩] := by
  rw [Bindings.lookup_append hs] at h
  cases hl : ctx.bindings.lookup (segmentNames segs)
  case error =>
    rw [hl] at h
    cases h
    exact ⟨s, .start hl, (strays_retrieve hl).follow steps⟩
  case ok    =>
    rw [hl] at h
    have ⟨before, a, after, y, he, hy, ha, hf⟩ := (reaches_retrieve (s := s) hl).follow_error hs h
    have hb : ctx.bindings.lookup (segmentNames segs ++ before.map (·.name)) = .ok y := by
      rwa [Bindings.lookup_append hs, hl]
    refine ⟨a.segment, he ▸ .step hb ?error, hf⟩
    case error =>
      have hn : segmentNames segs ++ before.map (·.name) ≠ [] := by simp [hs]
      rw [List.map_append, ← List.append_assoc, Bindings.lookup_append hn, hb]
      simp [Except.bind, Symbol.walk, ha]

theorem evaluate_block_of_reaches {names : List String} (hp : ctx.Reaches p names x)
    (hq : ctx.Reaches q names x) (hn : p.pathName? = q.pathName?) :
    ctx.evaluate (.block s p as rs) = ctx.evaluate (.block s q as rs) := by
  have hc := hp.code.trans hq.code.symm
  have h (b : Block) := b.evaluate_congr_path ctx.emitCode (hp.value.trans hq.value.symm) hc
  have hb := h ⟨p.pathName?.getD (ctx.evaluate p).1.code, s, (ctx.evaluate p).1,
    (ctx.evaluate as).1.items, (ctx.evaluate rs).1.items⟩
  simp only [Context.evaluate_block, Context.block, hp.value, hq.value, hp.faults, hq.faults]
  simp only [hn, hc] at hb ⊢
  rw [hb]

theorem evaluate_block_of_strays {faults : List (Fault EvalError)} (h : ctx.Strays p faults)
    (s : Span) (as rs : Node) :
    ctx.evaluate (.block s p as rs) =
    (.blank s, faults ++ ((ctx.evaluate as).2 ++ (ctx.evaluate rs).2)) := by
  simp [Context.evaluate_block, Context.block, h.value, h.faults]

theorem render_follow (ctx : Context) {segs flat : List Node} {steps : List Access}
    (hs : segmentNames segs ≠ [])
    (hf : segmentNames flat = segmentNames segs ++ steps.map (·.name)) (s t u : Span)
    (as rs : Node) :
    let chained := (block s ((retrieve t segs).follow steps) as rs).render ctx
    let looked := (block s (retrieve u flat) as rs).render ctx
    let more := (as.render ctx).faults ++ (rs.render ctx).faults
    chained.result = looked.result ∧ chained.spans = looked.spans ∧ chained.code = looked.code ∧
    chained.diagnostics.map (·.message) = looked.diagnostics.map (·.message) ∧
    match ctx.bindings.lookup (segmentNames flat) with
    | .ok _    => chained.faults = looked.faults
    | .error e =>
      ∃ place, FailsAt ctx.bindings t (segmentNames segs) steps e place ∧
        chained.faults = ⟨place, .lookup e⟩ :: more ∧ looked.faults = ⟨u, .lookup e⟩ :: more := by
  cases hl : ctx.bindings.lookup (segmentNames flat)
  case ok x =>
    have hc := reaches_follow (s := t) hs (hf ▸ hl)
    have hd := reaches_retrieve (s := u) hl
    have h : ctx.evaluate (block s ((retrieve t segs).follow steps) as rs) = _ :=
      evaluate_block_of_reaches hc (hf ▸ hd) <| by simp [pathName?_follow hs, pathName?, hf]
    simp only [render_eq, h]
    exact ⟨rfl, rfl, rfl, rfl, rfl⟩
  case error e =>
    have ⟨place, hplace, hc⟩ := strays_follow (s := t) hs (hf ▸ hl)
    have hd := strays_retrieve (s := u) hl
    have hc := evaluate_block_of_strays hc s as rs
    have hd := evaluate_block_of_strays hd s as rs
    simp only [faults_render, hc, hd]
    simp only [render_eq, hc, hd]
    exact ⟨rfl, rfl, rfl, rfl, place, hplace, rfl, rfl⟩

-- The value at `a.b` has no children.
theorem render_follow_no_children :
    let ctx : Context := ⟨.ofList [("a", .object [("b", .boolean true)])], true⟩
    let s : Span := ⟨⟨0, 1⟩, ⟨0, 6⟩⟩
    let t : Span := ⟨⟨0, 1⟩, ⟨0, 2⟩⟩
    let segs := [name t "a"]
    let flat := segs ++ [name ⟨⟨0, 3⟩, ⟨0, 4⟩⟩ "b", name ⟨⟨0, 5⟩, ⟨0, 6⟩⟩ "c"]
    let steps : List Access :=
      [⟨⟨⟨0, 1⟩, ⟨0, 4⟩⟩, ⟨⟨0, 3⟩, ⟨0, 4⟩⟩, "b"⟩, ⟨s, ⟨⟨0, 5⟩, ⟨0, 6⟩⟩, "c"⟩]
    let as := arguments (.point s.stop) []
    let rs := results (.point s.stop) []
    let chained := (block s ((retrieve t segs).follow steps) as rs).render ctx
    let looked := (block s (retrieve s flat) as rs).render ctx
    segmentNames segs ≠ [] ∧ segmentNames flat = segmentNames segs ++ steps.map (·.name) ∧
    chained.result = looked.result ∧
    chained.diagnostics.map (·.message) = looked.diagnostics.map (·.message) ∧
    ∃ place, FailsAt ctx.bindings t (segmentNames segs) steps (.noChildren "a.b") place ∧
      chained.faults = [⟨place, .lookup (.noChildren "a.b")⟩] := by
  intro ctx s t segs flat steps as rs chained looked
  have hs : segmentNames segs ≠ [] := by decide
  have hf : segmentNames flat = segmentNames segs ++ steps.map (·.name) := rfl
  have h := render_follow ctx hs hf s t s as rs
  have hl : ctx.bindings.lookup (segmentNames flat) = .error (.noChildren "a.b") := rfl
  simp only [hl] at h
  have ⟨hr, _, _, hd, place, hplace, hc, _⟩ := h
  refine ⟨hs, hf, hr, hd, place, hplace, hc.trans ?_⟩
  simp only [faults_render]
  rfl

end Node
end Stencil

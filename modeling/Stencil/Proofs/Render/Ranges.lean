import Stencil.Proofs.Render.Success
import Stencil.Proofs.Render.Thresholds

namespace Stencil

open Node (IsOperand WellFormed)

namespace Node

variable {ctx : Context} {b : Node} {as : List Node} {path : List String} {x : Binary64}
  {ts : List Binary64} {o : Outcome}

-- The path that a block retrieves. A block that asks for the presence of a path has none.
def subject? : Node → Option (List String)
  | block _ (retrieve _ segs) _ _ => some (segmentNames segs)
  | _                             => none

-- A block with thresholds, and with an alternative for each of them, fewer, or one more.
structure Ranges (b : Node) (path : List String) (ts : List Binary64) : Prop where
  subject      : b.subject? = some path
  thresholds   : b.operands.mapM number? = some ts
  ne_nil       : ts ≠ []
  alternatives : b.alternatives ≠ []
  length_le    : b.alternatives.length ≤ ts.length + 1

theorem map_number?_of_mapM (h : as.mapM number? = some ts) : as.map number? = ts.map some := by
  induction as generalizing ts
  case nil =>
    obtain rfl : [] = ts := by simpa using h
    rfl
  case cons a as ih =>
    simp only [List.mapM_cons, Option.bind_eq_bind, Option.bind_eq_some_iff, Option.pure_def,
      Option.some.injEq] at h
    obtain ⟨x, hx, xs, hxs, rfl⟩ := h
    simp [hx, ih hxs]

theorem length_eq_of_mapM (h : as.mapM number? = some ts) : as.length = ts.length := by
  simpa using congrArg List.length (map_number?_of_mapM h)

theorem exists_number_of_mapM (h : as.mapM number? = some ts) {t : Binary64} (ht : t ∈ ts) :
    ∃ s l, number s t l ∈ as := by
  have ht : some t ∈ as.map number? := map_number?_of_mapM h ▸ List.mem_map_of_mem ht
  obtain ⟨a, ha, hat⟩ := List.mem_map.mp ht
  cases a <;> cases hat
  case number => exact ⟨_, _, ha⟩

theorem isNaN_of_mapM (has : ∀ a ∈ as, IsOperand a ∧ WellFormed a)
    (h : as.mapM number? = some ts) : ∀ t ∈ ts, t.isNaN = false := by
  intro t ht
  obtain ⟨s, l, ha⟩ := exists_number_of_mapM h ht
  cases (has _ ha).2
  case number hf _ => exact Binary64.isNaN_of_isFinite hf

namespace Ranges

theorem exists_eq_block (h : b.Ranges path ts) (hw : WellFormed b) :
    ∃ s t segs u as v rs,
      b = block s (retrieve t segs) (arguments u as) (results v rs) ∧ segmentNames segs = path ∧
      as ≠ [] ∧ rs.length ≤ as.length + 1 := by
  obtain ⟨hp, hts, hne, -, hl⟩ := h
  cases hw
  case block hpath =>
    cases hpath
    case present  => cases hp
    case retrieve =>
      have hlen := length_eq_of_mapM hts
      have ha : _ ≠ [] := List.ne_nil_of_length_pos (hlen ▸ List.length_pos_of_ne_nil hne)
      exact ⟨_, _, _, _, _, _, _, rfl, Option.some.inj hp, ha, hlen ▸ hl⟩
  all_goals cases hp

theorem gives (h : b.Ranges path ts) (hw : b.Every WellFormed)
    (hx : ctx.bindings.lookup path = .ok (.number x)) :
    b.Gives ctx (.selection ((lastIndex? (fun t => t ≤ x) ts).getD ts.length)) := by
  obtain ⟨s, t, segs, u, as, v, rs, rfl, rfl, ha, hl⟩ := h.exists_eq_block (hw _ .refl)
  exact .range hx ha h.alternatives hl h.thresholds

theorem gives_iff (h : b.Ranges path ts) (hw : b.Every WellFormed)
    (hx : ctx.bindings.lookup path = .ok (.number x)) :
    b.Gives ctx o ↔ .selection ((lastIndex? (fun t => t ≤ x) ts).getD ts.length) = o :=
  ⟨fun hg => hg.deterministic hw (h.gives hw hx), fun he => he ▸ h.gives hw hx⟩

theorem isNaN (h : b.Ranges path ts) (hw : b.Every WellFormed) : ∀ t ∈ ts, t.isNaN = false :=
  isNaN_of_mapM (operands_of_wellFormed hw) h.thresholds

end Ranges

end Node

namespace Template

open Node

variable {ctx : Context} {b : Node} {path : List String} {x first : Binary64}
  {ts : List Binary64}

-- The selected alternative is that of the threshold where the number lies, or the one behind them
-- if it lies below them all. It is not before another one that is selected by a lesser number.
theorem range_selects {text : String} (hb : b.Within (read text).root)
    (hr : b.Ranges path (first :: ts)) (ho : (first :: ts).Pairwise (· ≤ ·))
    (hx : ctx.bindings.lookup path = .ok (.number x)) (hn : x.isNaN = false) :
    let last := (first :: ts).length
    (∀ i, b.Gives ctx (.selection i) ↔ x.LiesAt (first :: ts) i ∨ x < first ∧ i = last) ∧
    (first ≤ x → ∃! i, x.LiesAt (first :: ts) i) ∧
    (∀ i, x.LiesAt (first :: ts) i → b.ShowsAs ctx b.alternatives[i]?) ∧
    (x < first → b.ShowsAs ctx b.alternatives[last]?) ∧
    (b.Gives ctx (.selection last) ↔ x < first) ∧
    ∀ ctx' y, ctx'.bindings.lookup path = .ok (.number y) → first ≤ x → x ≤ y →
      ∀ i j, b.Gives ctx (.selection i) → b.Gives ctx' (.selection j) → i ≤ j := by
  intro last
  obtain ⟨hw, _⟩ := every_within hb
  have hasc : Binary64.Ascends (first :: ts) := ⟨hr.isNaN hw, ho⟩
  have index {ctx' : Context} {y : Binary64} (i : Nat)
      (hy : ctx'.bindings.lookup path = .ok (.number y)) (hn : y.isNaN = false) :
      b.Gives ctx' (.selection i) ↔ y.LiesAt (first :: ts) i ∨ y < first ∧ i = last := by
    rw [hr.gives_iff hw hy, Outcome.selection.injEq]
    exact hasc.getD_lastIndex?_eq_iff hn
  refine ⟨fun i => index i hx hn, hasc.existsUnique_liesAt hn, ?reached, ?below, ?last, ?grows⟩
  case reached => exact fun i hi => displays_of_gives hb ((index i hx hn).mpr (.inl hi))
  case below   => exact fun hlt => displays_of_gives hb ((index last hx hn).mpr (.inr ⟨hlt, rfl⟩))
  case last    =>
    have hno : ¬x.LiesAt (first :: ts) last := fun h => by
      obtain ⟨t, ht, _⟩ := h.reached
      simp [last] at ht
    simp [index last hx hn, hno]
  case grows =>
    intro ctx' y hy hfirst hxy i j hi hj
    have at_threshold {z : Binary64} {k : Nat} (hz : first ≤ z)
        (h : z.LiesAt (first :: ts) k ∨ z < first ∧ k = last) : z.LiesAt (first :: ts) k :=
      h.resolve_right fun h => Binary64.not_le_of_lt h.1 hz
    have hix := at_threshold hfirst ((index i hx hn).mp hi)
    have hjy := at_threshold (Binary64.le_trans hfirst hxy) ((index j hy hxy.2.1).mp hj)
    exact hasc.index_le hxy hix hjy

-- There is one alternative more than there are thresholds, for the numbers below them.
theorem range_selects_between :
    let ctx (n : Nat) : Context := ⟨.ofList [("n", .number (.ofNat n))], true⟩
    let b := (read "[n 1 5|a|b|low]").root
    b.ShowsAs (ctx 3) b.alternatives[0]? ∧ b.ShowsAs (ctx 0) b.alternatives[2]? ∧
    ∀ i j, b.Gives (ctx 3) (.selection i) → b.Gives (ctx 7) (.selection j) → i ≤ j := by
  intro ctx b
  have hr : b.Ranges ["n"] [.ofNat 1, .ofNat 5] :=
    ⟨by decide +kernel, by decide +kernel, by simp,
      List.ne_nil_of_length_pos (by decide +kernel), by decide +kernel⟩
  have ho : [Binary64.ofNat 1, .ofNat 5].Pairwise (· ≤ ·) := by decide +kernel
  have lookup (n : Nat) : (ctx n).bindings.lookup ["n"] = .ok (.number (.ofNat n)) := rfl
  have three : (Binary64.ofNat 3).LiesAt [.ofNat 1, .ofNat 5] 0 := by
    refine ⟨⟨_, rfl, by decide +kernel⟩, fun t ht => ?_⟩
    obtain rfl := Option.some.inj ht
    decide +kernel
  have hthree := range_selects .refl hr ho (lookup 3) (by decide +kernel)
  have hzero := range_selects .refl hr ho (lookup 0) (by decide +kernel)
  refine ⟨hthree.2.2.1 0 three, hzero.2.2.2.1 (by decide +kernel), ?_⟩
  exact hthree.2.2.2.2.2 _ _ (lookup 7) (by decide +kernel) (by decide +kernel)

end Template
end Stencil

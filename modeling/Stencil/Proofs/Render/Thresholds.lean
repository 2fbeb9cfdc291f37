import Mathlib.Data.List.Basic
import Stencil.Number.Binary64
import Stencil.Render.Block

namespace Stencil

theorem lastIndex?_eq_none_iff {α : Type} {p : α → Bool} {as : List α} :
    lastIndex? p as = none ↔ ∀ a ∈ as, p a = false := by
  induction as
  case nil          => simp [lastIndex?]
  case cons a as ih =>
    rw [List.forall_mem_cons, ← ih, lastIndex?]
    cases lastIndex? p as
    case none => cases p a <;> simp
    case some => simp

theorem lastIndex?_eq_some_iff {α : Type} {p : α → Bool} {as : List α} {i : Nat} :
    lastIndex? p as = some i ↔
    (∃ a, as[i]? = some a ∧ p a = true) ∧ ∀ j a, i < j → as[j]? = some a → p a = false := by
  induction as generalizing i
  case nil          => simp [lastIndex?]
  case cons a as ih =>
    rw [lastIndex?]
    cases h : lastIndex? p as
    case none =>
      have hno := lastIndex?_eq_none_iff.mp h
      constructor
      case mp =>
        intro hi
        obtain ⟨ha, rfl⟩ : p a = true ∧ 0 = i := by simpa using hi
        refine ⟨⟨a, rfl, ha⟩, fun j b hj hb => ?_⟩
        obtain ⟨j, rfl⟩ := Nat.exists_eq_succ_of_ne_zero (Nat.ne_of_gt hj)
        exact hno b (List.mem_of_getElem? hb)
      case mpr =>
        rintro ⟨⟨b, hb, hp⟩, -⟩
        cases i
        case zero   => simp_all
        case succ i => simp [hno b (List.mem_of_getElem? hb)] at hp
    case some k =>
      obtain ⟨⟨b, hb, hp⟩, hlast⟩ := ih.mp h
      constructor
      case mp =>
        rintro ⟨⟩
        refine ⟨⟨b, hb, hp⟩, fun j c hj hc => ?_⟩
        obtain ⟨j, rfl⟩ := Nat.exists_eq_succ_of_ne_zero (Nat.ne_of_gt (Nat.zero_lt_of_lt hj))
        exact hlast j c (Nat.lt_of_succ_lt_succ hj) hc
      case mpr =>
        rintro ⟨⟨c, hc, hpc⟩, hlast'⟩
        cases i
        case zero   => simp [hlast' (k + 1) b (Nat.succ_pos k) hb] at hp
        case succ i =>
          have hi := ih.mpr ⟨⟨c, hc, hpc⟩, fun j d hj hd => hlast' (j + 1) d (by omega) hd⟩
          rw [h] at hi
          exact congrArg (·.map (· + 1)) hi

theorem lastIndex?_append {α : Type} {p : α → Bool} (as bs : List α) :
    lastIndex? p (as ++ bs) = ((lastIndex? p bs).map (as.length + ·)).or (lastIndex? p as) := by
  induction as
  case nil          => cases h : lastIndex? p bs <;> simp [lastIndex?, h]
  case cons a as ih =>
    rw [List.cons_append, lastIndex?, ih, lastIndex?]
    cases lastIndex? p bs
    case none   => simp
    case some i => simp [Nat.add_right_comm]

theorem lt_length_of_lastIndex? {α : Type} {p : α → Bool} {as : List α} {i : Nat}
    (h : lastIndex? p as = some i) : i < as.length := by
  obtain ⟨⟨a, ha, _⟩, _⟩ := lastIndex?_eq_some_iff.mp h
  exact (List.getElem?_eq_some_iff.mp ha).1

theorem le_lastIndex? {α : Type} {p : α → Bool} {as : List α} {a : α} {i j : Nat}
    (h : lastIndex? p as = some i) (ha : as[j]? = some a) (hp : p a = true) : j ≤ i := by
  refine Nat.le_of_not_lt fun hi => ?_
  simp [(lastIndex?_eq_some_iff.mp h).2 j a hi ha] at hp

theorem lastIndex?_zip {α β : Type} {p : α → Bool} (as : List α) (bs : List β) :
    lastIndex? (fun e => p e.1) (as.zip bs) = lastIndex? p (as.take bs.length) := by
  induction as generalizing bs
  case nil          => simp [lastIndex?]
  case cons a as ih =>
    cases bs
    case nil  => rfl
    case cons =>
      simp only [List.zip_cons_cons, List.length_cons, List.take_succ_cons, lastIndex?, ih]

theorem find?_reverse {α : Type} {p : α → Bool} (as : List α) :
    as.reverse.find? p = (lastIndex? p as).bind (as[·]?) := by
  induction as
  case nil          => rfl
  case cons a as ih =>
    rw [List.reverse_cons, List.find?_append, ih, lastIndex?]
    cases h : lastIndex? p as
    case none   => cases hp : p a <;> simp [hp]
    case some i =>
      obtain ⟨⟨b, hb, _⟩, _⟩ := lastIndex?_eq_some_iff.mp h
      simp [hb]

namespace Binary64

variable {x y z t u : Binary64} {ts : List Binary64} {i j : Nat}

instance : LT Binary64 where
  lt x y := x.isNaN = false ∧ y.isNaN = false ∧ x.rank < y.rank

theorem lt_def {x y : Binary64} :
    x < y ↔ x.isNaN = false ∧ y.isNaN = false ∧ x.rank < y.rank :=
  Iff.rfl

instance (x y : Binary64) : Decidable (x < y) :=
  decidable_of_iff _ lt_def.symm

theorem not_le (hx : x.isNaN = false) (hy : y.isNaN = false) : ¬x ≤ y ↔ y < x := by
  simp [le_def, lt_def, hx, hy]

theorem not_le_of_lt (h : x < y) : ¬y ≤ x :=
  (not_le h.2.1 h.1).mpr h

protected theorem lt_of_lt_of_le (h₁ : x < y) (h₂ : y ≤ z) : x < z :=
  ⟨h₁.1, h₂.2.1, Int.lt_of_lt_of_le h₁.2.2 h₂.2.2⟩

-- The number is not below the threshold with the index, but it is below the next one.
structure LiesAt (x : Binary64) (ts : List Binary64) (i : Nat) : Prop where
  reached : ∃ t, ts[i]? = some t ∧ t ≤ x
  below   : ∀ t, ts[i + 1]? = some t → x < t

-- A list of numbers, none of them a NaN, in which no number is above the next one.
structure Ascends (ts : List Binary64) : Prop where
  numbers : ∀ t ∈ ts, t.isNaN = false
  sorted  : ts.Pairwise (· ≤ ·)

namespace Ascends

theorem le (h : Ascends ts) (hij : i ≤ j) (ht : ts[i]? = some t) (hu : ts[j]? = some u) :
    t ≤ u := by
  obtain ⟨hi, rfl⟩ := List.getElem?_eq_some_iff.mp ht
  obtain ⟨hj, rfl⟩ := List.getElem?_eq_some_iff.mp hu
  rcases Nat.eq_or_lt_of_le hij with rfl | hlt
  case inl =>
    have hn := h.numbers _ (List.getElem_mem hi)
    exact ⟨hn, hn, Int.le_refl _⟩
  case inr => exact List.pairwise_iff_getElem.mp h.sorted i j hi hj hlt

theorem lastIndex?_eq_some_iff (h : Ascends ts) (hx : x.isNaN = false) :
    lastIndex? (fun t => t ≤ x) ts = some i ↔ x.LiesAt ts i := by
  rw [Stencil.lastIndex?_eq_some_iff]
  simp only [decide_eq_true_eq, decide_eq_false_iff_not]
  constructor
  case mp =>
    rintro ⟨hi, hlast⟩
    refine ⟨hi, fun t ht => ?_⟩
    exact (not_le (h.numbers t (List.mem_of_getElem? ht)) hx).mp (hlast _ t (Nat.lt_succ_self i) ht)
  case mpr =>
    rintro ⟨hi, hnext⟩
    refine ⟨hi, fun j u hj hu => not_le_of_lt ?_⟩
    -- The thresholds up to one that is there are there.
    have hlen : i + 1 < ts.length := Nat.lt_of_le_of_lt hj (List.getElem?_eq_some_iff.mp hu).1
    have ht := List.getElem?_eq_getElem hlen
    exact Binary64.lt_of_lt_of_le (hnext _ ht) (h.le hj ht hu)

theorem lastIndex?_eq_none_iff (h : Ascends (t :: ts)) (hx : x.isNaN = false) :
    lastIndex? (fun t => t ≤ x) (t :: ts) = none ↔ x < t := by
  rw [Stencil.lastIndex?_eq_none_iff]
  simp only [decide_eq_false_iff_not]
  constructor
  case mp =>
    intro hno
    exact (not_le (h.numbers t List.mem_cons_self) hx).mp (hno t List.mem_cons_self)
  case mpr =>
    intro hlt u hu
    obtain ⟨j, hj⟩ := List.getElem?_of_mem hu
    exact not_le_of_lt (Binary64.lt_of_lt_of_le hlt (h.le (Nat.zero_le j) rfl hj))

theorem getD_lastIndex?_eq_iff (h : Ascends (t :: ts)) (hx : x.isNaN = false) :
    (lastIndex? (fun t => t ≤ x) (t :: ts)).getD (t :: ts).length = i ↔
    x.LiesAt (t :: ts) i ∨ x < t ∧ i = (t :: ts).length := by
  simp only [← h.lastIndex?_eq_some_iff hx, ← h.lastIndex?_eq_none_iff hx]
  cases lastIndex? (fun t => t ≤ x) (t :: ts)
  case none => simp [eq_comm]
  case some => simp

theorem existsUnique_liesAt (h : Ascends (t :: ts)) (hx : x.isNaN = false) (ht : t ≤ x) :
    ∃! i, x.LiesAt (t :: ts) i := by
  simp only [← h.lastIndex?_eq_some_iff hx]
  cases hi : lastIndex? (fun t => t ≤ x) (t :: ts)
  case none   => exact absurd ht (not_le_of_lt ((h.lastIndex?_eq_none_iff hx).mp hi))
  case some i => exact ⟨i, rfl, fun j hj => (Option.some.inj hj).symm⟩

-- A greater number does not lie at an earlier threshold.
theorem index_le (h : Ascends ts) (hxy : x ≤ y) (hx : x.LiesAt ts i) (hy : y.LiesAt ts j) :
    i ≤ j := by
  obtain ⟨t, ht, htx⟩ := hx.reached
  refine Nat.le_of_not_lt fun hj => ?_
  have hlen : j + 1 < ts.length := Nat.lt_of_le_of_lt hj (List.getElem?_eq_some_iff.mp ht).1
  have hu := List.getElem?_eq_getElem hlen
  have hyt : y < t := Binary64.lt_of_lt_of_le (hy.below _ hu) (h.le hj hu ht)
  exact not_le_of_lt hyt (Binary64.le_trans htx hxy)

end Ascends
end Binary64
end Stencil

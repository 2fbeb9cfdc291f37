import Stencil.Json.Basic
import Stencil.Proofs.Table.Entries

namespace Stencil
namespace Json

-- The name is the decimal writing of the index, without a sign and without a needless zero.
structure IsIndex (name : String) (index : Nat) : Prop where
  ne_empty : name ≠ ""
  digits   : ∀ c ∈ name.toList, c.isDigit = true
  plain    : name.toList.head? = some '0' → name = "0"
  value    : Nat.ofDigitChars 10 name.toList 0 = index

theorem digitChar_toNat {c : Char} (h : c.isDigit = true) :
    c.toNat - '0'.toNat < 10 ∧ (c.toNat - '0'.toNat).digitChar = c := by
  obtain ⟨h₁, h₂⟩ := Char.isDigit_iff_toNat.mp h
  have hd : c.toNat - '0'.toNat < 10 := by
    simp only [Char.reduceToNat] at h₁ h₂ ⊢
    omega
  refine ⟨hd, Char.toNat_inj.mp ?_⟩
  rw [Nat.toNat_digitChar_of_lt_ten hd]
  exact Nat.add_sub_cancel' h₁

-- Digits behind the writing of a number that is not zero make the writing of another.
theorem toDigits_append {cs : List Char} {n : Nat} (hn : 0 < n)
    (h : ∀ c ∈ cs, c.isDigit = true) :
    Nat.toDigits 10 n ++ cs = Nat.toDigits 10 (Nat.ofDigitChars 10 cs n) := by
  induction cs generalizing n
  case nil          => simp
  case cons c cs ih =>
    obtain ⟨hc, hcs⟩ := List.forall_mem_cons.mp h
    obtain ⟨hd, hdc⟩ := digitChar_toNat hc
    have hcat : Nat.toDigits 10 n ++ [c] = Nat.toDigits 10 (10 * n + (c.toNat - '0'.toNat)) := by
      rw [← Nat.toDigits_append_toDigits (by decide) hn hd, Nat.toDigits_of_lt_base hd, hdc]
    rw [Nat.ofDigitChars_cons, ← ih (by omega) hcs, ← hcat]
    simp

theorem eq_zero_of_head?_toDigits {n : Nat} (h : (Nat.toDigits 10 n).head? = some '0') : n = 0 := by
  by_cases hn : n < 10
  case pos => simpa [Nat.toDigits_of_lt_base hn] using h
  case neg =>
    rw [Nat.toDigits_of_base_le (by decide) (by omega), List.head?_append,
      Option.or_of_isSome (by simp)] at h
    have := eq_zero_of_head?_toDigits h
    omega

theorem isIndex_toString (i : Nat) : IsIndex (toString i) i where
  ne_empty := by simp
  digits   := by
    intro c hc
    rw [Nat.toString_eq_repr, Nat.toList_repr] at hc
    exact Nat.isDigit_of_mem_toDigits (by decide) (by decide) hc
  plain    := by
    intro h
    rw [Nat.toString_eq_repr, Nat.toList_repr] at h
    obtain rfl := eq_zero_of_head?_toDigits h
    rfl
  value    := by simp

theorem isIndex_iff {name : String} {i : Nat} : IsIndex name i ↔ name = toString i := by
  refine ⟨fun h => ?_, fun h => h ▸ isIndex_toString i⟩
  obtain ⟨c, cs, hw⟩ := List.exists_cons_of_ne_nil (mt String.toList_eq_nil_iff.mp h.ne_empty)
  obtain ⟨hc, hcs⟩ := List.forall_mem_cons.mp (hw ▸ h.digits)
  obtain ⟨hd, hdc⟩ := digitChar_toNat hc
  have hv := h.value
  by_cases hz : c = '0'
  case pos =>
    obtain rfl := h.plain (by simp [hw, hz])
    obtain rfl : i = 0 := by simpa [Nat.ofDigitChars_cons] using hv.symm
    rfl
  case neg =>
    have hn : 0 < c.toNat - '0'.toNat := by
      refine Nat.pos_of_ne_zero fun h0 => hz ?_
      rw [← hdc, h0]
      rfl
    rw [hw, Nat.ofDigitChars_cons, Nat.mul_zero, Nat.zero_add] at hv
    rw [← String.toList_inj, Nat.toString_eq_repr, Nat.toList_repr, hw, ← hv,
      ← toDigits_append hn hcs, Nat.toDigits_of_lt_base hd, hdc]
    rfl

theorem IsIndex.eq {name : String} {i j : Nat} (hi : IsIndex name i) (hj : IsIndex name j) :
    i = j :=
  hi.value.symm.trans hj.value

example : IsIndex "10" 10 ∧ ¬IsIndex "010" 10 := by simp only [isIndex_iff]; decide

def isNull : Json → Bool
  | null => true
  | _    => false

inductive Child : Json → String → Json → Prop
  | member {members name j} : (name, j) ∈ members → Child (object members) name j
  | item {items name i j}   : IsIndex name i → items[i]? = some j → Child (array items) name j

-- The path leads from the first value to the second one.
inductive Leads : Json → List String → Json → Prop
  | nil {j}                : Leads j [] j
  | cons {j k l name path} : Child j name k → Leads k path l → Leads j (name :: path) l

-- No object of the document has two members of one name.
inductive Distinct : Json → Prop
  | null             : Distinct null
  | bool {b}         : Distinct (bool b)
  | number {n}       : Distinct (number n)
  | string {s}       : Distinct (string s)
  | array {items}    : (∀ j ∈ items, Distinct j) → Distinct (array items)
  | object {members} :
    (members.map (·.1)).Nodup → (∀ m ∈ members, Distinct m.2) → Distinct (object members)

-- The members of an object, and those of an array under their indices.
def members : Json → List (String × Json)
  | array items    => items.zipIdx.map fun e => (toString e.2, e.1)
  | object members => members
  | _              => []

variable {j k : Json} {name : String}

theorem child_iff_mem_members : j.Child name k ↔ (name, k) ∈ j.members := by
  constructor
  case mp =>
    intro h
    cases h
    case member hm  => exact hm
    case item hi hk =>
      obtain rfl := isIndex_iff.mp hi
      exact List.mem_map.mpr ⟨_, List.mk_mem_zipIdx_iff_getElem?.mpr hk, rfl⟩
  case mpr =>
    intro h
    cases j
    case object => exact .member h
    case array  =>
      obtain ⟨⟨k, i⟩, hk, rfl, rfl⟩ := by simpa only [members, List.mem_map, Prod.mk.injEq] using h
      exact .item (isIndex_toString i) (List.mk_mem_zipIdx_iff_getElem?.mp hk)
    all_goals cases h

theorem sizeOf_lt_of_child (h : j.Child name k) : sizeOf k < sizeOf j := by
  cases h
  case member members hm   =>
    have hs : sizeOf (name, k) < sizeOf members := List.sizeOf_lt_of_mem hm
    simp only [Prod.mk.sizeOf_spec, object.sizeOf_spec] at hs ⊢
    omega
  case item items _ _ hk =>
    have hs : sizeOf k < sizeOf items := List.sizeOf_lt_of_mem (List.mem_of_getElem? hk)
    simp only [array.sizeOf_spec]
    omega

theorem leads_nil_iff : j.Leads [] k ↔ j = k :=
  ⟨fun h => by cases h; rfl, fun h => h ▸ .nil⟩

theorem leads_cons_iff {path : List String} :
    j.Leads (name :: path) k ↔ ∃ l, j.Child name l ∧ l.Leads path k :=
  ⟨fun h => by cases h with | cons hc h => exact ⟨_, hc, h⟩, fun ⟨_, hc, h⟩ => .cons hc h⟩

-- Null has no children, so a path that leads to another value meets no null.
theorem Leads.eq_null {path : List String} (h : Leads null path k) : k = null := by
  cases h
  case nil       => rfl
  case cons hc _ => cases hc

theorem Distinct.nodup (h : j.Distinct) : (j.members.map (·.1)).Nodup := by
  cases h
  case object h _   => exact h
  case array items _ =>
    have hi : (items.zipIdx.map (·.2)).Nodup := by
      rw [List.zipIdx_map_snd]
      exact List.nodup_range' _
    rw [members, List.map_map]
    refine List.pairwise_map.mpr <| (List.pairwise_map.mp hi).imp fun {a b} hne heq => hne ?_
    have hb : IsIndex (toString a.2) b.2 := isIndex_iff.mpr heq
    exact (isIndex_toString a.2).eq hb
  all_goals exact List.nodup_nil

theorem Distinct.of_child (h : j.Distinct) (hc : j.Child name k) : k.Distinct := by
  cases hc
  case member hm => cases h with | object _ h => exact h _ hm
  case item hi   => cases h with | array h => exact h _ (List.mem_of_getElem? hi)

theorem Distinct.of_leads {path : List String} (h : j.Distinct) (hl : j.Leads path k) :
    k.Distinct := by
  induction hl
  case nil          => exact h
  case cons hc _ ih => exact ih (h.of_child hc)

theorem Distinct.child_unique {l : Json} (h : j.Distinct) (hk : j.Child name k)
    (hl : j.Child name l) : k = l := by
  rw [child_iff_mem_members, ← Table.get?_eq_some_iff_mem h.nodup] at hk hl
  exact Option.some.inj (hk.symm.trans hl)

theorem Distinct.leads_unique {path : List String} {l : Json} (h : j.Distinct)
    (hk : j.Leads path k) (hl : j.Leads path l) : k = l := by
  induction hk
  case nil          => exact leads_nil_iff.mp hl
  case cons hc _ ih =>
    obtain ⟨m, hm, hl⟩ := leads_cons_iff.mp hl
    obtain rfl := h.child_unique hc hm
    exact ih (h.of_child hc) hl

end Json
end Stencil

import Stencil.Node.Basic
import Stencil.Proofs.Json.Walk
import Stencil.Proofs.Table.Entries
import Stencil.Symbol.Lookup
import Stencil.Symbol.OfJson

namespace Stencil

open Json (Child Distinct Leads child_iff_mem_members)

theorem bind_eq_ok {ε α β : Type} {x : Except ε α} {f : α → Except ε β} {b : β} :
    x >>= f = .ok b ↔ ∃ a, x = .ok a ∧ f a = .ok b := by
  cases x <;> simp [bind, Except.bind]

theorem bind_eq_error {ε α β : Type} {x : Except ε α} {f : α → Except ε β} {e : ε} :
    x >>= f = .error e ↔ x = .error e ∨ ∃ a, x = .ok a ∧ f a = .error e := by
  cases x <;> simp [bind, Except.bind]

namespace Symbol

variable {asDouble : Json.Number → Option Binary64} {j k : Json} {s x : Symbol}
  {name scope path : String} {way : List String} {place : String → String}
  {members : List (String × Json)} {e : LoadError}

-- Every number of the value has a double.
def Converts (asDouble : Json.Number → Option Binary64) (j : Json) : Prop :=
  ∀ way n, j.Leads way (.number n) → ∃ x, asDouble n = some x

theorem Converts.of_child (h : Converts asDouble j) (hk : j.Child name k) : Converts asDouble k :=
  fun way n hl => h (name :: way) n (.cons hk hl)

theorem Converts.of_leads (h : Converts asDouble j) (hk : j.Leads way k) : Converts asDouble k := by
  induction hk
  case nil          => exact h
  case cons hc _ ih => exact ih (h.of_child hc)

theorem ofItems_eq_ofMembers (path : String) (index : Nat) (items : List Json) :
    ofItems asDouble path index items =
    ofMembers asDouble (path ++ "." ++ ·)
      ((items.zipIdx index).map fun e => (toString e.2, e.1)) := by
  induction items generalizing index
  case nil          => rfl
  case cons j js ih => simp only [ofItems, List.zipIdx_cons, List.map_cons, ofMembers, ih]

-- The symbol of a value, whatever path the value is at.
def value? (asDouble : Json.Number → Option Binary64) (j : Json) : Option Symbol :=
  (ofJson asDouble "" j).toOption.join

def children (asDouble : Json.Number → Option Binary64) (members : List (String × Json)) :
    List (String × Symbol) :=
  members.filterMap fun m => (value? asDouble m.2).map (m.1, ·)

-- The symbol of a value, given those of its children. A null has none.
def assemble (asDouble : Json.Number → Option Binary64) (j : Json) : Option Symbol :=
  match j with
  | .null                => none
  | .bool b              => some (.boolean b)
  | .number n            => (asDouble n).map .number
  | .string t            => some (.string t)
  | .array _ | .object _ => some (.object (Table.ofList (children asDouble j.members)))

theorem ofMembers_eq
    (h : ∀ m ∈ members, ∀ path, ofJson asDouble path m.2 = .ok (value? asDouble m.2)) :
    ofMembers asDouble place members = .ok (children asDouble members) := by
  induction members
  case nil          => rfl
  case cons m ms ih =>
    have ⟨hm, hms⟩ := List.forall_mem_cons.mp h
    rw [ofMembers, hm, ih hms]
    cases hv : value? asDouble m.2 <;> simp [children, hv] <;> rfl

theorem ofJson_eq_of_children (h : Converts asDouble j)
    (hc : ∀ name k path, j.Child name k → ofJson asDouble path k = .ok (value? asDouble k))
    (path : String) :
    ofJson asDouble path j = .ok (assemble asDouble j) := by
  have hm (path : String) :
      ofMembers asDouble (path ++ "." ++ ·) j.members = .ok (children asDouble j.members) :=
    ofMembers_eq fun m hm path => hc m.1 m.2 path (child_iff_mem_members.mpr hm)
  cases j
  case number n =>
    obtain ⟨x, hx⟩ := h [] n .nil
    simp [ofJson, assemble, hx]
  case array  =>
    rw [Json.members] at hm
    rw [ofJson, ofItems_eq_ofMembers, hm]
    rfl
  case object =>
    rw [Json.members] at hm
    rw [ofJson, hm]
    rfl
  all_goals rfl

theorem ofJson_eq (j : Json) (h : Converts asDouble j) (path : String) :
    ofJson asDouble path j = .ok (value? asDouble j) := by
  have hc (name : String) (k : Json) (path : String) (hk : j.Child name k) :
      ofJson asDouble path k = .ok (value? asDouble k) :=
    ofJson_eq k (h.of_child hk) path
  have ho := ofJson_eq_of_children h hc
  rw [value?, ho, ho]
  rfl
termination_by sizeOf j
decreasing_by exact Json.sizeOf_lt_of_child hk

theorem value?_eq (h : Converts asDouble j) :
    value? asDouble j = assemble asDouble j := by
  have hc (name : String) (k : Json) (path : String) (hk : j.Child name k) :
      ofJson asDouble path k = .ok (value? asDouble k) :=
    ofJson_eq k (h.of_child hk) path
  exact Except.ok.inj ((ofJson_eq j h "").symm.trans (ofJson_eq_of_children h hc ""))

theorem value?_eq_none_iff (h : Converts asDouble j) : value? asDouble j = none ↔ j = .null := by
  rw [value?_eq h]
  cases j
  case number n =>
    obtain ⟨x, hx⟩ := h [] n .nil
    simp [assemble, hx]
  all_goals simp [assemble]

theorem exists_value?_iff (h : Converts asDouble j) :
    (∃ s, value? asDouble j = some s) ↔ j ≠ .null := by
  rw [← Option.ne_none_iff_exists', ne_eq, value?_eq_none_iff h]

theorem mem_children :
    (name, s) ∈ children asDouble members ↔
    ∃ j, (name, j) ∈ members ∧ value? asDouble j = some s := by
  simp only [children, List.mem_filterMap, Option.map_eq_some_iff, Prod.mk.injEq, Prod.exists]
  constructor
  case mp  => exact fun ⟨_, j, hm, _, hj, hn, hs⟩ => ⟨j, hn ▸ hm, hs ▸ hj⟩
  case mpr => exact fun ⟨j, hm, hj⟩ => ⟨name, j, hm, s, hj, rfl, rfl⟩

theorem map_fst_children (h : ∀ m ∈ members, Converts asDouble m.2) :
    (children asDouble members).map (·.1) = (members.filter fun m => !m.2.isNull).map (·.1) := by
  induction members
  case nil          => rfl
  case cons m ms ih =>
    have ⟨hm, hms⟩ := List.forall_mem_cons.mp h
    have hv := value?_eq_none_iff hm
    have hn : m.2.isNull = true ↔ m.2 = .null := by cases m.2 <;> simp [Json.isNull]
    rw [children, List.filterMap_cons, ← children, List.filter_cons]
    cases ho : value? asDouble m.2 <;> simp_all

theorem nodup_children (h : ∀ m ∈ members, Converts asDouble m.2)
    (hn : (members.map (·.1)).Nodup) : ((children asDouble members).map (·.1)).Nodup := by
  rw [map_fst_children h]
  exact hn.sublist (List.filter_sublist.map _)

theorem Converts.of_mem_members (h : Converts asDouble j) :
    ∀ m ∈ j.members, Converts asDouble m.2 :=
  fun _ hm => h.of_child (child_iff_mem_members.mpr hm)

-- The children of the symbol are the symbols of the children.
theorem step_of_value? (hj : j.Distinct) (hc : Converts asDouble j)
    (hs : value? asDouble j = some s) :
    s.step scope name = .ok x ↔ ∃ k, j.Child name k ∧ value? asDouble k = some x := by
  have hn := nodup_children hc.of_mem_members hj.nodup
  simp only [child_iff_mem_members, ← mem_children, ← Table.get?_ofList hn]
  rw [value?_eq hc] at hs
  cases j
  case null     => cases hs
  case array    =>
    obtain rfl := Option.some.inj hs
    rw [step]
    split <;> simp_all
  case object   =>
    obtain rfl := Option.some.inj hs
    rw [step]
    split <;> simp_all
  case number n =>
    obtain ⟨y, _, rfl⟩ := Option.map_eq_some_iff.mp hs
    simp [step, Json.members, children, Table.ofList, Table.get?]
  all_goals
    obtain rfl := Option.some.inj hs
    simp [step, Json.members, children, Table.ofList, Table.get?]

theorem walk_cons_eq_ok :
    s.walk scope (name :: way) = .ok x ↔
    ∃ y, s.step scope name = .ok y ∧ y.walk (scope ++ "." ++ name) way = .ok x := by
  rw [walk]
  split <;> simp_all

-- Only the explanation of a failure depends on the scope.
theorem walk_eq_ok_congr (scope' : String) :
    s.walk scope way = .ok x ↔ s.walk scope' way = .ok x := by
  induction way generalizing s scope scope'
  case nil            => rfl
  case cons name way ih =>
    have hs (y : Symbol) : s.step scope name = .ok y ↔ s.step scope' name = .ok y := by
      cases s
      case object => simp only [step]; split <;> simp
      all_goals exact ⟨by simp [step], by simp [step]⟩
    simp only [walk_cons_eq_ok, hs]
    exact exists_congr fun y => and_congr_right fun _ => ih _

theorem walk_of_value? (hj : j.Distinct) (hc : Converts asDouble j)
    (hs : value? asDouble j = some s) :
    s.walk scope way = .ok x ↔ ∃ k, j.Leads way k ∧ value? asDouble k = some x := by
  induction way generalizing j s scope
  case nil           => simp [walk, Json.leads_nil_iff, hs]
  case cons name way ih =>
    simp only [walk_cons_eq_ok, step_of_value? hj hc hs, Json.leads_cons_iff]
    constructor
    case mp =>
      rintro ⟨y, ⟨k, hk, hy⟩, hw⟩
      obtain ⟨l, hl, hx⟩ := (ih (hj.of_child hk) (hc.of_child hk) hy).mp hw
      exact ⟨l, ⟨k, hk, hl⟩, hx⟩
    case mpr =>
      rintro ⟨l, ⟨k, hk, hl⟩, hx⟩
      cases hy : value? asDouble k
      case some y =>
        exact ⟨y, ⟨k, hk, hy⟩, (ih (hj.of_child hk) (hc.of_child hk) hy).mpr ⟨l, hl, hx⟩⟩
      case none   =>
        obtain rfl := (value?_eq_none_iff (hc.of_child hk)).mp hy
        obtain rfl := hl.eq_null
        cases hx

-- The symbol is what the value is, and a number is its double. The children of an object are those
-- of the value but for nulls.
inductive Mirrors (asDouble : Json.Number → Option Binary64) : Json → Symbol → Prop
  | boolean {b}  : Mirrors asDouble (.bool b) (.boolean b)
  | number {n x} : asDouble n = some x → Mirrors asDouble (.number n) (.number x)
  | string {t}   : Mirrors asDouble (.string t) (.string t)
  | array {items cs} :
    (∀ name, name ∈ cs.map (·.1) ↔ ∃ k, Child (.array items) name k ∧ k ≠ .null) →
    Mirrors asDouble (.array items) (.object cs)
  | object {members cs} :
    (∀ name, name ∈ cs.map (·.1) ↔ ∃ k, Child (.object members) name k ∧ k ≠ .null) →
    Mirrors asDouble (.object members) (.object cs)

theorem mem_names_ofList_iff (hj : j.Distinct) (hc : Converts asDouble j) :
    name ∈ (Table.ofList (children asDouble j.members)).map (·.1) ↔
    ∃ k, j.Child name k ∧ k ≠ .null := by
  have hp := Table.ofList_perm (nodup_children hc.of_mem_members hj.nodup)
  rw [(hp.map _).mem_iff, List.mem_map]
  constructor
  case mp =>
    rintro ⟨⟨name, s⟩, hs, rfl⟩
    obtain ⟨k, hk, hks⟩ := mem_children.mp hs
    have hk := child_iff_mem_members.mpr hk
    exact ⟨k, hk, (exists_value?_iff (hc.of_child hk)).mp ⟨s, hks⟩⟩
  case mpr =>
    rintro ⟨k, hk, hn⟩
    obtain ⟨s, hks⟩ := (exists_value?_iff (hc.of_child hk)).mpr hn
    exact ⟨(name, s), mem_children.mpr ⟨k, child_iff_mem_members.mp hk, hks⟩, rfl⟩

theorem mirrors_of_value? (hj : j.Distinct) (hc : Converts asDouble j)
    (hs : value? asDouble j = some s) : Mirrors asDouble j s := by
  rw [value?_eq hc] at hs
  cases j
  case null     => cases hs
  case number n =>
    obtain ⟨x, hx, rfl⟩ := Option.map_eq_some_iff.mp hs
    exact .number hx
  case array    => exact Option.some.inj hs ▸ .array fun _ => mem_names_ofList_iff hj hc
  case object   => exact Option.some.inj hs ▸ .object fun _ => mem_names_ofList_iff hj hc
  case bool     => exact Option.some.inj hs ▸ .boolean
  case string   => exact Option.some.inj hs ▸ .string

theorem dotted_append (path name : String) (way : List String) :
    Node.dotted ((path ++ "." ++ name) :: way) = Node.dotted (path :: name :: way) := by
  cases way <;> simp [Node.dotted, String.append_assoc]

theorem exists_of_ofMembers_error (h : ofMembers asDouble place members = .error e) :
    ∃ m ∈ members, ofJson asDouble (place m.1) m.2 = .error e := by
  induction members
  case nil          => cases h
  case cons m ms ih =>
    simp only [ofMembers, bind_eq_error] at h
    rcases h with h | ⟨_, _, h | ⟨_, _, h⟩⟩
    case inl         => exact ⟨m, List.mem_cons_self .., h⟩
    case inr.inl     =>
      obtain ⟨m', hm, h⟩ := ih h
      exact ⟨m', .tail _ hm, h⟩
    case inr.inr     => cases h

-- A value gives no symbol only if it has a number without a double, and the error has the path of
-- such a number.
theorem exists_of_ofJson_error (j : Json) (path : String) (h : ofJson asDouble path j = .error e) :
    ∃ way n, j.Leads way (.number n) ∧ asDouble n = none ∧
      e = .badNumber (Node.dotted (path :: way)) := by
  have ih (h : ∃ m ∈ j.members, ofJson asDouble (path ++ "." ++ m.1) m.2 = .error e) :
      ∃ way n, j.Leads way (.number n) ∧ asDouble n = none ∧
        e = .badNumber (Node.dotted (path :: way)) := by
    obtain ⟨⟨name, k⟩, hm, h⟩ := h
    have hk : j.Child name k := child_iff_mem_members.mpr hm
    obtain ⟨way, n, hl, hn, rfl⟩ := exists_of_ofJson_error k _ h
    exact ⟨name :: way, n, .cons hk hl, hn, by rw [dotted_append]⟩
  cases j
  case number n =>
    simp only [ofJson] at h
    split at h
    case h_1 => cases h
    case h_2 hn =>
      obtain rfl := Except.error.inj h
      exact ⟨[], n, .nil, hn, rfl⟩
  case array =>
    rw [ofJson, ofItems_eq_ofMembers] at h
    rcases bind_eq_error.mp h with h | ⟨_, _, h⟩
    case inl => exact ih (exists_of_ofMembers_error h)
    case inr => cases h
  case object =>
    rw [ofJson] at h
    rcases bind_eq_error.mp h with h | ⟨_, _, h⟩
    case inl => exact ih (exists_of_ofMembers_error h)
    case inr => cases h
  all_goals cases h
termination_by sizeOf j
decreasing_by exact Json.sizeOf_lt_of_child hk

theorem exists_of_ofMembers_ok {cs : List (String × Symbol)}
    (h : ofMembers asDouble place members = .ok cs) :
    ∀ m ∈ members, ∃ o, ofJson asDouble (place m.1) m.2 = .ok o := by
  induction members generalizing cs
  case nil          => exact List.forall_mem_nil _
  case cons m ms ih =>
    obtain ⟨o, hm, h⟩ := bind_eq_ok.mp h
    obtain ⟨cs, hms, -⟩ := bind_eq_ok.mp h
    exact List.forall_mem_cons.mpr ⟨⟨o, hm⟩, ih hms⟩

theorem exists_of_ofJson_ok {o : Option Symbol} (h : ofJson asDouble path j = .ok o)
    (hk : j.Child name k) : ∃ o, ofJson asDouble (path ++ "." ++ name) k = .ok o := by
  have hk := child_iff_mem_members.mp hk
  cases j
  case array  =>
    rw [ofJson, ofItems_eq_ofMembers] at h
    obtain ⟨cs, h, -⟩ := bind_eq_ok.mp h
    exact exists_of_ofMembers_ok h _ hk
  case object =>
    rw [ofJson] at h
    obtain ⟨cs, h, -⟩ := bind_eq_ok.mp h
    exact exists_of_ofMembers_ok h _ hk
  all_goals cases hk

theorem converts_of_ofJson_ok {o : Option Symbol} (h : ofJson asDouble path j = .ok o) :
    Converts asDouble j := by
  intro way n hl
  induction way generalizing j path o
  case nil           =>
    obtain rfl := Json.leads_nil_iff.mp hl
    rw [ofJson] at h
    split at h
    case h_1 x hx => exact ⟨x, hx⟩
    case h_2      => cases h
  case cons name way ih =>
    obtain ⟨k, hk, hl⟩ := Json.leads_cons_iff.mp hl
    obtain ⟨o, h⟩ := exists_of_ofJson_ok h hk
    exact ih h hl

end Symbol

namespace Bindings

open Stencil.Symbol (Converts children value?)

variable {asDouble : Json.Number → Option Binary64} {members : List (String × Json)}
  {path : List String} {x : Symbol}

theorem lookup_cons_eq_ok {b : Bindings} {name : String} (scope : String) :
    b.lookup (name :: path) = .ok x ↔
    (Symbol.object b.table).walk scope (name :: path) = .ok x := by
  simp only [lookup, get?, Symbol.walk_cons_eq_ok, Symbol.step]
  cases Table.get? b.table name
  case none   => simp
  case some s => simpa using Symbol.walk_eq_ok_congr _

theorem ofJson_eq (hc : Converts asDouble (.object members)) :
    ofJson asDouble (.object members) = .ok (.ofList (children asDouble members)) := by
  have hm : ∀ m ∈ members, ∀ path,
      Symbol.ofJson asDouble path m.2 = .ok (value? asDouble m.2) :=
    fun m hm path => Symbol.ofJson_eq m.2 (hc.of_mem_members m hm) path
  rw [ofJson, Symbol.ofMembers_eq hm]
  rfl

theorem lookup_children (h : (Json.object members).Distinct)
    (hc : Converts asDouble (.object members)) (hp : path ≠ []) :
    (ofList (children asDouble members)).lookup path = .ok x ↔
    ∃ j, Leads (.object members) path j ∧ value? asDouble j = some x := by
  obtain ⟨name, path, rfl⟩ := List.exists_cons_of_ne_nil hp
  exact (lookup_cons_eq_ok "").trans (Symbol.walk_of_value? h hc (Symbol.value?_eq hc))

theorem size_children (h : (Json.object members).Distinct)
    (hc : Converts asDouble (.object members)) :
    (ofList (children asDouble members)).size = (members.filter fun m => !m.2.isNull).length := by
  have hp : (ofList (children asDouble members)).table.Perm (children asDouble members) :=
    Table.ofList_perm (Symbol.nodup_children hc.of_mem_members h.nodup)
  rw [size, hp.length_eq]
  simpa [Json.members] using congrArg List.length (Symbol.map_fst_children hc.of_mem_members)

-- A document gives bindings just if all of its numbers have doubles. Else the error has the path of
-- one that has none.
theorem exists_ofJson_iff :
    (∃ b, ofJson asDouble (.object members) = .ok b) ↔ Converts asDouble (.object members) := by
  refine ⟨?mp, fun hc => ⟨_, ofJson_eq hc⟩⟩
  rintro ⟨b, h⟩ way n hl
  obtain ⟨cs, h, -⟩ := bind_eq_ok.mp h
  cases hl
  case cons hk hl =>
    obtain ⟨o, h⟩ := Symbol.exists_of_ofMembers_ok h _ (child_iff_mem_members.mp hk)
    exact Symbol.converts_of_ofJson_ok h _ n hl

theorem ofJson_error {e : LoadError} (h : ofJson asDouble (.object members) = .error e) :
    ∃ path n, path ≠ [] ∧ Leads (.object members) path (.number n) ∧ asDouble n = none ∧
      e = .badNumber (Node.dotted path) := by
  rcases bind_eq_error.mp h with h | ⟨_, _, h⟩
  case inl =>
    obtain ⟨m, hm, h⟩ := Symbol.exists_of_ofMembers_error h
    obtain ⟨way, n, hl, hn, he⟩ := Symbol.exists_of_ofJson_error m.2 m.1 h
    exact ⟨m.1 :: way, n, List.cons_ne_nil _ _, .cons (.member hm) hl, hn, he⟩
  case inr => cases h

end Bindings
end Stencil

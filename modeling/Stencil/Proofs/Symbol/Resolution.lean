import Mathlib.Data.List.Induction
import Mathlib.Tactic.Common
import Stencil.Proofs.Symbol.Walk

namespace Stencil

open Node (dotted)

namespace Bindings

-- The first name of the path is bound, and each other one is that of a child of the object that the
-- names before it lead to.
inductive Resolves (b : Bindings) : List String → Symbol → Prop
  | first {name s}         : b.get? name = some s → Resolves b [name] s
  | child {path name cs s} :
    Resolves b path (.object cs) → Table.get? cs name = some s → Resolves b (path ++ [name]) s

-- Why nothing is found for a name, behind names that lead somewhere.
inductive Explains (b : Bindings) : List String → String → LookupError → Prop
  | missing {name}             : Explains b [] name (.missing name)
  | missingIn {before name cs} :
    b.Resolves before (.object cs) → Explains b before name (.missingIn name (dotted before))
  | noChildren {before name s} :
    b.Resolves before s → (∀ cs, s ≠ .object cs) →
    Explains b before name (.noChildren (dotted before))

variable {b : Bindings} {path before after more : List String} {name : String} {s : Symbol}
  {e : LookupError}

theorem lookup_singleton_eq_ok : b.lookup [name] = .ok s ↔ b.get? name = some s := by
  rw [lookup]
  cases b.get? name <;> simp [Symbol.walk]

theorem lookup_concat (h : path ≠ []) :
    b.lookup (path ++ [name]) = (b.lookup path).bind (·.step (dotted path) name) := by
  rw [lookup_append h]
  congr 1
  funext s
  rw [Symbol.walk]
  cases s.step (dotted path) name <;> rfl

theorem exists_lookup_of_append (h : path ≠ []) (hs : b.lookup (path ++ more) = .ok s) :
    ∃ t, b.lookup path = .ok t := by
  rw [lookup_append h] at hs
  cases hl : b.lookup path
  case error => simp [hl, Except.bind] at hs
  case ok t  => exact ⟨t, rfl⟩

end Bindings

theorem Symbol.step_eq_ok {s t : Symbol} {scope name : String} :
    s.step scope name = .ok t ↔ ∃ cs, s = .object cs ∧ Table.get? cs name = some t := by
  cases s
  case object cs =>
    simp only [step, object.injEq, exists_eq_left']
    cases Table.get? cs name <;> simp
  all_goals simp [step]

namespace Bindings

variable {b : Bindings} {path before after more : List String} {name : String} {s : Symbol}
  {e : LookupError}

theorem lookup_concat_eq_ok (h : path ≠ []) :
    b.lookup (path ++ [name]) = .ok s ↔
    ∃ cs, b.lookup path = .ok (.object cs) ∧ Table.get? cs name = some s := by
  rw [lookup_concat h]
  cases b.lookup path
  case error => simp [Except.bind]
  case ok    => simp [Except.bind, Symbol.step_eq_ok]

theorem Resolves.ne_nil (h : b.Resolves path s) : path ≠ [] := by
  cases h <;> simp

theorem lookup_eq_ok_iff : b.lookup path = .ok s ↔ b.Resolves path s := by
  constructor
  case mpr =>
    intro h
    induction h
    case first h       => exact lookup_singleton_eq_ok.mpr h
    case child hp h ih => exact (lookup_concat_eq_ok hp.ne_nil).mpr ⟨_, ih, h⟩
  case mp =>
    intro h
    induction path using List.reverseRecOn generalizing s
    case nil                 => cases h
    case append_singleton path name ih =>
      by_cases hp : path = []
      case pos =>
        subst hp
        exact .first (lookup_singleton_eq_ok.mp h)
      case neg =>
        obtain ⟨cs, hcs, hs⟩ := (lookup_concat_eq_ok hp).mp h
        exact .child (ih hcs) hs

theorem resolves_concat_iff (h : path ≠ []) :
    b.Resolves (path ++ [name]) s ↔
    ∃ cs, b.Resolves path (.object cs) ∧ Table.get? cs name = some s := by
  simp only [← lookup_eq_ok_iff, lookup_concat_eq_ok h]

theorem Resolves.of_prefix (h : b.Resolves path s) (hp : before <+: path) (hn : before ≠ []) :
    ∃ t, b.Resolves before t := by
  obtain ⟨more, rfl⟩ := hp
  simp only [← lookup_eq_ok_iff] at h ⊢
  exact exists_lookup_of_append hn h

-- The name is the first one of the path that nothing is found for.
structure FailsAt (b : Bindings) (before : List String) (name : String) : Prop where
  found  : ∀ path, path ≠ [] → path <+: before → ∃ s, b.Resolves path s
  missed : ¬∃ s, b.Resolves (before ++ [name]) s

theorem Explains.lookup_eq_error (h : b.Explains before name e) (hf : b.FailsAt before name) :
    b.lookup (before ++ [name]) = .error e := by
  have hm : ∀ s, b.lookup (before ++ [name]) ≠ .ok s :=
    fun s hs => hf.missed ⟨s, lookup_eq_ok_iff.mp hs⟩
  cases h
  case missing =>
    cases hg : b.get? name
    case none   => simp [lookup, hg]
    case some s => exact absurd (lookup_singleton_eq_ok.mpr hg) (hm s)
  case missingIn cs hb =>
    rw [lookup_concat hb.ne_nil, lookup_eq_ok_iff.mpr hb] at hm ⊢
    cases hg : Table.get? cs name
    case none   => simp [Except.bind, Symbol.step, hg]
    case some s => exact absurd (by simp [Except.bind, Symbol.step, hg]) (hm s)
  case noChildren s hs hb =>
    rw [lookup_concat hb.ne_nil, lookup_eq_ok_iff.mpr hb]
    cases s
    case object cs => exact absurd rfl (hs cs)
    all_goals rfl

theorem Resolves.exists_explains (h : b.Resolves path s) (name : String) :
    ∃ e, b.Explains path name e := by
  cases s
  case object cs => exact ⟨_, .missingIn h⟩
  all_goals exact ⟨_, .noChildren h (by simp)⟩

-- By induction on the path from its end: if all but the last name lead somewhere, the last one
-- fails.
theorem exists_failsAt (hp : path ≠ []) (h : ∀ s, b.lookup path ≠ .ok s) :
    ∃ before name after e, path = before ++ name :: after ∧ b.FailsAt before name ∧
      b.Explains before name e := by
  induction path using List.reverseRecOn
  case nil => exact absurd rfl hp
  case append_singleton path name ih =>
    have hm : ¬∃ s, b.Resolves (path ++ [name]) s :=
      fun ⟨s, hs⟩ => h s (lookup_eq_ok_iff.mpr hs)
    by_cases hn : path = []
    case pos =>
      subst hn
      refine ⟨[], name, [], _, rfl, ⟨fun p hp hb => ?_, hm⟩, .missing⟩
      exact absurd (List.prefix_nil.mp hb) hp
    case neg =>
      cases hl : b.lookup path
      case error =>
        obtain ⟨before, name', after, e, he, hf, hx⟩ := ih hn (by simp [hl])
        exact ⟨before, name', after ++ [name], e, by simp [he], hf, hx⟩
      case ok s =>
        have hr := lookup_eq_ok_iff.mp hl
        obtain ⟨e, hx⟩ := hr.exists_explains name
        exact ⟨path, name, [], e, rfl, ⟨fun p hp hb => hr.of_prefix hb hp, hm⟩, hx⟩

theorem lookup_eq_error_iff (hp : path ≠ []) :
    b.lookup path = .error e ↔
    ∃ before name after, path = before ++ name :: after ∧ b.FailsAt before name ∧
      b.Explains before name e := by
  have of_failsAt {before name after e} (hf : b.FailsAt before name)
      (hx : b.Explains before name e) : b.lookup (before ++ name :: after) = .error e := by
    rw [List.append_cons, lookup_append (by simp), hx.lookup_eq_error hf]
    rfl
  constructor
  case mpr =>
    rintro ⟨before, name, after, rfl, hf, hx⟩
    exact of_failsAt hf hx
  case mp =>
    intro h
    obtain ⟨before, name, after, e', rfl, hf, hx⟩ := exists_failsAt (b := b) hp (by simp [h])
    obtain rfl := Except.error.inj ((of_failsAt hf hx).symm.trans h)
    exact ⟨before, name, after, rfl, hf, hx⟩

-- Each name but the first is that of a child of the object that the names before it lead to.
def Descends (b : Bindings) (path : List String) : Prop :=
  ∀ i (hi : i + 1 < path.length), ∃ cs s,
    b.Resolves (path.take (i + 1)) (.object cs) ∧ Table.get? cs path[i + 1] = some s

theorem exists_resolves_iff (hp : path ≠ []) :
    (∃ s, b.Resolves path s) ↔ (∃ s, b.get? (path.head hp) = some s) ∧ b.Descends path := by
  have htake (i : Nat) (hi : i + 1 < path.length) :
      path.take (i + 2) = path.take (i + 1) ++ [path[i + 1]] :=
    List.take_succ_eq_append_getElem hi
  have hne (i : Nat) : path.take (i + 1) ≠ [] := by simp [hp]
  have hhead : path.take 1 = [path.head hp] := by
    rw [List.take_one, List.head?_eq_some_head hp]
    rfl
  constructor
  case mp =>
    rintro ⟨s, hs⟩
    refine ⟨?bound, fun i hi => ?child⟩
    case bound =>
      obtain ⟨t, ht⟩ := hs.of_prefix (List.take_prefix 1 path) (hne 0)
      rw [hhead, ← lookup_eq_ok_iff, lookup_singleton_eq_ok] at ht
      exact ⟨t, ht⟩
    case child =>
      obtain ⟨t, ht⟩ := hs.of_prefix (List.take_prefix (i + 2) path) (hne (i + 1))
      rw [htake i hi, resolves_concat_iff (hne i)] at ht
      obtain ⟨cs, hcs, ht⟩ := ht
      exact ⟨cs, t, hcs, ht⟩
  case mpr =>
    rintro ⟨⟨s, hs⟩, hd⟩
    have hall (i : Nat) (hi : i < path.length) : ∃ s, b.Resolves (path.take (i + 1)) s := by
      cases i
      case zero   => exact ⟨s, hhead ▸ .first hs⟩
      case succ i =>
        obtain ⟨cs, t, hcs, ht⟩ := hd i hi
        exact ⟨t, htake i hi ▸ .child hcs ht⟩
    have hlen : path.length - 1 + 1 = path.length :=
      Nat.sub_add_cancel (List.length_pos_iff.mpr hp)
    have := hall (path.length - 1) (by omega)
    rwa [hlen, List.take_length] at this

theorem lookup_insert (hp : path ≠ []) :
    (b.insert name s).lookup path =
    if path.head hp = name then s.walk name path.tail else b.lookup path := by
  obtain ⟨first, rest, rfl⟩ := List.exists_cons_of_ne_nil hp
  simp only [lookup, insert, get?, List.head_cons, List.tail_cons]
  by_cases h : first = name
  case pos => simp [h]
  case neg => simp [Table.get?_insert_of_ne h, h]

-- A lookup finds where its path leads, or explains the first name that nothing is found for. It
-- depends on the binding of its first name alone.
theorem lookup_resolves_or_explains (b : Bindings) {path : List String} (hp : path ≠ []) :
    (∀ s, b.lookup path = .ok s ↔ b.Resolves path s) ∧
    ((∃ s, b.lookup path = .ok s) ↔
      (∃ s, b.get? (path.head hp) = some s) ∧ b.Descends path) ∧
    (∀ e, b.lookup path = .error e ↔
      ∃ before name after, path = before ++ name :: after ∧ b.FailsAt before name ∧
        b.Explains before name e) ∧
    (∀ more s, b.lookup (path ++ more) = .ok s → ∃ t, b.lookup path = .ok t) ∧
    ∀ name s, (b.insert name s).lookup path =
      if path.head hp = name then s.walk name path.tail else b.lookup path := by
  refine ⟨fun s => lookup_eq_ok_iff, ?found, fun e => lookup_eq_error_iff hp,
    fun more s => exists_lookup_of_append hp, fun name s => lookup_insert hp⟩
  case found =>
    rw [← exists_resolves_iff hp]
    exact exists_congr fun s => lookup_eq_ok_iff

theorem lookup_explains_missing_child :
    let b : Bindings := .ofList [("a", .object [("b", .object [("c", .boolean true)])])]
    let path := ["a", "b", "d", "e"]
    path ≠ [] ∧ b.lookup path = .error (.missingIn "d" "a.b") ∧
    (∃ before name after, path = before ++ name :: after ∧ b.FailsAt before name ∧
      b.Explains before name (.missingIn "d" "a.b")) ∧
    (¬∃ s, b.lookup (path ++ ["c"]) = .ok s) ∧
    (b.insert "a" (.boolean true)).lookup path = .error (.noChildren "a") ∧
    b.Resolves ["a", "b", "c"] (.boolean true) := by
  intro b path
  have hp : path ≠ [] := List.cons_ne_nil _ _
  have he : b.lookup path = .error (.missingIn "d" "a.b") := rfl
  have ⟨_, _, herror, hmore, hinsert⟩ := lookup_resolves_or_explains b hp
  have ⟨hfound, _⟩ := lookup_resolves_or_explains b (List.cons_ne_nil "a" ["b", "c"])
  refine ⟨hp, he, (herror _).mp he, fun ⟨s, hs⟩ => ?_, hinsert "a" _, (hfound _).mp rfl⟩
  obtain ⟨t, ht⟩ := hmore _ s hs
  simp [he] at ht

end Bindings
end Stencil

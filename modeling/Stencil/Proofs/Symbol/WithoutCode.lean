import Stencil.Symbol.Lookup

namespace Stencil

theorem Table.get?_map {α β : Type} (f : α → β) (t : List (String × α)) (name : String) :
    get? (t.map fun e => (e.1, f e.2)) name = (get? t name).map f := by
  induction t
  case nil         => rfl
  case cons e t ih =>
    simp only [List.map_cons, get?, ih]
    split <;> rfl

namespace Symbol

mutual

def withoutCode : Symbol → Symbol
  | function f => function f.withoutCode
  | object cs  => object (withoutCodeAll cs)
  | number x   => number x
  | string s   => string s
  | boolean b  => boolean b

def withoutCodeAll : List (String × Symbol) → List (String × Symbol)
  | []           => []
  | (n, s) :: cs => (n, s.withoutCode) :: withoutCodeAll cs

end

@[simp]
theorem withoutCodeAll_eq_map (cs : List (String × Symbol)) :
    withoutCodeAll cs = cs.map fun c => (c.1, c.2.withoutCode) := by
  induction cs
  case nil          => rfl
  case cons c cs ih => simp [withoutCodeAll, ih]

theorem step_withoutCode (s : Symbol) (scope segment : String) :
    s.withoutCode.step scope segment = (s.step scope segment).map withoutCode := by
  cases s
  case object cs =>
    simp only [withoutCode, withoutCodeAll_eq_map, step, Table.get?_map]
    cases Table.get? cs segment <;> rfl
  all_goals rfl

theorem walk_withoutCode (s : Symbol) (scope : String) (path : List String) :
    s.withoutCode.walk scope path = (s.walk scope path).map withoutCode := by
  induction path generalizing s scope
  case nil               => rfl
  case cons name path ih =>
    simp only [walk, step_withoutCode]
    cases s.step scope name
    case error => rfl
    case ok    => exact ih ..

end Symbol

namespace Bindings

def withoutCode (b : Bindings) : Bindings :=
  ⟨b.table.map fun e => (e.1, e.2.withoutCode)⟩

theorem lookup_withoutCode (b : Bindings) (path : List String) :
    b.withoutCode.lookup path = (b.lookup path).map Symbol.withoutCode := by
  cases path
  case nil            => rfl
  case cons name path =>
    simp only [lookup, get?, withoutCode, Table.get?_map]
    cases Table.get? b.table name
    case none => rfl
    case some => exact Symbol.walk_withoutCode ..

theorem binds_withoutCode (b : Bindings) (path : List String) :
    b.withoutCode.binds path = b.binds path := by
  simp only [binds, lookup_withoutCode]
  cases b.lookup path <;> rfl

end Bindings
end Stencil

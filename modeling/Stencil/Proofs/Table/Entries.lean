import Stencil.Table

namespace Stencil
namespace Table

variable {α : Type} {name : String} {value : α} {t es : List (String × α)}

theorem get?_eq_some_iff_mem (h : (t.map (·.1)).Nodup) :
    get? t name = some value ↔ (name, value) ∈ t := by
  induction t
  case nil         => simp [get?]
  case cons e t ih =>
    obtain ⟨n, v⟩ := e
    obtain ⟨hn, ht⟩ := List.nodup_cons.mp h
    rw [get?, List.mem_cons]
    split
    case isFalse hne => simp [ih ht, hne]
    case isTrue heq  =>
      obtain rfl := heq
      have hm : (name, value) ∉ t := fun hm => hn <| List.mem_map.mpr ⟨_, hm, rfl⟩
      simp [hm, eq_comm]

theorem insert_perm (h : name ∉ t.map (·.1)) :
    (insert name value t).Perm ((name, value) :: t) := by
  induction t
  case nil         => exact .refl _
  case cons e t ih =>
    obtain ⟨n, v⟩ := e
    obtain ⟨hn, ht⟩ := not_or.mp <| mt List.mem_cons.mpr h
    simp only [insert, hn, if_false]
    split
    case isTrue  => exact .refl _
    case isFalse => exact ((ih ht).cons _).trans (.swap ..)

theorem foldl_insert_perm (h : ((es ++ t).map (·.1)).Nodup) :
    (es.foldl (fun t e => insert e.1 e.2 t) t).Perm (es ++ t) := by
  induction es generalizing t
  case nil          => exact .refl _
  case cons e es ih =>
    obtain ⟨he, hes⟩ := List.nodup_cons.mp h
    have ht : e.1 ∉ t.map (·.1) := fun hm => he (by simp_all)
    have hp : (es ++ insert e.1 e.2 t).Perm (e :: (es ++ t)) :=
      ((insert_perm ht).append_left es).trans List.perm_middle
    exact (ih <| (hp.map _).nodup_iff.mpr h).trans hp

theorem ofList_perm (h : (es.map (·.1)).Nodup) : (ofList es).Perm es := by
  simpa [ofList] using foldl_insert_perm (t := []) (by simpa using h)

theorem get?_ofList (h : (es.map (·.1)).Nodup) :
    get? (ofList es) name = some value ↔ (name, value) ∈ es := by
  have hp := ofList_perm h
  rw [get?_eq_some_iff_mem <| (hp.map _).nodup_iff.mpr h, hp.mem_iff]

end Table
end Stencil

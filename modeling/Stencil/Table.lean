namespace Stencil
namespace Table

variable {α : Type}

-- A table is a list of bindings in ascending order of the names, by code points, each name once.

-- Binds a name, in its place in the order. An earlier binding of the name is replaced.
def insert (name : String) (value : α) : List (String × α) → List (String × α)
  | []          => [(name, value)]
  | (n, v) :: t =>
    if name = n then (name, value) :: t
    else if name < n then (name, value) :: (n, v) :: t
    else (n, v) :: insert name value t

def get? (t : List (String × α)) (name : String) : Option α :=
  match t with
  | []          => none
  | (n, v) :: t => if name = n then some v else get? t name

-- Binds each name in turn, so that the last binding of a name wins.
def ofList (entries : List (String × α)) : List (String × α) :=
  entries.foldl (fun t e => insert e.1 e.2 t) []

@[simp]
theorem get?_insert_self (name : String) (value : α) (t : List (String × α)) :
    get? (insert name value t) name = some value := by
  induction t with
  | nil => simp [insert, get?]
  | cons e t ih =>
    obtain ⟨n, v⟩ := e
    simp only [insert]
    split
    · simp [get?]
    · split <;> simp_all [get?]

theorem get?_insert_of_ne {name other : String} (h : other ≠ name) (value : α)
    (t : List (String × α)) : get? (insert name value t) other = get? t other := by
  induction t with
  | nil => simp [insert, get?, h]
  | cons e t ih =>
    obtain ⟨n, v⟩ := e
    simp only [insert]
    split
    · subst_vars
      simp [get?, h]
    · split <;> simp_all [get?]

end Table
end Stencil

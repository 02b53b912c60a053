/-!
# Tables

A table is a list of entries under distinct keys in order of first insertion. `put` replaces the
value of a key in place, `putNew` keeps the first value of a key.
-/

namespace CellPack

/-- Entries under keys, in order of insertion. -/
abbrev Table (κ ν : Type) := List (κ × ν)

namespace Table

variable {κ ν : Type} [DecidableEq κ]

/-- The value under a key. -/
def get? (t : Table κ ν) (key : κ) : Option ν :=
  match t with
  | [] => none
  | (k, v) :: rest => if k = key then some v else get? rest key

/-- Whether a key has a value. -/
def contains (t : Table κ ν) (key : κ) : Bool := (get? t key).isSome

/-- Sets the value of a key, in its place if it has one and at the end otherwise. -/
def put (t : Table κ ν) (key : κ) (value : ν) : Table κ ν :=
  match t with
  | [] => [(key, value)]
  | (k, v) :: rest => if k = key then (k, value) :: rest else (k, v) :: put rest key value

/-- Adds an entry at the end unless the key has a value. -/
def putNew (t : Table κ ν) (key : κ) (value : ν) : Table κ ν :=
  if contains t key then t else t ++ [(key, value)]

theorem get?_put (t : Table κ ν) (key key' : κ) (value : ν) :
    get? (put t key value) key' = if key = key' then some value else get? t key' := by
  induction t with
  | nil => rfl
  | cons entry t ih =>
    obtain ⟨k, v⟩ := entry
    by_cases hk : k = key
    · subst hk
      simp only [put, get?, if_true]
      split <;> rfl
    · simp only [put, if_neg hk, get?, ih]
      by_cases hk' : k = key'
      · subst hk'
        simp [Ne.symm hk]
      · simp [hk']

end Table
end CellPack

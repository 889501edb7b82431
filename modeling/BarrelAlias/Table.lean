/-!
Finite tables. A table remembers the order in which its keys were first entered; entering a key
again replaces its value in place.
-/

namespace BarrelAlias

/-- Keys with their values, in the order in which the keys were first entered. -/
structure Table (κ ν : Type) where
  entries : List (κ × ν)
deriving Repr

namespace Table

variable {κ ν : Type}

def empty : Table κ ν := ⟨[]⟩

instance : Inhabited (Table κ ν) := ⟨empty⟩

def size (t : Table κ ν) : Nat := t.entries.length

def keys (t : Table κ ν) : List κ := t.entries.map (·.1)

def sorted [Ord κ] (t : Table κ ν) : List (κ × ν) :=
  t.entries.mergeSort fun a b => (compare a.1 b.1).isLE

def keep (t : Table κ ν) (p : κ → ν → Bool) : Table κ ν :=
  ⟨t.entries.filter fun e => p e.1 e.2⟩

variable [DecidableEq κ]

def find? (t : Table κ ν) (k : κ) : Option ν := (t.entries.find? (·.1 = k)).map (·.2)

def has (t : Table κ ν) (k : κ) : Bool := (t.find? k).isSome

/-- Replaces the value under `k` where it stands, or adds an entry at the end. -/
def put (k : κ) (v : ν) : List (κ × ν) → List (κ × ν)
  | [] => [(k, v)]
  | e :: es => if e.1 = k then (e.1, v) :: es else e :: put k v es

def insert (t : Table κ ν) (k : κ) (v : ν) : Table κ ν := ⟨put k v t.entries⟩

def erase (t : Table κ ν) (k : κ) : Table κ ν := ⟨t.entries.filter (·.1 ≠ k)⟩

@[simp] theorem find?_empty (k : κ) : (empty : Table κ ν).find? k = none := rfl

theorem find?_put (k j : κ) (v : ν) (es : List (κ × ν)) :
    ((put k v es).find? (·.1 = j)).map (·.2) =
      if j = k then some v else (es.find? (·.1 = j)).map (·.2) := by
  induction es with
  | nil => by_cases h : j = k <;> simp [put, h, eq_comm]
  | cons e es ih =>
    by_cases he : e.1 = k <;> by_cases hj : j = k <;> by_cases hej : e.1 = j <;>
      simp_all [put]

@[simp] theorem find?_insert_self (t : Table κ ν) (k : κ) (v : ν) :
    (t.insert k v).find? k = some v := by
  simp [insert, find?, find?_put]

theorem find?_insert_ne (t : Table κ ν) {k j : κ} (v : ν) (h : j ≠ k) :
    (t.insert k v).find? j = t.find? j := by
  simp [insert, find?, find?_put, h]

end Table

end BarrelAlias

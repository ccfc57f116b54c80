/-! # Tables -/

namespace HeaderOrder

structure Table (κ α : Type) where
  entries : List (κ × α) := []
  deriving Repr

namespace Table

variable {κ α : Type} [DecidableEq κ]

def get? (t : Table κ α) (k : κ) : Option α := (t.entries.find? (·.1 = k)).map (·.2)

def contains (t : Table κ α) (k : κ) : Bool := (t.get? k).isSome

def erase (t : Table κ α) (k : κ) : Table κ α := ⟨t.entries.filter (·.1 ≠ k)⟩

def insert (t : Table κ α) (k : κ) (v : α) : Table κ α := ⟨(k, v) :: (t.erase k).entries⟩

def size (t : Table κ α) : Nat := t.entries.length

/-! ## What a look-up sees -/

@[simp] theorem get?_empty (k : κ) : (⟨[]⟩ : Table κ α).get? k = none := rfl

theorem get?_erase (t : Table κ α) (k l : κ) :
    (t.erase k).get? l = if l = k then none else t.get? l := by
  unfold get? erase
  induction t.entries with
  | nil => simp
  | cons e es ih =>
    by_cases h : e.1 = k <;> by_cases h' : e.1 = l <;> simp_all

theorem get?_insert (t : Table κ α) (k l : κ) (v : α) :
    (t.insert k v).get? l = if l = k then some v else t.get? l := by
  by_cases h : k = l
  · simp [insert, get?, h]
  · have := get?_erase t k l
    simp_all [insert, get?, eq_comm]

end Table

end HeaderOrder

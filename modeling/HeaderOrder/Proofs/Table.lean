import HeaderOrder.Table

/-! # Keys of a table -/

namespace HeaderOrder.Table

variable {κ α : Type} [DecidableEq κ] {t : Table κ α} {k l : κ} {v : α}

def keys (t : Table κ α) : List κ := t.entries.map (·.1)

theorem mem_keys_iff : k ∈ t.keys ↔ t.contains k = true := by
  simp [keys, contains, get?, Option.isSome_map, List.find?_isSome]

theorem keys_erase (t : Table κ α) (k : κ) : (t.erase k).keys = t.keys.filter (· ≠ k) := by
  simp [keys, erase, List.filter_map, Function.comp_def]

theorem keys_insert (t : Table κ α) (k : κ) (v : α) :
    (t.insert k v).keys = k :: t.keys.filter (· ≠ k) := by
  rw [← keys_erase]
  rfl

theorem mem_keys_erase : l ∈ (t.erase k).keys ↔ l ∈ t.keys ∧ l ≠ k := by
  simp [keys_erase]

theorem mem_keys_insert : l ∈ (t.insert k v).keys ↔ l = k ∨ l ∈ t.keys := by
  by_cases h : l = k <;> simp [keys_insert, h]

theorem get?_eq_some_iff (h : t.keys.Nodup) : t.get? k = some v ↔ (k, v) ∈ t.entries := by
  obtain ⟨entries⟩ := t
  unfold get? keys at *
  induction entries with
  | nil => simp
  | cons e es ih =>
    obtain ⟨k', v'⟩ := e
    rw [List.map_cons, List.nodup_cons] at h
    have ih := ih h.2
    by_cases hk : k' = k
    · subst hk
      have hnot : (k', v) ∉ es := fun hmem => h.1 (List.mem_map.mpr ⟨_, hmem, rfl⟩)
      simp [hnot, eq_comm]
    · rw [List.find?_cons_of_neg (by simpa using hk), ih]
      simp [Ne.symm hk]

end HeaderOrder.Table

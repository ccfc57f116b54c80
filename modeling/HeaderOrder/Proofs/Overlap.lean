import HeaderOrder.Proofs.Plan
import Mathlib.Algebra.GroupWithZero.Nat
import Mathlib.Algebra.Order.BigOperators.Group.List
import Mathlib.Algebra.Order.Group.Nat

/-!
# Lines in several spans

The lines that spans share are the difference between two counts.
-/

namespace HeaderOrder

namespace Span

def Covers (s : Span) (i : Nat) : Prop := s.first ≤ i ∧ i ≤ s.last

instance (s : Span) (i : Nat) : Decidable (s.Covers i) := inferInstanceAs (Decidable (_ ∧ _))

variable {spans : List Span} {lines : List Text} {q : Text → Bool}

def linesIn (spans : List Span) (lines : List Text) : List Text :=
  (lines.zipIdx.filter fun x => spans.any fun s => s.Covers x.2).map (·.1)

theorem filter_zipIdx_of_forall {α : Type} {ls : List α} {k : Nat} {p : Nat → Bool} {b : Bool}
    (h : ∀ i, k ≤ i → i < k + ls.length → p i = b) :
    ((ls.zipIdx k).filter fun x => p x.2).map (·.1) = if b then ls else [] := by
  have hall : ∀ x ∈ ls.zipIdx k, p x.2 = b := by
    intro x hx
    exact h x.2 (List.le_snd_of_mem_zipIdx hx) (List.snd_lt_add_of_mem_zipIdx hx)
  cases b with
  | true => rw [List.filter_eq_self.mpr hall, List.zipIdx_map_fst]; rfl
  | false =>
    have hnil : (ls.zipIdx k).filter (fun x => p x.2) = [] := by
      rw [List.filter_eq_nil_iff]
      intro x hx
      simp [hall x hx]
    rw [hnil]
    rfl

theorem slice_eq_filter {s : Span} (h : s.Fits lines.length) :
    s.slice lines = (lines.zipIdx.filter fun x => s.Covers x.2).map (·.1) := by
  have hlen := length_slice h
  obtain ⟨h1, h2⟩ := h
  have htake : (lines.take s.first).length = s.first := by
    rw [List.length_take]
    omega
  conv_rhs => rw [← take_slice_drop lines h1, List.zipIdx_append, List.zipIdx_append]
  rw [List.filter_append, List.filter_append, List.map_append, List.map_append,
    filter_zipIdx_of_forall (p := fun i => s.Covers i) (b := false),
    filter_zipIdx_of_forall (p := fun i => s.Covers i) (b := true),
    filter_zipIdx_of_forall (p := fun i => s.Covers i) (b := false)]
  · simp
  · intro i hi1 hi2
    simp only [List.length_append, htake, hlen, Nat.zero_add] at hi1 hi2
    exact decide_eq_false (fun h => by have := h.2; omega)
  · intro i hi1 hi2
    simp only [htake, hlen, Nat.zero_add] at hi1 hi2
    exact decide_eq_true ⟨by omega, by omega⟩
  · intro i hi1 hi2
    simp only [htake, Nat.zero_add] at hi1 hi2
    exact decide_eq_false (fun h => by have := h.1; omega)

theorem countP_eq_sum {α : Type} (f : α → Bool) (xs : List α) :
    xs.countP f = (xs.map fun x => if f x then 1 else 0).sum := by
  induction xs with
  | nil => rfl
  | cons x xs ih => rw [List.countP_cons, List.map_cons, List.sum_cons, ih, Nat.add_comm]

theorem sum_countP_slice (h : ∀ s ∈ spans, s.Fits lines.length) :
    (spans.map fun s => (s.slice lines).countP q).sum =
      (lines.zipIdx.map fun x => if q x.1 then spans.countP fun s => s.Covers x.2 else 0).sum := by
  induction spans with
  | nil => simp
  | cons s spans ih =>
    rw [List.map_cons, List.sum_cons, ih (fun t ht => h t (List.mem_cons_of_mem _ ht)),
      slice_eq_filter (h s (by simp)), List.countP_map, List.countP_filter, countP_eq_sum,
      ← List.sum_map_add]
    congr 1
    apply List.map_congr_left
    intro x _
    rw [List.countP_cons]
    by_cases hq : q x.1 <;> by_cases hc : s.Covers x.2 <;> simp [hq, hc, Nat.add_comm]

theorem countP_linesIn : (linesIn spans lines).countP q =
    (lines.zipIdx.map fun x =>
      if q x.1 then min 1 (spans.countP fun s => s.Covers x.2) else 0).sum := by
  rw [linesIn, List.countP_map, List.countP_filter, countP_eq_sum]
  congr 1
  apply List.map_congr_left
  intro x _
  by_cases hq : q x.1
  · by_cases hany : spans.any fun s => s.Covers x.2
    · have hpos : 0 < spans.countP fun s => s.Covers x.2 := by
        simpa [List.countP_pos_iff] using hany
      simp only [Function.comp_apply, hq, hany, Bool.and_self, if_true]
      omega
    · have hzero : (spans.countP fun s => s.Covers x.2) = 0 := by
        simpa [List.countP_eq_zero] using hany
      simp [hq, hany, hzero]
  · simp [hq]

theorem countP_linesIn_le (h : ∀ s ∈ spans, s.Fits lines.length) :
    (linesIn spans lines).countP q ≤ (spans.map fun s => (s.slice lines).countP q).sum := by
  rw [countP_linesIn, sum_countP_slice h]
  apply List.sum_le_sum
  intro x _
  split_ifs
  · exact Nat.min_le_right _ _
  · exact le_refl _

theorem countP_linesIn_of_le_one (h : ∀ s ∈ spans, s.Fits lines.length)
    (hone : ∀ i, (spans.countP fun s => s.Covers i) ≤ 1) :
    (linesIn spans lines).countP q = (spans.map fun s => (s.slice lines).countP q).sum := by
  rw [countP_linesIn, sum_countP_slice h]
  congr 1
  apply List.map_congr_left
  intro x _
  rw [Nat.min_eq_right (hone x.2)]

theorem countP_linesIn_lt (h : ∀ s ∈ spans, s.Fits lines.length) {i : Nat} {line : Text}
    (hi : lines[i]? = some line) (hq : q line)
    (htwo : 1 < spans.countP fun s => s.Covers i) :
    (linesIn spans lines).countP q < (spans.map fun s => (s.slice lines).countP q).sum := by
  rw [countP_linesIn, sum_countP_slice h]
  apply List.sum_lt_sum
  · intro x _
    split_ifs
    · exact Nat.min_le_right _ _
    · exact le_refl _
  · refine ⟨(line, i), List.mem_zipIdx_iff_getElem?.mpr hi, ?_⟩
    simp only [hq, if_true]
    omega

theorem countP_covers_le_one (h : spans.Pairwise Disjoint) (i : Nat) :
    (spans.countP fun s => s.Covers i) ≤ 1 := by
  induction spans with
  | nil => simp
  | cons s spans ih =>
    obtain ⟨hs, hspans⟩ := List.pairwise_cons.mp h
    rw [List.countP_cons]
    split_ifs with hc
    · have hzero : (spans.countP fun t => t.Covers i) = 0 := by
        rw [List.countP_eq_zero]
        intro t ht htc
        obtain ⟨h1, h2⟩ : s.Covers i := by simpa using hc
        obtain ⟨h3, h4⟩ : t.Covers i := by simpa using htc
        rcases hs t ht with hlt | hlt
        · omega
        · omega
      omega
    · exact ih hspans

end Span

end HeaderOrder

import HeaderOrder.Definition
import HeaderOrder.Proofs.Edit
import Mathlib.Data.List.Infix

/-! # What is found in a source text -/

namespace HeaderOrder

open Byte Text Code

/-! ## Wanted names -/

namespace Prototype

theorem nodup_eraseDups {α : Type} [BEq α] [LawfulBEq α] (l : List α) : l.eraseDups.Nodup := by
  induction hn : l.length using Nat.strongRecOn generalizing l with
  | _ n ih =>
    cases l with
    | nil => simp
    | cons a as =>
      have hlen : (as.filter fun b => !b == a).length < n := by
        rw [← hn]
        exact Nat.lt_succ_of_le (List.length_filter_le _ as)
      rw [List.eraseDups_cons, List.nodup_cons]
      exact ⟨by simp [List.mem_eraseDups], ih _ hlen _ rfl⟩

theorem nodup_distinct (names : List Text) : (distinct names).Nodup := nodup_eraseDups _

theorem mem_distinct {names : List Text} {n : Text} : n ∈ distinct names ↔ n ∈ names ∧ n ≠ [] := by
  simp [distinct, List.mem_eraseDups]

end Prototype

/-! ## Braces -/

namespace Code

variable {xs ys : List Text} {j k : Nat} {depth : Int} {opened : Bool}

theorem openingLine?_lt (h : openingLine? xs = some j) : j < xs.length := by
  induction xs generalizing j with
  | nil => simp [openingLine?] at h
  | cons line rest ih =>
    simp only [openingLine?] at h
    split_ifs at h
    · cases h; simp
    · obtain ⟨i, hi, rfl⟩ := Option.map_eq_some_iff.mp h
      have := ih hi
      simp only [List.length_cons]; omega

theorem openingLine?_congr (h : openingLine? xs = some j) (hp : xs.take (j + 1) <+: ys) :
    openingLine? ys = some j := by
  induction xs generalizing j ys with
  | nil => simp [openingLine?] at h
  | cons line rest ih =>
    rw [List.take_succ_cons] at hp
    obtain ⟨ys, rfl⟩ : ∃ zs, ys = line :: zs := by
      obtain ⟨zs, rfl⟩ := hp
      exact ⟨_, rfl⟩
    rw [List.cons_prefix_cons] at hp
    simp only [openingLine?] at h ⊢
    split_ifs at h ⊢
    · exact h
    · obtain ⟨i, hi, rfl⟩ := Option.map_eq_some_iff.mp h
      rw [ih hi hp.2]
      rfl

theorem closingLine?_lt (h : closingLine? depth opened xs = some k) : k < xs.length := by
  induction xs generalizing k depth opened with
  | nil => simp [closingLine?] at h
  | cons line rest ih =>
    simp only [closingLine?] at h
    split_ifs at h
    · cases h; simp
    · obtain ⟨i, hi, rfl⟩ := Option.map_eq_some_iff.mp h
      have := ih hi
      simp only [List.length_cons]; omega

theorem closingLine?_congr (h : closingLine? depth opened xs = some k)
    (hp : xs.take (k + 1) <+: ys) : closingLine? depth opened ys = some k := by
  induction xs generalizing k ys depth opened with
  | nil => simp [closingLine?] at h
  | cons line rest ih =>
    rw [List.take_succ_cons] at hp
    obtain ⟨ys, rfl⟩ : ∃ zs, ys = line :: zs := by
      obtain ⟨zs, rfl⟩ := hp
      exact ⟨_, rfl⟩
    rw [List.cons_prefix_cons] at hp
    simp only [closingLine?] at h ⊢
    split_ifs at h ⊢
    · exact h
    · obtain ⟨i, hi, rfl⟩ := Option.map_eq_some_iff.mp h
      rw [ih hi hp.2]
      rfl

theorem blockEnd_lt (h : j < xs.length) : blockEnd xs j < xs.length := by
  unfold blockEnd
  cases hk : closingLine? 0 false (xs.drop j) with
  | none => simpa using h
  | some k =>
    have := closingLine?_lt hk
    simp only [List.length_drop, Option.getD_some] at this ⊢
    omega

end Code

/-! ## Bodies -/

namespace Definition

variable {names : List Text} {file text : Text} {i n : Nat} {lines xs ys : List Text}
  {d : Definition}

/-- The length, less one, of a body whose braces balance on its last line. -/
def closedLength? (lines : List Text) : Option Nat :=
  (openingLine? (lines.take braceWindow)).bind fun j =>
    (closingLine? 0 false (lines.drop j)).map (j + ·)

theorem bodyLength?_of_closedLength? (h : closedLength? lines = some n) :
    bodyLength? lines = some n := by
  obtain ⟨j, hj, hmap⟩ := Option.bind_eq_some_iff.mp h
  obtain ⟨k, hk, rfl⟩ := Option.map_eq_some_iff.mp hmap
  simp [bodyLength?, hj, blockEnd, hk]

theorem lt_of_bodyLength? (h : bodyLength? lines = some n) : n < lines.length := by
  obtain ⟨j, hj, rfl⟩ := Option.map_eq_some_iff.mp h
  have hjlt := openingLine?_lt hj
  rw [List.length_take] at hjlt
  exact blockEnd_lt (by omega)

theorem closedLength?_congr (h : closedLength? xs = some n) (hp : xs.take (n + 1) <+: ys) :
    closedLength? ys = some n := by
  obtain ⟨j, hj, hmap⟩ := Option.bind_eq_some_iff.mp h
  obtain ⟨k, hk, rfl⟩ := Option.map_eq_some_iff.mp hmap
  have hjlt := openingLine?_lt hj
  rw [List.length_take] at hjlt
  have hopen : openingLine? (ys.take braceWindow) = some j := by
    apply openingLine?_congr hj
    rw [List.take_take, List.prefix_take_iff]
    refine ⟨?_, by rw [List.length_take]; omega⟩
    rw [Nat.min_eq_left (by omega)]
    exact (List.take_prefix_take_left (by omega)).trans hp
  have hclose : closingLine? 0 false (ys.drop j) = some k := by
    apply closingLine?_congr hk
    have := List.IsPrefix.drop hp j
    rwa [List.drop_take, show j + k + 1 - j = k + 1 by omega] at this
  simp [closedLength?, hopen, hclose]

/-! ## Membership -/

/-- A definition is found for every wanted name on every line that mentions it. -/
theorem mem_ofLines_iff : d ∈ ofLines names file i lines ↔
    ∃ k line, lines[k]? = some line ∧ isComment line = false ∧ d.name ∈ names ∧
      mentions line d.name = true ∧ ∃ n, bodyLength? (lines.drop k) = some n ∧
        d = ⟨d.name, i + k, ⟨i + k, i + k + n⟩, file⟩ := by
  induction lines generalizing i with
  | nil => simp [ofLines]
  | cons line rest ih =>
    have hshift : ∀ k, i + (k + 1) = i + 1 + k := by omega
    rw [ofLines, List.mem_append, ih]
    constructor
    · rintro (h | ⟨k, l, hl, hc, hn, hm, n, hb, hd⟩)
      · split_ifs at h with hc
        · simp at h
        · obtain ⟨name, hname, h⟩ := List.mem_filterMap.mp h
          obtain ⟨n, hb, rfl⟩ := Option.map_eq_some_iff.mp h
          obtain ⟨hn, hm⟩ := List.mem_filter.mp hname
          exact ⟨0, line, rfl, by simpa using hc, hn, hm, n, hb, rfl⟩
      · refine ⟨k + 1, l, hl, hc, hn, hm, n, hb, ?_⟩
        rw [hshift]
        exact hd
    · rintro ⟨k, l, hl, hc, hn, hm, n, hb, hd⟩
      cases k with
      | zero =>
        left
        cases hl
        rw [if_neg (by simp [hc]), List.mem_filterMap]
        refine ⟨d.name, List.mem_filter.mpr ⟨hn, hm⟩, ?_⟩
        rw [List.drop_zero] at hb
        rw [hb, Option.map_some, hd]
        rfl
      | succ k =>
        right
        refine ⟨k, l, hl, hc, hn, hm, n, hb, ?_⟩
        rw [← hshift]
        exact hd

theorem mem_ofText_iff : d ∈ ofText names text file ↔
    ∃ line, (splitLines text)[d.line]? = some line ∧ isComment line = false ∧
      d.name ∈ Prototype.distinct names ∧ mentions line d.name = true ∧
        ∃ n, bodyLength? ((splitLines text).drop d.line) = some n ∧
          d = ⟨d.name, d.line, ⟨d.line, d.line + n⟩, file⟩ := by
  rw [ofText, mem_ofLines_iff]
  simp only [Nat.zero_add]
  constructor
  · rintro ⟨k, line, hl, hc, hn, hm, n, hb, hd⟩
    have hk : d.line = k := by rw [hd]
    exact ⟨line, hk ▸ hl, hc, hn, hm, n, hk ▸ hb, by rw [hk]; exact hd⟩
  · rintro ⟨line, hl, hc, hn, hm, n, hb, hd⟩
    exact ⟨d.line, line, hl, hc, hn, hm, n, hb, hd⟩

theorem fits_of_mem_ofText (h : d ∈ ofText names text file) :
    d.file = file ∧ d.span.first = d.line ∧ d.span.Fits (splitLines text).length := by
  obtain ⟨line, hl, -, -, -, n, hb, hd⟩ := mem_ofText_iff.mp h
  have hlen := lt_of_bodyLength? hb
  rw [List.length_drop] at hlen
  rw [hd]
  refine ⟨rfl, rfl, ?_, ?_⟩
  · exact Nat.le_add_right _ _
  · simp only; omega

end Definition

end HeaderOrder

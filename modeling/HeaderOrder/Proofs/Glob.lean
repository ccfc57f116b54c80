import HeaderOrder.Proofs.Braces
import HeaderOrder.Proofs.Pieces

/-! # Patterns for whole subtrees -/

namespace HeaderOrder.Glob

open Byte

namespace Token

variable {k : Token} {ks : List Token} {t r : Text}

/-! ## Tokens that end in two stars -/

/-- The last tokens accept any text. When stars are read in pairs, one can be left over. -/
def EndsOpen (ks : List Token) : Prop :=
  ∃ init, ks = init ++ [anything] ∨ ks = init ++ [anything, name]

theorem EndsOpen.cons (k : Token) (h : EndsOpen ks) : EndsOpen (k :: ks) := by
  obtain ⟨init, rfl | rfl⟩ := h
  · exact ⟨k :: init, Or.inl rfl⟩
  · exact ⟨k :: init, Or.inr rfl⟩

theorem suffix_of_cons {b : Byte} {t : Text} (h : [star, star] <:+ b :: t) :
    (b = star ∧ t = [star]) ∨ [star, star] <:+ t := by
  rcases List.suffix_cons_iff.mp h with h | h
  · cases h
    exact Or.inl ⟨rfl, rfl⟩
  · exact Or.inr h

theorem suffix_of_cons_ne {b : Byte} {t : Text} (hb : b ≠ star) (h : [star, star] <:+ b :: t) :
    [star, star] <:+ t := by
  rcases suffix_of_cons h with ⟨rfl, -⟩ | h
  · exact absurd rfl hb
  · exact h

theorem endsOpen_scan {p : Text} (h : [star, star] <:+ p) : EndsOpen (scan p) := by
  induction p using scan.induct with
  | case1 t ih =>
    rw [scan]
    rcases suffix_of_cons h with ⟨-, ht⟩ | h
    · cases ht
    · rcases suffix_of_cons h with ⟨-, ht⟩ | h
      · cases ht
      · exact (ih (suffix_of_cons_ne (by decide) h)).cons _
  | case2 t hslash ih =>
    rw [scan.eq_2 t hslash]
    rcases suffix_of_cons h with ⟨-, ht⟩ | h
    · cases ht
      exact ⟨[], Or.inl rfl⟩
    · rcases suffix_of_cons h with ⟨-, rfl⟩ | h
      · exact ⟨[], Or.inr rfl⟩
      · exact (ih h).cons _
  | case3 t _ hstar ih =>
    rw [scan]
    · rcases suffix_of_cons h with ⟨-, rfl⟩ | h
      · exact absurd rfl (hstar [])
      · exact (ih h).cons _
    · assumption
    · exact hstar
  | case4 t ih =>
    rw [scan]
    exact (ih (suffix_of_cons_ne (by decide) h)).cons _
  | case5 b t _ _ hstar _ ih =>
    rw [scan]
    · exact (ih (suffix_of_cons_ne hstar h)).cons _
    all_goals assumption
  | case6 => simp at h

theorem mem_rests_append (h : r ∈ k.rests t) (s : Text) : r ++ s ∈ k.rests (t ++ s) := by
  obtain ⟨p, hp, rfl⟩ := mem_rests_iff.mp h
  exact mem_rests_iff.mpr ⟨p, hp, (List.append_assoc p r s).symm⟩

theorem accepts_append_of_tail {tail : List Token} (htail : ∀ t, accepts tail t = true)
    (init : List Token) (h : accepts (init ++ tail) t = true) (s : Text) :
    accepts (init ++ tail) (t ++ s) = true := by
  induction init generalizing t with
  | nil => exact htail _
  | cons k init ih =>
    obtain ⟨r, hr, hrest⟩ := accepts_cons_iff.mp h
    exact accepts_cons_iff.mpr ⟨r ++ s, mem_rests_append hr s, ih hrest⟩

theorem EndsOpen.accepts_append (hopen : EndsOpen ks) (h : accepts ks t = true) (s : Text) :
    accepts ks (t ++ s) = true := by
  have hany (ks : List Token) (hks : accepts ks [] = true) (t : Text) :
      accepts (anything :: ks) t = true :=
    accepts_cons_iff.mpr ⟨[], mem_rests_iff.mpr ⟨t, trivial, List.append_nil t⟩, hks⟩
  obtain ⟨init, rfl | rfl⟩ := hopen
  · exact accepts_append_of_tail (hany [] rfl) init h s
  · exact accepts_append_of_tail (hany [name] rfl) init h s

end Token

/-! ## Globs -/

variable {pattern t : Text}

/-- Every alternative of the pattern ends in two stars. The empty pattern has none. -/
def CoversSubtrees (pattern : Text) : Prop :=
  pattern ≠ [] → ∀ alternative ∈ Braces.expand pattern, [star, star] <:+ alternative

theorem coversSubtrees_of_group? (hplain : Braces.group? pattern = none)
    (hstars : [star, star] <:+ pattern) : CoversSubtrees pattern := by
  intro _ alternative hmem
  rw [Braces.expand_of_group?_none hplain, List.mem_singleton] at hmem
  rwa [hmem]

theorem CoversSubtrees.accepts_append (hcovers : CoversSubtrees pattern)
    (h : (ofText pattern).accepts t = true) (s : Text) :
    (ofText pattern).accepts (t ++ s) = true := by
  obtain ⟨ks, hks, hacc⟩ := List.any_eq_true.mp h
  refine List.any_eq_true.mpr ⟨ks, hks, ?_⟩
  unfold ofText at hks
  dsimp only at hks
  split_ifs at hks with hempty
  · simp at hks
  · obtain ⟨alternative, hmem, rfl⟩ := List.mem_map.mp hks
    exact (Token.endsOpen_scan (hcovers hempty alternative hmem)).accepts_append hacc s

end HeaderOrder.Glob

import HeaderOrder.Proofs.Location
import Mathlib.Data.Nat.Find

/-!
# Where a block ends

A body may end below the line on which the depth comes back to zero.
-/

namespace HeaderOrder

open Byte Text Code

/-! ## First lines -/

structure IsFirst (p : Nat → Prop) (b e : Nat) : Prop where
  le : b ≤ e
  holds : p e
  least : ∀ j < e, b ≤ j → ¬ p j

/-- Line `e` is the first one from line `b` on that has the property, or line `b` when none has. -/
def IsFirstOr (p : Nat → Prop) (b e : Nat) : Prop :=
  IsFirst p b e ∨ e = b ∧ ∀ j, b ≤ j → ¬ p j

section First

variable {p q : Nat → Prop} {b c e : Nat}

instance [DecidablePred p] : Decidable (IsFirst p b e) :=
  decidable_of_iff (b ≤ e ∧ p e ∧ ∀ j < e, b ≤ j → ¬ p j)
    ⟨fun ⟨h₁, h₂, h₃⟩ => ⟨h₁, h₂, h₃⟩, fun ⟨h₁, h₂, h₃⟩ => ⟨h₁, h₂, h₃⟩⟩

theorem IsFirst.unique (hc : IsFirst p b c) (he : IsFirst p b e) : c = e := by
  rcases Nat.lt_trichotomy c e with hlt | heq | hlt
  · exact absurd hc.holds (he.least c hlt hc.le)
  · exact heq
  · exact absurd he.holds (hc.least e hlt he.le)

theorem exists_isFirst (hle : b ≤ c) (hc : p c) : ∃ e, IsFirst p b e := by
  classical
  have hex : ∃ j, b ≤ j ∧ p j := ⟨c, hle, hc⟩
  obtain ⟨hfirst, hp⟩ := Nat.find_spec hex
  exact ⟨Nat.find hex, hfirst, hp, fun j hlt hj hpj => Nat.find_min hex hlt ⟨hj, hpj⟩⟩

theorem isFirstOr_iff_of_imp (hpq : ∀ j, b ≤ j → p j → q j) (he : IsFirstOr p b e) :
    IsFirstOr q b e ↔ ∀ c, IsFirst q b c → p c ∨ c = b ∧ ∀ j, b ≤ j → ¬ p j := by
  constructor
  · rintro (h | ⟨-, hnone⟩) c hc
    · rw [hc.unique h]
      exact he.imp (·.holds) id
    · exact absurd hc.holds (hnone c hc.le)
  · intro h
    by_cases hq : ∃ j, b ≤ j ∧ q j
    · obtain ⟨j, hj, hqj⟩ := hq
      obtain ⟨c, hc⟩ := exists_isFirst hj hqj
      left
      have hce : c = e := by
        rcases h c hc with hp | ⟨rfl, hnone⟩
        · rcases he with he | ⟨-, hnone⟩
          · have hec : ¬ e < c := fun hlt => hc.least e hlt he.le (hpq e he.le he.holds)
            have hce : ¬ c < e := fun hlt => he.least c hlt hc.le hp
            omega
          · exact absurd hp (hnone c hc.le)
        · rcases he with he | ⟨he, -⟩
          · exact absurd he.holds (hnone e he.le)
          · exact he.symm
      rw [← hce]
      exact hc
    · right
      have hnone : ∀ j, b ≤ j → ¬ q j := fun j hj hqj => hq ⟨j, hj, hqj⟩
      rcases he with he | ⟨he, -⟩
      · exact absurd (hpq e he.le he.holds) (hnone e he.le)
      · exact ⟨he, hnone⟩

end First

/-! ## The depth of braces -/

namespace Code

variable {lines xs : List Text} {line : Text} {depth : Int} {b j k m : Nat}

/-- The braces that are read from the start of line `b` to the end of line `j` are level. -/
def EndsLevel (lines : List Text) (b j : Nat) : Prop :=
  j < lines.length ∧ balance (Span.slice ⟨b, j⟩ lines).flatten = 0

/-- Read from the start of line `b`, the depth comes to zero on line `j` after it was positive. -/
def ReturnsOn (lines : List Text) (b j : Nat) : Prop :=
  ∃ line, lines[j]? = some line ∧ ∃ read, read <+: line ∧
    balance (((lines.drop b).take (j - b)).flatten ++ read) = 0 ∧
      ∃ front, front <+: ((lines.drop b).take (j - b)).flatten ++ read ∧ 0 < balance front

/-- Read from the start of line `b`, the depth is positive at some place on that line. -/
def Rises (lines : List Text) (b : Nat) : Prop :=
  ∃ line, lines[b]? = some line ∧ ∃ read, read <+: line ∧ 0 < balance read

instance : Decidable (EndsLevel lines b j) := inferInstanceAs (Decidable (_ ∧ _))

instance : DecidablePred (EndsLevel lines b) := fun _ => inferInstance

instance : DecidablePred (ReturnsOn lines b) := fun j =>
  decidable_of_iff (∃ line ∈ lines[j]?.toList, ∃ read ∈ line.inits,
      balance (((lines.drop b).take (j - b)).flatten ++ read) = 0 ∧
        ∃ front ∈ (((lines.drop b).take (j - b)).flatten ++ read).inits, 0 < balance front) (by
    simp only [ReturnsOn, List.mem_inits, Option.mem_toList])

instance : Decidable (Rises lines b) :=
  decidable_of_iff (∃ line ∈ lines[b]?.toList, ∃ read ∈ line.inits, 0 < balance read) (by
    simp only [Rises, List.mem_inits, Option.mem_toList])

theorem closingLine?_of_mem (h : openBrace ∈ line) (depth : Int) (rest : List Text) :
    closingLine? depth false (line :: rest) = closingLine? depth true (line :: rest) := by
  simp [closingLine?, h]

/-- Once a brace is open, the first line that ends at depth zero closes the block. -/
theorem closingLine?_eq_some_iff : closingLine? depth true xs = some k ↔
    (k < xs.length ∧ depth + balance (xs.take (k + 1)).flatten = 0) ∧
      ∀ m < k, depth + balance (xs.take (m + 1)).flatten ≠ 0 := by
  induction xs generalizing depth k with
  | nil => simp [closingLine?]
  | cons line rest ih =>
    have hstep : ∀ m, depth + balance ((line :: rest).take (m + 1 + 1)).flatten =
        depth + balance line + balance (rest.take (m + 1)).flatten := by
      intro m
      simp only [List.take_succ_cons, List.flatten_cons, balance_append]
      omega
    simp only [closingLine?, Bool.true_or, true_and]
    split_ifs with hzero
    · constructor
      · rintro ⟨⟩
        simpa using hzero
      · rintro ⟨-, hleast⟩
        cases k with
        | zero => rfl
        | succ k => exact absurd (by simpa using hzero) (hleast 0 (by omega))
    · rw [Option.map_eq_some_iff]
      constructor
      · rintro ⟨k, hk, rfl⟩
        obtain ⟨⟨hlt, hlevel⟩, hleast⟩ := ih.mp hk
        refine ⟨⟨by simpa using hlt, by rw [hstep, hlevel]⟩, ?_⟩
        intro m hm
        cases m with
        | zero => simpa using hzero
        | succ m =>
          rw [hstep]
          exact hleast m (by omega)
      · rintro ⟨⟨hlt, hlevel⟩, hleast⟩
        cases k with
        | zero => exact absurd (by simpa using hlevel) hzero
        | succ k =>
          refine ⟨k, ih.mpr ⟨⟨by simpa using hlt, by rw [← hstep, hlevel]⟩, ?_⟩, rfl⟩
          intro m hm
          rw [← hstep]
          exact hleast (m + 1) (by omega)

theorem endsLevel_add_iff : EndsLevel lines b (b + m) ↔
    m < (lines.drop b).length ∧ 0 + balance ((lines.drop b).take (m + 1)).flatten = 0 := by
  simp only [EndsLevel, Span.slice, show b + m + 1 - b = m + 1 by omega, List.length_drop,
    Int.zero_add]
  exact and_congr_left fun _ => by omega

theorem exists_cons_drop (hl : lines[b]? = some line) :
    ∃ rest, lines.drop b = line :: rest := by
  obtain ⟨hlt, rfl⟩ := List.getElem?_eq_some_iff.mp hl
  exact ⟨_, List.drop_eq_getElem_cons hlt⟩

theorem isFirstOr_blockEnd (hl : lines[b]? = some line) (h : openBrace ∈ line) :
    IsFirstOr (EndsLevel lines b) b (blockEnd lines b) := by
  obtain ⟨rest, hdrop⟩ := exists_cons_drop hl
  have hopened : closingLine? 0 false (lines.drop b) = closingLine? 0 true (lines.drop b) := by
    rw [hdrop, closingLine?_of_mem h]
  unfold blockEnd
  rw [hopened]
  by_cases hex : ∃ j, b ≤ j ∧ EndsLevel lines b j
  · obtain ⟨j, hj, hlevel⟩ := hex
    obtain ⟨e, hle, hlevel, hleast⟩ := exists_isFirst hj hlevel
    obtain ⟨k, rfl⟩ := Nat.exists_eq_add_of_le hle
    have hk : closingLine? 0 true (lines.drop b) = some k := by
      rw [closingLine?_eq_some_iff]
      refine ⟨endsLevel_add_iff.mp hlevel, ?_⟩
      intro m hm hzero
      have hlt := (endsLevel_add_iff.mp hlevel).1
      exact hleast (b + m) (by omega) (by omega) (endsLevel_add_iff.mpr ⟨by omega, hzero⟩)
    rw [hk]
    exact Or.inl ⟨hle, hlevel, hleast⟩
  · have hnone : closingLine? 0 true (lines.drop b) = none := by
      rw [Option.eq_none_iff_forall_ne_some]
      intro k hk
      exact hex ⟨b + k, by omega, endsLevel_add_iff.mpr (closingLine?_eq_some_iff.mp hk).1⟩
    rw [hnone]
    exact Or.inr ⟨rfl, fun j hj hlevel => hex ⟨j, hj, hlevel⟩⟩

theorem returnsOn_of_endsLevel (hrises : Rises lines b) (hle : b ≤ j) (h : EndsLevel lines b j) :
    ReturnsOn lines b j := by
  obtain ⟨first, hfirst, front, hfront, hpos⟩ := hrises
  obtain ⟨hlt, hlevel⟩ := h
  have hl : lines[j]? = some lines[j] := List.getElem?_eq_getElem hlt
  have hsplit : (Span.slice ⟨b, j⟩ lines).flatten =
      ((lines.drop b).take (j - b)).flatten ++ lines[j] := by
    rw [Span.slice_eq_append hle hl]
    simp
  refine ⟨_, hl, lines[j], List.prefix_refl _, by rw [← hsplit, hlevel], front, ?_, hpos⟩
  -- The first line is where all that is read starts.
  obtain ⟨rest, hdrop⟩ := exists_cons_drop hfirst
  rw [← hsplit, Span.slice, hdrop, show j + 1 - b = j - b + 1 by omega, List.take_succ_cons,
    List.flatten_cons]
  exact hfront.trans (List.prefix_append _ _)

end Code

namespace Definition

variable {names : List Text} {text file : Text}

/-- A body runs to the first line that ends at depth zero, or to the line that opens it. -/
theorem ofText_ends_level (names : List Text) (text file : Text) :
    ∀ d ∈ ofText names text file, ∃ b, OpensOn (splitLines text) d.line b ∧
      IsFirstOr (EndsLevel (splitLines text) b) b d.span.last ∧
      (Rises (splitLines text) b → (IsFirstOr (ReturnsOn (splitLines text) b) b d.span.last ↔
        ∀ c, IsFirst (ReturnsOn (splitLines text) b) b c → EndsLevel (splitLines text) b c ∨
          c = b ∧ ∀ j, b ≤ j → ¬ EndsLevel (splitLines text) b j)) := by
  intro d hd
  obtain ⟨-, b, hb, hspan, -⟩ := mem_ofText_iff_opensOn.mp hd
  obtain ⟨line, hl, hopen⟩ := hb.opens
  have hend : IsFirstOr (EndsLevel (splitLines text) b) b d.span.last := by
    rw [hspan]
    exact isFirstOr_blockEnd hl hopen
  refine ⟨b, hb, hend, ?_⟩
  intro hrises
  exact isFirstOr_iff_of_imp (fun j hj => returnsOn_of_endsLevel hrises hj) hend

def nestedText : Text := "int g(int x)\n\x7b\n  if (x) \x7b\n  \x7d else \x7b\n  \x7d\n\x7d\n"

theorem ofText_ends_level_nested :
    ⟨"g", 0, ⟨0, 5⟩, "g.cpp"⟩ ∈ ofText ["g"] nestedText "g.cpp" ∧
      IsFirstOr (ReturnsOn (splitLines nestedText) 1) 1 5 := by
  have hd : ⟨"g", 0, ⟨0, 5⟩, "g.cpp"⟩ ∈ ofText ["g"] nestedText "g.cpp" := by decide +kernel
  obtain ⟨b, hb, -, hreturns⟩ := ofText_ends_level _ _ _ _ hd
  have hopens : OpensOn (splitLines nestedText) 0 1 :=
    ⟨by decide, by decide, ⟨_, rfl, by decide⟩, by
      intro k line _ hk hl
      obtain rfl : k = 0 := by omega
      cases hl
      decide⟩
  obtain rfl := hb.unique hopens
  refine ⟨hd, (hreturns (by decide +kernel)).mpr ?_⟩
  intro c hc
  left
  rw [hc.unique (show IsFirst _ 1 5 by decide +kernel)]
  decide +kernel

def reopenedText : Text := "void f() \x7b\n\x7d void g() \x7b\n\x7d\n"

/-- The line that closes the body opens another one, and the body runs to the end of that. -/
theorem ends_below_own_brace :
    ⟨"f", 0, ⟨0, 2⟩, "f.cpp"⟩ ∈ ofText ["f"] reopenedText "f.cpp" ∧
      OpensOn (splitLines reopenedText) 0 0 ∧
      IsFirst (ReturnsOn (splitLines reopenedText) 0) 0 1 ∧
      ¬ IsFirstOr (ReturnsOn (splitLines reopenedText) 0) 0 2 := by
  have hfirst : IsFirst (ReturnsOn (splitLines reopenedText) 0) 0 1 := by decide +kernel
  refine ⟨by decide +kernel, ⟨by decide, by decide, ⟨_, rfl, by decide⟩, ?_⟩, hfirst, ?_⟩
  · intro k line _ hk
    omega
  · rintro (h | ⟨h, -⟩)
    · exact absurd (h.unique hfirst) (by decide)
    · exact absurd h (by decide)

end Definition

end HeaderOrder

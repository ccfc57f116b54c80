import HeaderOrder.Proofs.Definition

/-! # Where bodies are found -/

namespace HeaderOrder

open Byte Text Code

/-! ## The order of names -/

namespace Prototype

theorem pairwise_eraseDups (names : List Text) (p : Text → Bool) :
    (names.filter p).eraseDups.Pairwise fun a b => names.idxOf a < names.idxOf b := by
  induction names generalizing p with
  | nil => simp
  | cons n names ih =>
    -- The names that are left differ from the first one, which moves their places up by one.
    have hshift {l : List Text} (hne : ∀ a ∈ l, a ≠ n)
        (h : l.Pairwise fun a b => names.idxOf a < names.idxOf b) :
        l.Pairwise fun a b => (n :: names).idxOf a < (n :: names).idxOf b := by
      apply h.imp_of_mem
      intro a b ha hb hlt
      rw [List.idxOf_cons_ne _ (hne a ha).symm, List.idxOf_cons_ne _ (hne b hb).symm]
      omega
    by_cases hp : p n = true
    · rw [List.filter_cons_of_pos hp, List.eraseDups_cons, List.filter_filter, List.pairwise_cons]
      have hne : ∀ a ∈ (names.filter fun a => (!a == n) && p a).eraseDups, a ≠ n := by
        intro a ha
        rw [List.mem_eraseDups, List.mem_filter] at ha
        simp_all
      refine ⟨?_, hshift hne (ih _)⟩
      intro a ha
      rw [List.idxOf_cons_self, List.idxOf_cons_ne _ (hne a ha).symm]
      omega
    · rw [List.filter_cons_of_neg hp]
      apply hshift _ (ih p)
      rintro a ha rfl
      rw [List.mem_eraseDups, List.mem_filter] at ha
      exact hp ha.2

theorem pairwise_distinct (names : List Text) :
    (distinct names).Pairwise fun a b => names.idxOf a < names.idxOf b :=
  pairwise_eraseDups names _

end Prototype

/-! ## The line that opens a block -/

namespace Code

variable {xs lines : List Text} {i j : Nat}

theorem openingLine?_eq_some_iff : openingLine? xs = some j ↔
    (∃ line, xs[j]? = some line ∧ openBrace ∈ line) ∧
      ∀ k line, k < j → xs[k]? = some line → openBrace ∉ line ∧ endsStatement line = false := by
  induction xs generalizing j with
  | nil => simp [openingLine?]
  | cons line rest ih =>
    simp only [openingLine?, List.contains_iff_mem]
    split_ifs with hopen hend
    · constructor
      · rintro ⟨⟩
        exact ⟨⟨line, rfl, hopen⟩, by simp⟩
      · rintro ⟨-, habove⟩
        cases j with
        | zero => rfl
        | succ j => exact absurd hopen (habove 0 line (by omega) rfl).1
    · simp only [false_iff, not_and]
      rintro ⟨l, hl, hmem⟩ habove
      cases j with
      | zero =>
        cases hl
        exact hopen hmem
      | succ j =>
        have := (habove 0 line (by omega) rfl).2
        simp [hend] at this
    · rw [Option.map_eq_some_iff]
      constructor
      · rintro ⟨j, hj, rfl⟩
        obtain ⟨hopens, habove⟩ := ih.mp hj
        refine ⟨hopens, ?_⟩
        intro k l hk hl
        cases k with
        | zero =>
          cases hl
          exact ⟨hopen, by simpa using hend⟩
        | succ k => exact habove k l (by omega) hl
      · rintro ⟨⟨l, hl, hmem⟩, habove⟩
        cases j with
        | zero =>
          cases hl
          exact absurd hmem hopen
        | succ j =>
          refine ⟨j, ih.mpr ⟨⟨l, hl, hmem⟩, ?_⟩, rfl⟩
          intro k l' hk hl'
          exact habove (k + 1) l' (by omega) hl'

theorem blockEnd_drop (lines : List Text) (i j : Nat) :
    i + blockEnd (lines.drop i) j = blockEnd lines (i + j) := by
  unfold blockEnd
  rw [List.drop_drop, Nat.add_assoc]

theorem le_blockEnd (lines : List Text) (b : Nat) : b ≤ blockEnd lines b := Nat.le_add_right _ _

end Code

namespace Definition

variable {names : List Text} {file text : Text} {lines : List Text} {d : Definition}
  {first b b' i j n : Nat}

/-- A body that starts on line `first` is opened on line `b`: the first line from there with an
opening brace, one of 30, with no statement that ends above it. -/
structure OpensOn (lines : List Text) (first b : Nat) : Prop where
  le : first ≤ b
  near : b < first + 30
  opens : ∃ line, lines[b]? = some line ∧ openBrace ∈ line
  goesOn : ∀ k line, first ≤ k → k < b → lines[k]? = some line →
    openBrace ∉ line ∧ endsStatement line = false

theorem OpensOn.lt (h : OpensOn lines first b) : b < lines.length := by
  obtain ⟨line, hl, -⟩ := h.opens
  exact (List.getElem?_eq_some_iff.mp hl).1

theorem OpensOn.not_lt (h : OpensOn lines first b) (h' : OpensOn lines first b') : ¬ b < b' := by
  intro hlt
  obtain ⟨line, hl, hmem⟩ := h.opens
  exact (h'.goesOn b line h.le hlt hl).1 hmem

theorem OpensOn.unique (h : OpensOn lines first b) (h' : OpensOn lines first b') : b = b' := by
  have := h.not_lt h'
  have := h'.not_lt h
  omega

theorem openingLine?_window : openingLine? ((lines.drop i).take braceWindow) = some j ↔
    OpensOn lines i (i + j) := by
  have hget {k : Nat} (hk : k < 30) : ((lines.drop i).take braceWindow)[k]? = lines[i + k]? := by
    rw [braceWindow, List.getElem?_take_of_lt hk, List.getElem?_drop]
  constructor
  · intro h
    have hj := openingLine?_lt h
    have hnear : j < 30 := by
      simp only [List.length_take, braceWindow] at hj
      omega
    obtain ⟨hopens, habove⟩ := openingLine?_eq_some_iff.mp h
    rw [hget hnear] at hopens
    refine ⟨by omega, by omega, hopens, ?_⟩
    intro k line hle hlt hl
    obtain ⟨k, rfl⟩ := Nat.exists_eq_add_of_le hle
    apply habove k line (by omega)
    rw [hget (by omega), hl]
  · rintro ⟨-, hnear, hopens, hgoes⟩
    rw [openingLine?_eq_some_iff, hget (by omega)]
    refine ⟨hopens, ?_⟩
    intro k line hk hl
    rw [hget (by omega)] at hl
    exact hgoes (i + k) line (by omega) (by omega) hl

theorem bodyLength?_eq_some_iff : bodyLength? (lines.drop i) = some n ↔
    ∃ b, OpensOn lines i b ∧ i + n = blockEnd lines b := by
  unfold bodyLength?
  rw [Option.map_eq_some_iff]
  constructor
  · rintro ⟨j, hj, rfl⟩
    exact ⟨i + j, openingLine?_window.mp hj, blockEnd_drop lines i j⟩
  · rintro ⟨b, hb, hn⟩
    obtain ⟨j, rfl⟩ := Nat.exists_eq_add_of_le hb.le
    refine ⟨j, openingLine?_window.mpr hb, ?_⟩
    have := blockEnd_drop lines i j
    omega

/-! ## Bodies and their order -/

theorem mem_ofText_iff_opensOn : d ∈ ofText names text file ↔
    (d.name ∈ names ∧ d.name ≠ [] ∧ ∃ line, (splitLines text)[d.line]? = some line ∧
      isComment line = false ∧ d.name ++ [openParen] <:+: line) ∧
    ∃ b, OpensOn (splitLines text) d.line b ∧
      d.span = ⟨d.line, blockEnd (splitLines text) b⟩ ∧ d.file = file := by
  simp only [mem_ofText_iff, Prototype.mem_distinct, mentions, occurs_iff, bodyLength?_eq_some_iff]
  constructor
  · rintro ⟨line, hl, hc, ⟨hn, hne⟩, hm, n, ⟨b, hb, hend⟩, hd⟩
    refine ⟨⟨hn, hne, line, hl, hc, hm⟩, b, hb, ?_, ?_⟩
    · rw [← hend, hd]
    · rw [hd]
  · rintro ⟨⟨hn, hne, line, hl, hc, hm⟩, b, hb, hspan, hfile⟩
    have hle := hb.le.trans (le_blockEnd (splitLines text) b)
    refine ⟨line, hl, hc, ⟨hn, hne⟩, hm, blockEnd (splitLines text) b - d.line,
      ⟨b, hb, by omega⟩, ?_⟩
    obtain ⟨name, line, span, file⟩ := d
    simp only at hspan hfile hle ⊢
    rw [hspan, hfile, Nat.add_sub_cancel' hle]

theorem pairwise_ofLines {before : Text → Text → Prop} (h : names.Pairwise before) (file : Text)
    (i : Nat) (lines : List Text) : (ofLines names file i lines).Pairwise fun d e =>
      d.line < e.line ∨ d.line = e.line ∧ before d.name e.name := by
  induction lines generalizing i with
  | nil => simp [ofLines]
  | cons line rest ih =>
    rw [ofLines, List.pairwise_append]
    refine ⟨?_, ih (i + 1), ?_⟩
    · split_ifs
      · exact List.Pairwise.nil
      · rw [List.pairwise_filterMap]
        apply (h.filter (mentions line)).imp
        intro a b hab d hd e he
        obtain ⟨n, -, rfl⟩ := Option.map_eq_some_iff.mp hd
        obtain ⟨m, -, rfl⟩ := Option.map_eq_some_iff.mp he
        exact Or.inr ⟨rfl, hab⟩
    · intro d hd e he
      left
      obtain ⟨k, line', -, -, -, -, n, -, heq⟩ := mem_ofLines_iff.mp he
      have hline : d.line = i := by
        split_ifs at hd
        · simp at hd
        · obtain ⟨name, -, hd⟩ := List.mem_filterMap.mp hd
          obtain ⟨m, -, rfl⟩ := Option.map_eq_some_iff.mp hd
          rfl
      rw [heq, hline]
      simp only
      omega

/-- A body is found just for the wanted names that a line calls, when a block opens below. -/
theorem ofText_locates (names : List Text) (text file : Text) :
    (∀ i name, (∃ d ∈ ofText names text file, d.line = i ∧ d.name = name) ↔
      name ∈ names ∧ name ≠ [] ∧ ∃ line, (splitLines text)[i]? = some line ∧
        isComment line = false ∧ name ++ [openParen] <:+: line ∧
          ∃ b, OpensOn (splitLines text) i b) ∧
    (∀ d ∈ ofText names text file, d.file = file ∧ ∃ b, OpensOn (splitLines text) d.line b ∧
      d.span = ⟨d.line, blockEnd (splitLines text) b⟩ ∧ b ≤ d.span.last ∧
        d.span.last < (splitLines text).length) ∧
    ((ofText names text file).map fun d => (d.line, d.name)).Nodup ∧
    (ofText names text file).Pairwise fun d e =>
      d.line < e.line ∨ d.line = e.line ∧ names.idxOf d.name < names.idxOf e.name := by
  have horder := pairwise_ofLines (Prototype.pairwise_distinct names) file 0 (splitLines text)
  refine ⟨?_, ?_, ?_, horder⟩
  · intro i name
    constructor
    · rintro ⟨d, hd, rfl, rfl⟩
      obtain ⟨⟨hn, hne, line, hl, hc, hm⟩, b, hb, -⟩ := mem_ofText_iff_opensOn.mp hd
      exact ⟨hn, hne, line, hl, hc, hm, b, hb⟩
    · rintro ⟨hn, hne, line, hl, hc, hm, b, hb⟩
      refine ⟨⟨name, i, ⟨i, blockEnd (splitLines text) b⟩, file⟩, ?_, rfl, rfl⟩
      exact mem_ofText_iff_opensOn.mpr ⟨⟨hn, hne, line, hl, hc, hm⟩, b, hb, rfl, rfl⟩
  · intro d hd
    obtain ⟨-, b, hb, hspan, hfile⟩ := mem_ofText_iff_opensOn.mp hd
    refine ⟨hfile, b, hb, hspan, ?_, ?_⟩
    · rw [hspan]
      exact le_blockEnd _ _
    · rw [hspan]
      exact blockEnd_lt hb.lt
  · rw [List.nodup_iff_pairwise_ne, List.pairwise_map]
    apply horder.imp
    intro d e hlt heq
    simp only [Prod.mk.injEq] at heq
    rcases hlt with hlt | ⟨-, hlt⟩
    · omega
    · rw [heq.2] at hlt
      omega

def wideText : Text := "int alpha(\n  int x)\n\x7b return beta(x); \x7d\nint beta(int);\n"

theorem ofText_locates_below :
    (∃ d ∈ ofText ["beta", "alpha", "beta"] wideText "x.cpp", d.line = 0 ∧ d.name = "alpha") ∧
    (∃ d ∈ ofText ["beta", "alpha", "beta"] wideText "x.cpp", d.line = 2 ∧ d.name = "beta") ∧
    ¬ ∃ d ∈ ofText ["beta", "alpha", "beta"] wideText "x.cpp", d.line = 3 ∧ d.name = "beta" := by
  obtain ⟨hfound, -⟩ := ofText_locates ["beta", "alpha", "beta"] wideText "x.cpp"
  have hopens : ∃ line, (splitLines wideText)[2]? = some line ∧ openBrace ∈ line :=
    ⟨_, rfl, by decide⟩
  refine ⟨(hfound 0 "alpha").mpr ⟨by decide, by decide, _, rfl, by decide,
      occurs_iff.mp (by decide), 2, by decide, by decide, hopens, ?_⟩,
    (hfound 2 "beta").mpr ⟨by decide, by decide, _, rfl, by decide,
      occurs_iff.mp (by decide), 2, by decide, by decide, hopens, ?_⟩, ?_⟩
  · intro k line _ hk hl
    obtain rfl | rfl : k = 0 ∨ k = 1 := by omega
    all_goals
      cases hl
      decide
  · intro k line hle hk
    omega
  · intro h
    obtain ⟨-, -, line, hl, -, -, b, hb⟩ := (hfound 3 "beta").mp h
    obtain ⟨opening, hopen, hmem⟩ := hb.opens
    have hle := hb.le
    have hlt : b < 5 := hb.lt
    obtain rfl | rfl : b = 3 ∨ b = 4 := by omega
    all_goals
      cases hopen
      exact absurd hmem (by decide)

end Definition

end HeaderOrder

import HeaderOrder.Proofs.Edit
import HeaderOrder.Prototype

/-! # The statements of a header -/

namespace HeaderOrder

open Byte Text Code

namespace Prototype

variable {lines pending statement : List Text} {line : Text} {i n first : Nat} {p : Prototype}

/-! ## One line -/

def carry (pending : List Text) (line : Text) : List Text :=
  if isDirective line ∨ endsStatement line ∨ (pending = [] ∧ isComment line) ∨
      maxLines ≤ pending.length then []
  else pending ++ [line]

/-- The lines of the statement that ends on a line. -/
def finish? (pending : List Text) (line : Text) : Option (List Text) :=
  if isDirective line ∨ endsStatement line = false ∨ (pending = [] ∧ isComment line) then none
  else some (pending ++ [line])

theorem ofLines_cons (i : Nat) (pending : List Text) (line : Text) (rest : List Text) :
    ofLines i pending (line :: rest) =
      ((finish? pending line).bind (ofStatement? · i)).toList ++
        ofLines (i + 1) (carry pending line) rest := by
  unfold finish? carry
  rw [ofLines]
  by_cases hd : isDirective line
  · simp [hd]
  by_cases hc : pending = [] ∧ isComment line
  · simp [hd, hc]
  by_cases he : endsStatement line
  · simp [hd, hc, he]
  · by_cases hlen : maxLines ≤ pending.length
    · simp [hd, hc, he, hlen, Nat.lt_succ_of_le hlen]
    · have hle : ¬ maxLines < pending.length + 1 := by omega
      simp [hd, hc, he, hlen, hle]

/-- Each prototype is declared by a statement that ends on one of the lines. -/
theorem mem_ofLines_iff : p ∈ ofLines i pending lines ↔
    ∃ k line statement, lines[k]? = some line ∧
      finish? ((lines.take k).foldl carry pending) line = some statement ∧
        ofStatement? statement (i + k) = some p := by
  induction lines generalizing i pending with
  | nil => simp [ofLines]
  | cons line rest ih =>
    have hshift : ∀ k, i + 1 + k = i + (k + 1) := by omega
    rw [ofLines_cons, List.mem_append, ih, Option.mem_toList, Option.bind_eq_some_iff]
    constructor
    · rintro (⟨statement, hf, hp⟩ | ⟨k, l, statement, hl, hf, hp⟩)
      · exact ⟨0, line, statement, rfl, hf, hp⟩
      · exact ⟨k + 1, l, statement, hl, hf, by rw [← hshift]; exact hp⟩
    · rintro ⟨k, l, statement, hl, hf, hp⟩
      cases k with
      | zero =>
        cases hl
        exact Or.inl ⟨statement, hf, hp⟩
      | succ k => exact Or.inr ⟨k, l, statement, hl, hf, by rw [hshift]; exact hp⟩

/-! ## What is carried from line to line -/

/-- The pending lines in front of line `i`. -/
def carried (lines : List Text) (i : Nat) : List Text := (lines.take i).foldl carry []

theorem carried_succ (hl : lines[i]? = some line) :
    carried lines (i + 1) = carry (carried lines i) line := by
  rw [carried, List.take_add_one, hl, List.foldl_append]
  rfl

/-- The `n` lines from line `first` on neither end a statement nor drop one, and the first of
them is no comment. -/
structure Run (lines : List Text) (first n : Nat) : Prop where
  le : first + n ≤ lines.length
  code : n ≠ 0 → ∀ line, lines[first]? = some line → isComment line = false
  goesOn : ∀ line ∈ (lines.drop first).take n,
    isDirective line = false ∧ endsStatement line = false

/-- No statement is open in front of line `i`. A statement that has grown too long was given up
there. -/
inductive Fresh (lines : List Text) : Nat → Prop where
  | start : Fresh lines 0
  | directive {i : Nat} {line : Text} (hl : lines[i]? = some line)
      (hd : isDirective line = true) : Fresh lines (i + 1)
  | ended {i : Nat} {line : Text} (hl : lines[i]? = some line)
      (he : endsStatement line = true) : Fresh lines (i + 1)
  | comment {i : Nat} {line : Text} (h : Fresh lines i) (hl : lines[i]? = some line)
      (hc : isComment line = true) : Fresh lines (i + 1)
  | full {i : Nat} (h : Fresh lines i) (hrun : Run lines i (maxLines + 1)) :
      Fresh lines (i + (maxLines + 1))

theorem run_zero (h : first ≤ lines.length) : Run lines first 0 :=
  ⟨h, fun h => absurd rfl h, by simp⟩

theorem run_succ_iff : Run lines first (n + 1) ↔ Run lines first n ∧
    ∃ line, lines[first + n]? = some line ∧ isDirective line = false ∧
      endsStatement line = false ∧ (n = 0 → isComment line = false) := by
  constructor
  · rintro ⟨hle, hcode, hgoes⟩
    obtain ⟨line, hl⟩ : ∃ line, lines[first + n]? = some line :=
      ⟨_, List.getElem?_eq_getElem (by omega)⟩
    have htake : (lines.drop first).take (n + 1) = (lines.drop first).take n ++ [line] := by
      rw [List.take_add_one, List.getElem?_drop, hl]
      rfl
    rw [htake] at hgoes
    obtain ⟨hd, he⟩ := hgoes line (by simp)
    refine ⟨⟨by omega, ?_, ?_⟩, line, hl, hd, he, ?_⟩
    · intro _
      exact hcode (by omega)
    · intro l hmem
      exact hgoes l (List.mem_append_left _ hmem)
    · rintro rfl
      exact hcode (by omega) line hl
  · rintro ⟨⟨hle, hcode, hgoes⟩, line, hl, hd, he, hc⟩
    have hlt := (List.getElem?_eq_some_iff.mp hl).1
    refine ⟨by omega, ?_, ?_⟩
    · intro _ l hfirst
      by_cases hn : n = 0
      · subst hn
        rw [Nat.add_zero, hfirst] at hl
        cases hl
        exact hc rfl
      · exact hcode hn l hfirst
    · intro l hmem
      rw [List.take_add_one, List.getElem?_drop, hl] at hmem
      rcases List.mem_append.mp hmem with hmem | hmem
      · exact hgoes l hmem
      · rw [Option.toList_some, List.mem_singleton] at hmem
        rw [hmem]
        exact ⟨hd, he⟩

theorem carry_of_goesOn (hd : isDirective line = false) (he : endsStatement line = false)
    (hc : pending = [] → isComment line = false) :
    carry pending line = if maxLines ≤ pending.length then [] else pending ++ [line] := by
  unfold carry
  by_cases hp : pending = []
  · simp [hd, he, hc hp]
  · simp [hd, he, hp]

theorem carried_of_run (hfirst : carried lines first = []) (hrun : Run lines first n)
    (hn : n ≤ maxLines) : carried lines (first + n) = (lines.drop first).take n := by
  induction n with
  | zero => simpa using hfirst
  | succ n ih =>
    obtain ⟨hrun, line, hl, hd, he, hc⟩ := run_succ_iff.mp hrun
    have hlen : ((lines.drop first).take n).length = n := by
      have := hrun.le
      rw [List.length_take, List.length_drop]
      omega
    have hcomment : (lines.drop first).take n = [] → isComment line = false := by
      intro hnil
      rw [hnil] at hlen
      exact hc hlen.symm
    rw [← Nat.add_assoc, carried_succ hl, ih hrun (by omega), carry_of_goesOn hd he hcomment,
      if_neg (by omega), List.take_add_one, List.getElem?_drop, hl]
    rfl

theorem carried_of_fresh (h : Fresh lines i) : carried lines i = [] := by
  induction h with
  | start => rfl
  | directive hl hd => simp [carried_succ hl, carry, hd]
  | ended hl he => simp [carried_succ hl, carry, he]
  | comment _ hl hc ih => simp [carried_succ hl, carry, hc, ih]
  | @full i _ hrun ih =>
    obtain ⟨hrun, line, hl, hd, he, -⟩ := run_succ_iff.mp hrun
    have hcarried := carried_of_run ih hrun (Nat.le_refl _)
    have hlen : maxLines ≤ ((lines.drop i).take maxLines).length := by
      have := hrun.le
      rw [List.length_take, List.length_drop]
      omega
    have hne : (lines.drop i).take maxLines = [] → isComment line = false := by
      intro hnil
      rw [hnil] at hlen
      exact absurd hlen (by decide)
    rw [← Nat.add_assoc, carried_succ hl, hcarried, carry_of_goesOn hd he hne, if_pos hlen]

theorem Fresh.of_getElem? (h : Fresh lines first) (hrun : Run lines first n) (hn : n ≤ maxLines)
    (hl : lines[first + n]? = some line) :
    ∃ first' n', first' + n' = first + n + 1 ∧ Fresh lines first' ∧ Run lines first' n' ∧
      n' ≤ maxLines := by
  have hlt := (List.getElem?_eq_some_iff.mp hl).1
  have hnew : Fresh lines (first + n + 1) → ∃ first' n', first' + n' = first + n + 1 ∧
      Fresh lines first' ∧ Run lines first' n' ∧ n' ≤ maxLines :=
    fun hf => ⟨first + n + 1, 0, rfl, hf, run_zero (by omega), Nat.zero_le _⟩
  by_cases hd : isDirective line = true
  · exact hnew (.directive hl hd)
  by_cases he : endsStatement line = true
  · exact hnew (.ended hl he)
  by_cases hc : n = 0 ∧ isComment line = true
  · obtain ⟨rfl, hc⟩ := hc
    exact hnew (.comment h hl hc)
  have hrun' : Run lines first (n + 1) :=
    run_succ_iff.mpr ⟨hrun, line, hl, by simpa using hd, by simpa using he,
      fun h0 => by simpa [h0] using hc⟩
  by_cases hfull : n = maxLines
  · subst hfull
    exact hnew (.full h hrun')
  · exact ⟨first, n + 1, rfl, h, hrun', by omega⟩

theorem Fresh.of_comments {comments rest : List Text} (h : Fresh lines i)
    (hcomments : ∀ line ∈ comments, isComment line = true)
    (hlines : lines.drop i = comments ++ rest) : Fresh lines (i + comments.length) := by
  induction comments generalizing i with
  | nil => exact h
  | cons line comments ih =>
    have hl : lines[i]? = some line := by
      rw [← Nat.add_zero i, ← List.getElem?_drop, hlines]
      rfl
    have hdrop : lines.drop (i + 1) = comments ++ rest := by
      rw [← List.drop_drop, hlines]
      rfl
    have := ih (.comment h hl (hcomments line (by simp)))
      (fun l hmem => hcomments l (List.mem_cons_of_mem _ hmem)) hdrop
    rwa [Nat.add_assoc, Nat.add_comm 1] at this

/-- The lines in front of line `i` end in a run that starts where no statement is open. -/
theorem exists_run (h : i ≤ lines.length) :
    ∃ first n, first + n = i ∧ Fresh lines first ∧ Run lines first n ∧ n ≤ maxLines := by
  induction i with
  | zero => exact ⟨0, 0, rfl, .start, run_zero h, Nat.zero_le _⟩
  | succ i ih =>
    obtain ⟨first, n, rfl, hfresh, hrun, hn⟩ := ih (by omega)
    obtain ⟨line, hl⟩ : ∃ line, lines[first + n]? = some line :=
      ⟨_, List.getElem?_eq_getElem (by omega)⟩
    exact hfresh.of_getElem? hrun hn hl

/-! ## Statements -/

/-- The lines of the span are a statement: from where none is open to the first line that ends in
a semicolon, with no preprocessor line among them. -/
structure IsStatement (lines : List Text) (s : Span) : Prop where
  fresh : Fresh lines s.first
  fits : s.Fits lines.length
  code : ∀ line, lines[s.first]? = some line → isComment line = false
  noDirective : ∀ line ∈ s.slice lines, isDirective line = false
  ends : ∀ line, lines[s.last]? = some line → endsStatement line = true
  goesOn : ∀ line ∈ (s.slice lines).dropLast, endsStatement line = false
  short : s.last - s.first ≤ maxLines

theorem isStatement_iff (hl : lines[first + n]? = some line) :
    IsStatement lines ⟨first, first + n⟩ ↔ Fresh lines first ∧ Run lines first n ∧
      n ≤ maxLines ∧ isDirective line = false ∧ endsStatement line = true ∧
        (n = 0 → isComment line = false) := by
  have hlt := (List.getElem?_eq_some_iff.mp hl).1
  have hslice : Span.slice ⟨first, first + n⟩ lines = (lines.drop first).take n ++ [line] := by
    rw [Span.slice_eq_append (Nat.le_add_right first n) hl, Nat.add_sub_cancel_left]
  constructor
  · rintro ⟨hfresh, -, hcode, hdir, hends, hgoes, hshort⟩
    rw [hslice] at hdir hgoes
    rw [List.dropLast_concat] at hgoes
    refine ⟨hfresh, ⟨by omega, fun _ => hcode, ?_⟩, by simpa using hshort, hdir line (by simp),
      hends line hl, ?_⟩
    · intro l hmem
      exact ⟨hdir l (List.mem_append_left _ hmem), hgoes l hmem⟩
    · rintro rfl
      exact hcode line hl
  · rintro ⟨hfresh, hrun, hn, hd, he, hc⟩
    refine ⟨hfresh, ⟨Nat.le_add_right first n, hlt⟩, ?_, ?_, ?_, ?_, by simpa using hn⟩
    · intro l hfirst
      by_cases h0 : n = 0
      · subst h0
        rw [Nat.add_zero, hfirst] at hl
        cases hl
        exact hc rfl
      · exact hrun.code h0 l hfirst
    · intro l hmem
      rw [hslice] at hmem
      rcases List.mem_append.mp hmem with hmem | hmem
      · exact (hrun.goesOn l hmem).1
      · rw [List.mem_singleton.mp hmem]
        exact hd
    · intro l hlast
      rw [hl] at hlast
      cases hlast
      exact he
    · intro l hmem
      rw [hslice, List.dropLast_concat] at hmem
      exact (hrun.goesOn l hmem).2

/-- A line ends a statement of the text, or none. -/
theorem finish?_carried (hl : lines[i]? = some line) :
    finish? (carried lines i) line = some statement ↔
      ∃ first, IsStatement lines ⟨first, i⟩ ∧ Span.slice ⟨first, i⟩ lines = statement := by
  have hlt := (List.getElem?_eq_some_iff.mp hl).1
  constructor
  · intro h
    obtain ⟨first, n, rfl, hfresh, hrun, hn⟩ := exists_run (Nat.le_of_lt hlt)
    rw [carried_of_run (carried_of_fresh hfresh) hrun hn] at h
    unfold finish? at h
    split_ifs at h with hskip
    simp only [not_or, not_and, Bool.not_eq_true, Bool.not_eq_false] at hskip
    obtain ⟨hd, he, hc⟩ := hskip
    refine ⟨first, (isStatement_iff hl).mpr ⟨hfresh, hrun, hn, hd, he, ?_⟩, ?_⟩
    · rintro rfl
      exact hc (by simp)
    · rw [Span.slice_eq_append (Nat.le_add_right first n) hl, Nat.add_sub_cancel_left]
      exact Option.some.inj h
  · rintro ⟨first, hstmt, rfl⟩
    obtain ⟨n, rfl⟩ : ∃ n, i = first + n := Nat.exists_eq_add_of_le hstmt.fits.1
    obtain ⟨hfresh, hrun, hn, hd, he, hc⟩ := (isStatement_iff hl).mp hstmt
    have hcomment : (lines.drop first).take n = [] → isComment line = false := by
      intro hnil
      have hlen := congrArg List.length hnil
      rw [List.length_take, List.length_drop, List.length_nil] at hlen
      exact hc (by omega)
    rw [carried_of_run (carried_of_fresh hfresh) hrun hn, finish?,
      Span.slice_eq_append (Nat.le_add_right first n) hl, Nat.add_sub_cancel_left, if_neg]
    simp only [hd, he, Bool.false_eq_true, false_or, not_and, Bool.not_eq_true, reduceCtorEq]
    exact hcomment

theorem IsStatement.eq_of_last {s s' : Span} (h : IsStatement lines s) (h' : IsStatement lines s')
    (hlast : s.last = s'.last) : s = s' := by
  obtain ⟨first, last⟩ := s
  obtain ⟨first', last'⟩ := s'
  cases hlast
  obtain ⟨line, hl⟩ : ∃ line, lines[last]? = some line :=
    ⟨_, List.getElem?_eq_getElem h.fits.2⟩
  have hslice : Span.slice ⟨first, last⟩ lines = Span.slice ⟨first', last⟩ lines :=
    Option.some.inj (((finish?_carried hl).mpr ⟨first, h, rfl⟩).symm.trans
      ((finish?_carried hl).mpr ⟨first', h', rfl⟩))
  have hlen := congrArg List.length hslice
  rw [Span.length_slice h.fits, Span.length_slice h'.fits] at hlen
  obtain ⟨hle, -⟩ := h.fits
  obtain ⟨hle', -⟩ := h'.fits
  simp only at hlen hle hle'
  simp only [Span.mk.injEq, and_true]
  omega

end Prototype

end HeaderOrder

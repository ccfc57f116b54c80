import HeaderOrder.Proofs.Definition
import HeaderOrder.Proofs.Plan
import Mathlib.Data.List.Chain

/-! # Blocks -/

namespace HeaderOrder

open Byte Text Code

namespace Definition

variable {names : List Text} {file : Text} {i : Nat}

/-! ## Lines without a definition -/

/-- Nothing is found on the line, whatever follows it. -/
def Quiet (names : List Text) (line : Text) : Prop :=
  isComment line = true ∨ ∀ n ∈ names, mentions line n = false

theorem quiet_nil : Quiet names [] := by
  right
  intro n _
  simp [mentions, occurs]

theorem ofLines_append_of_quiet (file : Text) (i : Nat) {xs : List Text}
    (h : ∀ line ∈ xs, Quiet names line) (ys : List Text) :
    ofLines names file i (xs ++ ys) = ofLines names file (i + xs.length) ys := by
  induction xs generalizing i with
  | nil => rfl
  | cons line xs ih =>
    rw [List.cons_append, ofLines, ih _ (fun l hl => h l (List.mem_cons_of_mem _ hl)),
      List.length_cons, show i + 1 + xs.length = i + (xs.length + 1) by omega]
    rcases h line (by simp) with hc | hn
    · rw [if_pos hc, List.nil_append]
    · have hfilter : names.filter (mentions line) = [] := by
        rw [List.filter_eq_nil_iff]
        intro n hmem
        simp [hn n hmem]
      simp [hfilter]

/-! ## Blocks -/

/-- The lines are a whole definition of the name. No other wanted name is mentioned on them, and
the name only on the first one. -/
def IsBlock (names : List Text) (block : Text × List Text) : Prop :=
  ∃ line body, block.2 = line :: body ∧ isComment line = false ∧
    names.filter (mentions line) = [block.1] ∧ (∀ l ∈ body, Quiet names l) ∧
      closedLength? (line :: body) = some body.length

theorem IsBlock.ne_nil {block : Text × List Text} (h : IsBlock names block) : block.2 ≠ [] := by
  obtain ⟨line, body, hb, -⟩ := h
  rw [hb]
  simp

theorem ofLines_append_of_isBlock (file : Text) (i : Nat) {block : Text × List Text}
    (h : IsBlock names block) (rest : List Text) : ofLines names file i (block.2 ++ rest) =
      ⟨block.1, i, ⟨i, i + (block.2.length - 1)⟩, file⟩ ::
        ofLines names file (i + block.2.length) rest := by
  obtain ⟨name, lines⟩ := block
  obtain ⟨line, body, hb, hcode, honly, hquiet, hclosed⟩ := h
  simp only at hb honly ⊢
  subst hb
  have hlength : bodyLength? (line :: (body ++ rest)) = some body.length := by
    apply bodyLength?_of_closedLength?
    apply closedLength?_congr hclosed
    rw [List.take_of_length_le (by simp)]
    exact List.prefix_append (line :: body) rest
  rw [List.cons_append, ofLines, if_neg (by simp [hcode]), honly,
    ofLines_append_of_quiet _ _ hquiet, List.length_cons,
    show i + 1 + body.length = i + (body.length + 1) by omega]
  simp [hlength]

/-- The definitions of blocks that stand from line `i` on, with one line between two. -/
def placed (file : Text) : Nat → List (Text × List Text) → List Definition
  | _, [] => []
  | i, block :: blocks =>
    ⟨block.1, i, ⟨i, i + (block.2.length - 1)⟩, file⟩ ::
      placed file (i + block.2.length + 1) blocks

/-- Blocks are found where they stand. -/
theorem ofLines_blocks {blocks : List (Text × List Text)} {post : List Text}
    (h : ∀ b ∈ blocks, IsBlock names b) (hpost : ∀ line ∈ post, Quiet names line) :
    ofLines names file i (List.intercalate [[]] (blocks.map (·.2)) ++ post) =
      placed file i blocks := by
  have hend : ∀ j, ofLines names file j post = [] := by
    intro j
    have := ofLines_append_of_quiet file j hpost []
    rwa [List.append_nil] at this
  induction blocks generalizing i with
  | nil => simp [placed, hend]
  | cons b blocks ih =>
    have hb := h b (by simp)
    have hbs : ∀ c ∈ blocks, IsBlock names c := fun c hc => h c (List.mem_cons_of_mem _ hc)
    rcases eq_or_ne blocks [] with rfl | hne
    · have := ofLines_append_of_isBlock file i hb post
      simpa [placed, hend] using this
    · rw [List.map_cons, List.intercalate_cons_of_ne_nil (by simpa using hne),
        List.append_assoc b.2, List.append_assoc b.2, ofLines_append_of_isBlock _ _ hb,
        List.append_assoc, ofLines_append_of_quiet _ _ (by simpa using quiet_nil), ih hbs, placed]
      rfl

/-! ## Where blocks stand -/

variable {blocks : List (Text × List Text)}

theorem map_name_placed : (placed file i blocks).map (·.name) = blocks.map (·.1) := by
  induction blocks generalizing i with
  | nil => rfl
  | cons b blocks ih => rw [placed, List.map_cons, ih, List.map_cons]

theorem of_mem_placed {d : Definition} (h : d ∈ placed file i blocks) :
    d.line = d.span.first ∧ d.file = file := by
  induction blocks generalizing i with
  | nil => simp [placed] at h
  | cons b blocks ih =>
    rcases List.mem_cons.mp h with rfl | h
    · exact ⟨rfl, rfl⟩
    · exact ih h

theorem head?_placed (hne : blocks ≠ []) :
    (placed file i blocks).head?.map (·.span.first) = some i := by
  obtain ⟨b, bs, rfl⟩ := List.exists_cons_of_ne_nil hne
  rfl

theorem isChain_placed (h : ∀ b ∈ blocks, b.2 ≠ []) :
    (placed file i blocks).IsChain fun d e => e.span.first = d.span.last + 2 := by
  induction blocks generalizing i with
  | nil => exact List.IsChain.nil
  | cons b blocks ih =>
    have hlen := List.length_pos_iff.mpr (h b (by simp))
    have ih := ih (i := i + b.2.length + 1) (fun c hc => h c (List.mem_cons_of_mem _ hc))
    cases blocks with
    | nil => exact List.IsChain.singleton _
    | cons c blocks =>
      rw [placed, placed, List.isChain_cons_cons]
      refine ⟨?_, ih⟩
      simp only
      omega

theorem map_slice_placed {pre post : List Text} (hi : pre.length = i)
    (h : ∀ b ∈ blocks, b.2 ≠ []) :
    (placed file i blocks).map (fun d => (d.name, d.span.slice
      (pre ++ List.intercalate [[]] (blocks.map (·.2)) ++ post))) = blocks := by
  induction blocks generalizing pre i with
  | nil => rfl
  | cons b blocks ih =>
    have hlen := List.length_pos_iff.mpr (h b (by simp))
    have hslice : ∀ rest, Span.slice ⟨i, i + (b.2.length - 1)⟩ (pre ++ (b.2 ++ rest)) = b.2 := by
      intro rest
      rw [Span.slice, ← hi, List.drop_left, List.take_append_of_le_length (by simp; omega),
        List.take_of_length_le (by simp; omega)]
    rcases eq_or_ne blocks [] with rfl | hne
    · have := hslice post
      simp [placed, this]
    · have hpre : (pre ++ b.2 ++ [[]]).length = i + b.2.length + 1 := by simp [hi, Nat.add_assoc]
      have ih := ih hpre (fun c hc => h c (List.mem_cons_of_mem _ hc))
      rw [List.map_cons, List.intercalate_cons_of_ne_nil (by simpa using hne), placed,
        List.map_cons]
      simp only [List.append_assoc] at ih hslice ⊢
      rw [hslice, ih]

theorem isHull_placed (hne : blocks ≠ []) (h : ∀ b ∈ blocks, b.2 ≠ []) :
    Span.IsHull ⟨i, i + (List.intercalate [[]] (blocks.map (·.2))).length - 1⟩
      ((placed file i blocks).map (·.span)) := by
  induction blocks generalizing i with
  | nil => exact absurd rfl hne
  | cons b blocks ih =>
    have hlen := List.length_pos_iff.mpr (h b (by simp))
    rcases eq_or_ne blocks [] with rfl | hbs
    · have hlast : i + (b.2.length - 1) = i + b.2.length - 1 := by omega
      simp only [placed, List.map_cons, List.map_nil, hlast]
      refine ⟨?_, ⟨_, List.mem_singleton_self _, rfl⟩, ⟨_, List.mem_singleton_self _, ?_⟩⟩
      · simp
      · simp
    · obtain ⟨hcov, -, ⟨t, ht, htl⟩⟩ := ih (i := i + b.2.length + 1) hbs
        (fun c hc => h c (List.mem_cons_of_mem _ hc))
      have hlast : (List.intercalate [[]] ((b :: blocks).map (·.2))).length =
          b.2.length + 1 + (List.intercalate [[]] (blocks.map (·.2))).length := by
        rw [List.map_cons, List.intercalate_cons_of_ne_nil (by simpa using hbs)]
        simp only [List.length_append, List.length_cons, List.length_nil]
      rw [hlast, placed, List.map_cons]
      refine ⟨?_, ⟨_, List.mem_cons_self, rfl⟩, ⟨t, List.mem_cons_of_mem _ ht, ?_⟩⟩
      · intro s hs
        rcases List.mem_cons.mp hs with rfl | hs
        · exact ⟨le_refl _, by simp only; omega⟩
        · have := hcov s hs
          simp only at this ⊢
          omega
      · simp only at htl ⊢
        omega

end Definition

end HeaderOrder

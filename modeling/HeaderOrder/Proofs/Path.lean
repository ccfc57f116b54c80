import HeaderOrder.Proofs.Lines
import HeaderOrder.Settings

/-! # Normal paths -/

namespace HeaderOrder

open Byte

theorem Text.splitOnP_intercalate {isSep : Byte → Bool} {sep : Byte} {parts : List Text}
    (hsep : isSep sep = true) (hne : parts ≠ [])
    (hparts : ∀ part ∈ parts, ∀ b ∈ part, isSep b = false) :
    ([sep].intercalate parts).splitOnP isSep = parts := by
  induction parts with
  | nil => exact absurd rfl hne
  | cons part parts ih =>
    have hpart := hparts part (by simp)
    rcases eq_or_ne parts [] with rfl | hrest
    · simpa using List.splitOnP_eq_singleton hpart
    · rw [List.intercalate_cons_of_ne_nil hrest, List.append_assoc, List.singleton_append,
        List.splitOnP_append_cons_of_forall_mem hpart sep hsep,
        ih hrest fun q hq => hparts q (List.mem_cons_of_mem _ hq)]

theorem Text.plain_of_mem_splitOnP {isSep : Byte → Bool} {part t : Text}
    (h : part ∈ t.splitOnP isSep) : ∀ b ∈ part, isSep b = false := by
  induction t generalizing part with
  | nil =>
    rw [List.splitOnP_nil, List.mem_singleton] at h
    simp [h]
  | cons b t ih =>
    rw [List.splitOnP_cons_eq_if_modifyHead] at h
    split_ifs at h with hb
    · rcases List.mem_cons.mp h with rfl | h
      · simp
      · exact ih h
    · obtain ⟨first, rest, hsplit⟩ :=
        List.exists_cons_of_ne_nil (List.splitOnP_ne_nil isSep t)
      rw [hsplit, List.modifyHead_cons] at h
      rw [hsplit] at ih
      rcases List.mem_cons.mp h with rfl | h
      · intro c hc
        rcases List.mem_cons.mp hc with rfl | hc
        · simpa using hb
        · exact ih (by simp) c hc
      · exact ih (List.mem_cons_of_mem _ h)

namespace Path

variable {rooted : Bool} {stack parts names : List Text} {part t : Text} {p : Path}

/-! ## Parts -/

/-- A part that leads down by one step. -/
structure IsName (part : Text) : Prop where
  ne_nil : part ≠ []
  ne_here : part ≠ here
  ne_above : part ≠ above
  plain : ∀ b ∈ part, isSeparator b = false

/-- The parts of a path that was read: double dots that nothing cancels, and names. -/
def Normal (p : Path) : Prop :=
  ∃ k names, p.parts = List.replicate k above ++ names ∧ (∀ n ∈ names, IsName n) ∧
    (p.rooted = true → k = 0)

/-- A part leads nowhere, up or down. -/
theorem part_cases (hpart : ∀ b ∈ part, isSeparator b = false) :
    (part = [] ∨ part = here) ∨ part = above ∨ IsName part := by
  by_cases hskip : part = [] ∨ part = here
  · exact Or.inl hskip
  by_cases habove : part = above
  · exact Or.inr (Or.inl habove)
  · rw [not_or] at hskip
    exact Or.inr (Or.inr ⟨hskip.1, hskip.2, habove, hpart⟩)

theorem enter_skip (h : part = [] ∨ part = here) : enter rooted stack part = stack := by
  unfold enter
  rw [if_pos h]

theorem enter_name (h : IsName part) : enter rooted stack part = part :: stack := by
  unfold enter
  rw [if_neg (by simp [h.ne_nil, h.ne_here]), if_neg h.ne_above]

theorem enter_above_name (h : IsName part) : enter rooted (part :: stack) above = stack := by
  have hskip : ¬ (above = [] ∨ above = here) := by decide
  simp [enter, hskip, h.ne_above]

theorem enter_above_replicate (k : Nat) :
    enter rooted (List.replicate k above) above =
      if k = 0 ∧ rooted = true then [] else List.replicate (k + 1) above := by
  have hskip : ¬ (above = [] ∨ above = here) := by decide
  cases k with
  | zero => cases rooted <;> simp [enter, hskip]
  | succ k => simp [enter, hskip, List.replicate_succ]

/-! ## Reading gives normal paths -/

def NormalStack (rooted : Bool) (stack : List Text) : Prop :=
  ∃ names k, stack = names ++ List.replicate k above ∧ (∀ n ∈ names, IsName n) ∧
    (rooted = true → k = 0)

theorem normalStack_enter (h : NormalStack rooted stack)
    (hpart : ∀ b ∈ part, isSeparator b = false) : NormalStack rooted (enter rooted stack part) := by
  obtain ⟨names, k, rfl, hnames, hk⟩ := h
  rcases part_cases hpart with hskip | rfl | hname
  · rw [enter_skip hskip]
    exact ⟨names, k, rfl, hnames, hk⟩
  -- Double dots are kept only where no name is left for them to cancel.
  · cases names with
    | nil =>
      rw [List.nil_append, enter_above_replicate]
      split_ifs with h0
      · exact ⟨[], 0, rfl, by simp, fun _ => rfl⟩
      · refine ⟨[], k + 1, rfl, by simp, ?_⟩
        intro hr
        exact absurd ⟨hk hr, hr⟩ h0
    | cons n names =>
      rw [List.cons_append, enter_above_name (hnames n (by simp))]
      exact ⟨names, k, rfl, fun m hm => hnames m (List.mem_cons_of_mem _ hm), hk⟩
  · rw [enter_name hname]
    refine ⟨part :: names, k, rfl, ?_, hk⟩
    simpa [hname] using hnames

theorem normalStack_foldl (h : NormalStack rooted stack)
    (hparts : ∀ part ∈ parts, ∀ b ∈ part, isSeparator b = false) :
    NormalStack rooted (parts.foldl (enter rooted) stack) := by
  induction parts generalizing stack with
  | nil => exact h
  | cons part parts ih =>
    exact ih (normalStack_enter h (hparts part (by simp)))
      fun q hq => hparts q (List.mem_cons_of_mem _ hq)

theorem normal_ofText (t : Text) : (ofText t).Normal := by
  have hempty : NormalStack (isRooted t) [] := ⟨[], 0, rfl, by simp, fun _ => rfl⟩
  obtain ⟨names, k, hstack, hnames, hk⟩ :=
    normalStack_foldl hempty fun part hpart => Text.plain_of_mem_splitOnP (t := t) hpart
  refine ⟨k, names.reverse, ?_, by simpa using hnames, hk⟩
  rw [ofText, hstack]
  simp

/-! ## The text of a normal path -/

theorem foldl_enter_names (h : ∀ n ∈ names, IsName n) :
    names.foldl (enter rooted) stack = names.reverse ++ stack := by
  induction names generalizing stack with
  | nil => rfl
  | cons n names ih =>
    rw [List.foldl_cons, enter_name (h n (by simp)), ih fun m hm => h m (List.mem_cons_of_mem _ hm)]
    simp

theorem foldl_enter_replicate (k : Nat) :
    (List.replicate k above).foldl (enter false) [] = List.replicate k above := by
  induction k with
  | zero => rfl
  | succ k ih =>
    rw [List.replicate_succ', List.foldl_append, ih, List.foldl_cons, List.foldl_nil,
      enter_above_replicate, if_neg (by simp), List.replicate_succ']

theorem Normal.plain (h : p.Normal) : ∀ part ∈ p.parts, part ≠ [] ∧
    ∀ b ∈ part, isSeparator b = false := by
  obtain ⟨k, names, hparts, hnames, -⟩ := h
  intro part hpart
  rw [hparts] at hpart
  have habove : above.all (fun b => !isSeparator b) = true := by decide
  rcases List.mem_append.mp hpart with hm | hm
  · rw [List.eq_of_mem_replicate hm]
    exact ⟨by decide, fun b hb => by simpa using List.all_eq_true.mp habove b hb⟩
  · exact ⟨(hnames part hm).ne_nil, (hnames part hm).plain⟩

theorem Normal.foldl_enter (h : p.Normal) :
    p.parts.foldl (enter p.rooted) [] = p.parts.reverse := by
  obtain ⟨k, names, hparts, hnames, hk⟩ := h
  rw [hparts, List.foldl_append, foldl_enter_names hnames]
  cases hr : p.rooted with
  | true => simp [hk hr]
  | false => rw [foldl_enter_replicate]; simp

/-- The text of a normal path reads as that path. -/
theorem ofText_toText (h : p.Normal) : ofText p.toText = p := by
  have hplain := h.plain
  have hfold := h.foldl_enter
  obtain ⟨rooted, parts⟩ := p
  simp only at hplain hfold
  have hsplit : ∀ q ≠ [], q = parts → ([slash].intercalate q).splitOnP isSeparator = q := by
    rintro q hq rfl
    exact Text.splitOnP_intercalate (by decide) hq fun part hpart => (hplain part hpart).2
  cases rooted with
  | true =>
    have hroot : isRooted (slash :: [slash].intercalate parts) = true := by
      simp [isRooted, isSeparator]
    rcases eq_or_ne parts [] with rfl | hne
    · decide
    · rw [toText, if_pos rfl, ofText, hroot, List.splitOnP_cons_eq_if_modifyHead,
        if_pos (by decide), hsplit parts hne rfl, List.foldl_cons]
      simp [enter, hfold]
  | false =>
    rcases eq_or_ne parts [] with rfl | hne
    · decide
    · have hroot : isRooted ([slash].intercalate parts) = false := by
        obtain ⟨part, rest, rfl⟩ := List.exists_cons_of_ne_nil hne
        obtain ⟨hpart, hsep⟩ := hplain part (by simp)
        obtain ⟨b, part, rfl⟩ := List.exists_cons_of_ne_nil hpart
        have hb := hsep b (by simp)
        cases rest <;> simp [isRooted, List.intercalate, hb]
      rw [toText, if_neg (by simp), if_neg hne, ofText, hroot, hsplit parts hne rfl, hfold]
      simp

theorem getLast?_toText (hne : p.parts ≠ [])
    (hplain : ∀ part ∈ p.parts, part ≠ [] ∧ ∀ b ∈ part, isSeparator b = false) :
    p.toText.getLast? ≠ some slash := by
  obtain ⟨rooted, parts⟩ := p
  obtain ⟨init, last, rfl⟩ : ∃ init last, parts = init ++ [last] :=
    ⟨_, _, (List.dropLast_concat_getLast hne).symm⟩
  obtain ⟨hlast, hsep⟩ := hplain last (by simp)
  have hjoined : ∃ before, [slash].intercalate (init ++ [last]) = before ++ last := by
    rcases eq_or_ne init [] with rfl | hinit
    · exact ⟨[], by simp⟩
    · exact ⟨[slash].intercalate init ++ [slash], by
        rw [Text.intercalate_append hinit (by simp)]; simp⟩
  obtain ⟨before, hbefore⟩ := hjoined
  have htext : ∃ before, toText ⟨rooted, init ++ [last]⟩ = before ++ last := by
    have hnil : init ++ [last] ≠ [] := by simp
    unfold toText
    cases rooted with
    | true => exact ⟨slash :: before, by simp [hbefore]⟩
    | false => exact ⟨before, by simp [hbefore, hnil]⟩
  obtain ⟨before, hbefore⟩ := htext
  rw [hbefore, List.getLast?_append_of_ne_nil _ hlast]
  intro heq
  exact absurd (hsep slash (List.mem_of_getLast? heq)) (by decide)

theorem normalize_normalize (t : Text) : normalize (normalize t) = normalize t := by
  rw [normalize, normalize, ofText_toText (normal_ofText t)]

theorem extension_normalize (t : Text) : extension (normalize t) = extension t := by
  rw [extension, normalize_normalize, ← extension]

/-! ## Paths from the root -/

theorem isAbsolute_append {path : Text} (hne : path ≠ []) (suffix : Text) :
    isAbsolute (path ++ suffix) = isAbsolute path := by
  obtain ⟨b, path, rfl⟩ := List.exists_cons_of_ne_nil hne
  rfl

theorem isRooted_of_isAbsolute (h : isAbsolute t = true) : isRooted t = true := by
  cases t with
  | nil => cases h
  | cons b t =>
    have hb : b = slash := by simpa [isAbsolute] using h
    rw [hb]
    rfl

theorem isAbsolute_toText (h : p.Normal) : isAbsolute p.toText = p.rooted := by
  have hread := congrArg Path.rooted (ofText_toText h)
  cases hrooted : p.rooted with
  | true =>
    unfold toText
    rw [if_pos hrooted]
    rfl
  | false =>
    rw [hrooted] at hread
    cases habs : isAbsolute p.toText with
    | true => exact (isRooted_of_isAbsolute habs).symm.trans hread
    | false => rfl

theorem isAbsolute_normalize_eq (t : Text) : isAbsolute (normalize t) = isRooted t :=
  isAbsolute_toText (normal_ofText t)

theorem isAbsolute_normalize (h : isAbsolute t = true) : isAbsolute (normalize t) = true := by
  rw [isAbsolute_normalize_eq, isRooted_of_isAbsolute h]

theorem isAbsolute_absolute {dir : Text} (h : isAbsolute dir = true) (path : Text) :
    isAbsolute (absolute dir path) = true := by
  unfold absolute
  split_ifs with hpath
  · exact hpath
  · have hne : dir ≠ [] := by
      rintro rfl
      cases h
    unfold join
    split_ifs
    · rw [isAbsolute_append hne, h]
    · rw [isAbsolute_append hne, h]

/-- The text of the path that leads from the root through the names. -/
def rootedText (names : List Text) : Text := (⟨true, names⟩ : Path).toText

theorem exists_rootedText (h : isAbsolute t = true) :
    ∃ names, normalize t = rootedText names ∧ ∀ n ∈ names, IsName n := by
  obtain ⟨k, names, hparts, hnames, hk⟩ := normal_ofText t
  have hrooted : (ofText t).rooted = true := isRooted_of_isAbsolute h
  rw [hk hrooted, List.replicate_zero, List.nil_append] at hparts
  refine ⟨names, ?_, hnames⟩
  rw [normalize, rootedText, ← hparts, ← hrooted]

theorem ofText_rootedText (h : ∀ n ∈ names, IsName n) : ofText (rootedText names) = ⟨true, names⟩ :=
  ofText_toText ⟨0, names, rfl, h, fun _ => rfl⟩

theorem normalize_rootedText (h : ∀ n ∈ names, IsName n) :
    normalize (rootedText names) = rootedText names := by
  rw [normalize, ofText_rootedText h, rootedText]

theorem rootedText_inj {names' : List Text} (h : ∀ n ∈ names, IsName n)
    (h' : ∀ n ∈ names', IsName n) (heq : rootedText names = rootedText names') :
    names = names' := by
  have := ofText_rootedText h
  rw [heq, ofText_rootedText h'] at this
  exact (Path.mk.inj this).2.symm

theorem rootedText_append {below : List Text} (hnames : names ≠ []) (hbelow : below ≠ []) :
    rootedText (names ++ below) = rootedText names ++ slash :: [slash].intercalate below := by
  unfold rootedText toText
  rw [if_pos rfl, if_pos rfl]
  simp only
  rw [Text.intercalate_append hnames hbelow, List.append_assoc]
  rfl

theorem getLast?_rootedText (hne : names ≠ []) (h : ∀ n ∈ names, IsName n) :
    (rootedText names).getLast? ≠ some slash :=
  getLast?_toText (p := ⟨true, names⟩) hne fun n hn => ⟨(h n hn).ne_nil, (h n hn).plain⟩

theorem join_rootedText {below : List Text} (h : ∀ n ∈ names, IsName n) (hbelow : below ≠ []) :
    join (rootedText names) ([slash].intercalate below) = rootedText (names ++ below) := by
  unfold join
  rcases eq_or_ne names [] with rfl | hne
  · rfl
  · rw [if_neg (getLast?_rootedText hne h), rootedText_append hne hbelow]

theorem relativeTo_rootedText {below : List Text} (h : ∀ n ∈ names ++ below, IsName n)
    (hbelow : below ≠ []) :
    relativeTo (rootedText (names ++ below)) (rootedText names) = [slash].intercalate below := by
  have hnames : ∀ n ∈ names, IsName n := fun n hn => h n (List.mem_append_left _ hn)
  have hne : rootedText (names ++ below) ≠ rootedText names := by
    intro heq
    exact hbelow (List.append_right_eq_self.mp (rootedText_inj h hnames heq))
  have hhere : rootedText names ≠ here := by
    intro heq
    cases heq
  unfold relativeTo
  rw [normalize_rootedText h, normalize_rootedText hnames]
  simp only
  rw [if_neg hhere, if_neg hne]
  rcases eq_or_ne names [] with rfl | hnil
  · rfl
  · have hroot : rootedText names ≠ [slash] := by
      intro heq
      exact getLast?_rootedText hnil hnames (by rw [heq]; rfl)
    have hpre : (rootedText names ++ [slash]).isPrefixOf? (rootedText (names ++ below)) =
        some ([slash].intercalate below) := by
      rw [List.isPrefixOf?_eq_some_iff_append_eq, rootedText_append hnil hbelow]
      simp
    rw [if_neg hroot, hpre]
    rfl

theorem isAbsolute_intercalate {below : List Text} (h : ∀ n ∈ below, IsName n) (hne : below ≠ []) :
    isAbsolute ([slash].intercalate below) = false := by
  obtain ⟨name, rest, rfl⟩ := List.exists_cons_of_ne_nil hne
  obtain ⟨b, name, rfl⟩ := List.exists_cons_of_ne_nil (h name (by simp)).ne_nil
  have hb : b ≠ slash := by
    rintro rfl
    exact absurd ((h (slash :: name) (by simp)).plain slash List.mem_cons_self) (by decide)
  cases rest <;> simp [isAbsolute, List.intercalate, hb]

end Path

theorem Settings.isHeader_normalize (s : Settings) (path : Text) :
    s.isHeader (Path.normalize path) = s.isHeader path := by
  rw [isHeader, Path.extension_normalize, ← isHeader]

end HeaderOrder

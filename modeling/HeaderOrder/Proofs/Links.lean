import HeaderOrder.Disk.FileTree
import Mathlib.Data.List.Basic

/-!
# Where paths lead

A path is followed part by part, and a link on the way takes the place of its part.
-/

namespace HeaderOrder

open Byte

namespace FileTree

variable {t t' : FileTree} {links links' : Nat} {dir names place place' next top : List Text}
  {part path target : Text} {parts front rest : List Text}

/-! ## One part -/

theorem directory_of_enter? (h : t.enter? names part = some place) :
    t.entryAt? names = some .directory := by
  unfold enter? at h
  split_ifs at h with hstay <;> exact by_contra fun hne => hstay (.inl hne)

theorem enter?_cases (h : t.enter? names part = some place) :
    t.entryAt? place = some .directory ∧ place.length ≤ names.length ∨ place = names ++ [part] := by
  have hdir := directory_of_enter? h
  unfold enter? at h
  split_ifs at h with _ _ _ habove
  · rw [← Option.some.inj h]
    exact .inl ⟨hdir, Nat.le_refl _⟩
  · rw [← Option.some.inj h]
    exact .inl ⟨habove, (List.dropLast_sublist names).length_le⟩
  · exact .inr (Option.some.inj h).symm

theorem eq_append_of_enter? (h : t.enter? names part = some place)
    (hplace : t.entryAt? place ≠ some .directory) : place = names ++ [part] :=
  (enter?_cases h).resolve_left fun hdir => hplace hdir.1

/-! ## All parts -/

/-- Goes on behind a part that has led to a place. -/
def pass (t : FileTree) (links : Nat) (names place : List Text) (parts : List Text) :
    Option (List Text) :=
  match t.entryAt? place, links with
  | some (.link _), 0 => none
  | some (.link target), links + 1 =>
    t.follow links (start names target) (target.splitOn slash ++ parts)
  | _, _ => t.follow links place parts

@[simp] theorem follow_nil (t : FileTree) (links : Nat) (names : List Text) :
    t.follow links names [] = some names := by
  cases links <;> rfl

theorem follow_cons (t : FileTree) (links : Nat) (names : List Text) (part : Text)
    (parts : List Text) : t.follow links names (part :: parts) =
      (t.enter? names part).bind fun place => t.pass links names place parts := by
  cases links
  all_goals
    rw [follow, advance]
    cases t.enter? names part with
    | none => rfl
    | some place =>
      unfold pass
      dsimp only [Option.bind_some]
      split <;> simp_all [follow]

theorem pass_eq_some_iff : t.pass links names next parts = some place ↔
    (∀ target, t.entryAt? next ≠ some (.link target)) ∧ t.follow links next parts = some place ∨
    ∃ links' target, links = links' + 1 ∧ t.entryAt? next = some (.link target) ∧
      t.follow links' (start names target) (target.splitOn slash ++ parts) = some place := by
  unfold pass
  cases t.entryAt? next with
  | none => simp
  | some entry =>
    cases entry with
    | directory => simp
    | file id => simp
    | link target => cases links <;> simp

theorem follow_cons_eq_some_iff : t.follow links names (part :: parts) = some place ↔
    ∃ next, t.enter? names part = some next ∧ t.pass links names next parts = some place := by
  rw [follow_cons, Option.bind_eq_some_iff]

/-- On the number of links, and for each number on the parts. -/
theorem follow_induction {motive : Nat → List Text → List Text → Prop}
    (nil : ∀ links names, motive links names [])
    (cons : ∀ links names part parts, (∀ place, motive links place parts) →
      (∀ links' names parts, links = links' + 1 → motive links' names parts) →
      motive links names (part :: parts))
    (links : Nat) (names parts : List Text) : motive links names parts := by
  induction links generalizing names parts with
  | zero =>
    induction parts generalizing names with
    | nil => exact nil _ _
    | cons part parts ih => exact cons _ _ _ _ ih fun _ _ _ h => absurd h (Nat.succ_ne_zero _).symm
  | succ links ihLinks =>
    induction parts generalizing names with
    | nil => exact nil _ _
    | cons part parts ih =>
      refine cons _ _ _ _ ih ?_
      intro links' names parts h
      obtain rfl : links = links' := Nat.succ_inj.mp h
      exact ihLinks names parts

theorem follow_append (h : t.follow links names (front ++ part :: rest) = some place) :
    ∃ links' dir next, t.follow links names front = some dir ∧ t.enter? dir part = some next ∧
      t.pass links' dir next rest = some place := by
  induction links, names, front using follow_induction with
  | nil links names =>
    obtain ⟨next, hnext, h⟩ := follow_cons_eq_some_iff.mp h
    exact ⟨links, names, next, follow_nil t links names, hnext, h⟩
  | cons links names first front ih ihLink =>
    obtain ⟨via, hvia, h⟩ := follow_cons_eq_some_iff.mp h
    rcases pass_eq_some_iff.mp h with ⟨hplain, h⟩ | ⟨links, target, rfl, hlink, h⟩
    · obtain ⟨links', dir, next, hdir, hnext⟩ := ih via h
      exact ⟨links', dir, next, follow_cons_eq_some_iff.mpr
        ⟨via, hvia, pass_eq_some_iff.mpr (.inl ⟨hplain, hdir⟩)⟩, hnext⟩
    · rw [List.append_eq, ← List.append_assoc] at h
      obtain ⟨links', dir, next, hdir, hnext⟩ := ihLink links _ _ rfl h
      exact ⟨links', dir, next, follow_cons_eq_some_iff.mpr
        ⟨via, hvia, pass_eq_some_iff.mpr (.inr ⟨links, target, rfl, hlink, hdir⟩)⟩, hnext⟩

theorem follow_concat (hdir : t.follow links names front = some dir)
    (hpart : t.enter? dir part = some place)
    (hplain : ∀ target, t.entryAt? place ≠ some (.link target)) :
    t.follow links names (front ++ [part]) = some place := by
  induction links, names, front using follow_induction with
  | nil links names =>
    rw [follow_nil, Option.some.injEq] at hdir
    refine follow_cons_eq_some_iff.mpr ⟨place, hdir ▸ hpart, ?_⟩
    exact pass_eq_some_iff.mpr (.inl ⟨hplain, follow_nil t links place⟩)
  | cons links names first front ih ihLink =>
    obtain ⟨via, hvia, hdir⟩ := follow_cons_eq_some_iff.mp hdir
    refine follow_cons_eq_some_iff.mpr ⟨via, hvia, pass_eq_some_iff.mpr ?_⟩
    rcases pass_eq_some_iff.mp hdir with ⟨hne, hdir⟩ | ⟨links, target, rfl, hlink, hdir⟩
    · exact .inl ⟨hne, ih via hdir⟩
    · refine .inr ⟨links, target, rfl, hlink, ?_⟩
      rw [List.append_eq, ← List.append_assoc]
      exact ihLink links _ _ rfl hdir

theorem follow_succ (h : t.follow links names parts = some place) :
    t.follow (links + 1) names parts = some place := by
  induction links, names, parts using follow_induction with
  | nil links names => rwa [follow_nil] at h ⊢
  | cons links names part parts ih ihLink =>
    obtain ⟨via, hvia, h⟩ := follow_cons_eq_some_iff.mp h
    refine follow_cons_eq_some_iff.mpr ⟨via, hvia, pass_eq_some_iff.mpr ?_⟩
    rcases pass_eq_some_iff.mp h with ⟨hne, h⟩ | ⟨links, target, rfl, hlink, h⟩
    · exact .inl ⟨hne, ih via h⟩
    · exact .inr ⟨links + 1, target, rfl, hlink, ihLink links _ _ rfl h⟩

/-- The number of links that may be followed does not tell where a path leads. -/
theorem follow_unique (h : t.follow links names parts = some place)
    (h' : t.follow links' names parts = some place') : place = place' := by
  have hmore : ∀ {links place} n, t.follow links names parts = some place →
      t.follow (links + n) names parts = some place := by
    intro links place n h
    induction n with
    | zero => exact h
    | succ n ih => exact follow_succ ih
  have hsum := hmore links' h
  rw [Nat.add_comm, hmore links h'] at hsum
  exact (Option.some.inj hsum).symm

theorem ne_link_of_follow (h : t.follow links names parts = some place)
    (hnames : ∀ target, t.entryAt? names ≠ some (.link target)) :
    ∀ target, t.entryAt? place ≠ some (.link target) := by
  induction links, names, parts using follow_induction with
  | nil links names =>
    rw [follow_nil, Option.some.injEq] at h
    exact h ▸ hnames
  | cons links names part parts ih ihLink =>
    obtain ⟨via, hvia, h⟩ := follow_cons_eq_some_iff.mp h
    rcases pass_eq_some_iff.mp h with ⟨hplain, h⟩ | ⟨links, target, rfl, -, h⟩
    · exact ih via h hplain
    · refine ihLink links _ _ rfl h ?_
      have hdir := directory_of_enter? hvia
      unfold start
      split_ifs
      · simp [entryAt?]
      · simp [hdir]

/-! ## Other trees -/

/-- What leads on from a place: a directory or a link. -/
def way? (t : FileTree) (names : List Text) : Option DirEntry :=
  (t.entryAt? names).filter fun
    | .file _ => false
    | _ => true

theorem way?_eq_directory_iff :
    t.way? names = some .directory ↔ t.entryAt? names = some .directory := by
  simp [way?, Option.filter_eq_some_iff]

theorem way?_eq_link_iff :
    t.way? names = some (.link target) ↔ t.entryAt? names = some (.link target) := by
  simp [way?, Option.filter_eq_some_iff]

/-- No directory is at the place, and no link there leads to one. -/
structure IsEnd (t : FileTree) (top : List Text) : Prop where
  ne_directory : t.entryAt? top ≠ some .directory
  ne_of_link : ∀ target links place, t.entryAt? top = some (.link target) →
    t.follow links (start top.dropLast target) (target.splitOn slash) = some place →
      t.entryAt? place ≠ some .directory

section Ways

variable (hend : t.IsEnd top) (hways : ∀ names, names ≠ top → t'.way? names = t.way? names)

include hend hways

theorem enter?_of_ways (h : t.enter? names part = some place) :
    t'.enter? names part = some place := by
  have hdirectory : ∀ {names}, t.entryAt? names = some .directory →
      t'.entryAt? names = some .directory := by
    intro names hnames
    have hne : names ≠ top := by
      rintro rfl
      exact hend.ne_directory hnames
    rwa [← way?_eq_directory_iff, hways names hne, way?_eq_directory_iff]
  have hdir := hdirectory (directory_of_enter? h)
  unfold enter? at h ⊢
  split_ifs at h with hstay hhere habove hup
  all_goals
    have hstay' : ¬ (t'.entryAt? names ≠ some .directory ∨ maxName < part.length) :=
      fun h => h.elim (· hdir) fun hlong => hstay (.inr hlong)
  · rwa [if_neg hstay', if_pos hhere]
  · rwa [if_neg hstay', if_neg hhere, if_pos habove, if_pos (hdirectory hup)]
  · rwa [if_neg hstay', if_neg hhere, if_neg habove]

/-- A change at a place that leads to no directory changes no way to a directory. -/
theorem follow_of_ways (h : t.follow links names parts = some place)
    (hplace : t.entryAt? place = some .directory) : t'.follow links names parts = some place := by
  induction links, names, parts using follow_induction with
  | nil links names => rwa [follow_nil] at h ⊢
  | cons links names part parts ih ihLink =>
    obtain ⟨via, hvia, h⟩ := follow_cons_eq_some_iff.mp h
    refine follow_cons_eq_some_iff.mpr
      ⟨via, enter?_of_ways hend hways hvia, pass_eq_some_iff.mpr ?_⟩
    rcases pass_eq_some_iff.mp h with ⟨hplain, h⟩ | ⟨links, target, rfl, hlink, h⟩
    · have hne : via ≠ top := by
        rintro rfl
        cases parts with
        | nil =>
          rw [follow_nil, Option.some.injEq] at h
          exact hend.ne_directory (h ▸ hplace)
        | cons part parts =>
          obtain ⟨_, hpart, -⟩ := follow_cons_eq_some_iff.mp h
          exact hend.ne_directory (directory_of_enter? hpart)
      refine .inl ⟨fun target => ?_, ih via h⟩
      rw [ne_eq, ← way?_eq_link_iff, hways via hne, way?_eq_link_iff]
      exact hplain target
    · have hne : via ≠ top := by
        rintro rfl
        have hnames := eq_append_of_enter? hvia hend.ne_directory
        have hlast : via.dropLast = names := by rw [hnames, List.dropLast_concat]
        -- The link leads to a directory, since the path goes on from there or ends there.
        cases parts with
        | nil =>
          rw [List.append_nil, ← hlast] at h
          exact hend.ne_of_link target links place hlink h hplace
        | cons part parts =>
          obtain ⟨_, middle, _, hmiddle, hpart, -⟩ := follow_append h
          rw [← hlast] at hmiddle
          exact hend.ne_of_link target links middle hlink hmiddle (directory_of_enter? hpart)
      refine .inr ⟨links, target, rfl, ?_, ihLink links _ _ rfl h⟩
      rw [← way?_eq_link_iff, hways via hne, way?_eq_link_iff]
      exact hlink

end Ways

end FileTree

end HeaderOrder

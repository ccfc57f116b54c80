import HeaderOrder.Proofs.Definition
import HeaderOrder.Search

/-! # Numbers of files -/

namespace HeaderOrder

/-! ## Known files -/

namespace FileIndex

variable {ix ix' : FileIndex} {path spelled : Text} {id : Nat} {added : List Text}

theorem find_ne_zero_iff : ix.find path ≠ 0 ↔ Path.normalize path ∈ ix.paths := by
  rw [find, ← List.isSome_idxOf?]
  cases ix.paths.idxOf? (Path.normalize path) <;> simp

theorem path_find (h : Path.normalize path ∈ ix.paths) :
    ix.path (ix.find path) = Path.normalize path := by
  obtain ⟨i, hi⟩ := Option.isSome_iff_exists.mp (List.isSome_idxOf?.mpr h)
  obtain ⟨hlt, hget, -⟩ := List.findIdx?_eq_some_iff_getElem.mp hi
  have hpath : ix.paths[i] = Path.normalize path := by simpa using hget
  simp [find, hi, FileIndex.path, hlt, hpath]

theorem find_eq_find_iff (hmem : Path.normalize path ∈ ix.paths) :
    ix.find path = ix.find spelled ↔ Path.normalize path = Path.normalize spelled := by
  constructor
  · intro h
    have hspelled := find_ne_zero_iff.mp (h ▸ find_ne_zero_iff.mpr hmem)
    rw [← path_find hmem, h, path_find hspelled]
  · intro h
    rw [find, find, h]

theorem path_eq_nil (h : id = 0 ∨ ix.size < id) : ix.path id = [] := by
  unfold FileIndex.path size at *
  rcases h with rfl | h
  · rfl
  · rw [if_neg (by omega), List.getElem?_eq_none (by omega)]
    rfl

theorem find_le_size (ix : FileIndex) (path : Text) : ix.find path ≤ ix.size := by
  rw [find]
  cases hi : ix.paths.idxOf? (Path.normalize path) with
  | none => exact Nat.zero_le _
  | some i => exact (List.findIdx?_eq_some_iff_getElem.mp hi).1

/-! ## Added files -/

theorem prefix_add (ix : FileIndex) (path : Text) : ix.paths <+: (ix.add path).2.paths := by
  unfold add
  split
  · exact List.prefix_refl _
  · exact List.prefix_append _ _

theorem mem_paths_add {file : Text} :
    file ∈ (ix.add path).2.paths ↔ file ∈ ix.paths ∨ Path.normalize path = file := by
  unfold add
  split
  next i hi =>
    have hmem : Path.normalize path ∈ ix.paths := by
      rw [← List.isSome_idxOf?, hi]
      rfl
    simp only [iff_self_or]
    rintro rfl
    exact hmem
  next => simp [eq_comm]

theorem mem_add (ix : FileIndex) (path : Text) :
    Path.normalize path ∈ (ix.add path).2.paths := mem_paths_add.mpr (.inr rfl)

theorem path_of_prefix (h : ix.paths <+: ix'.paths) (hid : id ≤ ix.size) :
    ix'.path id = ix.path id := by
  unfold FileIndex.path size at *
  split_ifs with hzero
  · rfl
  · obtain ⟨rest, hrest⟩ := h
    rw [← hrest, List.getElem?_append_left (by omega)]

theorem find_of_prefix (h : ix.paths <+: ix'.paths) (hmem : Path.normalize path ∈ ix.paths) :
    ix'.find path = ix.find path := by
  obtain ⟨i, hi⟩ := Option.isSome_iff_exists.mp (List.isSome_idxOf?.mpr hmem)
  obtain ⟨rest, hrest⟩ := h
  have hi' : ix'.paths.idxOf? (Path.normalize path) = some i := by
    unfold List.idxOf? at hi ⊢
    rw [← hrest, List.findIdx?_append, hi, Option.some_or]
  rw [find, find, hi, hi']

theorem find_add (ix : FileIndex) (path : Text) : (ix.add path).2.find path = (ix.add path).1 := by
  unfold add
  split
  next i hi => simp [find, hi]
  next hnone =>
    unfold List.idxOf? at hnone
    simp [find, List.idxOf?, List.findIdx?_append, hnone, size]

theorem path_add (ix : FileIndex) (path : Text) :
    (ix.add path).1 ≤ (ix.add path).2.size ∧
      (ix.add path).2.path (ix.add path).1 = Path.normalize path := by
  rw [← find_add]
  exact ⟨find_le_size _ path, path_find (ix.mem_add path)⟩

theorem nodup_add (h : ix.paths.Nodup) (path : Text) : (ix.add path).2.paths.Nodup := by
  unfold add
  split
  next => exact h
  next hnone =>
    have hnew : Path.normalize path ∉ ix.paths := by
      rw [← List.isSome_idxOf?, hnone]
      simp
    rw [List.nodup_append]
    refine ⟨h, by simp, ?_⟩
    rintro file hfile new hmem rfl
    rw [List.mem_singleton.mp hmem] at hfile
    exact hnew hfile

/-! ## Files that are added one after another -/

def addAll : FileIndex → List Text → List Nat × FileIndex
  | ix, [] => ([], ix)
  | ix, path :: rest =>
    let (number, ix) := ix.add path
    let (later, ix) := ix.addAll rest
    (number :: later, ix)

theorem addAll_cons (ix : FileIndex) (path : Text) (rest : List Text) :
    ix.addAll (path :: rest) =
      ((ix.add path).1 :: ((ix.add path).2.addAll rest).1, ((ix.add path).2.addAll rest).2) := rfl

theorem prefix_addAll (ix : FileIndex) (added : List Text) :
    ix.paths <+: (ix.addAll added).2.paths := by
  induction added generalizing ix with
  | nil => exact List.prefix_refl _
  | cons path rest ih => exact (ix.prefix_add path).trans (ih _)

theorem mem_paths_addAll {file : Text} : file ∈ (ix.addAll added).2.paths ↔
    file ∈ ix.paths ∨ ∃ path ∈ added, Path.normalize path = file := by
  induction added generalizing ix with
  | nil => simp [addAll]
  | cons path rest ih => rw [addAll_cons, ih, mem_paths_add, or_assoc, List.exists_mem_cons_iff]

theorem nodup_addAll (h : ix.paths.Nodup) (added : List Text) :
    (ix.addAll added).2.paths.Nodup := by
  induction added generalizing ix with
  | nil => exact h
  | cons path rest ih => exact ih (nodup_add h path)

/-- Each file has got the number that it is found under in the end. -/
theorem numbers_eq_map (ix : FileIndex) (added : List Text) :
    (ix.addAll added).1 = added.map (ix.addAll added).2.find := by
  induction added generalizing ix with
  | nil => rfl
  | cons path rest ih =>
    have hkept := find_of_prefix (prefix_addAll (ix.add path).2 rest) (ix.mem_add path)
    rw [addAll_cons, List.map_cons, hkept, find_add, ih]

/-- The index knows the files that were added, each of them once. -/
structure Knows (added : List Text) (ix : FileIndex) : Prop where
  nodup : ix.paths.Nodup
  mem_iff : ∀ file, file ∈ ix.paths ↔ ∃ path ∈ added, Path.normalize path = file

theorem knows_addAll (added : List Text) : Knows added (addAll {} added).2 where
  nodup := nodup_addAll List.nodup_nil added
  mem_iff file := by
    rw [mem_paths_addAll]
    simp

namespace Knows

theorem mem_paths (h : Knows added ix) (hpath : path ∈ added) : Path.normalize path ∈ ix.paths :=
  (h.mem_iff _).mpr ⟨path, hpath, rfl⟩

theorem mem_numbers_iff (h : Knows added ix) :
    id ∈ added.map ix.find ↔ 0 < id ∧ id ≤ ix.size := by
  rw [List.mem_map]
  constructor
  · rintro ⟨path, hpath, rfl⟩
    exact ⟨Nat.pos_of_ne_zero (find_ne_zero_iff.mpr (h.mem_paths hpath)), find_le_size ix path⟩
  · rintro ⟨hpos, hle⟩
    obtain ⟨i, rfl⟩ := Nat.exists_eq_add_of_le' hpos
    obtain ⟨path, hpath, hfile⟩ := (h.mem_iff _).mp (List.getElem_mem hle)
    refine ⟨path, hpath, ?_⟩
    -- The path stands at one place only.
    have hidx : ix.paths.idxOf? (Path.normalize path) = some i := by
      rw [List.idxOf?_eq_some_iff]
      refine ⟨hle, hfile.symm, ?_⟩
      intro j hj hget
      have := (List.getElem_inj h.nodup).mp (hget.trans hfile)
      omega
    rw [find, hidx]
    rfl

theorem size_eq (h : Knows added ix) :
    ix.size = (added.map Path.normalize).eraseDups.length := by
  apply List.Perm.length_eq
  rw [List.perm_ext_iff_of_nodup h.nodup (Prototype.nodup_eraseDups _)]
  intro file
  rw [h.mem_iff, List.mem_eraseDups, List.mem_map]

end Knows

end FileIndex

/-! ## Files that a search has skipped -/

namespace Findings

theorem locate_eq_addAll (skipped : List (Text × AccessError)) (files : FileIndex) :
    locate skipped files =
      (List.zipWith (fun skip file => warning skip.2 { file }) skipped
        (files.addAll (skipped.map (·.1))).1, (files.addAll (skipped.map (·.1))).2) := by
  induction skipped generalizing files with
  | nil => rfl
  | cons first skipped ih =>
    obtain ⟨path, e⟩ := first
    simp only [locate, ih, List.map_cons, FileIndex.addAll_cons, List.zipWith_cons_cons]

theorem prefix_locate (skipped : List (Text × AccessError)) (files : FileIndex) :
    files.paths <+: (locate skipped files).2.paths := by
  rw [locate_eq_addAll]
  exact FileIndex.prefix_addAll files _

theorem mem_paths_locate {skipped : List (Text × AccessError)} {files : FileIndex} {file : Text} :
    file ∈ (locate skipped files).2.paths ↔
      file ∈ files.paths ∨ ∃ skip ∈ skipped, Path.normalize skip.1 = file := by
  rw [locate_eq_addAll, FileIndex.mem_paths_addAll]
  simp only [List.mem_map, exists_exists_and_eq_and]

theorem mem_locate {skipped : List (Text × AccessError)} {skip : Text × AccessError}
    (h : skip ∈ skipped) (files : FileIndex) :
    Path.normalize skip.1 ∈ (locate skipped files).2.paths :=
  mem_paths_locate.mpr (.inr ⟨skip, h, rfl⟩)

theorem locate_eq_map (skipped : List (Text × AccessError)) (files : FileIndex) :
    (locate skipped files).1 =
      skipped.map fun skip => warning skip.2 { file := (locate skipped files).2.find skip.1 } := by
  rw [locate_eq_addAll]
  dsimp only
  rw [FileIndex.numbers_eq_map, List.map_map, List.zipWith_map_right, List.zipWith_self]
  rfl

end Findings

end HeaderOrder

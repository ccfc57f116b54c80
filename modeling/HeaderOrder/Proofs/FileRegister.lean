import HeaderOrder.FileRegister
import HeaderOrder.Proofs.FileIndex

/-!
# Files kept both ways

While numbers are left, a register gives the same answers as the list of its files.
-/

namespace HeaderOrder

namespace FileRegister

variable {r r' : FileRegister} {path : Text} {added : List Text}

/-- The list of files, the next number and the table agree. -/
structure Consistent (r : FileRegister) : Prop where
  nodup : r.paths.Nodup
  next_eq : r.next = r.size + 1
  get?_eq : ∀ file, r.numbers.get? file = (r.paths.idxOf? file).map (· + 1)

theorem consistent_empty : Consistent {} where
  nodup := List.nodup_nil
  next_eq := rfl
  get?_eq _ := rfl

/-! ## Look-ups -/

theorem idxOf?_eq_none {files : List Text} {file : Text} (h : file ∉ files) :
    files.idxOf? file = none := by
  rwa [← Option.not_isSome_iff_eq_none, List.isSome_idxOf?]

theorem path_eq_index (r : FileRegister) (number : Nat) : r.path number = r.index.path number := by
  unfold FileRegister.path FileIndex.path
  by_cases hzero : number = 0
  · rw [if_pos (.inl hzero), if_pos hzero]
  · by_cases hlarge : r.size < number
    · have hnone : r.index.paths[number - 1]? = none :=
        List.getElem?_eq_none (Nat.le_sub_one_of_lt hlarge)
      rw [if_pos (.inr hlarge), if_neg hzero, hnone]
      rfl
    · rw [if_neg (not_or.mpr ⟨hzero, hlarge⟩), if_neg hzero]
      rfl

theorem Consistent.find_eq_index (h : r.Consistent) (path : Text) :
    r.find path = r.index.find path := by
  rw [find, FileIndex.find, h.get?_eq]
  unfold index
  cases r.paths.idxOf? (Path.normalize path) <;> rfl

/-! ## Adding a file -/

/-- A file is known, or it is new and gets the next number, or no number is left for it. -/
theorem Consistent.add_cases (h : r.Consistent) (path : Text) :
    (Path.normalize path ∈ r.paths ∧ r.add path = ((r.index.find path, []), r)) ∨
    (Path.normalize path ∉ r.paths ∧ r.size < numberLimit ∧ r.add path = ((r.size + 1, []), {
      paths := r.paths ++ [Path.normalize path]
      next := r.size + 2
      numbers := r.numbers.insert (Path.normalize path) (r.size + 1) })) ∨
    (Path.normalize path ∉ r.paths ∧ numberLimit ≤ r.size ∧
      r.add path = ((0, exhausted.text none), r)) := by
  have hget := h.get?_eq (Path.normalize path)
  unfold add FileIndex.find index
  cases hidx : r.paths.idxOf? (Path.normalize path) with
  | some i =>
    have hmem : Path.normalize path ∈ r.paths := by
      rw [← List.isSome_idxOf?, hidx]
      rfl
    rw [hidx] at hget
    refine .inl ⟨hmem, ?_⟩
    dsimp only
    rw [hget]
    rfl
  | none =>
    have hnew : Path.normalize path ∉ r.paths := by
      rw [← List.isSome_idxOf?, hidx]
      simp
    rw [hidx] at hget
    dsimp only
    rw [hget, h.next_eq]
    by_cases hfull : numberLimit ≤ r.size
    · exact .inr (.inr ⟨hnew, hfull, if_pos (Nat.lt_succ_of_le hfull)⟩)
    · have hlt := Nat.lt_of_not_le hfull
      exact .inr (.inl ⟨hnew, hlt, if_neg (Nat.not_lt_of_le hlt)⟩)

theorem Consistent.add (h : r.Consistent) (path : Text) : (r.add path).2.Consistent := by
  rcases h.add_cases path with ⟨-, hadd⟩ | ⟨hnew, -, hadd⟩ | ⟨-, -, hadd⟩
  · rwa [hadd]
  · rw [hadd]
    refine ⟨?_, by simp [size], fun file => ?_⟩
    · have hindex : r.index.paths.idxOf? (Path.normalize path) = none := idxOf?_eq_none hnew
      have hnodup : (r.index.add path).2.paths.Nodup := FileIndex.nodup_add h.nodup path
      rwa [FileIndex.add, hindex] at hnodup
    · have hidx := idxOf?_eq_none hnew
      rw [Table.get?_insert, h.get?_eq]
      unfold List.idxOf? at hidx ⊢
      rw [List.findIdx?_append]
      split_ifs with heq
      · rw [heq, hidx]
        simp [size]
      · have hne : Path.normalize path ≠ file := Ne.symm heq
        cases List.findIdx? (· == file) r.paths <;> simp [hne]
  · rwa [hadd]

theorem prefix_add (h : r.Consistent) (path : Text) : r.paths <+: (r.add path).2.paths := by
  rcases h.add_cases path with ⟨-, hadd⟩ | ⟨-, -, hadd⟩ | ⟨-, -, hadd⟩
  · rw [hadd]
  · rw [hadd]
    exact List.prefix_append _ _
  · rw [hadd]

/-- While a number is left for it, a file gets the number that it gets in the list alone. -/
theorem Consistent.add_eq_index (h : r.Consistent)
    (hroom : (r.index.add path).2.size ≤ numberLimit) :
    (r.add path).1 = ((r.index.add path).1, []) ∧
      (r.add path).2.index = (r.index.add path).2 := by
  unfold FileIndex.add at hroom ⊢
  rcases h.add_cases path with ⟨hmem, hadd⟩ | ⟨hnew, -, hadd⟩ | ⟨hnew, hfull, -⟩
  · obtain ⟨i, hi⟩ := Option.isSome_iff_exists.mp (List.isSome_idxOf?.mpr hmem)
    have hindex : r.index.paths.idxOf? (Path.normalize path) = some i := hi
    rw [hadd, FileIndex.find, hindex]
    exact ⟨rfl, rfl⟩
  all_goals
    have hindex : r.index.paths.idxOf? (Path.normalize path) = none := idxOf?_eq_none hnew
  · rw [hadd, hindex]
    exact ⟨rfl, rfl⟩
  · rw [hindex] at hroom
    simp only [FileIndex.size, index, List.length_append, List.length_singleton] at hroom
    exact absurd hroom (Nat.not_le_of_lt (Nat.lt_succ_of_le hfull))

/-! ## Files that are added one after another -/

/-- Adds the files in order, and gives the number that each of them got and what was printed. -/
def addAll : FileRegister → List Text → List (Nat × Text) × FileRegister
  | r, [] => ([], r)
  | r, path :: rest =>
    let (answer, r) := r.add path
    let (later, r) := r.addAll rest
    (answer :: later, r)

theorem addAll_cons (r : FileRegister) (path : Text) (rest : List Text) :
    r.addAll (path :: rest) =
      ((r.add path).1 :: ((r.add path).2.addAll rest).1, ((r.add path).2.addAll rest).2) := rfl

theorem addAll_append (r : FileRegister) (front rest : List Text) :
    r.addAll (front ++ rest) = ((r.addAll front).1 ++ ((r.addAll front).2.addAll rest).1,
      ((r.addAll front).2.addAll rest).2) := by
  induction front generalizing r with
  | nil => rfl
  | cons path front ih =>
    rw [List.cons_append, addAll_cons, ih, addAll_cons]
    rfl

theorem Consistent.addAll (h : r.Consistent) (added : List Text) :
    (r.addAll added).2.Consistent := by
  induction added generalizing r with
  | nil => exact h
  | cons path rest ih => exact ih (h.add path)

theorem prefix_addAll (h : r.Consistent) (added : List Text) :
    r.paths <+: (r.addAll added).2.paths := by
  induction added generalizing r with
  | nil => exact List.prefix_refl _
  | cons path rest ih => exact (prefix_add h path).trans (ih (h.add path))

/-- While numbers are left, files get the numbers that they get in the list alone. -/
theorem Consistent.addAll_eq_index (h : r.Consistent)
    (hroom : (r.index.addAll added).2.size ≤ numberLimit) :
    (r.addAll added).1 = (r.index.addAll added).1.map (·, []) ∧
      (r.addAll added).2.index = (r.index.addAll added).2 := by
  induction added generalizing r with
  | nil => exact ⟨rfl, rfl⟩
  | cons path rest ih =>
    rw [FileIndex.addAll_cons] at hroom ⊢
    have hlength := (FileIndex.prefix_addAll (r.index.add path).2 rest).length_le
    obtain ⟨hanswer, hindex⟩ := h.add_eq_index (hlength.trans hroom)
    rw [← hindex] at hroom ⊢
    obtain ⟨hanswers, hrest⟩ := ih (h.add path) hroom
    rw [addAll_cons, hanswer, hanswers]
    exact ⟨rfl, hrest⟩

/-! ## Numbers and paths -/

/-- How the numbers that files have got stand for the normal forms of their paths. -/
structure Numbering (added : List Text) (numbers : List Nat) (r : FileRegister) : Prop where
  length_eq : numbers.length = added.length
  mem_iff : ∀ id, id ∈ numbers ↔ 0 < id ∧ id ≤ r.size
  eq_iff : ∀ path id spelled id', (path, id) ∈ added.zip numbers →
    (spelled, id') ∈ added.zip numbers → (id = id' ↔ Path.normalize path = Path.normalize spelled)
  path_eq : ∀ path id, (path, id) ∈ added.zip numbers → r.path id = Path.normalize path
  find_eq : ∀ path id, (path, id) ∈ added.zip numbers →
    ∀ spelled, Path.normalize spelled = Path.normalize path → r.find spelled = id
  find_eq_zero : ∀ path, (∀ known ∈ added, Path.normalize known ≠ Path.normalize path) →
    r.find path = 0
  path_eq_nil : ∀ id, id = 0 ∨ r.size < id → r.path id = []

theorem Consistent.numbering (h : r.Consistent) (hknows : FileIndex.Knows added r.index) :
    Numbering added (added.map r.index.find) r := by
  have hgot : ∀ path id, (path, id) ∈ added.zip (added.map r.index.find) →
      Path.normalize path ∈ r.index.paths ∧ id = r.index.find path := by
    intro path id hcall
    rw [← List.map_prod_left_eq_zip, List.mem_map] at hcall
    obtain ⟨path, hpath, heq⟩ := hcall
    cases heq
    exact ⟨hknows.mem_paths hpath, rfl⟩
  refine ⟨List.length_map _, fun id => hknows.mem_numbers_iff, ?_, ?_, ?_, ?_, ?_⟩
  · intro path id spelled id' hcall hcall'
    obtain ⟨hpath, rfl⟩ := hgot path id hcall
    obtain ⟨-, rfl⟩ := hgot spelled id' hcall'
    exact FileIndex.find_eq_find_iff hpath
  · intro path id hcall
    obtain ⟨hpath, rfl⟩ := hgot path id hcall
    rw [path_eq_index, FileIndex.path_find hpath]
  · intro path id hcall spelled hspelled
    obtain ⟨hpath, rfl⟩ := hgot path id hcall
    rw [h.find_eq_index]
    exact ((FileIndex.find_eq_find_iff hpath).mpr hspelled.symm).symm
  · intro path hnew
    rw [h.find_eq_index]
    by_contra hfind
    obtain ⟨known, hknown, heq⟩ := (hknows.mem_iff _).mp (FileIndex.find_ne_zero_iff.mp hfind)
    exact hnew known hknown heq
  · intro id hid
    rw [path_eq_index]
    exact FileIndex.path_eq_nil hid

/-- Numbers stand for the normal forms of paths, one for one and without gaps, and keep doing so. -/
theorem numbering_of_addAll {answers : List (Nat × Text)}
    (hrun : addAll {} added = (answers, r))
    (hroom : (added.map Path.normalize).eraseDups.length < 0x100000000) :
    r.Consistent ∧ ∃ numbers, answers = numbers.map (·, []) ∧ Numbering added numbers r ∧
      (∀ id ∈ numbers, id ≤ numberLimit) ∧
      ∀ later, ∃ answers' r', addAll {} (added ++ later) = (answers ++ answers', r') ∧
        (∀ id, 0 < id → id ≤ r.size → r'.path id = r.path id) ∧
        ∀ path ∈ added, r'.find path = r.find path := by
  have hknows := FileIndex.knows_addAll added
  have hnumbers := FileIndex.numbers_eq_map {} added
  have hsize : (FileIndex.addAll {} added).2.size ≤ numberLimit := by
    rw [hknows.size_eq]
    exact Nat.le_of_lt_succ hroom
  have hconsistent := consistent_empty.addAll added
  obtain ⟨hanswers, hindex⟩ := consistent_empty.addAll_eq_index hsize
  rw [hrun] at hconsistent hanswers hindex
  rw [show FileRegister.index {} = {} from rfl] at hanswers hindex
  rw [← hindex] at hknows hnumbers hsize
  rw [hnumbers] at hanswers
  refine ⟨hconsistent, _, hanswers, hconsistent.numbering hknows, ?_, fun later => ?_⟩
  · intro id hid
    exact (hknows.mem_numbers_iff.mp hid).2.trans hsize
  · have hprefix := prefix_addAll hconsistent later
    refine ⟨(r.addAll later).1, (r.addAll later).2, by rw [addAll_append, hrun], ?_, ?_⟩
    · intro id _ hle
      rw [path_eq_index, path_eq_index]
      exact FileIndex.path_of_prefix hprefix hle
    · intro path hpath
      rw [(hconsistent.addAll later).find_eq_index, hconsistent.find_eq_index]
      exact FileIndex.find_of_prefix hprefix (hknows.mem_paths hpath)

theorem numbering_of_addAll_spellings :
    let added : List Text := ["a/./b.cpp", "c.h", "a/b.cpp", "d\\..\\c.h"]
    let r := (addAll {} added).2
    (addAll {} added).1 = [(1, []), (2, []), (1, []), (2, [])] ∧ r.paths = ["a/b.cpp", "c.h"] ∧
      r.next = 3 ∧ r.find "./a//b.cpp" = 1 ∧ r.path 2 = "c.h" := by
  intro added r
  have hrun : addAll {} added = ([1, 2, 1, 2].map (·, []), r) := by
    exact Prod.ext (by decide +kernel) rfl
  obtain ⟨hconsistent, numbers, hnumbers, hnumbering, -⟩ :=
    numbering_of_addAll hrun (by decide +kernel)
  obtain rfl : [1, 2, 1, 2] = numbers :=
    List.map_injective_iff.mpr (fun _ _ h => (Prod.mk.inj h).1) hnumbers
  have hpaths : r.paths = ["a/b.cpp", "c.h"] := by decide +kernel
  refine ⟨congrArg Prod.fst hrun, hpaths, ?_,
    hnumbering.find_eq "a/./b.cpp" 1 (by decide +kernel) _ (by decide +kernel),
    hnumbering.path_eq "c.h" 2 (by decide +kernel)⟩
  rw [hconsistent.next_eq, size, hpaths]
  rfl

end FileRegister

end HeaderOrder

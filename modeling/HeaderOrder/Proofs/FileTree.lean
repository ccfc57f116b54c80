import HeaderOrder.Proofs.Links
import HeaderOrder.Proofs.Steady

/-! # Files and their places -/

namespace HeaderOrder

open Byte

namespace FileTree

variable {t t' : FileTree} {dir names other place top parts : List Text} {path target : Text}
  {entry : DirEntry} {node : FileNode} {f : FileContents} {id other' : Nat}

/-! ## Entries -/

theorem ne_nil_of_entryAt? (h : t.entryAt? names ≠ some .directory) : names ≠ [] := by
  rintro rfl
  exact h rfl

theorem entryAt?_put (hne : names ≠ []) :
    (t.put names entry).entryAt? other =
      if other = names then some entry else t.entryAt? other := by
  unfold entryAt? put
  rw [Table.get?_insert]
  by_cases hroot : other = []
  · rw [if_pos hroot, if_pos hroot, if_neg]
    rw [hroot]
    exact hne.symm
  · rw [if_neg hroot, if_neg hroot]

theorem entryAt?_erase (hne : names ≠ []) :
    FileTree.entryAt? { t with nodes := t.nodes.erase names } other =
      if other = names then none else t.entryAt? other := by
  unfold entryAt?
  rw [Table.get?_erase]
  by_cases hroot : other = []
  · rw [if_pos hroot, if_pos hroot, if_neg]
    rw [hroot]
    exact hne.symm
  · rw [if_neg hroot, if_neg hroot]

theorem contents_setContents :
    (t.setContents id f).contents other' = if other' = id then f else t.contents other' := by
  unfold contents setContents
  rw [Table.get?_insert]
  split_ifs <;> rfl

theorem mem_of_entryAt? (h : t.entryAt? names = some entry) (hne : entry ≠ .directory) :
    (names, entry) ∈ t.nodes.entries := by
  have hnil : names ≠ [] := ne_nil_of_entryAt? (t := t) (by rwa [h, ne_eq, Option.some.injEq])
  rw [entryAt?, if_neg hnil] at h
  obtain ⟨⟨key, _⟩, hfind, rfl⟩ := Option.map_eq_some_iff.mp h
  obtain rfl : key = names := by simpa using List.find?_some hfind
  exact List.mem_of_find?_eq_some hfind

theorem lt_newId (h : t.entryAt? names = some (.file id)) : id < t.newId := by
  have hmem := mem_of_entryAt? h (by simp)
  unfold newId
  generalize t.nodes.entries = es at hmem
  induction es with
  | nil => cases hmem
  | cons e es ih =>
    rw [List.foldr_cons]
    rcases List.mem_cons.mp hmem with rfl | hmem
    · exact Nat.lt_of_succ_le (Nat.le_max_right _ _)
    · split
      · exact Nat.lt_of_lt_of_le (ih hmem) (Nat.le_max_left _ _)
      · exact ih hmem

theorem node?_eq_file_iff :
    t.node? names = some (.file f) ↔
      ∃ id, t.entryAt? names = some (.file id) ∧ t.contents id = f := by
  unfold node?
  cases t.entryAt? names with
  | none => simp
  | some entry => cases entry <;> simp

theorem node?_congr (hentry : t'.entryAt? names = t.entryAt? names)
    (hfile : ∀ id, t.entryAt? names = some (.file id) → t'.contents id = t.contents id) :
    t'.node? names = t.node? names := by
  unfold node?
  rw [hentry]
  cases hnode : t.entryAt? names with
  | none => rfl
  | some entry =>
    cases entry with
    | directory => rfl
    | file id => simp [hfile id hnode]
    | link target => rfl

/-! ## Places -/

theorem parts?_eq_some (h : parts? path = some parts) : ∃ front last, parts = front ++ [last] := by
  unfold parts? at h
  dsimp only at h
  split_ifs at h
  obtain rfl := Option.some.inj h
  exact (List.eq_nil_or_concat' _).resolve_left (List.splitOn_ne_nil _ _)

theorem place?_eq_some_iff : t.place? dir path = some place ↔
    ∃ front last names, parts? path = some (front ++ [last]) ∧
      t.follow maxLinks (start dir path) front = some names ∧
        t.enter? names last = some place := by
  unfold place?
  constructor
  · intro h
    obtain ⟨parts, hparts, h⟩ := Option.bind_eq_some_iff.mp h
    obtain ⟨front, last, rfl⟩ := parts?_eq_some hparts
    obtain ⟨names, hnames, h⟩ := Option.bind_eq_some_iff.mp h
    rw [List.dropLast_concat] at hnames
    rw [List.getLastD_concat] at h
    exact ⟨front, last, names, hparts, hnames, h⟩
  · rintro ⟨front, last, names, hparts, hnames, h⟩
    rw [hparts, Option.bind_some, List.dropLast_concat, List.getLastD_concat, hnames,
      Option.bind_some, h]

/-- A path leads to its own place, or to where the link there leads. -/
theorem exists_place (h : t.resolve? dir path = some names) : ∃ place,
    t.place? dir path = some place ∧
      ((∀ target, t.entryAt? place ≠ some (.link target)) ∧ names = place ∨
        ∃ target links, t.entryAt? place = some (.link target) ∧
          t.follow links (start place.dropLast target) (target.splitOn slash) = some names) := by
  obtain ⟨parts, hparts, h⟩ := Option.bind_eq_some_iff.mp h
  obtain ⟨front, last, rfl⟩ := parts?_eq_some hparts
  obtain ⟨links, at', place, hfront, hlast, h⟩ := follow_append h
  refine ⟨place, place?_eq_some_iff.mpr ⟨front, last, at', hparts, hfront, hlast⟩, ?_⟩
  rcases pass_eq_some_iff.mp h with ⟨hplain, h⟩ | ⟨links, target, rfl, hlink, h⟩
  · rw [follow_nil, Option.some.injEq] at h
    exact .inl ⟨hplain, h.symm⟩
  · have hplace := eq_append_of_enter? hlast (by simp [hlink])
    rw [List.append_nil] at h
    refine .inr ⟨target, links, hlink, ?_⟩
    rwa [hplace, List.dropLast_concat]

theorem resolve?_of_place? (h : t.place? dir path = some place)
    (hplain : ∀ target, t.entryAt? place ≠ some (.link target)) :
    t.resolve? dir path = some place := by
  obtain ⟨front, last, names, hparts, hfront, hlast⟩ := place?_eq_some_iff.mp h
  rw [resolve?, hparts, Option.bind_some, follow_concat hfront hlast hplain]

theorem ne_link_of_resolve? (h : t.resolve? dir path = some names) :
    ∀ target, t.entryAt? names ≠ some (.link target) := by
  obtain ⟨place, hplace, ⟨hplain, rfl⟩ | ⟨target, links, hlink, hfollow⟩⟩ := exists_place h
  · exact hplain
  · obtain ⟨_, last, at', -, -, hlast⟩ := place?_eq_some_iff.mp hplace
    have hplace := eq_append_of_enter? hlast (by simp [hlink])
    have hdir := directory_of_enter? hlast
    refine ne_link_of_follow hfollow ?_
    unfold start
    split_ifs
    · simp [entryAt?]
    · simp [hplace, hdir]

theorem place?_of_ways (hend : t.IsEnd top)
    (hways : ∀ names, names ≠ top → t'.way? names = t.way? names)
    (h : t.place? dir path = some place) : t'.place? dir path = some place := by
  obtain ⟨front, last, names, hparts, hfront, hlast⟩ := place?_eq_some_iff.mp h
  exact place?_eq_some_iff.mpr ⟨front, last, names, hparts,
    follow_of_ways hend hways hfront (directory_of_enter? hlast), enter?_of_ways hend hways hlast⟩

theorem isEnd_of_not_way (h : t.way? top = none) : t.IsEnd top where
  ne_directory hdir := by simp [way?, hdir] at h
  ne_of_link target links place hlink := by simp [way?, hlink] at h

/-- A path that leads to a file has its own place at an end. -/
theorem isEnd_of_resolve? (h : t.resolve? dir path = some names)
    (hfile : t.entryAt? names = some (.file id)) (hplace : t.place? dir path = some place) :
    t.IsEnd place := by
  obtain ⟨place', hplace', hcases⟩ := exists_place h
  obtain rfl : place' = place := by
    rw [hplace', Option.some.injEq] at hplace
    exact hplace
  rcases hcases with ⟨hplain, rfl⟩ | ⟨target, links, hlink, hfollow⟩
  · exact isEnd_of_not_way (by simp [way?, hfile])
  · refine ⟨by simp [hlink], ?_⟩
    intro target' links' end' hlink' hfollow'
    obtain rfl : target = target' := by simpa [hlink] using hlink'
    rw [← follow_unique hfollow hfollow', hfile]
    simp

theorem find?_eq_some_iff :
    t.find? dir path = some node ↔ ∃ names, t.resolve? dir path = some names ∧
      t.node? names = some node := by
  rw [find?, Option.bind_eq_some_iff]

/-! ## Reading -/

/-- The bytes of the source file to which a path leads, or why it cannot be read. -/
def source (t : FileTree) (dir : List Text) (path : Text) : Except AccessError Text :=
  match t.find? dir path with
  | none | some (.link _) => .error (.cannotOpen path)
  | some .directory => .error (.tooLarge path)
  | some (.file f) =>
    if Disk.sourceLimit < f.size then .error (.tooLarge path) else .ok f.text

theorem readSource_run (t : FileTree) (dir : List Text) (path : Text) :
    ((disk dir).readSource path).run t = (t.source dir path, t) := by
  have hentry : (Disk.entry? (disk dir) path).run t =
      ((t.find? dir path).bind FileNode.told?, t) := rfl
  have hcontents : ((disk dir).contents? path).run t =
      ((t.find? dir path).bind FileNode.text?, t) := rfl
  unfold Disk.readSource source
  rw [run_bind_eq, hentry]
  cases hfind : t.find? dir path with
  | none => rfl
  | some node =>
    cases node with
    | directory | link target => rfl
    | file f =>
      dsimp only [Option.bind_some, FileNode.told?]
      split_ifs
      · rfl
      · rw [run_bind_eq, hcontents, hfind]
        rfl

theorem source_eq_ok_iff {text : Text} :
    t.source dir path = .ok text ↔ ∃ f, t.find? dir path = some (.file f) ∧
      f.size ≤ Disk.sourceLimit ∧ f.text = text := by
  unfold source
  cases t.find? dir path with
  | none => simp
  | some node =>
    cases node with
    | directory | link target => simp
    | file f =>
      dsimp only
      split_ifs with hsize
      · simp [Nat.not_le.mpr hsize]
      · simp [Nat.not_lt.mp hsize]

theorem length_le_of_source {text : Text} (h : t.source dir path = .ok text) :
    text.length ≤ Disk.sourceLimit := by
  obtain ⟨f, -, hsize, rfl⟩ := source_eq_ok_iff.mp h
  simpa [FileContents.text, FileContents.size] using hsize

end FileTree

end HeaderOrder

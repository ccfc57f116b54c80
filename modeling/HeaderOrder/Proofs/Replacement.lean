import HeaderOrder.Proofs.Edit
import HeaderOrder.Proofs.FileTree
import HeaderOrder.Proofs.Path

/-!
# Carrying out a plan on disk

The edited text goes through a temporary file into the place of the target.
-/

namespace HeaderOrder

open Byte Text

namespace FileTree

variable {t t' : FileTree} {dir names old new temporary place other : List Text}
  {path source suffix text : Text} {entry : DirEntry} {f : FileContents} {id : Nat}

/-! ## The path of the temporary file -/

theorem followed_append_of_zero (h : 0 ∈ path) (suffix : Text) :
    followed (path ++ suffix) = followed path := by
  unfold followed
  rw [List.takeWhile_append, if_neg]
  intro hlength
  have hwhole := (List.takeWhile_prefix _).eq_of_length hlength
  rw [List.takeWhile_eq_self_iff] at hwhole
  simpa using hwhole 0 h

theorem followed_of_not_mem (h : 0 ∉ path) : followed path = path := by
  unfold followed
  rw [List.takeWhile_eq_self_iff]
  intro b hb
  simpa using fun hzero : b = 0 => h (hzero ▸ hb)

theorem start_append (hpath : path ≠ []) (dir : List Text) (suffix : Text) :
    start dir (path ++ suffix) = start dir path := by
  unfold start
  rw [Path.isAbsolute_append hpath]

theorem place?_append_of_zero (h : 0 ∈ path) (t : FileTree) (dir : List Text) (suffix : Text) :
    t.place? dir (path ++ suffix) = t.place? dir path := by
  unfold place? parts?
  rw [followed_append_of_zero h, start_append (List.ne_nil_of_mem h)]

/-- What is put behind a path goes to the last of its parts. -/
theorem splitOn_append (h : slash ∉ suffix) (path : Text) :
    ∃ parts last, path.splitOn slash = parts ++ [last] ∧
      (path ++ suffix).splitOn slash = parts ++ [last ++ suffix] := by
  induction path with
  | nil =>
    refine ⟨[], [], by simp, ?_⟩
    apply List.splitOnP_eq_singleton
    intro b hb
    simpa using fun hslash : b = slash => h (hslash ▸ hb)
  | cons b path ih =>
    obtain ⟨parts, last, hpath, hsuffix⟩ := ih
    rw [List.cons_append, List.splitOn_cons_eq_if_modifyHead, List.splitOn_cons_eq_if_modifyHead,
      hpath, hsuffix]
    split_ifs
    · exact ⟨[] :: parts, last, rfl, rfl⟩
    · cases parts with
      | nil => exact ⟨[], b :: last, rfl, rfl⟩
      | cons part parts => exact ⟨(b :: part) :: parts, last, rfl, rfl⟩

theorem enter?_append_ne {part : Text} (hlength : 2 < suffix.length)
    (h : t.enter? dir part = some names) (h' : t.enter? dir (part ++ suffix) = some temporary) :
    temporary ≠ names := by
  have hlong : 2 < (part ++ suffix).length := by
    rw [List.length_append]
    omega
  have hname : part ++ suffix ≠ [] ∧ part ++ suffix ≠ Path.here ∧ part ++ suffix ≠ Path.above := by
    refine ⟨?_, ?_, ?_⟩ <;>
    · intro heq
      rw [heq] at hlong
      exact absurd hlong (by decide)
  have htemporary : temporary = dir ++ [part ++ suffix] := by
    unfold enter? at h'
    split_ifs at h' <;> simp_all
  rintro rfl
  rcases enter?_cases h with ⟨-, hle⟩ | hnames
  · rw [htemporary, List.length_append, List.length_singleton] at hle
    omega
  · rw [htemporary, List.append_cancel_left_eq, List.singleton_inj, List.append_right_eq_self]
      at hnames
    rw [hnames] at hlength
    simp at hlength

theorem parts?_of_not_mem {parts : List Text} (hzero : 0 ∉ path) (h : parts? path = some parts) :
    path ≠ [] ∧ path.splitOn slash = parts := by
  unfold parts? at h
  rw [followed_of_not_mem hzero] at h
  dsimp only at h
  split_ifs at h with hnone
  exact ⟨fun hnil => hnone (.inl hnil), Option.some.inj h⟩

theorem place?_append_ne (hzero : 0 ∉ path ++ suffix) (hslash : slash ∉ suffix)
    (hlength : 2 < suffix.length) (h : t.place? dir path = some place)
    (h' : t.place? dir (path ++ suffix) = some temporary) : temporary ≠ place := by
  obtain ⟨parts, name, hpath, hsuffix⟩ := splitOn_append hslash path
  obtain ⟨front, last, names, hparts, hfront, hlast⟩ := place?_eq_some_iff.mp h
  obtain ⟨front', last', names', hparts', hfront', hlast'⟩ := place?_eq_some_iff.mp h'
  obtain ⟨hne, hsplit⟩ := parts?_of_not_mem (fun hmem => hzero (List.mem_append_left _ hmem)) hparts
  obtain ⟨-, hsplit'⟩ := parts?_of_not_mem hzero hparts'
  -- Both paths lead through the same directories up to the last part.
  obtain ⟨rfl, hname⟩ := List.append_inj' (hpath.symm.trans hsplit) rfl
  obtain rfl := List.singleton_inj.mp hname
  rw [hsuffix] at hsplit'
  obtain ⟨rfl, hlasts⟩ := List.append_inj' hsplit' rfl
  obtain rfl := List.singleton_inj.mp hlasts
  rw [start_append hne, hfront] at hfront'
  obtain rfl := Option.some.inj hfront'
  exact enter?_append_ne hlength hlast hlast'

theorem temporary_ne (hzero : 0 ∉ path) (h : t.place? dir path = some place)
    (h' : t.place? dir (path ++ Disk.temporarySuffix) = some temporary) : temporary ≠ place := by
  have hsuffix : 0 ∉ Disk.temporarySuffix ∧ slash ∉ Disk.temporarySuffix ∧
      2 < Disk.temporarySuffix.length := by decide
  refine place?_append_ne ?_ hsuffix.2.1 hsuffix.2.2 h h'
  simp [hzero, hsuffix.1]

/-! ## Writing -/

/-- The path leads to a place for a file. -/
def Writable (t : FileTree) (dir : List Text) (path : Text) : Prop :=
  ∃ names, t.resolve? dir path = some names ∧ t.entryAt? names ≠ some .directory

/-- A file was written at a place. It had a name there, or else no name at all. -/
structure Written (t t' : FileTree) (names : List Text) (id : Nat) (f : FileContents) : Prop where
  before : t.entryAt? names = some (.file id) ∨
    t.entryAt? names = none ∧ ∀ other, t.entryAt? other ≠ some (.file id)
  entry : ∀ other, t'.entryAt? other = if other = names then some (.file id) else t.entryAt? other
  contents : ∀ other, t'.contents other = if other = id then f else t.contents other

theorem written_setContents (h : t.entryAt? names = some (.file id)) (f : FileContents) :
    Written t (t.setContents id f) names id f where
  before := .inl h
  entry other := by
    split_ifs with hother
    · rw [hother]
      exact h
    · rfl
  contents _ := contents_setContents

theorem written_create (h : t.entryAt? names = none) (f : FileContents) :
    Written t (t.create names f) names t.newId f where
  before := .inr ⟨h, fun _ hother => absurd (lt_newId hother) (Nat.lt_irrefl _)⟩
  entry _ := entryAt?_put (ne_nil_of_entryAt? (t := t) (by simp [h]))
  contents _ := contents_setContents

theorem write?_of_not_writable (h : ¬ t.Writable dir path) : t.write? dir path text = none := by
  unfold write?
  cases hpath : t.resolve? dir path with
  | none => rfl
  | some names =>
    have hdir : t.entryAt? names = some .directory := by_contra fun hne => h ⟨names, hpath, hne⟩
    dsimp only
    rw [hdir]

theorem exists_write? (hpath : t.resolve? dir path = some names)
    (hdir : t.entryAt? names ≠ some .directory) (text : Text) :
    ∃ t' id, t.write? dir path text = some t' ∧ Written t t' names id { bytes := text } := by
  unfold write?
  rw [hpath]
  dsimp only
  match hentry : t.entryAt? names with
  | none => exact ⟨_, _, rfl, written_create hentry _⟩
  | some (.file id) => exact ⟨_, _, rfl, written_setContents hentry _⟩
  | some .directory => exact absurd hentry hdir
  | some (.link target) => exact absurd hentry (ne_link_of_resolve? hpath target)

namespace Written

theorem way?_eq (h : Written t t' names id f) : t'.way? = t.way? := by
  funext other
  unfold way?
  rw [h.entry]
  split_ifs with hother
  · rcases h.before with hbefore | ⟨hbefore, -⟩ <;> simp [hother, hbefore]
  · rfl

theorem place?_eq (h : Written t t' names id f) (hplace : t.place? dir path = some place) :
    t'.place? dir path = some place := by
  have hend : t.IsEnd names := by
    apply isEnd_of_not_way
    rcases h.before with hbefore | ⟨hbefore, -⟩ <;> simp [way?, hbefore]
  exact place?_of_ways hend (fun _ _ => by rw [h.way?_eq]) hplace

theorem entryAt?_of_ne (h : Written t t' names id f) (hother : other ≠ names) :
    t'.entryAt? other = t.entryAt? other := by
  rw [h.entry, if_neg hother]

/-- Another name stands for the file only when it did so before. -/
theorem before_of_entryAt? (h : Written t t' names id f)
    (hother : t.entryAt? other = some (.file id)) :
    t.entryAt? names = some (.file id) :=
  h.before.resolve_right fun hnew => hnew.2 other hother

end Written

/-! ## Renaming -/

/-- The tree in which the entry of one name has another name. -/
def moved (t : FileTree) (old new : List Text) (entry : DirEntry) : FileTree :=
  FileTree.put { t with nodes := t.nodes.erase old } new entry

theorem entryAt?_moved (hold : t.entryAt? old ≠ some .directory)
    (hnew : t.entryAt? new ≠ some .directory) :
    (t.moved old new entry).entryAt? other =
      if other = new then some entry else if other = old then none else t.entryAt? other := by
  unfold moved
  rw [entryAt?_put (ne_nil_of_entryAt? hnew), entryAt?_erase (ne_nil_of_entryAt? hold)]

/-- The tree in which a name was moved to another, unless both stand for one file. -/
def renamed (t : FileTree) (old new : List Text) (entry : DirEntry) : FileTree :=
  if old = new ∨ (t.entryAt? new).any (sameFile entry) then t else t.moved old new entry

theorem entryAt?_renamed_of_ne (hold : t.entryAt? old ≠ some .directory)
    (hnew : t.entryAt? new ≠ some .directory) (hother : other ≠ old) (hother' : other ≠ new) :
    (t.renamed old new entry).entryAt? other = t.entryAt? other := by
  unfold renamed
  split_ifs
  · rfl
  · rw [entryAt?_moved hold hnew, if_neg hother', if_neg hother]

theorem contents_renamed : (t.renamed old new entry).contents id = t.contents id := by
  unfold renamed
  split_ifs <;> rfl

theorem rename_eq (hold : t.place? dir source = some old) (hnew : t.place? dir path = some new)
    (hentry : t.entryAt? old = some entry) (hfile : entry ≠ .directory)
    (hdir : t.entryAt? new ≠ some .directory) :
    t.rename dir source path = .ok (t.renamed old new entry) := by
  unfold rename renamed
  rw [hold, hnew]
  dsimp only
  rw [hentry]
  match hnode : t.entryAt? new with
  | some .directory => exact absurd hnode hdir
  | none | some (.file _) | some (.link _) =>
    cases entry with
    | directory => exact absurd rfl hfile
    | file id | link target =>
      dsimp only
      split_ifs <;> rfl

theorem write_run (t : FileTree) (dir : List Text) (path text : Text) :
    ((disk dir).write path text).run t = match t.write? dir path text with
      | none => (false, t)
      | some t => (true, t) := rfl

theorem rename_run (t : FileTree) (dir : List Text) (source target : Text) :
    ((disk dir).rename source target).run t = match t.rename dir source target with
      | .error reason => (.error reason, t)
      | .ok t => (.ok (), t) := rfl

/-! ## Replacing a file -/

theorem replaceFile_of_not_writable (h : ¬ t.Writable dir (path ++ Disk.temporarySuffix)) :
    ((disk dir).replaceFile path text).run t =
      (.error (.cannotWrite (path ++ Disk.temporarySuffix)), t) := by
  have hwrite : ((disk dir).write (path ++ Disk.temporarySuffix) text).run t = (false, t) := by
    rw [write_run, write?_of_not_writable h]
  unfold Disk.replaceFile
  dsimp only
  rw [run_bind_eq, hwrite]
  rfl

/-- The places that a replacement goes through: that of the file, that of the temporary name, and
where this leads. -/
structure Places (t : FileTree) (dir : List Text) (path : Text)
    (place temporary names : List Text) : Prop where
  of_file : t.place? dir path = some place
  is_end : t.IsEnd place
  of_temporary : t.place? dir (path ++ Disk.temporarySuffix) = some temporary
  leads : t.resolve? dir (path ++ Disk.temporarySuffix) = some names
  ne_directory : t.entryAt? names ≠ some .directory

theorem exists_places (hfind : t.find? dir path = some (.file f))
    (hwrite : t.Writable dir (path ++ Disk.temporarySuffix)) :
    ∃ place temporary names, t.Places dir path place temporary names := by
  obtain ⟨end', hresolve, hnode⟩ := find?_eq_some_iff.mp hfind
  obtain ⟨id, hfile, -⟩ := node?_eq_file_iff.mp hnode
  obtain ⟨place, hplace, -⟩ := exists_place hresolve
  obtain ⟨names, hleads, hne⟩ := hwrite
  obtain ⟨temporary, htemporary, -⟩ := exists_place hleads
  exact ⟨place, temporary, names, hplace, isEnd_of_resolve? hresolve hfile hplace, htemporary,
    hleads, hne⟩

theorem Places.exists_entry (h : t.Places dir path place temporary names)
    (hwritten : Written t t' names id f) :
    ∃ entry, t'.entryAt? temporary = some entry ∧ entry ≠ .directory := by
  obtain ⟨temporary', htemporary, hcases⟩ := exists_place h.leads
  obtain rfl : temporary = temporary' := Option.some.inj (h.of_temporary.symm.trans htemporary)
  rw [hwritten.entry]
  split_ifs with heq
  · exact ⟨_, rfl, by simp⟩
  · obtain ⟨-, rfl⟩ | ⟨target, _, hlink, -⟩ := hcases
    · exact absurd rfl heq
    · exact ⟨_, hlink, by simp⟩

theorem Written.ne_directory (h : Written t t' names id f)
    (hother : t.entryAt? other ≠ some .directory) :
    t'.entryAt? other ≠ some .directory := by
  rwa [ne_eq, ← way?_eq_directory_iff, h.way?_eq, way?_eq_directory_iff]

theorem replaceFile_of_places (h : t.Places dir path place temporary names) (text : Text) :
    ∃ between id entry, Written t between names id { bytes := text } ∧
      between.entryAt? temporary = some entry ∧ entry ≠ .directory ∧
      ((disk dir).replaceFile path text).run t =
        (.ok (), between.renamed temporary place entry) := by
  obtain ⟨between, id, hsome, hwritten⟩ := exists_write? h.leads h.ne_directory text
  obtain ⟨entry, hentry, hne⟩ := h.exists_entry hwritten
  have hwrite : ((disk dir).write (path ++ Disk.temporarySuffix) text).run t = (true, between) := by
    rw [write_run, hsome]
  have hrename : ((disk dir).rename (path ++ Disk.temporarySuffix) path).run between =
      (.ok (), between.renamed temporary place entry) := by
    rw [rename_run, rename_eq (hwritten.place?_eq h.of_temporary) (hwritten.place?_eq h.of_file)
      hentry hne (hwritten.ne_directory h.is_end.ne_directory)]
  refine ⟨between, id, entry, hwritten, hentry, hne, ?_⟩
  unfold Disk.replaceFile
  dsimp only
  rw [run_bind_eq, hwrite, if_pos rfl, run_bind_eq, hrename]
  rfl

/-! ### What can change -/

/-- The entry is no link, and its file has no other name. -/
def IsSole (t : FileTree) (names : List Text) : DirEntry → Prop
  | .directory => True
  | .file id => ∀ other, t.entryAt? other = some (.file id) → other = names
  | .link _ => False

/-- No link is at the place of the path, and a file there has no other name. -/
def Unshared (t : FileTree) (dir : List Text) (path : Text) : Prop :=
  ∀ names ∈ t.place? dir path, ∀ entry ∈ t.entryAt? names, t.IsSole names entry

instance (t : FileTree) (names : List Text) : DecidablePred (t.IsSole names)
  | .directory => .isTrue trivial
  | .file id => decidable_of_iff
      (∀ e ∈ t.nodes.entries, t.entryAt? e.1 = some (.file id) → e.1 = names)
      ⟨fun h _ hother => h _ (mem_of_entryAt? hother (by simp)) hother, fun h e _ => h e.1⟩
  | .link _ => .isFalse False.elim

instance (t : FileTree) (dir : List Text) (path : Text) : Decidable (t.Unshared dir path) :=
  inferInstanceAs (Decidable (∀ names ∈ t.place? dir path, ∀ entry ∈ t.entryAt? names, _))

/-- The path leads to the file, or the free place, of this name. -/
def LeadsTo (t : FileTree) (dir : List Text) (path : Text) (names : List Text) : Prop :=
  ∃ end', t.resolve? dir path = some end' ∧
    (names = end' ∨ ∃ id, t.entryAt? end' = some (.file id) ∧ t.entryAt? names = some (.file id))

/-- Nothing has changed but at the place of the path and that of the path of the temporary file. If
this path is shared, the file to which it leads may have changed as well. -/
def ChangedAt (t t' : FileTree) (dir : List Text) (path : Text) : Prop :=
  ∀ names, t'.node? names ≠ t.node? names → t.place? dir path = some names ∨
    t.place? dir (path ++ Disk.temporarySuffix) = some names ∨
      ¬ t.Unshared dir (path ++ Disk.temporarySuffix) ∧
        t.LeadsTo dir (path ++ Disk.temporarySuffix) names

theorem Unshared.place?_of_leadsTo (h : t.Unshared dir path) (hleads : t.LeadsTo dir path names) :
    t.place? dir path = some names := by
  obtain ⟨end', hresolve, hnames⟩ := hleads
  obtain ⟨place, hplace, ⟨-, rfl⟩ | ⟨target, _, hlink, -⟩⟩ := exists_place hresolve
  · rcases hnames with rfl | ⟨id, hend, hnames⟩
    · exact hplace
    · rwa [h _ hplace _ hend names hnames]
  · exact (h place hplace _ hlink).elim

theorem Places.changedAt {between : FileTree} (h : t.Places dir path place temporary names)
    (hwritten : Written t between names id f) (hentry : between.entryAt? temporary = some entry)
    (hne : entry ≠ .directory) :
    t.ChangedAt (between.renamed temporary place entry) dir path := by
  intro other hchanged
  by_contra hnone
  rw [not_or, not_or, not_and, h.of_file, h.of_temporary, Option.some.injEq, Option.some.injEq]
    at hnone
  obtain ⟨hplace, htemporary, hshared⟩ := hnone
  have hleads : ¬ t.LeadsTo dir (path ++ Disk.temporarySuffix) other := by
    intro hleads
    by_cases hunshared : t.Unshared dir (path ++ Disk.temporarySuffix)
    · have hother := hunshared.place?_of_leadsTo hleads
      exact htemporary (Option.some.inj (h.of_temporary.symm.trans hother))
    · exact hshared hunshared hleads
  refine hchanged (node?_congr ?_ ?_)
  · rw [entryAt?_renamed_of_ne _ (hwritten.ne_directory h.is_end.ne_directory) (Ne.symm htemporary)
      (Ne.symm hplace)]
    · exact hwritten.entryAt?_of_ne fun heq => hleads ⟨names, h.leads, .inl heq⟩
    · rwa [hentry, ne_eq, Option.some.injEq]
  · intro id' hid'
    rw [contents_renamed, hwritten.contents, if_neg]
    rintro rfl
    exact hleads ⟨names, h.leads, .inr ⟨_, hwritten.before_of_entryAt? hid', hid'⟩⟩

/-! ### A temporary file of its own -/

/-- What is at the place of a path itself. -/
def look? (t : FileTree) (dir : List Text) (path : Text) : Option FileNode :=
  (t.place? dir path).bind t.node?

/-- A new file is at `place`, and nothing is left at `temporary`. -/
structure Exchanged (t t' : FileTree) (temporary place : List Text) (id : Nat) (f : FileContents) :
    Prop where
  entry : ∀ other, t'.entryAt? other =
    if other = place then some (.file id) else if other = temporary then none else t.entryAt? other
  contents : t'.contents id = f

theorem Places.eq_of_unshared (h : t.Places dir path place temporary names)
    (hunshared : t.Unshared dir (path ++ Disk.temporarySuffix)) : names = temporary := by
  have hnames := hunshared.place?_of_leadsTo ⟨names, h.leads, .inl rfl⟩
  exact Option.some.inj (hnames.symm.trans h.of_temporary)

theorem Places.exchanged {between : FileTree} (h : t.Places dir path place temporary names)
    (hunshared : t.Unshared dir (path ++ Disk.temporarySuffix))
    (hwritten : Written t between names id f) (hentry : between.entryAt? temporary = some entry) :
    Exchanged t (between.renamed temporary place entry) temporary place id f := by
  obtain rfl := h.eq_of_unshared hunshared
  have heq : ∀ other, t.entryAt? other = some (.file id) → other = names := fun other hother =>
    hunshared names h.of_temporary _ (hwritten.before_of_entryAt? hother) other hother
  obtain rfl : .file id = entry := by
    rwa [hwritten.entry, if_pos rfl, Option.some.injEq] at hentry
  refine ⟨fun other => ?_, by rw [contents_renamed, hwritten.contents, if_pos rfl]⟩
  by_cases hsame : names = place
  · rw [renamed, if_pos (.inl hsame), hwritten.entry, hsame]
    split_ifs <;> rfl
  · have hdistinct : ¬ (between.entryAt? place).any (sameFile (.file id)) := by
      rw [hwritten.entryAt?_of_ne (Ne.symm hsame)]
      cases hplace : t.entryAt? place with
      | none => simp
      | some entry =>
        cases entry with
        | directory | link target => simp [sameFile]
        | file id' =>
          suffices id ≠ id' by simpa [sameFile]
          rintro rfl
          exact hsame (heq place hplace).symm
    rw [renamed, if_neg (not_or.mpr ⟨hsame, hdistinct⟩), entryAt?_moved (by simp [hentry])
      (hwritten.ne_directory h.is_end.ne_directory), hwritten.entry]
    split_ifs <;> rfl

theorem Exchanged.place?_eq (h : Exchanged t t' temporary place id f) (hend : t.IsEnd place)
    (htemporary : t.way? temporary = none) (hpath : t.place? dir path = some names) :
    t'.place? dir path = some names := by
  refine place?_of_ways hend ?_ hpath
  intro other hother
  unfold way? at htemporary ⊢
  rw [h.entry, if_neg hother]
  split_ifs with heq
  · rw [heq, htemporary]
    rfl
  · rfl

theorem Exchanged.node?_place (h : Exchanged t t' temporary place id f) :
    t'.node? place = some (.file f) := by
  rw [node?_eq_file_iff]
  refine ⟨id, ?_, ?_⟩
  · rw [h.entry, if_pos rfl]
  · exact h.contents

/-! ## Carrying out a plan -/

theorem fits_of_replaceLines {old new : Text} {span : Span}
    (h : replaceLines old span text = .ok new) : span.Fits (splitLines old).length := by
  rw [length_splitLines]
  unfold replaceLines at h
  dsimp only at h
  split_ifs at h with hfits
  exact hfits

/-- The file to which a path leads held the old text and holds the new one. Nothing is left at the
path of the temporary file, unless that is followed to the file itself. -/
structure RewrittenAt (t t' : FileTree) (dir : List Text) (path old new : Text) : Prop where
  held : ∃ f, t.find? dir path = some (.file f) ∧ f.text = old
  holds : t'.find? dir path = some (.file { bytes := new })
  at_temporary : t'.look? dir (path ++ Disk.temporarySuffix) =
    if 0 ∈ path then some (.file { bytes := new }) else none

theorem rewrittenAt_of_exchanged (h : t.Places dir path place temporary names)
    (htemporary : t.way? temporary = none) (hfind : t.find? dir path = some (.file f))
    (hexchanged : Exchanged t t' temporary place id { bytes := text }) :
    t.RewrittenAt t' dir path f.text text where
  held := ⟨f, hfind, rfl⟩
  holds := by
    have hplace := hexchanged.place?_eq h.is_end htemporary h.of_file
    refine find?_eq_some_iff.mpr ⟨place, resolve?_of_place? hplace ?_, hexchanged.node?_place⟩
    simp [hexchanged.entry]
  at_temporary := by
    unfold look?
    rw [hexchanged.place?_eq h.is_end htemporary h.of_temporary, Option.bind_some]
    split_ifs with hzero
    · have hsame := h.of_temporary
      rw [place?_append_of_zero hzero, h.of_file, Option.some.injEq] at hsame
      rw [← hsame, hexchanged.node?_place]
    · unfold node?
      rw [hexchanged.entry, if_neg (temporary_ne hzero h.of_file h.of_temporary), if_pos rfl]
      rfl

/-- What a plan that succeeds leaves. -/
structure Replaced (t t' : FileTree) (dir : List Text) (path old new : Text) : Prop where
  changed_at : t.ChangedAt t' dir path
  rewritten_at : t.Unshared dir (path ++ Disk.temporarySuffix) → t.RewrittenAt t' dir path old new

theorem replaceFile_cases {old : Text} (h : t.source dir path = .ok old) (new : Text) :
    let r := ((disk dir).replaceFile path new).run t
    (¬ t.Writable dir (path ++ Disk.temporarySuffix) ∧ ∃ e, r = (.error e, t)) ∨
    (t.Writable dir (path ++ Disk.temporarySuffix) ∧ r.1 = .ok () ∧
      t.Replaced r.2 dir path old new) := by
  intro r
  obtain ⟨f, hfind, -, rfl⟩ := source_eq_ok_iff.mp h
  by_cases hwrite : t.Writable dir (path ++ Disk.temporarySuffix)
  · obtain ⟨place, temporary, names, hplaces⟩ := exists_places hfind hwrite
    obtain ⟨between, id, entry, hwritten, hentry, hne, hr⟩ := replaceFile_of_places hplaces new
    rw [show r = _ from hr]
    refine .inr ⟨hwrite, rfl, hplaces.changedAt hwritten hentry hne, fun hunshared => ?_⟩
    have htemporary : t.way? temporary = none := by
      have hnames := hplaces.eq_of_unshared hunshared
      have hdir := hplaces.ne_directory
      have hlink := ne_link_of_resolve? hplaces.leads
      rw [hnames] at hdir hlink
      unfold way?
      cases hold : t.entryAt? temporary with
      | none => rfl
      | some entry => cases entry <;> simp_all
    exact rewrittenAt_of_exchanged hplaces htemporary hfind
      (hplaces.exchanged hunshared hwritten hentry)
  · exact .inl ⟨hwrite, _, replaceFile_of_not_writable hwrite⟩

theorem apply_run (t : FileTree) (dir : List Text) (root : Text) (plan : Plan) :
    ((disk dir).apply root plan).run t =
      match t.source dir (Disk.canonical root plan.file) with
      | .error e => (.error e, t)
      | .ok old =>
        match replaceLines old plan.range plan.text with
        | .error e => (.error (.outside e), t)
        | .ok new => ((disk dir).replaceFile (Disk.canonical root plan.file) new).run t := by
  unfold Disk.apply
  dsimp only
  rw [run_bind_eq, readSource_run]
  cases t.source dir (Disk.canonical root plan.file) with
  | error e => rfl
  | ok old =>
    dsimp only
    cases replaceLines old plan.range plan.text with
    | error e => rfl
    | ok new => rfl

/-- The target of a plan can be read and has the lines of the plan, and a file can be written at
the path of the temporary file. -/
structure Admits (t : FileTree) (dir : List Text) (target : Text) (plan : Plan) : Prop where
  readable : ∃ old, t.source dir target = .ok old ∧ plan.range.Fits (splitLines old).length
  writable : t.Writable dir (target ++ Disk.temporarySuffix)

/-- A plan that is not admitted changes nothing, and one that is admitted rewrites its target. -/
theorem apply_cases (t : FileTree) (dir : List Text) (root : Text) (plan : Plan) :
    let target := Disk.canonical root plan.file
    let r := ((disk dir).apply root plan).run t
    (¬ t.Admits dir target plan ∧ ∃ e, r = (.error e, t)) ∨
    (t.Admits dir target plan ∧ r.1 = .ok () ∧ ∃ old new, t.source dir target = .ok old ∧
      replaceLines old plan.range plan.text = .ok new ∧ t.Replaced r.2 dir target old new) := by
  intro target r
  have hr : r = _ := apply_run t dir root plan
  rw [show Disk.canonical root plan.file = target from rfl] at hr
  cases hsource : t.source dir target with
  | error e =>
    rw [hsource] at hr
    refine .inl ⟨?_, e, hr⟩
    rintro ⟨⟨old, hold, -⟩, -⟩
    simp [hsource] at hold
  | ok old =>
    rw [hsource] at hr
    dsimp only at hr
    cases hreplace : replaceLines old plan.range plan.text with
    | error e =>
      rw [hreplace] at hr
      refine .inl ⟨?_, _, hr⟩
      rintro ⟨⟨old', hold, hfits⟩, -⟩
      rw [hsource, Except.ok.injEq] at hold
      obtain ⟨before, cut, after, -, hok⟩ := exists_replaceLines (hold ▸ hfits)
      rw [hok plan.text] at hreplace
      cases hreplace
    | ok new =>
      rw [hreplace] at hr
      rw [hr]
      have hfits := fits_of_replaceLines hreplace
      rcases replaceFile_cases hsource new with ⟨hwrite, herror⟩ | ⟨hwrite, hok, hreplaced⟩
      · exact .inl ⟨fun hadmits => hwrite hadmits.writable, herror⟩
      · exact .inr ⟨⟨⟨old, hsource, hfits⟩, hwrite⟩, hok, old, new, rfl, hreplace, hreplaced⟩

theorem tree_of_apply_error {root : Text} {plan : Plan} {e : AccessError}
    (h : ((((disk dir).workspace root).apply plan).run t).1 = .error e) :
    ((((disk dir).workspace root).apply plan).run t).2 = t := by
  have hws : (((disk dir).workspace root).apply plan).run t =
    ((disk dir).apply root plan).run t := rfl
  rw [hws] at h ⊢
  rcases apply_cases t dir root plan with ⟨-, e', herror⟩ | ⟨-, hok, -⟩
  · rw [herror]
  · rw [h] at hok
    cases hok

theorem replaced_of_apply_ok {root : Text} {plan : Plan}
    (h : ((((disk dir).workspace root).apply plan).run t).1 = .ok ()) :
    t.Admits dir (Disk.canonical root plan.file) plan ∧
    ∃ old new, t.source dir (Disk.canonical root plan.file) = .ok old ∧
      replaceLines old plan.range plan.text = .ok new ∧
      t.Replaced ((((disk dir).workspace root).apply plan).run t).2 dir
        (Disk.canonical root plan.file) old new := by
  have hws : (((disk dir).workspace root).apply plan).run t =
    ((disk dir).apply root plan).run t := rfl
  rw [hws] at h ⊢
  rcases apply_cases t dir root plan with ⟨-, e, herror⟩ | ⟨hadmits, -, hreplaced⟩
  · rw [herror] at h
    cases h
  · exact ⟨hadmits, hreplaced⟩

theorem apply_ok_of_admits {root : Text} {plan : Plan}
    (h : t.Admits dir (Disk.canonical root plan.file) plan) :
    ((((disk dir).workspace root).apply plan).run t).1 = .ok () := by
  rcases apply_cases t dir root plan with ⟨hadmits, -⟩ | ⟨-, hok, -⟩
  · exact absurd h hadmits
  · exact hok

/-- A plan that fails changes nothing, and one that succeeds replaces the file. -/
theorem apply_all_or_nothing (t : FileTree) (dir : List Text) (root : Text) (plan : Plan) :
    let target := Disk.canonical root plan.file
    let r := (((disk dir).workspace root).apply plan).run t
    (∀ e, r.1 = .error e → r.2 = t) ∧
    (r.1 = .ok () → ∃ old new, t.source dir target = .ok old ∧
      plan.range.Fits (splitLines old).length ∧ replaceLines old plan.range plan.text = .ok new ∧
      t.ChangedAt r.2 dir target ∧
      (t.Unshared dir (target ++ Disk.temporarySuffix) →
        t.RewrittenAt r.2 dir target old new)) ∧
    (r.1 = .ok () ↔ t.Admits dir target plan) := by
  intro target r
  refine ⟨fun e => tree_of_apply_error, ?_, ?_, apply_ok_of_admits⟩
  · intro hok
    obtain ⟨-, old, new, hsource, hnew, hreplaced⟩ := replaced_of_apply_ok hok
    exact ⟨old, new, hsource, fits_of_replaceLines hnew, hnew, hreplaced.changed_at,
      hreplaced.rewritten_at⟩
  · exact fun hok => (replaced_of_apply_ok hok).1

theorem apply_all_or_nothing_spelled :
    let t := ((({} : FileTree).putFile ["w", "a.c"] { bytes := "x\ny\n" }).putFile
      ["w", "a.c.horder.tmp"] { bytes := "z" }).putFile ["w", "b.c"] { bytes := "x" }
    let t := t.makeDirectory ["w", "b.c.horder.tmp"]
    let ws := (disk ["w"]).workspace "/w"
    let r := (ws.apply ⟨"s/.././a.c", ⟨1, 1⟩, "v", []⟩).run t
    let r' := (ws.apply ⟨"/w/b.c", ⟨0, 0⟩, "v", []⟩).run t
    r.1 = .ok () ∧ r.2.find? ["w"] "/w/a.c" = some (.file { bytes := "x\nv\n" }) ∧
    r.2.look? ["w"] "/w/a.c.horder.tmp" = none ∧
    r'.1 = .error (.cannotWrite "/w/b.c.horder.tmp") ∧ r'.2 = t := by
  intro t' t ws r r'
  have hok : r.1 = .ok () := by decide +kernel
  have herror : r'.1 = .error (.cannotWrite "/w/b.c.horder.tmp") := by decide +kernel
  obtain ⟨-, happlied, -⟩ := apply_all_or_nothing t ["w"] "/w" ⟨"s/.././a.c", ⟨1, 1⟩, "v", []⟩
  obtain ⟨hfailed, -, -⟩ := apply_all_or_nothing t ["w"] "/w" ⟨"/w/b.c", ⟨0, 0⟩, "v", []⟩
  obtain ⟨old, new, hsource, -, hnew, -, hrewritten⟩ := happlied hok
  have htarget : Disk.canonical "/w" "s/.././a.c" = "/w/a.c" := by decide
  rw [htarget] at hsource hrewritten
  have hold : t.source ["w"] "/w/a.c" = .ok "x\ny\n" := by decide +kernel
  rw [hold] at hsource
  cases hsource
  have hedited : replaceLines "x\ny\n" ⟨1, 1⟩ "v" = .ok "x\nv\n" := by decide
  rw [show replaceLines "x\ny\n" ⟨1, 1⟩ "v" = .ok new from hnew] at hedited
  cases hedited
  have hunshared : t.Unshared ["w"] ("/w/a.c" ++ Disk.temporarySuffix) := by decide +kernel
  have hzero : (0 : Byte) ∉ ofString "/w/a.c" := by decide
  have htemporary := (hrewritten hunshared).at_temporary
  rw [if_neg hzero] at htemporary
  exact ⟨hok, (hrewritten hunshared).holds, htemporary, herror, hfailed _ herror⟩

/-- The path of the temporary file leads to the target or to another file. -/
theorem apply_through_temporary :
    let t := (({} : FileTree).putFile ["a.c"] { bytes := "x" }).putFile ["b.c"] { bytes := "y" }
    let place := ["a.c.horder.tmp"]
    let apply := fun (t : FileTree) (file : Text) =>
      (((disk []).workspace "/").apply ⟨file, ⟨0, 0⟩, "v", []⟩).run t
    let zero := apply t "a.c\x00b"
    let other := apply (t.putLink place "b.c") "a.c"
    let itself := apply (t.putLink place "a.c") "a.c"
    let second := apply (t.put place (.file 0)) "a.c"
    (zero.1 = .ok () ∧ zero.2.find? [] (Disk.canonical "/" "a.c\x00b" ++ Disk.temporarySuffix) =
      some (.file { bytes := "v" })) ∧
    (other.1 = .ok () ∧ other.2.find? [] "/b.c" = some (.file { bytes := "v" })) ∧
    (itself.1 = .ok () ∧ itself.2.find? [] "/a.c" = none) ∧
    (second.1 = .ok () ∧ second.2.find? [] "/a.c.horder.tmp" = some (.file { bytes := "v" })) := by
  decide +kernel

end FileTree

end HeaderOrder

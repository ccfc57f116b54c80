import HeaderOrder.Proofs.FileTree
import HeaderOrder.Proofs.Glob
import HeaderOrder.Proofs.Path
import HeaderOrder.Proofs.Table
import Mathlib.Data.List.Nodup
import Mathlib.Data.List.Pairwise

/-!
# The candidates of a query

The walk leaves out whole directories, and the files are told from the tree alone.
-/

namespace HeaderOrder

open Byte Text

/-! ## The order of bytes -/

namespace Text

variable {s t u : Text}

/-- At the first place where the texts differ, the first one ends or has the smaller byte. -/
inductive Precedes : Text → Text → Prop where
  | shorter (b : Byte) (t : Text) : Precedes [] (b :: t)
  | smaller {a b : Byte} (h : a < b) (s t : Text) : Precedes (a :: s) (b :: t)
  | later (b : Byte) {s t : Text} (h : Precedes s t) : Precedes (b :: s) (b :: t)

theorem precedes_of_le (hle : le s t = true) (hne : s ≠ t) : Precedes s t := by
  induction s generalizing t with
  | nil =>
    obtain ⟨b, t, rfl⟩ := List.exists_cons_of_ne_nil hne.symm
    exact .shorter b t
  | cons a s ih =>
    cases t with
    | nil => simp [le] at hle
    | cons b t =>
      rw [le] at hle
      split_ifs at hle with hab
      · subst hab
        exact .later a (ih hle fun heq => hne (by rw [heq]))
      · exact .smaller (by simpa using hle) s t

theorem le_trans (hst : le s t = true) (htu : le t u = true) : le s u = true := by
  induction s generalizing t u with
  | nil => rfl
  | cons a s ih =>
    cases t with
    | nil => simp [le] at hst
    | cons b t =>
      cases u with
      | nil => simp [le] at htu
      | cons c u =>
        rw [le] at hst htu ⊢
        by_cases hab : a = b
        · subst hab
          rw [if_pos rfl] at hst
          by_cases hac : a = c
          · rw [if_pos hac] at htu ⊢
            exact ih hst htu
          · rw [if_neg hac] at htu ⊢
            exact htu
        · rw [if_neg hab] at hst
          have hlt : a < b := by simpa using hst
          by_cases hbc : b = c
          · subst hbc
            rw [if_neg hab]
            exact hst
          · rw [if_neg hbc] at htu
            have hac : a < c := UInt8.lt_trans hlt (by simpa using htu)
            rw [if_neg (UInt8.ne_of_lt hac)]
            simpa using hac

theorem le_total (s t : Text) : (le s t || le t s) = true := by
  induction s generalizing t with
  | nil => simp [le]
  | cons a s ih =>
    cases t with
    | nil => simp [le]
    | cons b t =>
      by_cases hab : a = b
      · subst hab
        simpa [le] using ih t
      · have hlt : a < b ∨ b < a := by
          rw [UInt8.lt_iff_toNat_lt, UInt8.lt_iff_toNat_lt]
          have : a.toNat ≠ b.toNat := fun h => hab (UInt8.toNat_inj.mp h)
          omega
        simpa [le, hab, Ne.symm hab] using hlt

theorem pairwise_mergeSort {ls : List Text} (h : ls.Nodup) :
    (ls.mergeSort le).Pairwise Precedes := by
  have hsorted : (ls.mergeSort le).Pairwise (le · · = true) :=
    @List.pairwise_mergeSort Text le (fun _ _ _ => le_trans) le_total ls
  have hnodup : (ls.mergeSort le).Nodup := (List.mergeSort_perm ls le).nodup_iff.mpr h
  exact (hsorted.and hnodup).imp fun ⟨hle, hne⟩ => precedes_of_le hle hne

end Text

namespace FileTree

variable {t : FileTree} {dir names rest above : List Text} {root : Text} {query : Query}
  {leads enters : List Text → Bool} {entry : DirEntry}

/-! ## Trees -/

/-- The names are those of a disk: each is there once, can be written in a path, and is in a
directory. -/
structure IsProper (t : FileTree) : Prop where
  nodup : t.nodes.keys.Nodup
  names : ∀ key ∈ t.nodes.keys, ∀ name ∈ key,
    name ≠ [] ∧ name ≠ Path.here ∧ name ≠ Path.above ∧ slash ∉ name
  parents : ∀ key ∈ t.nodes.keys, key ≠ [] ∧ t.entryAt? key.dropLast = some .directory

theorem mem_keys_of_entryAt? (hne : names ≠ []) (h : t.entryAt? names = some entry) :
    names ∈ t.nodes.keys := by
  rw [entryAt?, if_neg hne] at h
  rw [Table.mem_keys_iff, Table.contains, h]
  rfl

theorem IsProper.directory (h : t.IsProper) (hrest : rest ≠ [])
    (hentry : t.entryAt? (names ++ rest) = some entry) : t.entryAt? names = some .directory := by
  induction hn : rest.length generalizing rest entry with
  | zero => exact absurd (List.length_eq_zero_iff.mp hn) hrest
  | succ n ih =>
    have hkey := mem_keys_of_entryAt? (List.append_ne_nil_of_right_ne_nil names hrest) hentry
    obtain ⟨-, hparent⟩ := h.parents _ hkey
    rw [List.dropLast_append_of_ne_nil hrest] at hparent
    rcases eq_or_ne rest.dropLast [] with hnil | hne
    · rwa [hnil, List.append_nil] at hparent
    · exact ih hne hparent (by rw [List.length_dropLast, hn]; rfl)

/-! ## Walks -/

/-- Each directory on the way down passes the test. -/
def entered (enters : List Text → Bool) (rest : List Text) : Bool :=
  (List.range rest.length).all fun n => n = 0 || enters (rest.take n)

theorem entered_iff : entered enters rest = true ↔
    ∀ above, above <+: rest → above ≠ [] → above ≠ rest → enters above = true := by
  unfold entered
  simp only [List.all_eq_true, List.mem_range, Bool.or_eq_true, decide_eq_true_eq]
  constructor
  · intro h above hfront hnil hne
    have hlt : above.length < rest.length :=
      Nat.lt_of_le_of_ne hfront.length_le fun heq => hne (hfront.eq_of_length heq)
    have htake := (h above.length hlt).resolve_left (by simpa using hnil)
    rwa [← List.prefix_iff_eq_take.mp hfront] at htake
  · intro h n hlt
    rcases Nat.eq_zero_or_pos n with h0 | hpos
    · exact Or.inl h0
    · have hlength : (rest.take n).length = n := List.length_take_of_le hlt.le
      refine Or.inr (h _ (List.take_prefix n rest) ?_ ?_)
      · exact List.ne_nil_of_length_pos (by omega)
      · intro heq
        rw [heq] at hlength
        omega

/-- A walk that leaves out directories finds what is left of a walk that enters all. -/
theorem filesBelow_eq_filter (t : FileTree) (names : List Text) (leads enters : List Text → Bool) :
    t.filesBelow names leads enters =
      (t.filesBelow names leads fun _ => true).filter (entered enters) := by
  unfold filesBelow
  rw [List.filter_filterMap]
  refine List.filterMap_congr fun ⟨key, entry⟩ _ => ?_
  dsimp only
  rw [Option.filter_filter]
  congr 1
  funext rest
  rw [Bool.eq_iff_iff]
  simp [entered, and_assoc]

theorem mem_filesBelow_iff (h : t.nodes.keys.Nodup) : rest ∈ t.filesBelow names leads enters ↔
    rest ≠ [] ∧
      (∃ entry, t.entryAt? (names ++ rest) = some entry ∧ entry.isFile (leads rest) = true) ∧
      entered enters rest = true := by
  have hentry (hne : rest ≠ []) (entry : DirEntry) :
      t.entryAt? (names ++ rest) = some entry ↔ (names ++ rest, entry) ∈ t.nodes.entries := by
    rw [entryAt?, if_neg (List.append_ne_nil_of_right_ne_nil names hne), Table.get?_eq_some_iff h]
  unfold filesBelow
  rw [List.mem_filterMap]
  simp only [Option.filter_eq_some_iff, List.isPrefixOf?_eq_some_iff_append_eq, decide_eq_true_eq]
  constructor
  · rintro ⟨⟨key, entry⟩, hmem, rfl, hne, hfile, hentered⟩
    exact ⟨hne, ⟨entry, (hentry hne _).mpr hmem, hfile⟩, hentered⟩
  · rintro ⟨hne, ⟨entry, hmem, hfile⟩, hentered⟩
    exact ⟨⟨names ++ rest, entry⟩, (hentry hne _).mp hmem, rfl, hne, hfile, hentered⟩

theorem nodup_filesBelow (h : t.nodes.keys.Nodup) (names : List Text)
    (leads enters : List Text → Bool) : (t.filesBelow names leads enters).Nodup := by
  have hkeys : t.nodes.entries.Pairwise (·.1 ≠ ·.1) := List.pairwise_map.mp h
  refine List.pairwise_filterMap.mpr (hkeys.imp ?_)
  rintro ⟨key, entry⟩ ⟨key', entry'⟩ hne rest hrest _ hrest' rfl
  -- What is found below a place tells its key.
  have hkey := (Option.filter_eq_some_iff.mp hrest).1
  have hkey' := (Option.filter_eq_some_iff.mp hrest').1
  rw [List.isPrefixOf?_eq_some_iff_append_eq] at hkey hkey'
  exact hne (hkey.symm.trans hkey')

/-! ## Files of a query -/

/-- The path of what is below a directory, as seen from the directory. -/
def pathBelow (rest : List Text) : Text := [slash].intercalate rest

/-- Below the root is a file of this name, or a link that leads to a file. -/
def HasFile (t : FileTree) (dir : List Text) (root : Text) (names rest : List Text) : Prop :=
  ∃ entry, t.entryAt? (names ++ rest) = some entry ∧
    entry.isFile (t.isFile dir (Path.join root (pathBelow rest))) = true

/-- The names lead down to a file, and its path is one that the query includes and does not
exclude. -/
structure Wanted (t : FileTree) (dir : List Text) (root : Text) (query : Query)
    (names rest : List Text) : Prop where
  below : rest ≠ []
  hasFile : t.HasFile dir root names rest
  included : (Glob.ofText query.included).accepts (pathBelow rest) = true
  notExcluded : (Glob.ofText query.excluded).accepts (pathBelow rest) = false

/-- No directory on the way down is excluded by its path with a slash at the end. -/
def Reachable (query : Query) (rest : List Text) : Prop :=
  ∀ above, above <+: rest → above ≠ [] → above ≠ rest →
    (Glob.ofText query.excluded).accepts (pathBelow above ++ [slash]) = false

theorem pathBelow_append {above rest : List Text} (habove : above ≠ []) (hrest : rest ≠ []) :
    pathBelow (above ++ rest) = pathBelow above ++ [slash] ++ pathBelow rest := by
  unfold pathBelow
  rw [Text.intercalate_append habove hrest]

/-- A pattern that covers subtrees excludes a file with each directory on the way to it. -/
theorem reachable_of_covers (hcovers : Glob.CoversSubtrees query.excluded)
    (h : (Glob.ofText query.excluded).accepts (pathBelow rest) = false) :
    Reachable query rest := by
  rintro above ⟨below, rfl⟩ habove hne
  have hbelow : below ≠ [] := by
    rintro rfl
    exact hne (List.append_nil above).symm
  rw [pathBelow_append habove hbelow] at h
  rw [Bool.eq_false_iff] at h ⊢
  intro hacc
  exact h (hcovers.accepts_append hacc _)

/-! ## Paths of files -/

section Paths

variable {top : List Text} {rests : List (List Text)}

theorem canonical_pathBelow (h : ∀ n ∈ top ++ rest, Path.IsName n) (hne : rest ≠ []) :
    Disk.canonical (Path.rootedText top) (pathBelow rest) = Path.rootedText (top ++ rest) := by
  obtain ⟨htop, hrest⟩ := List.forall_mem_append.mp h
  unfold Disk.canonical Path.absolute pathBelow
  rw [if_neg (by simp [Path.isAbsolute_intercalate hrest hne]), Path.join_rootedText htop hne,
    Path.normalize_rootedText h]

theorem relativeTo_pathBelow (h : ∀ n ∈ top ++ rest, Path.IsName n) (hne : rest ≠ []) :
    Path.relativeTo (Path.join (Path.rootedText top) (pathBelow rest)) (Path.rootedText top) =
      pathBelow rest := by
  unfold pathBelow
  rw [Path.join_rootedText (List.forall_mem_append.mp h).1 hne, Path.relativeTo_rootedText h hne]

def chosen (query : Query) (rest : List Text) : Bool :=
  (Glob.ofText query.included).accepts (pathBelow rest) &&
    !(Glob.ofText query.excluded).accepts (pathBelow rest)

def sortedPaths (top : List Text) (rests : List (List Text)) : List Text :=
  (rests.map fun rest => Path.rootedText (top ++ rest)).mergeSort le

theorem pairwise_sortedPaths (hrests : ∀ rest ∈ rests, ∀ n ∈ top ++ rest, Path.IsName n)
    (h : rests.Nodup) : (sortedPaths top rests).Pairwise Precedes := by
  refine pairwise_mergeSort (h.map_on ?_)
  intro rest hmem rest' hmem' heq
  exact List.append_cancel_left
    (Path.rootedText_inj (hrests rest hmem) (hrests rest' hmem') heq)

theorem select_map (query : Query)
    (hrests : ∀ rest ∈ rests, rest ≠ [] ∧ ∀ n ∈ top ++ rest, Path.IsName n) :
    Disk.select query (Path.rootedText top)
        (rests.map fun rest => Path.join (Path.rootedText top) (pathBelow rest)) =
      (sortedPaths top (rests.filter (chosen query))).take query.limit := by
  have hrelative : (rests.map fun rest => Path.join (Path.rootedText top) (pathBelow rest)).map
      (Path.relativeTo · (Path.rootedText top)) = rests.map pathBelow := by
    rw [List.map_map]
    exact List.map_congr_left fun rest hrest =>
      relativeTo_pathBelow (hrests rest hrest).2 (hrests rest hrest).1
  have hcanonical : ((rests.filter (chosen query)).map pathBelow).map
      (Disk.canonical (Path.rootedText top)) =
      (rests.filter (chosen query)).map fun rest => Path.rootedText (top ++ rest) := by
    rw [List.map_map]
    refine List.map_congr_left fun rest hrest => ?_
    obtain ⟨hne, hnames⟩ := hrests rest (List.mem_of_mem_filter hrest)
    exact canonical_pathBelow hnames hne
  unfold Disk.select sortedPaths
  dsimp only
  rw [hrelative, List.filter_map, ← hcanonical]
  rfl

end Paths

/-! ## What a walk gives to a query -/

def filesFrom (t : FileTree) (dir : List Text) (root : Text) (enters : Text → Bool) :
    List (List Text) :=
  (t.resolve? dir root).elim [] fun names =>
    t.filesBelow names (fun rest => t.isFile dir (Path.join root (pathBelow rest)))
      fun rest => enters (Path.join root (pathBelow rest))

theorem walk_run (t : FileTree) (dir : List Text) (root : Text) (enters : Text → Bool) :
    ((disk dir).walk root enters).run t =
      ((t.filesFrom dir root enters).map fun rest => Path.join root (pathBelow rest), t) := by
  unfold filesFrom
  cases hroot : t.resolve? dir root with
  | none => simp [disk, StateT.run, hroot]
  | some names =>
    simp only [disk, StateT.run, hroot]
    rfl

theorem mem_filesFrom_iff (h : t.nodes.keys.Nodup) {enters : Text → Bool} :
    rest ∈ t.filesFrom dir root enters ↔ ∃ names, t.resolve? dir root = some names ∧ rest ≠ [] ∧
      t.HasFile dir root names rest ∧
      entered (fun above => enters (Path.join root (pathBelow above))) rest = true := by
  unfold filesFrom
  cases t.resolve? dir root with
  | none => simp
  | some names => simp [mem_filesBelow_iff h, HasFile]

theorem nodup_filesFrom (h : t.nodes.keys.Nodup) (dir : List Text) (root : Text)
    (enters : Text → Bool) : (t.filesFrom dir root enters).Nodup := by
  unfold filesFrom
  cases t.resolve? dir root with
  | none => exact List.nodup_nil
  | some names =>
    rw [Option.elim_some]
    exact nodup_filesBelow h names _ _

theorem filesFrom_eq_filter (t : FileTree) (dir : List Text) (root : Text) (enters : Text → Bool) :
    t.filesFrom dir root enters = (t.filesFrom dir root fun _ => true).filter
      (entered fun above => enters (Path.join root (pathBelow above))) := by
  unfold filesFrom
  cases t.resolve? dir root with
  | none => rfl
  | some names =>
    rw [Option.elim_some]
    exact filesBelow_eq_filter t names _ _

theorem IsProper.filesFrom_of_find? (h : t.IsProper)
    (hroot : t.find? dir root ≠ some .directory) (enters : Text → Bool) :
    t.filesFrom dir root enters = [] := by
  refine List.eq_nil_iff_forall_not_mem.mpr fun rest hmem => hroot ?_
  obtain ⟨names, hnames, hne, ⟨entry, hentry, -⟩, -⟩ := (mem_filesFrom_iff h.nodup).mp hmem
  refine find?_eq_some_iff.mpr ⟨names, hnames, ?_⟩
  rw [node?, h.directory hne hentry]
  rfl

theorem IsProper.candidates_run (h : t.IsProper) (dir : List Text) (root : Text) (query : Query) :
    ((disk dir).candidates root query).run t = (Disk.select query root
      (((disk dir).walk root (Disk.enters (Glob.ofText query.excluded) root)).run t).1, t) := by
  unfold Disk.candidates
  split_ifs with hnone
  · have hempty : ∀ files, Disk.select query root files = [] := by
      intro files
      unfold Disk.select
      rcases hnone with hincluded | hlimit
      · simp [hincluded, Glob.ofText, Glob.accepts]
      · simp [hlimit]
    rw [hempty]
    rfl
  · rw [run_bind_eq]
    by_cases hdir : t.find? dir root = some .directory
    · have hentry : (Disk.entry? (disk dir) root).run t = (some .directory, t) := by
        simp [disk, StateT.run, hdir, FileNode.told?]
      rw [hentry]
      rfl
    · have hentry : ∃ entry, entry ≠ some .directory ∧
          (Disk.entry? (disk dir) root).run t = (entry, t) := by
        rcases hfind : t.find? dir root with _ | _ | f | target
        · exact ⟨none, by simp, by simp [disk, StateT.run, hfind]⟩
        · exact absurd hfind hdir
        · exact ⟨some (.file f.size), by simp, by simp [disk, StateT.run, hfind, FileNode.told?]⟩
        · exact ⟨none, by simp, by simp [disk, StateT.run, hfind, FileNode.told?]⟩
      obtain ⟨entry, hne, hentry⟩ := hentry
      have hselect : Disk.select query root [] = [] := by simp [Disk.select]
      rw [hentry, walk_run, h.filesFrom_of_find? hdir, List.map_nil, hselect]
      rcases entry with _ | _ | size
      · rfl
      · exact absurd rfl hne
      · rfl

/-! ## Exactly the wanted files -/

theorem exists_absoluteRoot (dir : List Text) (path : Text) :
    ∃ top, (disk dir).absoluteRoot path = Path.rootedText top ∧ ∀ n ∈ top, Path.IsName n :=
  Path.exists_rootedText (Path.isAbsolute_absolute rfl _)

/-- The path is that of a wanted file below the root, to which the way is not cut off. -/
def IsCandidate (t : FileTree) (dir : List Text) (root : Text) (query : Query) (path : Text) :
    Prop :=
  ∃ names rest, t.resolve? dir root = some names ∧
    t.Wanted dir root query names rest ∧ Reachable query rest ∧
      path = Disk.canonical root (pathBelow rest)

def chosenFrom (t : FileTree) (dir top : List Text) (query : Query) (enters : Text → Bool) :
    List (List Text) :=
  (t.filesFrom dir (Path.rootedText top) enters).filter (chosen query)

def entersBelow (query : Query) (top : List Text) : Text → Bool :=
  Disk.enters (Glob.ofText query.excluded) (Path.rootedText top)

theorem entered_iff_reachable {top : List Text} (h : ∀ n ∈ top ++ rest, Path.IsName n) :
    entered (fun above => entersBelow query top (Path.join (Path.rootedText top) (pathBelow above)))
      rest = true ↔ Reachable query rest := by
  obtain ⟨htop, hrest⟩ := List.forall_mem_append.mp h
  rw [entered_iff]
  refine forall_congr' fun above => forall_congr' fun hfront => forall_congr' fun hne =>
    forall_congr' fun _ => ?_
  have habove : ∀ n ∈ top ++ above, Path.IsName n :=
    List.forall_mem_append.mpr ⟨htop, fun n hn => hrest n (hfront.subset hn)⟩
  rw [entersBelow, Disk.enters, relativeTo_pathBelow habove hne, Bool.not_eq_true']

section Exact

variable {top : List Text} (h : t.IsProper)
  (hplain : ∀ key ∈ t.nodes.keys, ∀ name ∈ key, backslash ∉ name)
  (htop : ∀ n ∈ top, Path.IsName n)

include h hplain htop

theorem isName_of_hasFile (hrest : rest ≠ []) (hfile : t.HasFile dir root names rest) :
    ∀ n ∈ top ++ rest, Path.IsName n := by
  obtain ⟨entry, hentry, -⟩ := hfile
  refine List.forall_mem_append.mpr ⟨htop, fun n hn => ?_⟩
  have hkey := mem_keys_of_entryAt? (List.append_ne_nil_of_right_ne_nil names hrest) hentry
  have hin : n ∈ names ++ rest := List.mem_append_right names hn
  obtain ⟨hnil, hhere, habove, hslash⟩ := h.names _ hkey n hin
  refine ⟨hnil, hhere, habove, fun b hb => ?_⟩
  rw [Path.isSeparator, Bool.or_eq_false_iff, beq_eq_false_iff_ne, beq_eq_false_iff_ne]
  exact ⟨ne_of_mem_of_not_mem hb hslash, ne_of_mem_of_not_mem hb (hplain _ hkey n hin)⟩

theorem isName_of_mem {enters : Text → Bool}
    (hmem : rest ∈ t.filesFrom dir (Path.rootedText top) enters) :
    rest ≠ [] ∧ ∀ n ∈ top ++ rest, Path.IsName n := by
  obtain ⟨_, -, hne, hfile, -⟩ := (mem_filesFrom_iff h.nodup).mp hmem
  exact ⟨hne, isName_of_hasFile h hplain htop hne hfile⟩

theorem select_walk (dir : List Text) (query : Query) (enters : Text → Bool) :
    Disk.select query (Path.rootedText top)
        (((disk dir).walk (Path.rootedText top) enters).run t).1 =
      (sortedPaths top (t.chosenFrom dir top query enters)).take query.limit := by
  rw [walk_run]
  exact select_map query fun rest hmem => isName_of_mem h hplain htop hmem

theorem pairwise_chosenFrom (dir : List Text) (query : Query) (enters : Text → Bool) :
    (sortedPaths top (t.chosenFrom dir top query enters)).Pairwise Precedes := by
  refine pairwise_sortedPaths (fun rest hmem => ?_) ((nodup_filesFrom h.nodup _ _ _).filter _)
  exact (isName_of_mem h hplain htop (List.mem_of_mem_filter hmem)).2

theorem mem_chosenFrom_iff :
    rest ∈ t.chosenFrom dir top query (entersBelow query top) ↔
      ∃ names, t.resolve? dir (Path.rootedText top) = some names ∧
        t.Wanted dir (Path.rootedText top) query names rest ∧ Reachable query rest := by
  unfold chosenFrom chosen
  rw [List.mem_filter, mem_filesFrom_iff h.nodup, Bool.and_eq_true, Bool.not_eq_true']
  constructor
  · rintro ⟨⟨names, hnames, hne, hfile, hentered⟩, hincluded, hexcluded⟩
    exact ⟨names, hnames, ⟨hne, hfile, hincluded, hexcluded⟩,
      (entered_iff_reachable (isName_of_hasFile h hplain htop hne hfile)).mp hentered⟩
  · rintro ⟨names, hnames, ⟨hne, hfile, hincluded, hexcluded⟩, hreach⟩
    exact ⟨⟨names, hnames, hne, hfile,
      (entered_iff_reachable (isName_of_hasFile h hplain htop hne hfile)).mpr hreach⟩,
      hincluded, hexcluded⟩

theorem mem_sortedPaths_iff {path : Text} :
    path ∈ sortedPaths top (t.chosenFrom dir top query (entersBelow query top)) ↔
      t.IsCandidate dir (Path.rootedText top) query path := by
  have hcanonical {names rest : List Text}
      (hwanted : t.Wanted dir (Path.rootedText top) query names rest) :
      Disk.canonical (Path.rootedText top) (pathBelow rest) = Path.rootedText (top ++ rest) :=
    canonical_pathBelow (isName_of_hasFile h hplain htop hwanted.below hwanted.hasFile)
      hwanted.below
  unfold sortedPaths IsCandidate
  rw [List.mem_mergeSort, List.mem_map]
  constructor
  · rintro ⟨rest, hmem, rfl⟩
    obtain ⟨names, hnames, hwanted, hreach⟩ := (mem_chosenFrom_iff h hplain htop).mp hmem
    exact ⟨names, rest, hnames, hwanted, hreach, (hcanonical hwanted).symm⟩
  · rintro ⟨names, rest, hnames, hwanted, hreach, rfl⟩
    exact ⟨rest, (mem_chosenFrom_iff h hplain htop).mpr ⟨names, hnames, hwanted, hreach⟩,
      (hcanonical hwanted).symm⟩

theorem chosenFrom_of_covers (dir : List Text) (hcovers : Glob.CoversSubtrees query.excluded) :
    t.chosenFrom dir top query (entersBelow query top) =
      t.chosenFrom dir top query fun _ => true := by
  unfold chosenFrom
  rw [filesFrom_eq_filter, List.filter_filter]
  refine List.filter_congr fun rest hmem => ?_
  cases hchosen : chosen query rest with
  | false => rfl
  | true =>
    rw [chosen, Bool.and_eq_true, Bool.not_eq_true'] at hchosen
    rw [Bool.true_and, entered_iff_reachable (isName_of_mem h hplain htop hmem).2]
    exact reachable_of_covers hcovers hchosen.2

end Exact

/-- The candidates of a query are the first of its files, in the order of their paths. -/
theorem candidates_exact (h : t.IsProper)
    (hplain : ∀ key ∈ t.nodes.keys, ∀ name ∈ key, backslash ∉ name)
    (dir : List Text) (path : Text) (query : Query) :
    let root := (disk dir).absoluteRoot path
    (∃ paths : List Text, paths.Pairwise Precedes ∧
      (∀ p, p ∈ paths ↔ t.IsCandidate dir root query p) ∧
      (((disk dir).workspace root).candidates query).run t = (paths.take query.limit, t)) ∧
    (Glob.CoversSubtrees query.excluded →
      (∀ names rest, t.Wanted dir root query names rest → Reachable query rest) ∧
      (((disk dir).workspace root).candidates query).run t =
        (Disk.select query root (((disk dir).walk root fun _ => true).run t).1, t)) := by
  obtain ⟨top, hroot, htop⟩ := exists_absoluteRoot dir path
  rw [hroot]
  have hrun : (((disk dir).workspace (Path.rootedText top)).candidates query).run t =
      ((sortedPaths top (t.chosenFrom dir top query (entersBelow query top))).take
        query.limit, t) := by
    rw [← select_walk h hplain htop]
    exact h.candidates_run dir _ query
  refine ⟨⟨_, pairwise_chosenFrom h hplain htop dir query _, fun p =>
    mem_sortedPaths_iff h hplain htop, hrun⟩, fun hcovers => ⟨?_, ?_⟩⟩
  · exact fun _ _ hwanted => reachable_of_covers hcovers hwanted.notExcluded
  · rw [hrun, chosenFrom_of_covers h hplain htop dir hcovers, select_walk h hplain htop]

theorem candidates_exact_generated :
    let t : FileTree := ⟨⟨[(["ws"], .directory), (["ws", "b.cpp"], .file 0),
      (["ws", "gen"], .directory), (["ws", "gen", "c.cpp"], .file 1),
      (["ws", "a.cpp"], .link "b.cpp")]⟩, {}⟩
    let query : Query := { included := "**/*.cpp", excluded := "**/gen/**", limit := 1 }
    let root := (disk ["ws"]).absoluteRoot "."
    t.IsProper ∧ (∀ key ∈ t.nodes.keys, ∀ name ∈ key, backslash ∉ name) ∧
      (∃ paths : List Text, paths.Pairwise Precedes ∧
        (∀ p, p ∈ paths ↔ t.IsCandidate ["ws"] root query p) ∧
        (((disk ["ws"]).workspace root).candidates query).run t = (paths.take 1, t)) ∧
      (((disk ["ws"]).workspace root).candidates query).run t =
        (Disk.select query root (((disk ["ws"]).walk root fun _ => true).run t).1, t) := by
  intro t query root
  have hproper : t.IsProper := ⟨by decide, by decide, by decide⟩
  have hplain : ∀ key ∈ t.nodes.keys, ∀ name ∈ key, backslash ∉ name := by decide
  have hcovers : Glob.CoversSubtrees query.excluded :=
    Glob.coversSubtrees_of_group? (by decide) (by decide)
  obtain ⟨hpaths, hall⟩ := candidates_exact hproper hplain ["ws"] "." query
  exact ⟨hproper, hplain, hpaths, (hall hcovers).2⟩

end FileTree

end HeaderOrder

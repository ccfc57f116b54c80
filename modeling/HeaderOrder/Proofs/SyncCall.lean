import HeaderOrder.Proofs.Run
import HeaderOrder.Proofs.Target

/-!
# What a sync writes

A sync that is carried out is a call, with the session and the files it is carried out on.
-/

namespace HeaderOrder

open Byte Text

/-! ## Places -/

theorem Disk.canonical_canonical {root : Text} (h : Path.isAbsolute root = true) (path : Text) :
    canonical root (canonical root path) = canonical root path := by
  have habsolute : Path.isAbsolute (canonical root path) = true :=
    Path.isAbsolute_normalize (Path.isAbsolute_absolute h path)
  rw [canonical, Path.absolute, if_pos habsolute]
  exact Path.normalize_normalize _

theorem FileTree.isAbsolute_absoluteRoot (dir : List Text) (root : Text) :
    Path.isAbsolute ((disk dir).absoluteRoot root) = true :=
  Path.isAbsolute_normalize (Path.isAbsolute_absolute rfl _)

theorem FileTree.lineNumber_of_source {t : FileTree} {dir : List Text} {path text : Text} {n : Nat}
    (h : t.source dir path = .ok text) (hn : n < (splitLines text).length) :
    lineNumber n = decimal (n + 1) := by
  have hlines := length_lines_le text
  have hlength := length_le_of_source h
  rw [length_splitLines] at hn
  unfold Disk.sourceLimit at hlength
  rw [lineNumber, Nat.mod_eq_of_lt]
  unfold wordSize
  omega

/-! ## Calls -/

/-- A sync that a run carries out. The header and the chosen file are paths from the root. -/
structure SyncCall where
  session : Session
  tree : FileTree
  root : Text
  quiet : Bool
  /-- A sync from the command line scans its header first. -/
  scansFirst : Bool
  header : Text
  target : Option Text
  dryRun : Bool
  absolute : Path.isAbsolute root = true

namespace SyncCall

variable {c : SyncCall} {dir : List Text} {plan : Plan} {s : Session}

def workspace (c : SyncCall) (dir : List Text) : Workspace (StateM FileTree) :=
  (FileTree.disk dir).workspace c.root

theorem steady (c : SyncCall) (dir : List Text) : (c.workspace dir).Steady :=
  FileTree.steady_workspace dir c.root

def run (c : SyncCall) (dir : List Text) : (Reply × Session) × FileTree :=
  let sync := fun s : Session => s.syncReply (c.workspace dir) c.quiet c.dryRun c.header c.target
  (if c.scansFirst then c.session.scanFirst (c.workspace dir) c.header sync
    else sync c.session).run c.tree

def reply (c : SyncCall) (dir : List Text) : Reply := (c.run dir).1.1

def after (c : SyncCall) (dir : List Text) : FileTree := (c.run dir).2

/-- The session that syncs, or the reply when the header cannot be scanned first. -/
def start (c : SyncCall) (dir : List Text) : Except (Reply × Session) Session :=
  if c.scansFirst then
    match ((c.session.scan (c.workspace dir) c.header).run c.tree).1 with
    | (.error e, s) => .error (.after s.flush.1 (.failure e.message), s.flush.2)
    | (.ok _, s) => .ok s
  else
    .ok c.session

def plan? (c : SyncCall) (dir : List Text) : Option Plan := do
  let s ← (c.start dir).toOption
  let target ← c.target
  Session.planned? ((s.sync (c.workspace dir) c.header target).run c.tree).1.1

theorem run_eq (c : SyncCall) (dir : List Text) : c.run dir = match c.start dir with
    | .error r => (r, c.tree)
    | .ok s => (s.syncReply (c.workspace dir) c.quiet c.dryRun c.header c.target).run c.tree := by
  unfold run start
  dsimp only
  cases c.scansFirst with
  | false => rfl
  | true =>
    rw [if_pos rfl, if_pos rfl, workspace, FileTree.scanFirst_run]
    rcases ((c.session.scan ((FileTree.disk dir).workspace c.root) c.header).run c.tree).1 with
      ⟨e | prototypes, s⟩
    · rfl
    · rfl

theorem exists_of_plan (h : c.plan? dir = some plan) : ∃ s target, c.start dir = .ok s ∧
    c.target = some target ∧
      Session.planned? ((s.sync (c.workspace dir) c.header target).run c.tree).1.1 = some plan := by
  obtain ⟨s, hs, h⟩ := Option.bind_eq_some_iff.mp h
  obtain ⟨target, htarget, hplan⟩ := Option.bind_eq_some_iff.mp h
  refine ⟨s, target, ?_, htarget, hplan⟩
  cases hstart : c.start dir with
  | error r =>
    rw [hstart] at hs
    cases hs
  | ok s' =>
    rw [hstart] at hs
    cases hs
    rfl

/-- A call that comes to no plan does what its dry run does, and that changes no file. -/
theorem run_of_no_plan (h : c.plan? dir = none) (dryRun : Bool) :
    ({ c with dryRun } : SyncCall).run dir = c.run dir ∧ c.after dir = c.tree := by
  have hsame : ({ c with dryRun } : SyncCall).start dir = c.start dir := rfl
  unfold after
  rw [run_eq, run_eq, hsame]
  unfold plan? at h
  cases hstart : c.start dir with
  | error r => exact ⟨rfl, rfl⟩
  | ok s =>
    rw [hstart] at h
    dsimp only
    cases htarget : c.target with
    | none => exact ⟨rfl, (congrArg Prod.snd (s.choicesReply_run _ _ _ _)).trans (s.find_tree ..)⟩
    | some target =>
      rw [htarget] at h
      have hnone : Session.planned? ((s.sync (c.workspace dir) c.header target).run c.tree).1.1 =
        none := h
      have htree : ((s.sync (c.workspace dir) c.header target).run c.tree).2 = c.tree :=
        s.sync_tree ..
      have hrun : ∀ dryRun,
          (s.reorderReply (c.workspace dir) c.quiet dryRun c.header target).run c.tree =
            let r := (s.sync (c.workspace dir) c.header target).run c.tree
            ((Session.planlessAnswer c.quiet ((c.workspace dir).canonical target) r.1.2.flush.1
              r.1.1, r.1.2.flush.2), r.2) := by
        intro dryRun
        rw [Session.reorderReply_run]
        dsimp only
        rw [hnone]
      exact ⟨(hrun _).trans (hrun _).symm, (congrArg Prod.snd (hrun _)).trans htree⟩

theorem settings_of_start (h : c.start dir = .ok s) : s.settings = c.session.settings := by
  obtain ⟨headers, files, hscanned⟩ := c.session.exists_scanned (c.workspace dir) c.tree c.header
  unfold start at h
  split_ifs at h
  · split at h
    · cases h
    next s' heq =>
      cases h
      rw [heq] at hscanned
      have hs : s = _ := hscanned
      rw [hs]
  · cases h
    rfl

theorem run_of_plan (h : c.plan? dir = some plan) : ∃ notes s,
    c.run dir =
      if c.dryRun then ((.after notes (c.session.previewReply plan), s), c.tree)
      else
        let applied := ((c.workspace dir).apply plan).run c.tree
        ((Session.applyAnswer c.quiet notes applied.1, s), applied.2) := by
  obtain ⟨s, target, hstart, htarget, hplan⟩ := exists_of_plan h
  have htree : ((s.sync (c.workspace dir) c.header target).run c.tree).2 = c.tree :=
    s.sync_tree ..
  have hsettings := (s.alike_sync (c.steady dir) c.tree c.header target).settings.trans
    (settings_of_start hstart)
  rw [run_eq, hstart, htarget]
  dsimp only [Session.syncReply]
  rw [Session.reorderReply_run]
  dsimp only
  rw [hplan]
  dsimp only
  rw [Session.previewReply_of_settings hsettings, htree]
  exact ⟨_, _, rfl⟩

/-! ## What a call writes -/

def path? (c : SyncCall) : Option Text := c.target.map (Disk.canonical c.root)

/-- The call has this chosen file, is no dry run and does not fail. -/
structure Edits (c : SyncCall) (dir : List Text) (path : Text) : Prop where
  path : c.path? = some path
  real : c.dryRun = false
  ok : (c.reply dir).failed = false

/-- The call puts a text in the place of some lines of the file, and its dry run prints these lines,
counted from 1, and the text. -/
structure WritesShown (c : SyncCall) (dir : List Text) (path : Text) (range : Span) (new : Text) :
    Prop where
  shown : (({ c with dryRun := true } : SyncCall).reply dir).out =
    List.flatten ["Would replace lines ", decimal (range.first + 1), "-", decimal (range.last + 1),
      " of ", c.session.display path, " with:\n", new, "\n"]
  written : ∃ old edited, c.tree.source dir path = .ok old ∧
    replaceLines old range new = .ok edited ∧ c.tree.Replaced (c.after dir) dir path old edited

theorem path_of_plan (h : c.plan? dir = some plan) : c.path? = some plan.file := by
  obtain ⟨s, target, -, htarget, hplan⟩ := exists_of_plan h
  obtain ⟨definitions, hanswer⟩ := Session.exists_sync_of_planned hplan
  have hfile := (Session.plansFor_of_sync (c.steady dir) hanswer).file_eq plan rfl
  rw [path?, htarget, hfile]
  rfl

theorem canonical_of_path {path : Text} (h : c.path? = some path) :
    Disk.canonical c.root path = path := by
  obtain ⟨target, -, rfl⟩ := Option.map_eq_some_iff.mp h
  exact Disk.canonical_canonical c.absolute target

theorem after_of_not_edits (h : ∀ path, ¬ c.Edits dir path) : c.after dir = c.tree := by
  cases hplan : c.plan? dir with
  | none => exact (run_of_no_plan hplan c.dryRun).2
  | some plan =>
    obtain ⟨notes, s, hrun⟩ := run_of_plan hplan
    cases hdry : c.dryRun with
    | true =>
      rw [hdry, if_pos rfl] at hrun
      rw [after, hrun]
    | false =>
      rw [hdry, if_neg (by simp)] at hrun
      cases happlied : (((c.workspace dir).apply plan).run c.tree).1 with
      | error e =>
        rw [after, hrun]
        exact FileTree.tree_of_apply_error happlied
      | ok _ =>
        refine absurd ⟨path_of_plan hplan, hdry, ?_⟩ (h plan.file)
        rw [reply, hrun]
        dsimp only
        rw [happlied]
        rfl

theorem writesShown_of_edits {path : Text} (h : c.Edits dir path)
    (hplan : c.plan? dir = some plan) : c.WritesShown dir path plan.range plan.text := by
  have hpath : path = plan.file := by
    rw [← Option.some.injEq, ← h.path, path_of_plan hplan]
  obtain ⟨notes, s, hrun⟩ := run_of_plan hplan
  rw [h.real, if_neg (by simp)] at hrun
  dsimp only at hrun
  have happlied : (((c.workspace dir).apply plan).run c.tree).1 = .ok () := by
    have hok := h.ok
    rw [reply, hrun] at hok
    cases happlied : (((c.workspace dir).apply plan).run c.tree).1 with
    | ok _ => rfl
    | error e =>
      rw [happlied] at hok
      cases hok
  obtain ⟨-, old, edited, hsource, hedited, hreplaced⟩ := FileTree.replaced_of_apply_ok happlied
  rw [← hpath, canonical_of_path h.path] at hsource hreplaced
  constructor
  · have hdry : ({ c with dryRun := true } : SyncCall).plan? dir = some plan := hplan
    obtain ⟨notes', s', hdryRun⟩ := run_of_plan hdry
    rw [if_pos rfl] at hdryRun
    obtain ⟨hle, hlt⟩ := FileTree.fits_of_replaceLines hedited
    have hfirst := FileTree.lineNumber_of_source hsource (hle.trans_lt hlt)
    have hlast := FileTree.lineNumber_of_source hsource hlt
    rw [reply, hdryRun, hpath, ← hfirst, ← hlast]
    rfl
  · refine ⟨old, edited, hsource, hedited, ?_⟩
    rw [after, hrun]
    exact hreplaced

theorem edits_of_touched {names : List Text} (h : (c.after dir).node? names ≠ c.tree.node? names) :
    ∃ path, c.Edits dir path ∧ (c.plan? dir).isSome = true ∧
      (c.tree.place? dir path = some names ∨
        c.tree.place? dir (path ++ Disk.temporarySuffix) = some names ∨
          ¬ c.tree.Unshared dir (path ++ Disk.temporarySuffix) ∧
            c.tree.LeadsTo dir (path ++ Disk.temporarySuffix) names) := by
  have hedits : ∃ path, c.Edits dir path := by
    by_contra hnone
    rw [after_of_not_edits fun path hpath => hnone ⟨path, hpath⟩] at h
    exact h rfl
  obtain ⟨path, hpath⟩ := hedits
  refine ⟨path, hpath, ?_⟩
  cases hplan : c.plan? dir with
  | none =>
    rw [(run_of_no_plan hplan c.dryRun).2] at h
    exact absurd rfl h
  | some plan =>
    obtain ⟨old, edited, -, -, hreplaced⟩ := (writesShown_of_edits hpath hplan).written
    exact ⟨rfl, hreplaced.changed_at names h⟩

end SyncCall

end HeaderOrder

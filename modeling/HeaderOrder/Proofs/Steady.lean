import HeaderOrder.Disk.FileTree
import HeaderOrder.Session
import HeaderOrder.Workspace.Memory
import Mathlib.Data.List.Basic

/-!
# Workspaces that reading leaves as they are

In a steady workspace a search is told by what can be read at its start.
-/

namespace HeaderOrder

variable {σ α β : Type} {P : σ → Prop}

/-! ## Properties of the state -/

theorem run_bind_eq (x : StateM σ α) (f : α → StateM σ β) (st : σ) :
    (x >>= f).run st = (f (x.run st).1).run (x.run st).2 := rfl

def Keeps (P : σ → Prop) (x : StateM σ α) : Prop := ∀ st, P st → P (x.run st).2

theorem Keeps.pure (a : α) : Keeps P (pure a : StateM σ α) := fun _ hst => hst

theorem Keeps.bind {x : StateM σ α} {f : α → StateM σ β} (hx : Keeps P x)
    (hf : ∀ a, Keeps P (f a)) : Keeps P (x >>= f) :=
  fun st hst => hf _ _ (hx st hst)

namespace Workspace

structure ReadsKeep (ws : Workspace (StateM σ)) (P : σ → Prop) : Prop where
  read : ∀ path, Keeps P (ws.read path)
  candidates : ∀ query, Keeps P (ws.candidates query)

/-- What reading a document gives in a state. -/
def readAt (ws : Workspace (StateM σ)) (st : σ) (path : Text) : Except AccessError Text :=
  ((ws.read path).run st).1

def candidatesAt (ws : Workspace (StateM σ)) (st : σ) (query : Query) : List Text :=
  ((ws.candidates query).run st).1

/-- Reading and listing change nothing that can be read. -/
def Steady (ws : Workspace (StateM σ)) : Prop :=
  ∀ st, ws.ReadsKeep fun st' => ws.readAt st' = ws.readAt st

variable {ws : Workspace (StateM σ)} {read : Text → Except AccessError Text}
  {names files : List Text} {file text : Text} {e : AccessError}

theorem ReadsKeep.searchFiles (h : ws.ReadsKeep P) (names files : List Text) :
    Keeps P (ws.searchFiles names files) := by
  induction files with
  | nil => exact .pure _
  | cons file files ih =>
    refine (h.read file).bind fun answer => ih.bind fun later => ?_
    cases answer with
    | ok text => exact .pure _
    | error e => exact .pure _

theorem ReadsKeep.search (h : ws.ReadsKeep P) (names files : List Text) :
    Keeps P (ws.search names files) := by
  unfold Workspace.search
  split_ifs
  · exact .pure _
  · exact h.searchFiles names files

theorem ReadsKeep.locate (h : ws.ReadsKeep P) (names files : List Text) (reports : Reports) :
    Keeps P (ws.locate names files reports) :=
  (h.search names files).bind fun _ => .pure _

/-! ## What a search finds -/

/-- The findings of a search, when each file reads as told. -/
def findingsOf (read : Text → Except AccessError Text) (names files : List Text) : Findings where
  definitions := files.flatMap fun file =>
    match read file with
    | .ok text => Definition.ofText names text file
    | .error _ => []
  unreadable := files.filterMap fun file =>
    match read file with
    | .ok _ => none
    | .error e => some (file, e)

theorem findingsOf_cons_ok (h : read file = .ok text) :
    findingsOf read names (file :: files) = { findingsOf read names files with
      definitions := Definition.ofText names text file ++
        (findingsOf read names files).definitions } := by
  simp [findingsOf, h]

theorem findingsOf_cons_error (h : read file = .error e) :
    findingsOf read names (file :: files) = { findingsOf read names files with
      unreadable := (file, e) :: (findingsOf read names files).unreadable } := by
  simp [findingsOf, h]

theorem searchFiles_run (h : ws.Steady) (names files : List Text) (st : σ) :
    ((ws.searchFiles names files).run st).1 = findingsOf (ws.readAt st) names files := by
  induction files generalizing st with
  | nil => rfl
  | cons file files ih =>
    have hread : ws.readAt ((ws.read file).run st).2 = ws.readAt st := (h st).read file st rfl
    have hanswer : ((ws.read file).run st).1 = ws.readAt st file := rfl
    -- The other files are read in the state that the first read leaves.
    have hlater := ih ((ws.read file).run st).2
    rw [hread] at hlater
    rw [searchFiles, run_bind_eq, run_bind_eq, hlater, hanswer]
    cases hr : ws.readAt st file with
    | ok text =>
      rw [findingsOf_cons_ok hr]
      rfl
    | error e =>
      rw [findingsOf_cons_error hr]
      rfl

theorem mem_definitions {d : Definition} (hd : d ∈ (findingsOf read names files).definitions) :
    ∃ file ∈ files, ∃ text, read file = .ok text ∧ d ∈ Definition.ofText names text file := by
  obtain ⟨file, hfile, hd⟩ := List.mem_flatMap.mp hd
  cases hr : read file with
  | ok text =>
    rw [hr] at hd
    exact ⟨file, hfile, text, hr, hd⟩
  | error e =>
    rw [hr] at hd
    simp at hd

theorem mem_unreadable (h : (file, e) ∈ (findingsOf read names files).unreadable) :
    file ∈ files ∧ read file = .error e := by
  obtain ⟨file', hfile, h⟩ := List.mem_filterMap.mp h
  cases hr : read file' with
  | ok text => simp [hr] at h
  | error e' =>
    rw [hr, Option.some.injEq, Prod.mk.injEq] at h
    obtain ⟨rfl, rfl⟩ := h
    exact ⟨hfile, hr⟩

end Workspace

/-! ## The workspaces at hand -/

/-- The documents of both states are the same, and so is what was done to them. -/
structure Memory.SameDocuments (mem mem' : Memory) : Prop where
  texts : mem'.texts = mem.texts
  order : mem'.order = mem.order
  locked : mem'.locked = mem.locked
  readOnly : mem'.readOnly = mem.readOnly
  applied : mem'.applied = mem.applied

theorem Memory.SameDocuments.refl (mem : Memory) : SameDocuments mem mem :=
  ⟨rfl, rfl, rfl, rfl, rfl⟩

theorem Memory.SameDocuments.readAt_eq {mem mem' : Memory} (h : SameDocuments mem mem') :
    workspace.readAt mem' = workspace.readAt mem := by
  have hread : mem'.read = mem.read := by
    funext path
    unfold Memory.read
    rw [h.texts, h.locked]
  have hat : ∀ m : Memory, workspace.readAt m = m.read := fun _ => rfl
  rw [hat, hat, hread]

theorem Memory.readsKeep_sameDocuments (mem : Memory) :
    workspace.ReadsKeep (SameDocuments mem) :=
  ⟨fun _ _ h => ⟨h.texts, h.order, h.locked, h.readOnly, h.applied⟩,
    fun _ _ h => ⟨h.texts, h.order, h.locked, h.readOnly, h.applied⟩⟩

theorem Memory.steady_workspace : workspace.Steady := by
  intro mem
  constructor
  · intro path mem' h
    rw [← h]
    exact ((readsKeep_sameDocuments mem').read path mem' (.refl mem')).readAt_eq
  · intro query mem' h
    rw [← h]
    exact ((readsKeep_sameDocuments mem').candidates query mem' (.refl mem')).readAt_eq

theorem FileTree.keeps_readSource (dir : List Text) (P : FileTree → Prop) (path : Text) :
    Keeps P ((disk dir).readSource path) := by
  have hentry : Keeps P (Disk.entry? (disk dir) path) := fun _ h => h
  have hcontents : Keeps P ((disk dir).contents? path) := fun _ h => h
  refine hentry.bind fun entry => ?_
  cases entry with
  | none => exact .pure _
  | some entry =>
    cases entry with
    | directory => exact .pure _
    | file size =>
      dsimp only
      split_ifs
      · exact .pure _
      · refine hcontents.bind fun text => ?_
        cases text with
        | none => exact .pure _
        | some text => exact .pure _

theorem FileTree.keeps_candidates (dir : List Text) (P : FileTree → Prop) (root : Text)
    (query : Query) : Keeps P ((disk dir).candidates root query) := by
  have hentry : Keeps P (Disk.entry? (disk dir) root) := fun _ h => h
  have hwalk : ∀ enters, Keeps P ((disk dir).walk root enters) := fun _ _ h => h
  unfold Disk.candidates
  split_ifs
  · exact .pure _
  · refine hentry.bind fun entry => ?_
    match entry with
    | none => exact .pure _
    | some (.file size) => exact .pure _
    | some .directory => exact (hwalk _).bind fun files => .pure _

theorem FileTree.readsKeep_workspace (dir : List Text) (P : FileTree → Prop) (root : Text) :
    ((disk dir).workspace root).ReadsKeep P :=
  ⟨fun path => keeps_readSource dir P (Disk.canonical root path),
    fun query => keeps_candidates dir P root query⟩

theorem FileTree.steady_workspace (dir : List Text) (root : Text) :
    ((disk dir).workspace root).Steady :=
  fun _ => readsKeep_workspace dir _ root

/-! ## Sessions over a steady workspace -/

namespace Session

variable {ws : Workspace (StateM σ)} {s : Session}

/-- The session with the warnings of a search in its log. -/
def record (s : Session) (found : Findings) : Session :=
  { s with
    log := s.log.reportAll (found.locatedWarnings s.files).1
    files := (found.locatedWarnings s.files).2 }

theorem record_of_readable {found : Findings} (h : found.unreadable = []) :
    s.record found = s := by
  simp [record, Findings.locatedWarnings, h, Findings.locate, Log.reportAll]

/-- What a session finds for some prototypes. -/
def found (s : Session) (ws : Workspace (StateM σ)) (st : σ) (prototypes : List Prototype) :
    Findings :=
  if Prototype.names prototypes = [] then {}
  else Workspace.findingsOf (ws.readAt st) (Prototype.names prototypes)
    (ws.candidatesAt st s.settings.query)

def noted (s : Session) (header : Text) (prototypes : List Prototype) (plan : Option Plan) :
    Session :=
  if s.verbose then s.noteUnplaced header prototypes plan else s

theorem scan_run (s : Session) (ws : Workspace (StateM σ)) (st : σ) (header : Text) :
    ((s.scan ws header).run st).1 =
      if s.settings.isHeader header then
        match ws.readAt st header with
        | .error e => (.error (.access e), s)
        | .ok text => s.scanText ws header text
      else (.error (.notHeader header), s) := by
  have hanswer : ((ws.read header).run st).1 = ws.readAt st header := rfl
  unfold scan
  split_ifs
  · rw [run_bind_eq, hanswer]
    cases ws.readAt st header with
    | ok text => rfl
    | error e => rfl
  · rfl

theorem locate_run (h : ws.Steady) (s : Session) (st : σ) (prototypes : List Prototype) :
    ((s.locate ws prototypes).run st).1 =
      ((s.found ws st prototypes).definitions, s.record (s.found ws st prototypes)) := by
  unfold locate found
  cases hnames : Prototype.names prototypes with
  | nil =>
    rw [if_pos rfl, record_of_readable rfl]
    rfl
  | cons n names =>
    have hread : ws.readAt ((ws.candidates s.settings.query).run st).2 = ws.readAt st :=
      (h st).candidates _ st rfl
    dsimp only
    rw [if_neg (by simp), run_bind_eq, run_bind_eq, Workspace.locate, run_bind_eq,
      Workspace.search, if_neg (by simp), Workspace.searchFiles_run h, hread]
    rfl

theorem find_run (h : ws.Steady) (s : Session) (st : σ) (header : Text) :
    ((s.find ws header).run st).1 =
      match s.scanned? ws header with
      | none => (.error .notScanned, s)
      | some prototypes => (.ok (s.found ws st prototypes).definitions,
          s.record (s.found ws st prototypes)) := by
  unfold find
  cases s.scanned? ws header with
  | none => rfl
  | some prototypes =>
    dsimp only
    rw [run_bind_eq, locate_run h]
    rfl

theorem keeps_scan (h : ws.ReadsKeep P) (header : Text) : Keeps P (s.scan ws header) := by
  unfold scan
  split_ifs
  · refine (h.read header).bind fun answer => ?_
    cases answer with
    | ok text => exact .pure _
    | error e => exact .pure _
  · exact .pure _

theorem keeps_locate (h : ws.ReadsKeep P) (prototypes : List Prototype) :
    Keeps P (s.locate ws prototypes) := by
  unfold locate
  split
  · exact .pure _
  · exact (h.candidates _).bind fun files => (h.locate _ files _).bind fun _ => .pure _

theorem keeps_find (h : ws.ReadsKeep P) (header : Text) : Keeps P (s.find ws header) := by
  unfold find
  cases s.scanned? ws header with
  | none => exact .pure _
  | some prototypes => exact (keeps_locate h prototypes).bind fun _ => .pure _

theorem keeps_sync (h : ws.ReadsKeep P) (header chosen : Text) :
    Keeps P (s.sync ws header chosen) := by
  unfold sync
  split
  · exact .pure _
  · exact .pure _
  · refine (keeps_locate h _).bind fun answer => ?_
    obtain ⟨definitions, s⟩ := answer
    dsimp only
    by_cases hnone : definitions = []
    · rw [if_pos hnone]
      exact .pure _
    · rw [if_neg hnone]
      refine (h.read _).bind fun answer => ?_
      cases answer with
      | ok text => exact .pure _
      | error e => exact .pure _

theorem sync_run (h : ws.Steady) (s : Session) (st : σ) (header chosen : Text) :
    ((s.sync ws header chosen).run st).1 =
      match s.scanned? ws header with
      | none | some [] => (.error .notScanned, s)
      | some prototypes =>
        let found := s.found ws st prototypes
        if found.definitions = [] then (.ok ⟨[], none⟩, s.record found)
        else match ws.readAt st (ws.canonical chosen) with
          | .error e => (.error (.access e), s.record found)
          | .ok text =>
            let plan := Plan.make? prototypes found.definitions (ws.canonical chosen) text
            (.ok ⟨found.definitions, plan⟩,
              (s.record found).noted (ws.canonical header) prototypes plan) := by
  unfold sync
  rcases s.scanned? ws header with _ | _ | ⟨p, ps⟩
  · rfl
  · rfl
  · have hread : ws.readAt ((s.locate ws (p :: ps)).run st).2 = ws.readAt st :=
      keeps_locate (h st) (p :: ps) st rfl
    dsimp only
    rw [run_bind_eq, locate_run h]
    dsimp only
    by_cases hnone : (s.found ws st (p :: ps)).definitions = []
    · rw [if_pos hnone, if_pos hnone]
      rfl
    · have hanswer : ((ws.read (ws.canonical chosen)).run
          ((s.locate ws (p :: ps)).run st).2).1 = ws.readAt st (ws.canonical chosen) := by
        rw [← hread]
        rfl
      rw [if_neg hnone, if_neg hnone, run_bind_eq, hanswer]
      cases ws.readAt st (ws.canonical chosen) with
      | ok text => rfl
      | error e => rfl

end Session

end HeaderOrder

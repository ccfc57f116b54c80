import HeaderOrder.Proofs.FileIndex
import HeaderOrder.Proofs.Steady

/-! # Files that cannot be read -/

namespace HeaderOrder

variable {names : List Text} {answers answers' : List (Text × Except AccessError Text)}

/-! ## Answers -/

namespace Findings

def definitionsIn (names : List Text) : Text × Except AccessError Text → List Definition
  | (file, .ok text) => Definition.ofText names text file
  | (_, .error _) => []

def skipped? : Text × Except AccessError Text → Option (Text × AccessError)
  | (_, .ok _) => none
  | (file, .error e) => some (file, e)

/-- The findings, when the files gave these answers one after another. -/
def ofAnswers (names : List Text) (answers : List (Text × Except AccessError Text)) : Findings where
  definitions := answers.flatMap (definitionsIn names)
  unreadable := answers.filterMap skipped?

theorem definitions_filter_isOk (names : List Text)
    (answers : List (Text × Except AccessError Text)) :
    (ofAnswers names (answers.filter (·.2.isOk))).definitions =
      (ofAnswers names answers).definitions := by
  induction answers with
  | nil => rfl
  | cons answer answers ih =>
    obtain ⟨file, answer⟩ := answer
    cases answer with
    | ok text => exact congrArg (Definition.ofText names text file ++ ·) ih
    | error e => exact ih

theorem definitions_eq_of_filter
    (h : answers.filter (·.2.isOk) = answers'.filter (·.2.isOk)) :
    (ofAnswers names answers).definitions = (ofAnswers names answers').definitions := by
  rw [← definitions_filter_isOk, h, definitions_filter_isOk]

/-! ## Warnings -/

/-- Each file that was skipped has one warning, in order, which is located at the file. -/
structure WarnOf (skipped : List (Text × AccessError)) (warnings : List Diagnostic)
    (numbered : FileIndex) : Prop where
  warnings_eq : warnings = skipped.map fun skip =>
    ⟨.warning, "skipped unreadable file: " ++ skip.2.message, ⟨numbered.find skip.1, 0, 0⟩⟩
  find_ne_zero : ∀ skip ∈ skipped, numbered.find skip.1 ≠ 0
  path_find : ∀ skip ∈ skipped,
    numbered.path (numbered.find skip.1) = Path.normalize skip.1

theorem warnOf_locate (skipped : List (Text × AccessError)) (known : FileIndex) :
    WarnOf skipped (locate skipped known).1 (locate skipped known).2 where
  warnings_eq := locate_eq_map skipped known
  find_ne_zero _ hskip := FileIndex.find_ne_zero_iff.mpr (mem_locate hskip known)
  path_find _ hskip := FileIndex.path_find (mem_locate hskip known)

/-- The files keep their numbers while others are added. -/
theorem WarnOf.mono {skipped : List (Text × AccessError)} {warnings : List Diagnostic}
    {files files' : FileIndex} (h : WarnOf skipped warnings files)
    (hfiles : files.paths <+: files'.paths) : WarnOf skipped warnings files' := by
  have hmem : ∀ skip ∈ skipped, Path.normalize skip.1 ∈ files.paths :=
    fun skip hskip => FileIndex.find_ne_zero_iff.mp (h.find_ne_zero skip hskip)
  have hfind : ∀ skip ∈ skipped, files'.find skip.1 = files.find skip.1 :=
    fun skip hskip => FileIndex.find_of_prefix hfiles (hmem skip hskip)
  constructor
  · rw [h.warnings_eq]
    apply List.map_congr_left
    intro skip hskip
    rw [hfind skip hskip]
  · intro skip hskip
    rw [hfind skip hskip]
    exact h.find_ne_zero skip hskip
  · intro skip hskip
    exact FileIndex.path_find (hfiles.subset (hmem skip hskip))

end Findings

namespace Workspace

open Findings

/-! ## One answer for each file -/

theorem searchFiles_eq_mapM {m : Type → Type} [Monad m] [LawfulMonad m] (ws : Workspace m)
    (names files : List Text) :
    ws.searchFiles names files =
      (fun answers => ofAnswers names (files.zip answers)) <$> files.mapM ws.read := by
  induction files with
  | nil => simp [searchFiles, ofAnswers]
  | cons file files ih =>
    rw [searchFiles, ih, List.mapM_cons]
    simp only [map_bind, map_pure, bind_map_left]
    refine bind_congr fun answer => bind_congr fun answers => ?_
    cases answer with
    | ok text => rfl
    | error e => rfl

theorem findingsOf_eq_ofAnswers (read : Text → Except AccessError Text) (names files : List Text) :
    findingsOf read names files = ofAnswers names (files.map fun file => (file, read file)) := by
  induction files with
  | nil => rfl
  | cons file files ih =>
    cases hread : read file with
    | ok text =>
      rw [findingsOf_cons_ok hread, ih, List.map_cons, hread]
      rfl
    | error e =>
      rw [findingsOf_cons_error hread, ih, List.map_cons, hread]
      rfl

theorem search_run {σ : Type} {ws : Workspace (StateM σ)} (h : ws.Steady) (hnames : names ≠ [])
    (files : List Text) (st : σ) :
    ((ws.search names files).run st).1 =
      ofAnswers names (files.map fun file => (file, ws.readAt st file)) := by
  rw [search, if_neg hnames, searchFiles_run h, findingsOf_eq_ofAnswers]

end Workspace

theorem Memory.mapM_read_run (files : List Text) (mem : Memory) :
    (files.mapM workspace.read).run mem =
      (files.map mem.read, { mem with reads := mem.reads ++ files.map Path.normalize }) := by
  induction files generalizing mem with
  | nil =>
    rw [List.map_nil, List.map_nil, List.append_nil]
    rfl
  | cons file files ih =>
    -- The first read changes what was asked, and nothing that can be read.
    have hlater : Memory.read { mem with reads := mem.reads ++ [Path.normalize file] } =
        mem.read := rfl
    have hread : (workspace.read file).run mem =
        (mem.read file, { mem with reads := mem.reads ++ [Path.normalize file] }) := rfl
    rw [List.mapM_cons, run_bind_eq, run_bind_eq, hread, ih, hlater]
    simp only [List.map_cons, List.append_assoc, List.singleton_append]
    rfl

namespace Workspace

open Findings

theorem locate_eq_mapM {m : Type → Type} [Monad m] [LawfulMonad m] (ws : Workspace m)
    (hnames : names ≠ []) (files : List Text) (reports : Reports) :
    ws.locate names files reports =
      (fun answers => ((ofAnswers names (files.zip answers)).definitions,
        reports.add (ofAnswers names (files.zip answers)))) <$> files.mapM ws.read := by
  rw [locate, search, if_neg hnames, searchFiles_eq_mapM]
  simp only [bind_pure_comp, Functor.map_map]

theorem add_empty (reports : Reports) : reports.add {} = reports := by
  rcases reports with ⟨log, _ | known⟩
  · simp [Reports.add, Findings.warnings, Log.reportAll]
  · simp [Reports.add, Findings.locatedWarnings, Findings.locate, Log.reportAll]

theorem exists_add_of_answers (names : List Text)
    (answers : List (Text × Except AccessError Text)) (log : Log) (known : FileIndex) :
    ∃ warnings numbered,
      Reports.add ⟨log, some known⟩ (ofAnswers names answers) =
        ⟨⟨log.entries ++ warnings⟩, some numbered⟩ ∧
      WarnOf (answers.filterMap skipped?) warnings numbered ∧
      known.paths <+: numbered.paths ∧
      ∀ path, path ∈ numbered.paths ↔ path ∈ known.paths ∨
        ∃ skip ∈ answers.filterMap skipped?, Path.normalize skip.1 = path :=
  ⟨_, _, rfl, warnOf_locate _ known, prefix_locate _ known, fun _ => mem_paths_locate⟩

/-- A file that cannot be read leaves one warning in the log, and nothing else. -/
theorem locate_isolates_unreadable {m : Type → Type} [Monad m] [LawfulMonad m]
    (ws : Workspace m) {names : List Text} (hnames : names ≠ []) (files : List Text) :
    (∀ reports, ws.locate names files reports =
      (fun answers => ((ofAnswers names (files.zip answers)).definitions,
        reports.add (ofAnswers names (files.zip answers)))) <$> files.mapM ws.read) ∧
    (∀ (mem : Memory) reports, (Memory.workspace.locate names files reports).run mem =
      let found := ofAnswers names (files.map fun file => (file, mem.read file))
      ((found.definitions, reports.add found),
        { mem with reads := mem.reads ++ files.map Path.normalize })) ∧
    (∀ answers log, Reports.add ⟨log, none⟩ (ofAnswers names answers) =
      ⟨⟨log.entries ++ (answers.filterMap skipped?).map fun skip =>
        ⟨.warning, "skipped unreadable file: " ++ skip.2.message, ⟨0, 0, 0⟩⟩⟩, none⟩) ∧
    (∀ answers log known, ∃ warnings numbered,
      Reports.add ⟨log, some known⟩ (ofAnswers names answers) =
        ⟨⟨log.entries ++ warnings⟩, some numbered⟩ ∧
      WarnOf (answers.filterMap skipped?) warnings numbered ∧
      known.paths <+: numbered.paths ∧
      ∀ path, path ∈ numbered.paths ↔ path ∈ known.paths ∨
        ∃ skip ∈ answers.filterMap skipped?, Path.normalize skip.1 = path) ∧
    (∀ (σ : Type) (ws : Workspace (StateM σ)) (st : σ) (files' : List Text) (reports reports'),
      ws.Steady → files'.filter (fun file => (ws.readAt st file).isOk) =
        files.filter (fun file => (ws.readAt st file).isOk) →
      ((ws.locate names files' reports').run st).1.1 =
        ((ws.locate names files reports).run st).1.1) ∧
    (∀ (σ : Type) (ws : Workspace (StateM σ)) (st : σ) (s : Session) (prototypes : List Prototype),
      ws.Steady → Prototype.names prototypes ≠ [] →
      let (definitions, s') := ((s.locate ws prototypes).run st).1
      let answers := (ws.candidatesAt st s.settings.query).map fun file => (file, ws.readAt st file)
      definitions = (ofAnswers (Prototype.names prototypes) answers).definitions ∧
      ∃ warnings, s'.log.entries = s.log.entries ++ warnings ∧
        WarnOf (answers.filterMap skipped?) warnings s'.files ∧
        s.files.paths <+: s'.files.paths) ∧
    ∀ reports, ws.locate [] files reports = pure ([], reports) := by
  refine ⟨locate_eq_mapM ws hnames files, fun mem reports => ?_, fun _ _ => rfl,
    fun answers log known => exists_add_of_answers names answers log known,
    fun σ ws st files' reports reports' hws hreadable => ?_,
    fun σ ws st s prototypes hws hprototypes => ?_, fun reports => ?_⟩
  · have hzip : files.zip (files.map mem.read) = files.map fun file => (file, mem.read file) :=
      List.map_prod_left_eq_zip.symm
    rw [locate_eq_mapM _ hnames, StateT.run_map, Memory.mapM_read_run, ← hzip]
    rfl
  · have hsearch : ∀ files reports, ((ws.locate names files reports).run st).1.1 =
        ((ws.search names files).run st).1.definitions := fun _ _ => rfl
    rw [hsearch, hsearch, search_run hws hnames, search_run hws hnames]
    apply definitions_eq_of_filter
    rw [List.filter_map, List.filter_map]
    exact congrArg _ hreadable
  · have hfound : s.found ws st prototypes = ofAnswers (Prototype.names prototypes)
        ((ws.candidatesAt st s.settings.query).map fun file => (file, ws.readAt st file)) := by
      rw [Session.found, if_neg hprototypes, findingsOf_eq_ofAnswers]
    rw [Session.locate_run hws, hfound]
    exact ⟨rfl, _, rfl, warnOf_locate _ s.files, prefix_locate _ s.files⟩
  · rw [locate, search, if_pos rfl, pure_bind, add_empty]

theorem locate_isolates_unreadable_locked :
    let mem := (({} : Memory).put "a.c" "int f() \x7b\n\x7d\n").put "b.c" "int f() \x7b \x7d\n"
    let mem := mem.lock "b.c"
    let files : List Text := ["./b.c", "a.c", "no.c", "x/../a.c", "b.c"]
    let log : Log := ⟨[⟨.note, "n", ⟨1, 1, 0⟩⟩]⟩
    let definitions : List Definition := [⟨"f", 0, ⟨0, 1⟩, "a.c"⟩, ⟨"f", 0, ⟨0, 1⟩, "x/../a.c"⟩]
    (Memory.workspace.locate ["f"] files ⟨log, some ⟨["b.h"]⟩⟩).run mem =
        ((definitions, ⟨⟨log.entries ++
          [⟨.warning, "skipped unreadable file: unable to open b.c", ⟨2, 0, 0⟩⟩,
          ⟨.warning, "skipped unreadable file: unable to open no.c", ⟨3, 0, 0⟩⟩,
          ⟨.warning, "skipped unreadable file: unable to open b.c", ⟨2, 0, 0⟩⟩]⟩,
          some ⟨["b.h", "b.c", "no.c"]⟩⟩),
          { mem with reads := ["b.c", "a.c", "no.c", "a.c", "b.c"] }) ∧
      ((Memory.workspace.locate ["f"] ["a.c", "x/../a.c"] {}).run mem).1.1 = definitions := by
  intro before mem files log definitions
  obtain ⟨-, hrun, -, -, hsame, -, -⟩ := locate_isolates_unreadable Memory.workspace
    (show ([("f" : Text)] : List Text) ≠ [] by decide) files
  have hfound : ofAnswers ["f"] (files.map fun file => (file, mem.read file)) = ⟨definitions,
      [("./b.c", .cannotOpen "b.c"), ("no.c", .cannotOpen "no.c"),
        ("b.c", .cannotOpen "b.c")]⟩ := by
    decide +kernel
  constructor
  · rw [hrun, hfound]
    exact Prod.ext (by decide +kernel) rfl
  · rw [hsame Memory Memory.workspace mem _ {} {} Memory.steady_workspace (by decide +kernel),
      hrun mem, hfound]

end Workspace

end HeaderOrder

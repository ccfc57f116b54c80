import HeaderOrder.Command.Reply
import HeaderOrder.Proofs.Plan
import HeaderOrder.Proofs.Steady

/-! # The chosen file -/

namespace HeaderOrder

open Byte Text

variable {σ : Type}

/-! ## Plans from findings -/

namespace Plan

variable {prototypes : List Prototype} {definitions : List Definition} {target text : Text}

theorem isSome_make?_iff : (make? prototypes definitions target text).isSome = true ↔
    ordered prototypes (fitting definitions target (splitLines text).length) ≠ [] := by
  unfold make?
  dsimp only
  generalize fitting definitions target (splitLines text).length = inFile
  cases inFile with
  | nil => simp [ordered]
  | cons d ds =>
    dsimp only
    split_ifs with hb
    · simp [hb]
    · simp [hb]

end Plan

namespace Session

variable {ws : Workspace (StateM σ)} {st : σ} {s : Session} {prototypes : List Prototype}
  {target text : Text} {d : Definition}

theorem mem_found_iff (hd : d ∈ (s.found ws st prototypes).definitions) :
    d.name ∈ prototypes.map (·.name) ∧ ∃ text, ws.readAt st d.file = .ok text ∧
      d.span.Fits (splitLines text).length := by
  unfold found at hd
  split_ifs at hd with hnames
  · simp at hd
  · obtain ⟨file, -, text, hread, hd⟩ := Workspace.mem_definitions hd
    obtain ⟨hfile, -, hfits⟩ := Definition.fits_of_mem_ofText hd
    obtain ⟨-, -, -, hname, -⟩ := Definition.mem_ofText_iff.mp hd
    rw [← hfile] at hread
    exact ⟨(Prototype.mem_distinct.mp (Prototype.mem_distinct.mp hname).1).1, text, hread, hfits⟩

theorem mem_fitting_found_iff (hread : ws.readAt st target = .ok text) :
    d ∈ Plan.fitting (s.found ws st prototypes).definitions target (splitLines text).length ↔
      d ∈ (s.found ws st prototypes).definitions ∧ d.file = target := by
  rw [Plan.fitting, List.mem_filter]
  constructor
  · rintro ⟨hd, h⟩
    exact ⟨hd, (by simpa using h : d.file = target ∧ _).1⟩
  · rintro ⟨hd, rfl⟩
    -- The search read the file in a state where it reads the same, so both texts are one.
    obtain ⟨-, text', hread', hfits⟩ := mem_found_iff hd
    rw [hread] at hread'
    cases hread'
    exact ⟨hd, by simpa using hfits⟩

theorem mem_names_iff (hread : ws.readAt st target = .ok text) {n : Text} :
    n ∈ (Plan.ordered prototypes (Plan.fitting (s.found ws st prototypes).definitions target
        (splitLines text).length)).map (·.name) ↔
      ∃ d ∈ (s.found ws st prototypes).definitions, d.file = target ∧ d.name = n := by
  rw [Plan.map_name_ordered, List.mem_filter, List.any_eq_true]
  constructor
  · rintro ⟨-, d, hd, hn⟩
    obtain ⟨hd, hfile⟩ := (mem_fitting_found_iff hread).mp hd
    exact ⟨d, hd, hfile, by simpa using hn⟩
  · rintro ⟨d, hd, hfile, rfl⟩
    exact ⟨(mem_found_iff hd).1, d, (mem_fitting_found_iff hread).mpr ⟨hd, hfile⟩, by simp⟩

/-! ## The answer of a sync -/

/-- The plan is for the target, and it writes every name that has a definition there. There is one
exactly when the target is among the files with a definition. It can be applied to the document. -/
structure Sync.PlansFor (r : Sync) (target : Text) (document : Except AccessError Text) : Prop where
  isSome_iff : r.plan.isSome = true ↔ target ∈ Definition.files r.definitions
  file_eq : ∀ p ∈ r.plan, p.file = target
  applies : ∀ p ∈ r.plan, ∃ text edited, document = .ok text ∧
    replaceLines text p.range p.text = .ok edited
  mem_names_iff : ∀ p ∈ r.plan, ∀ n, n ∈ p.names ↔
    ∃ d ∈ r.definitions, d.file = target ∧ d.name = n

theorem Sync.plansFor_nil (target : Text) (document : Except AccessError Text) :
    Sync.PlansFor ⟨[], none⟩ target document :=
  ⟨by simp [Definition.files], by simp, by simp, by simp⟩

theorem plansFor_make? (hread : ws.readAt st target = .ok text) :
    Sync.PlansFor ⟨(s.found ws st prototypes).definitions,
      Plan.make? prototypes (s.found ws st prototypes).definitions target text⟩ target
      (ws.readAt st target) := by
  constructor
  · rw [Plan.isSome_make?_iff, Definition.files, List.mem_eraseDups, List.mem_map]
    constructor
    · intro hne
      obtain ⟨e, he⟩ := List.exists_mem_of_ne_nil _ hne
      obtain ⟨d, hd, hfile, -⟩ := (mem_names_iff hread).mp (List.mem_map_of_mem he)
      exact ⟨d, hd, hfile⟩
    · rintro ⟨d, hd, hfile⟩ hnil
      have hname := (mem_names_iff hread).mpr ⟨d, hd, hfile, rfl⟩
      rw [hnil] at hname
      simp at hname
  · intro p hp
    obtain ⟨-, hfile, -⟩ := Plan.make?_eq_some_iff.mp hp
    exact hfile
  · intro p hp
    obtain ⟨before, old, after, -, hreplace⟩ := exists_replaceLines (Plan.range_fits hp)
    exact ⟨text, _, hread, hreplace p.text⟩
  · intro p hp n
    obtain ⟨-, -, -, -, hnames⟩ := Plan.make?_eq_some_iff.mp hp
    rw [hnames]
    exact mem_names_iff hread

theorem plansFor_of_sync (h : ws.Steady) {header chosen : Text} {r : Sync}
    (hr : ((s.sync ws header chosen).run st).1.1 = .ok r) :
    r.PlansFor (ws.canonical chosen) (ws.readAt st (ws.canonical chosen)) := by
  rw [sync_run h] at hr
  rcases hscan : s.scanned? ws header with _ | _ | ⟨p, ps⟩
  · simp [hscan] at hr
  · simp [hscan] at hr
  · rw [hscan] at hr
    dsimp only at hr
    split_ifs at hr with hnone
    · cases hr
      exact Sync.plansFor_nil _ _
    · cases hread : ws.readAt st (ws.canonical chosen) with
      | error e => simp [hread] at hr
      | ok text =>
        rw [hread] at hr
        cases hr
        rw [← hread]
        exact plansFor_make? hread

theorem any_file_of_plan_none {r : Sync} {document : Except AccessError Text}
    (h : r.PlansFor target document) (hnone : r.plan = none) :
    (r.definitions.any fun d => d.file = target) = false := by
  have hfile : target ∉ Definition.files r.definitions := by
    rw [← h.isSome_iff, hnone]
    simp
  simpa [Definition.files, List.mem_eraseDups] using hfile

/-- The line that tells of definitions in the chosen file without a plan for them. -/
def nothingToReorder : Text := "No matching functions to reorder in chosen file.\n"

theorem info_out_ne {quiet : Bool} {line : Text} (h : line ++ ofString "\n" ≠ nothingToReorder) :
    (Reply.info quiet line).out ≠ nothingToReorder := by
  cases quiet with
  | true => exact (by decide : ([] : Text) ≠ nothingToReorder)
  | false => exact h

theorem out_reorderReply_ne (h : ws.Steady) (quiet dryRun : Bool) (header chosen : Text) :
    ((s.reorderReply ws quiet dryRun header chosen).run st).1.1.out ≠ nothingToReorder := by
  have hplans : ∀ r, ((s.sync ws header chosen).run st).1.1 = .ok r →
      r.PlansFor (ws.canonical chosen) (ws.readAt st (ws.canonical chosen)) :=
    fun r => plansFor_of_sync h
  unfold reorderReply
  rw [run_bind_eq]
  generalize (s.sync ws header chosen).run st = answer at hplans ⊢
  obtain ⟨⟨answer, s⟩, st⟩ := answer
  dsimp only at hplans ⊢
  match answer with
  | .error e => exact (by decide : ([] : Text) ≠ nothingToReorder)
  | .ok ⟨[], _⟩ => exact info_out_ne (by decide)
  | .ok ⟨d :: ds, none⟩ =>
    have hany := any_file_of_plan_none (hplans _ rfl) rfl
    refine info_out_ne ?_
    rw [noPlan, if_neg (by simpa using hany)]
    decide
  | .ok ⟨d :: ds, some plan⟩ =>
    cases dryRun with
    | true =>
      intro hout
      have hhead : (s.previewReply plan).out.head? = some 87 := rfl
      rw [show (s.previewReply plan).out = nothingToReorder from hout] at hhead
      exact absurd hhead (by decide)
    | false =>
      dsimp only
      rw [if_neg (by simp), run_bind_eq]
      cases ((Session.apply ws plan).run st).1 with
      | ok _ => exact info_out_ne (by decide)
      | error e => exact (by decide : ([] : Text) ≠ nothingToReorder)

/-- A sync plans for the chosen file exactly when that file has a definition. -/
theorem sync_plans_for_chosen :
    (∀ (s : Session) (mem : Memory) (header chosen : Text) (r : Sync),
      ((s.sync Memory.workspace header chosen).run mem).1.1 = .ok r →
      r.PlansFor (Path.normalize chosen)
        (((s.sync Memory.workspace header chosen).run mem).2.read (Path.normalize chosen))) ∧
    (∀ (s : Session) (t : FileTree) (dir : List Text) (root header chosen : Text) (r : Sync),
      ((s.sync ((FileTree.disk dir).workspace root) header chosen).run t).1.1 = .ok r →
      ((s.sync ((FileTree.disk dir).workspace root) header chosen).run t).2 = t ∧
      r.PlansFor (Disk.canonical root chosen)
        (((FileTree.disk dir).workspace root).readAt t (Disk.canonical root chosen))) ∧
    ∀ (s : Session) (t : FileTree) (dir : List Text) (root header chosen : Text)
      (quiet dryRun : Bool),
      ((s.reorderReply ((FileTree.disk dir).workspace root) quiet dryRun header chosen).run
        t).1.1.out ≠ "No matching functions to reorder in chosen file.\n" := by
  refine ⟨?_, ?_, ?_⟩
  · intro s mem header chosen r hr
    have hsame := keeps_sync (s := s) mem.readsKeep_sameDocuments header chosen mem (.refl mem)
    have hplans := plansFor_of_sync Memory.steady_workspace hr
    rw [← hsame.readAt_eq] at hplans
    exact hplans
  · intro s t dir root header chosen r hr
    have hsame := keeps_sync (s := s) (FileTree.readsKeep_workspace dir (· = t) root)
      header chosen t rfl
    exact ⟨hsame, plansFor_of_sync (FileTree.steady_workspace dir root) hr⟩
  · intro s t dir root header chosen quiet dryRun
    exact out_reorderReply_ne (FileTree.steady_workspace dir root) quiet dryRun header chosen

theorem sync_plans_for_chosen_spelled :
    let text : Text := "void b() \x7b\n\x7d\nvoid a() \x7b \x7d\n"
    let mem := (((({} : Memory).put "src/./x.cpp" text).put "y.cpp" "void b() \x7b \x7d\n").lock
      "z.cpp")
    let s := (({} : Session).scanText Memory.workspace "inc//h.h" "void a();\nvoid b();\n").2
    let plan : Plan := ⟨"src/x.cpp", ⟨0, 2⟩,
      "void a() \x7b \x7d\n\nvoid b() \x7b\n\x7d", ["a", "b"]⟩
    let r : Sync := ⟨[⟨"b", 0, ⟨0, 1⟩, "src/x.cpp"⟩, ⟨"a", 2, ⟨2, 2⟩, "src/x.cpp"⟩,
      ⟨"b", 0, ⟨0, 0⟩, "y.cpp"⟩], some plan⟩
    ((s.sync Memory.workspace "inc/h.h" "src/../src/x.cpp").run mem).1.1 = .ok r ∧
    ofString "src/x.cpp" ∈ Definition.files r.definitions ∧
    ∃ edited, replaceLines text plan.range plan.text = .ok edited := by
  intro text mem s plan r
  have hr : ((s.sync Memory.workspace "inc/h.h" "src/../src/x.cpp").run mem).1.1 = .ok r := by
    decide +kernel
  have hplans := sync_plans_for_chosen.1 s mem _ _ r hr
  have hnormal : Path.normalize "src/../src/x.cpp" = "src/x.cpp" := by decide
  have hread : ((s.sync Memory.workspace "inc/h.h" "src/../src/x.cpp").run mem).2.read
      "src/x.cpp" = .ok text := by decide +kernel
  rw [hnormal] at hplans
  obtain ⟨text', edited, htext, hedited⟩ := hplans.applies plan rfl
  rw [hread] at htext
  cases htext
  exact ⟨hr, hplans.isSome_iff.mp rfl, edited, hedited⟩

end Session

end HeaderOrder

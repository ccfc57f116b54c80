import HeaderOrder.Proofs.History
import HeaderOrder.Proofs.Prototype
import HeaderOrder.Proofs.Target
import HeaderOrder.Proofs.Unreadable

/-! # What a sync writes to the log -/

namespace HeaderOrder

open Text

/-! ## The first entry of each key -/

theorem find?_filter_of_imp {α : Type} {p q : α → Bool} (h : ∀ a, q a = true → p a = true)
    (l : List α) : (l.filter p).find? q = l.find? q := by
  have hand : (fun a => p a && q a) = q := by
    funext a
    cases hq : q a with
    | false => simp
    | true => simp [h a hq]
  rw [List.find?_filter]
  exact congrArg (l.find? ·) (by simpa using hand)

section FirstOfKey

variable {α κ : Type} [BEq κ] (key : α → κ)

theorem map_eraseDupsBy : (l : List α) →
    (l.eraseDupsBy (key · == key ·)).map key = (l.map key).eraseDups
  | [] => rfl
  | a :: as => by
    have hrest := map_eraseDupsBy (as.filter fun b => (key b == key a) = false)
    rw [List.eraseDupsBy_cons, List.map_cons, hrest, List.map_cons, List.eraseDups_cons,
      List.filter_map]
    simp [Function.comp_def]
termination_by l => l.length
decreasing_by exact Nat.lt_succ_of_le (List.length_filter_le _ _)

variable [LawfulBEq κ]

theorem find?_of_mem_eraseDupsBy {a : α} : {l : List α} →
    a ∈ l.eraseDupsBy (key · == key ·) → l.find? (key · == key a) = some a
  | [], h => by simp at h
  | b :: bs, h => by
    rw [List.eraseDupsBy_cons, List.mem_cons] at h
    rcases h with rfl | h
    · simp
    · have hfind := find?_of_mem_eraseDupsBy h
      -- An entry of the rest has another key than the first one.
      have hne : (key a == key b) = false := by
        have ha := List.mem_of_find?_eq_some hfind
        simpa using (List.mem_filter.mp ha).2
      have hkept : ∀ c, (key c == key a) = true → decide ((key c == key b) = false) = true := by
        intro c hc
        rw [eq_of_beq hc]
        exact decide_eq_true hne
      rw [find?_filter_of_imp hkept] at hfind
      rw [List.find?_cons, BEq.comm, hne]
      exact hfind
termination_by l => l.length
decreasing_by exact Nat.lt_succ_of_le (List.length_filter_le _ _)

theorem eraseDups_filter (p : κ → Bool) : (l : List κ) →
    (l.filter p).eraseDups = l.eraseDups.filter p
  | [] => rfl
  | a :: as => by
    have hrest := eraseDups_filter p (as.filter fun b => !b == a)
    rw [List.filter_filter] at hrest
    rw [List.eraseDups_cons]
    by_cases hp : p a = true
    · rw [List.filter_cons_of_pos hp, List.filter_cons_of_pos hp, List.eraseDups_cons,
        List.filter_filter, ← hrest]
      simp only [Bool.and_comm]
    · -- The first entry is dropped, and so are all others like it.
      have hkeep : as.filter (fun b => p b && !b == a) = as.filter p := by
        apply List.filter_congr
        intro b _
        by_cases hb : b = a
        · simp [hb, hp]
        · simp [hb]
      rw [List.filter_cons_of_neg hp, List.filter_cons_of_neg hp, ← hrest, hkeep]
termination_by l => l.length
decreasing_by exact Nat.lt_succ_of_le (List.length_filter_le _ _)

end FirstOfKey

namespace Prototype

variable {text : Text} {p : Prototype}

theorem first_lt_of_mem_ofText (h : p ∈ ofText text) :
    p.span.first < (splitLines text).length := by
  obtain ⟨hle, hlt⟩ := (mem_ofText_iff.mp h).1.fits
  exact hle.trans_lt hlt

theorem names_ne_nil (h : ofText text ≠ []) : names (ofText text) ≠ [] := by
  obtain ⟨p, hp⟩ := List.exists_mem_of_ne_nil _ h
  obtain ⟨-, -, hname, -⟩ := mem_ofText_iff.mp hp
  obtain ⟨b, rest, hsplit, -⟩ := Code.isIdentifier_of_lastCall? hname
  have hne : p.name ≠ [] := by
    rw [hsplit]
    exact List.cons_ne_nil b rest
  exact List.ne_nil_of_mem (mem_distinct.mpr ⟨List.mem_map_of_mem hp, hne⟩)

end Prototype

namespace Session

variable {σ : Type} {ws : Workspace (StateM σ)} {st : σ} {s : Session}
  {prototypes : List Prototype} {p : Prototype} {plan : Option Plan} {r : Sync}
  {target text header chosen : Text}

/-! ## Names without a definition in the chosen file -/

theorem map_name_unplaced (prototypes : List Prototype) (plan : Option Plan) :
    (unplaced prototypes plan).map (·.name) =
      (prototypes.map (·.name)).eraseDups.filter (· ∉ plan.elim [] Plan.names) := by
  rw [unplaced, map_eraseDupsBy, ← eraseDups_filter, List.filter_map]
  rfl

/-- Whether a prototype is placed depends on its name alone. -/
theorem find?_of_mem_unplaced (h : p ∈ unplaced prototypes plan) :
    prototypes.find? (·.name == p.name) = some p := by
  have hmem : p ∈ prototypes.filter fun q => q.name ∉ plan.elim [] Plan.names :=
    List.mem_of_find?_eq_some (find?_of_mem_eraseDupsBy Prototype.name h)
  have hp := (List.mem_filter.mp hmem).2
  rw [← find?_of_mem_eraseDupsBy Prototype.name h]
  refine (find?_filter_of_imp (fun q hq => ?_) prototypes).symm
  rw [eq_of_beq hq]
  exact hp

theorem Sync.PlansFor.mem_placed_iff {document : Except AccessError Text}
    (h : r.PlansFor target document) {n : Text} : n ∈ r.plan.elim [] Plan.names ↔
      ∃ d ∈ r.definitions, d.file = target ∧ d.name = n := by
  cases hplan : r.plan with
  | some plan => exact h.mem_names_iff plan hplan n
  | none =>
    have hother := any_file_of_plan_none h hplan
    simp only [List.any_eq_false, decide_eq_true_eq] at hother
    simp only [Option.elim_none, List.not_mem_nil, false_iff]
    rintro ⟨d, hd, hfile, -⟩
    exact hother d hd hfile

/-- Each name without a definition in the target has one note, in order of first declaration, which
is located at the first line of the first prototype of the name. -/
def Sync.NotesOf (r : Sync) (target : Text) (prototypes : List Prototype) (number : Nat)
    (notes : List Diagnostic) : Prop :=
  ∃ noted : List Prototype,
    noted.map (·.name) = (prototypes.map (·.name)).eraseDups.filter (fun n =>
      ∀ d ∈ r.definitions, d.file = target → d.name ≠ n) ∧
    (∀ p ∈ noted, prototypes.find? (·.name == p.name) = some p) ∧
    notes = noted.map fun p =>
      ⟨.note, "no implementation of '" ++ p.name ++ "' in the chosen file",
        ⟨number, p.span.first + 1, 0⟩⟩

/-- What a successful sync reports of a header and a target: the warnings about the candidates that
were skipped, and behind them the notes of a verbose session that has found anything. -/
structure Sync.Reports (r : Sync) (header target : Text) (prototypes : List Prototype)
    (skipped : List (Text × AccessError)) (s s' : Session) (warnings notes : List Diagnostic) :
    Prop where
  entries : s'.log.entries = s.log.entries ++ warnings ++ notes
  warn : Findings.WarnOf skipped warnings s'.files
  note : s.verbose = true → r.definitions ≠ [] →
    r.NotesOf target prototypes (s'.files.find header) notes ∧
      s'.files.find header ≠ 0 ∧ s'.files.path (s'.files.find header) = Path.normalize header
  silent : s.verbose = false ∨ r.definitions = [] → notes = []
  count : s'.log.count .warning = s.log.count .warning + skipped.length

theorem notesOf_unplaced {document : Except AccessError Text} (h : r.PlansFor target document)
    (hlines : ∀ p ∈ prototypes, p.span.first < Location.lineLimit) (number : Nat) :
    r.NotesOf target prototypes number
      ((unplaced prototypes r.plan).map (unplacedNote number)) := by
  refine ⟨unplaced prototypes r.plan, ?_, fun p hp => find?_of_mem_unplaced hp, ?_⟩
  · rw [map_name_unplaced]
    apply List.filter_congr
    intro n _
    simp [h.mem_placed_iff]
  · apply List.map_congr_left
    intro p hp
    have hmem := List.mem_of_find?_eq_some (find?_of_mem_unplaced hp)
    have hplace : Location.ofLine number p.span.first = ⟨number, p.span.first + 1, 0⟩ := by
      rw [Location.ofLine, if_pos (hlines p hmem)]
    rw [unplacedNote, hplace]
    simp

/-! ## The log of a sync -/

theorem Sync.Reports.of_entries {s' : Session} {skipped : List (Text × AccessError)}
    {warnings notes : List Diagnostic}
    (entries : s'.log.entries = s.log.entries ++ warnings ++ notes)
    (warn : Findings.WarnOf skipped warnings s'.files)
    (note : s.verbose = true → r.definitions ≠ [] →
      r.NotesOf target prototypes (s'.files.find header) notes ∧
        s'.files.find header ≠ 0 ∧ s'.files.path (s'.files.find header) = Path.normalize header)
    (silent : s.verbose = false ∨ r.definitions = [] → notes = []) :
    r.Reports header target prototypes skipped s s' warnings notes := by
  have hwarnings : warnings.countP (·.severity = .warning) = skipped.length := by
    rw [warn.warnings_eq, List.countP_map, List.countP_eq_length.mpr (by simp)]
  have hnotes : notes.countP (·.severity = .warning) = 0 := by
    by_cases hquiet : s.verbose = false ∨ r.definitions = []
    · rw [silent hquiet]
      rfl
    · rw [not_or, Bool.not_eq_false] at hquiet
      obtain ⟨⟨noted, -, -, hnoted⟩, -⟩ := note hquiet.1 hquiet.2
      rw [hnoted, List.countP_map, List.countP_eq_zero]
      simp
  refine ⟨entries, warn, note, silent, ?_⟩
  rw [Log.count, entries, List.countP_append, List.countP_append, hwarnings, hnotes]
  rfl

def skipped (s : Session) (ws : Workspace (StateM σ)) (st : σ) : List (Text × AccessError) :=
  (ws.candidatesAt st s.settings.query).filterMap fun file =>
    Findings.skipped? (file, ws.readAt st file)

theorem unreadable_found (h : Prototype.names prototypes ≠ []) :
    (s.found ws st prototypes).unreadable = s.skipped ws st := by
  rw [found, if_neg h, Workspace.findingsOf_eq_ofAnswers, skipped, Findings.ofAnswers,
    List.filterMap_map]
  rfl

theorem reports_record {found : Findings} (hquiet : s.verbose = false ∨ r.definitions = []) :
    r.Reports header target prototypes found.unreadable s (s.record found)
      (found.locatedWarnings s.files).1 [] := by
  apply Sync.Reports.of_entries
  · exact (List.append_nil _).symm
  · exact Findings.warnOf_locate found.unreadable s.files
  · intro hverbose hfound
    simp [hverbose, hfound] at hquiet
  · exact fun _ => rfl

theorem reports_noted {found : Findings} {document : Except AccessError Text}
    (h : r.PlansFor target document)
    (hlines : ∀ p ∈ prototypes, p.span.first < Location.lineLimit) (hverbose : s.verbose = true)
    (hfound : r.definitions ≠ []) :
    ∃ warnings notes, r.Reports header target prototypes found.unreadable s
      ((s.record found).noteUnplaced header prototypes r.plan) warnings notes := by
  have hfind := FileIndex.find_add (s.record found).files header
  refine ⟨_, (unplaced prototypes r.plan).map
    (unplacedNote ((s.record found).files.add header).1), .of_entries rfl ?_ ?_ ?_⟩
  · exact (Findings.warnOf_locate found.unreadable s.files).mono
      ((s.record found).files.prefix_add header)
  · intro _ _
    have hmem := FileIndex.mem_add (s.record found).files header
    refine ⟨?_, FileIndex.find_ne_zero_iff.mpr hmem, FileIndex.path_find hmem⟩
    rw [← hfind]
    exact notesOf_unplaced h hlines _
  · simp [hverbose, hfound]

theorem isSome_scanned?_of_sync (h : ws.Steady)
    (hr : ((s.sync ws header chosen).run st).1.1 = .ok r) :
    ∃ prototypes, s.scanned? ws header = some prototypes := by
  rw [sync_run h] at hr
  cases hscan : s.scanned? ws header with
  | none => simp [hscan] at hr
  | some prototypes => exact ⟨prototypes, rfl⟩

theorem reports_of_sync (h : ws.Steady)
    (hscan : s.scanned? ws header = some (Prototype.ofText text))
    (hlines : (splitLines text).length ≤ Location.lineLimit)
    (hr : ((s.sync ws header chosen).run st).1.1 = .ok r) :
    ∃ warnings notes, r.Reports (ws.canonical header) (ws.canonical chosen)
      (Prototype.ofText text) (s.skipped ws st) s ((s.sync ws header chosen).run st).1.2
        warnings notes := by
  have hplans := plansFor_of_sync h hr
  have hfirst : ∀ p ∈ Prototype.ofText text, p.span.first < Location.lineLimit :=
    fun p hp => (Prototype.first_lt_of_mem_ofText hp).trans_le hlines
  rw [sync_run h, hscan] at hr ⊢
  have hnames := @Prototype.names_ne_nil text
  generalize Prototype.ofText text = prototypes at *
  match prototypes with
  | [] => simp at hr
  | p :: ps =>
    rw [← unreadable_found (hnames (List.cons_ne_nil p ps))]
    dsimp only at hr ⊢
    split_ifs at hr ⊢ with hnone
    · cases hr
      exact ⟨_, [], reports_record (.inr rfl)⟩
    · cases hread : ws.readAt st (ws.canonical chosen) with
      | error e => simp [hread] at hr
      | ok document =>
        rw [hread] at hr
        cases hr
        dsimp only [noted]
        cases hverbose : s.verbose with
        | false =>
          rw [if_neg (by simp [record, hverbose])]
          exact ⟨_, [], reports_record (.inl hverbose)⟩
        | true =>
          rw [if_pos (by simp [record, hverbose])]
          exact reports_noted hplans hfirst hverbose hnone

end Session

namespace Workbench

theorem outcome_sync_eq_ok {r : Session.Sync}
    {x : (Except Session.Error Session.Sync × Session) × Memory} :
    (outcome .sync x).1 = .ok (.sync r) ↔ x.1.1 = .ok r := by
  unfold outcome
  cases x.1.1 <;> simp [Except.map]

/-- A sync that succeeds adds its warnings and its notes to the log, and nothing else. -/
theorem sync_reports :
    (∀ (settings : Settings) (memory : Memory) (ops : List Operation) (header chosen : Text)
      (r : Session.Sync),
      let w := (fresh settings memory).run ops
      let history := (fresh settings memory).history ops
      let later := w.step (.sync header chosen)
      (∀ text, LastScan history (Path.normalize header) text →
        (splitLines text).length < Location.lineLimit) →
      later.1 = .ok (.sync r) →
      ∃ text warnings notes, LastScan history (Path.normalize header) text ∧
        r.Reports (Path.normalize header) (Path.normalize chosen) (Prototype.ofText text)
          ((w.memory.candidates w.session.settings.query).filterMap fun file =>
            Findings.skipped? (file, w.memory.read file))
          w.session later.2.session warnings notes) ∧
    ∀ (s : Session) (t : FileTree) (dir : List Text) (root header chosen text : Text)
      (r : Session.Sync),
      let ws := (FileTree.disk dir).workspace root
      let later := (s.sync ws header chosen).run t
      s.scanned? ws header = some (Prototype.ofText text) →
      (splitLines text).length < Location.lineLimit →
      later.1.1 = .ok r →
      ∃ warnings notes, r.Reports (Disk.canonical root header) (Disk.canonical root chosen)
        (Prototype.ofText text)
        ((ws.candidatesAt t s.settings.query).filterMap fun file =>
          Findings.skipped? (file, ws.readAt t file))
        s later.1.2 warnings notes := by
  refine ⟨?_, ?_⟩
  · intro settings memory ops header chosen r w history later hlines hok
    have hr : ((w.session.sync Memory.workspace header chosen).run w.memory).1.1 = .ok r :=
      outcome_sync_eq_ok.mp hok
    obtain ⟨text, hlast, hscan⟩ : ∃ text, LastScan history (Path.normalize header) text ∧
        w.session.scanned? Memory.workspace header = some (Prototype.ofText text) := by
      obtain ⟨prototypes, hscan⟩ := Session.isSome_scanned?_of_sync Memory.steady_workspace hr
      obtain ⟨text, hlast, rfl⟩ := (get?_run settings memory ops _ _).mp hscan
      exact ⟨text, hlast, hscan⟩
    obtain ⟨warnings, notes, hreports⟩ := Session.reports_of_sync Memory.steady_workspace hscan
      (hlines text hlast).le hr
    exact ⟨text, warnings, notes, hlast, hreports⟩
  · intro s t dir root header chosen text r ws later hscan hlines hr
    exact Session.reports_of_sync (FileTree.steady_workspace dir root) hscan hlines.le hr

theorem sync_reports_verbose :
    let text : Text := "int b();\nint a(int);\nint b(int);\nint c();\n"
    let before : List Operation := [.put "a.cpp" "int a(int) \x7b\n\x7d\n", .lock "z.cpp",
      .put "b.cpp" "int b() \x7b \x7d\n", .setVerbose true]
    let ops := before ++ [.scanText "./h.h" text]
    let r : Session.Sync := ⟨[⟨"a", 0, ⟨0, 1⟩, "a.cpp"⟩, ⟨"b", 0, ⟨0, 0⟩, "b.cpp"⟩],
      some ⟨"a.cpp", ⟨0, 1⟩, "int a(int) \x7b\n\x7d", ["a"]⟩⟩
    let w := (fresh {} {}).run ops
    let later := w.step (.sync "h.h" "x/../a.cpp")
    later.1 = .ok (.sync r) ∧
    later.2.session.log.entries =
      [⟨.warning, "skipped unreadable file: unable to open z.cpp", ⟨2, 0, 0⟩⟩,
        ⟨.note, "no implementation of 'b' in the chosen file", ⟨1, 1, 0⟩⟩,
        ⟨.note, "no implementation of 'c' in the chosen file", ⟨1, 4, 0⟩⟩] ∧
    ∃ warnings notes, r.Reports (Path.normalize "h.h") (Path.normalize "x/../a.cpp")
      (Prototype.ofText text) [("z.cpp", .cannotOpen "z.cpp")] w.session later.2.session
        warnings notes := by
  intro text before ops r
  have hscan : (((fresh {} {}).run before).event (.scanText "./h.h" text)).scan? =
      some (Path.normalize "h.h", text) := by decide +kernel
  have honly : ∀ text', LastScan ((fresh {} {}).history ops) (Path.normalize "h.h") text' →
      text' = text := by
    intro text' hlast
    rw [history_concat, lastScan_concat, hscan] at hlast
    rcases hlast with h | ⟨hno, -⟩
    · cases h
      rfl
    · exact absurd (.inl (by rw [hscan]; rfl)) hno
  have hshort : ∀ text', LastScan ((fresh {} {}).history ops) (Path.normalize "h.h") text' →
      (splitLines text').length < Location.lineLimit := by
    intro text' hlast
    rw [honly text' hlast]
    decide +kernel
  -- The run and the step are given names, or else they are computed over and over.
  have hreports := sync_reports.1 {} {} ops "h.h" "x/../a.cpp" r
  dsimp only at hreports ⊢
  have hskipped : ((((fresh {} {}).run ops).memory.candidates
      ((fresh {} {}).run ops).session.settings.query).filterMap fun file =>
        Findings.skipped? (file, ((fresh {} {}).run ops).memory.read file)) =
      ([("z.cpp", .cannotOpen "z.cpp")] : List (Text × AccessError)) := by decide +kernel
  generalize hw : (fresh {} {}).run ops = w at hreports hskipped ⊢
  generalize hl : w.step (.sync "h.h" "x/../a.cpp") = later at hreports ⊢
  have hok : later.1 = .ok (.sync r) := by
    rw [← hl, ← hw]
    decide +kernel
  obtain ⟨text', warnings, notes, hlast, hreports⟩ := hreports hshort hok
  rw [honly text' hlast, hskipped] at hreports
  refine ⟨hok, ?_, warnings, notes, hreports⟩
  rw [← hl, ← hw]
  decide +kernel

end Workbench

end HeaderOrder

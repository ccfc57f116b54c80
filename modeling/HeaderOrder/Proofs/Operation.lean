import HeaderOrder.Proofs.Steady

/-!
# Operations

One operation after another is done on a session and its documents.
-/

namespace HeaderOrder

structure Workbench where
  session : Session := {}
  memory : Memory := {}

/-- What can be asked of a session, and what can happen to the documents meanwhile. -/
inductive Operation where
  | scan (header : Text)
  | scanText (header text : Text)
  | find (header : Text)
  | sync (header chosen : Text)
  | apply (plan : Plan)
  | invalidate (header : Text)
  | setVerbose (verbose : Bool)
  | put (path text : Text)
  | lock (path : Text)
  | setReadOnly (readOnly : Bool)
  deriving DecidableEq, Repr

inductive Answer where
  | prototypes (prototypes : List Prototype)
  | definitions (definitions : List Definition)
  | sync (r : Session.Sync)
  | known (known : Bool)
  | done
  deriving DecidableEq, Repr

namespace Session

variable {σ : Type} {ws : Workspace (StateM σ)} {s : Session} {st : σ} {header chosen text : Text}
  {e : Error}

/-! ## Sessions after an error -/

theorem scanText_of_error (h : (s.scanText ws header text).1 = .error e) :
    (s.scanText ws header text).2 = s := by
  unfold scanText at h ⊢
  split_ifs at h ⊢
  rfl

theorem scan_of_error (h : ((s.scan ws header).run st).1.1 = .error e) :
    ((s.scan ws header).run st).1.2 = s := by
  rw [scan_run] at h ⊢
  split_ifs at h ⊢
  · cases hread : ws.readAt st header with
    | ok text =>
      rw [hread] at h
      exact scanText_of_error h
    | error cause => rfl
  · rfl

theorem find_of_error (hws : ws.Steady) (h : ((s.find ws header).run st).1.1 = .error e) :
    ((s.find ws header).run st).1.2 = s := by
  rw [find_run hws] at h ⊢
  cases hscan : s.scanned? ws header with
  | none => rfl
  | some prototypes => simp [hscan] at h

theorem sync_of_error (hws : ws.Steady) (h : ((s.sync ws header chosen).run st).1.1 = .error e) :
    (e = .notScanned ∧ ((s.sync ws header chosen).run st).1.2 = s) ∨
    ∃ prototypes cause, s.scanned? ws header = some prototypes ∧ e = .access cause ∧
      ((s.sync ws header chosen).run st).1.2 = s.record (s.found ws st prototypes) := by
  rw [sync_run hws] at h ⊢
  rcases hscan : s.scanned? ws header with _ | _ | ⟨p, ps⟩
  · simp only [hscan, Except.error.injEq] at h
    exact .inl ⟨h.symm, rfl⟩
  · simp only [hscan, Except.error.injEq] at h
    exact .inl ⟨h.symm, rfl⟩
  · rw [hscan] at h
    dsimp only at h ⊢
    split_ifs at h ⊢ with hnone
    cases hread : ws.readAt st (ws.canonical chosen) with
    | ok text => simp [hread] at h
    | error cause =>
      rw [hread] at h
      cases h
      exact .inr ⟨p :: ps, cause, rfl, rfl, rfl⟩

theorem found_readable {prototypes : List Prototype}
    (h : ∀ file ∈ ws.candidatesAt st s.settings.query, ∃ text, ws.readAt st file = .ok text) :
    (s.found ws st prototypes).unreadable = [] := by
  rw [List.eq_nil_iff_forall_not_mem]
  rintro ⟨file, cause⟩ hskipped
  unfold found at hskipped
  split_ifs at hskipped with hnames
  · simp at hskipped
  · obtain ⟨hfile, hcause⟩ := Workspace.mem_unreadable hskipped
    obtain ⟨text, htext⟩ := h file hfile
    simp [htext] at hcause

end Session

namespace Workbench

variable {w : Workbench} {op : Operation} {e : Session.Error}

/-! ## Steps -/

def outcome {α : Type} (answer : α → Answer) (r : (Except Session.Error α × Session) × Memory) :
    Except Session.Error Answer × Workbench :=
  (r.1.1.map answer, ⟨r.1.2, r.2⟩)

def step (w : Workbench) : Operation → Except Session.Error Answer × Workbench
  | .scan header =>
    outcome .prototypes ((w.session.scan Memory.workspace header).run w.memory)
  | .scanText header text =>
    outcome .prototypes (w.session.scanText Memory.workspace header text, w.memory)
  | .find header =>
    outcome .definitions ((w.session.find Memory.workspace header).run w.memory)
  | .sync header chosen =>
    outcome .sync ((w.session.sync Memory.workspace header chosen).run w.memory)
  | .apply plan =>
    let (answer, memory) := (Session.apply Memory.workspace plan).run w.memory
    (answer.map fun _ => .done, ⟨w.session, memory⟩)
  | .invalidate header =>
    let (known, session) := w.session.invalidate Memory.workspace header
    (.ok (.known known), ⟨session, w.memory⟩)
  | .setVerbose verbose => (.ok .done, { w with session.verbose := verbose })
  | .put path text => (.ok .done, { w with memory := w.memory.put path text })
  | .lock path => (.ok .done, { w with memory := w.memory.lock path })
  | .setReadOnly readOnly => (.ok .done, { w with memory.readOnly := readOnly })

def run (w : Workbench) (ops : List Operation) : Workbench :=
  ops.foldl (fun w op => (w.step op).2) w

theorem outcome_eq_error {α : Type} {answer : α → Answer}
    {r : (Except Session.Error α × Session) × Memory} :
    (outcome answer r).1 = .error e ↔ r.1.1 = .error e := by
  unfold outcome
  cases r.1.1 with
  | ok a => simp [Except.map]
  | error e' => simp [Except.map]

theorem step_apply (w : Workbench) (plan : Plan) :
    w.step (.apply plan) = if w.memory.readOnly then (.error (.access .readOnly), w)
      else (.ok .done, { w with memory.applied := w.memory.applied ++ [plan] }) := by
  obtain ⟨session, mem⟩ := w
  have hws : (Memory.workspace.apply plan).run mem =
      if mem.readOnly then (.error .readOnly, mem)
      else (.ok (), { mem with applied := mem.applied ++ [plan] }) := rfl
  dsimp only [step]
  rw [Session.apply, run_bind_eq, hws]
  split_ifs
  · rfl
  · rfl

/-! ## Steps that fail -/

theorem sameDocuments_of_error (h : (w.step op).1 = .error e) :
    w.memory.SameDocuments (w.step op).2.memory := by
  have hreads := w.memory.readsKeep_sameDocuments
  cases op with
  | scan header => exact Session.keeps_scan hreads header w.memory (.refl _)
  | scanText header text => exact .refl _
  | find header => exact Session.keeps_find hreads header w.memory (.refl _)
  | sync header chosen => exact Session.keeps_sync hreads header chosen w.memory (.refl _)
  | apply plan =>
    rw [step_apply] at h ⊢
    split_ifs at h ⊢
    exact .refl _
  | invalidate | setVerbose | put | lock | setReadOnly => simp [step] at h

/-- A failed operation leaves the session as it was, or as a find would. -/
theorem session_of_error (h : (w.step op).1 = .error e) :
    (w.step op).2.session = w.session ∨ ∃ header chosen prototypes cause,
      op = .sync header chosen ∧ e = .access cause ∧
      w.session.scanned? Memory.workspace header = some prototypes ∧
      (w.step op).2.session =
        w.session.record (w.session.found Memory.workspace w.memory prototypes) := by
  cases op with
  | scan header => exact .inl (Session.scan_of_error (outcome_eq_error.mp h))
  | scanText header text => exact .inl (Session.scanText_of_error (outcome_eq_error.mp h))
  | find header =>
    exact .inl (Session.find_of_error Memory.steady_workspace (outcome_eq_error.mp h))
  | sync header chosen =>
    -- Only a sync reads a document after its search has written to the log.
    rcases Session.sync_of_error Memory.steady_workspace (outcome_eq_error.mp h) with
      ⟨-, hsame⟩ | ⟨prototypes, cause, hscan, rfl, hrecord⟩
    · exact .inl hsame
    · exact .inr ⟨header, chosen, prototypes, cause, rfl, rfl, hscan, hrecord⟩
  | apply plan => exact .inl rfl
  | invalidate | setVerbose | put | lock | setReadOnly => simp [step] at h

theorem headers_of_error (h : (w.step op).1 = .error e) :
    (w.step op).2.session.headers = w.session.headers := by
  rcases session_of_error h with hsame | ⟨header, chosen, prototypes, cause, -, -, -, hrecord⟩
  · rw [hsame]
  · rw [hrecord]
    rfl

/-- A failed operation changes nothing, unless it is a sync that could not read its chosen file. -/
theorem step_of_error (h : (w.step op).1 = .error e) :
    w.memory.SameDocuments (w.step op).2.memory ∧
    (w.step op).2.session.headers = w.session.headers ∧
    ((∀ header chosen, op = .sync header chosen → e = .notScanned ∨
      ∀ file ∈ w.memory.candidates w.session.settings.query, ∃ text,
        w.memory.read file = .ok text) → (w.step op).2.session = w.session) ∧
    ∀ header chosen cause, op = .sync header chosen → e = .access cause →
      (w.step op).2.session = (w.step (.find header)).2.session := by
  refine ⟨sameDocuments_of_error h, headers_of_error h, ?_, ?_⟩
  · intro hall
    rcases session_of_error h with
      hsame | ⟨header, chosen, prototypes, cause, rfl, rfl, -, hrecord⟩
    · exact hsame
    · rcases hall header chosen rfl with hne | hread
      · cases hne
      · rw [hrecord]
        exact Session.record_of_readable (Session.found_readable hread)
  · rintro header chosen cause rfl rfl
    rcases Session.sync_of_error Memory.steady_workspace (outcome_eq_error.mp h) with
      ⟨hne, -⟩ | ⟨prototypes, cause, hscan, -, hrecord⟩
    · cases hne
    · have hfind := Session.find_run Memory.steady_workspace w.session w.memory header
      rw [hscan] at hfind
      have hsession : (w.step (.find header)).2.session =
          w.session.record (w.session.found Memory.workspace w.memory prototypes) :=
        congrArg Prod.snd hfind
      rw [hsession]
      exact hrecord

/-- The chosen file is no document. -/
theorem step_of_error_missing :
    let w := run {} [.put "a.cpp" "void f() \x7b\x7d\n", .scanText "a.h" "void f();\n"]
    let later := w.step (.sync "a.h" "b.cpp")
    later.1 = .error (.access (.cannotOpen "b.cpp")) ∧ w.memory.SameDocuments later.2.memory ∧
    later.2.session = w.session ∧ later.2.session = (w.step (.find "a.h")).2.session := by
  intro w later
  have herror : later.1 = .error (.access (.cannotOpen "b.cpp")) := by decide +kernel
  have hcandidates : w.memory.candidates w.session.settings.query = [Text.ofString "a.cpp"] := by
    decide +kernel
  have hread : w.memory.read "a.cpp" = .ok "void f() \x7b\x7d\n" := by decide +kernel
  obtain ⟨hsame, -, hsession, hfind⟩ := step_of_error herror
  refine ⟨herror, hsame, hsession fun _ _ _ => .inr ?_, hfind _ _ _ rfl rfl⟩
  rw [hcandidates]
  intro file hfile
  rw [List.mem_singleton.mp hfile]
  exact ⟨_, hread⟩

/-- The warning that the search skipped the chosen file stays in the log. -/
theorem sync_error_keeps_warning :
    let w := run {} [.put "a.cpp" "void f() \x7b\x7d\n", .lock "b.cpp",
      .scanText "a.h" "void f();\n"]
    let later := w.step (.sync "a.h" "b.cpp")
    later.1 = .error (.access (.cannotOpen "b.cpp")) ∧
    w.session.log.count .warning = 0 ∧ later.2.session.log.count .warning = 1 ∧
    w.session.files.paths = [Text.ofString "a.h"] ∧
    later.2.session.files.paths = [Text.ofString "a.h", Text.ofString "b.cpp"] := by
  decide +kernel

end Workbench

end HeaderOrder

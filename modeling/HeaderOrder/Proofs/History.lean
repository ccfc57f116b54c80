import HeaderOrder.Proofs.FileIndex
import HeaderOrder.Proofs.Operation
import HeaderOrder.Proofs.Path
import HeaderOrder.Proofs.Table
import Mathlib.Data.List.Induction

/-!
# The scans so far

A header is known from its last scan on, until it is forgotten.
-/

namespace HeaderOrder

/-! ## Sessions that know the same headers -/

namespace Session

variable {s s' s'' : Session}

/-- The later session knows the same headers, and no file less. -/
structure SameHeaders (s s' : Session) : Prop where
  settings : s'.settings = s.settings
  headers : s'.headers = s.headers
  files : s.files.paths <+: s'.files.paths

theorem SameHeaders.refl (s : Session) : SameHeaders s s := ⟨rfl, rfl, List.prefix_refl _⟩

theorem SameHeaders.trans (h : SameHeaders s s') (h' : SameHeaders s' s'') : SameHeaders s s'' :=
  ⟨h'.settings.trans h.settings, h'.headers.trans h.headers, h.files.trans h'.files⟩

theorem sameHeaders_record (s : Session) (found : Findings) : s.SameHeaders (s.record found) :=
  ⟨rfl, rfl, Findings.prefix_locate _ _⟩

theorem sameHeaders_noted (s : Session) (header : Text) (prototypes : List Prototype)
    (plan : Option Plan) : s.SameHeaders (s.noted header prototypes plan) := by
  unfold noted
  split_ifs
  · exact ⟨rfl, rfl, s.files.prefix_add header⟩
  · exact .refl s

theorem sameHeaders_find {σ : Type} {ws : Workspace (StateM σ)} (h : ws.Steady) (st : σ)
    (header : Text) : s.SameHeaders ((s.find ws header).run st).1.2 := by
  rw [find_run h]
  cases s.scanned? ws header with
  | none => exact .refl s
  | some prototypes => exact s.sameHeaders_record _

theorem sameHeaders_sync {σ : Type} {ws : Workspace (StateM σ)} (h : ws.Steady) (st : σ)
    (header chosen : Text) : s.SameHeaders ((s.sync ws header chosen).run st).1.2 := by
  rw [sync_run h]
  rcases s.scanned? ws header with _ | _ | ⟨p, ps⟩
  · exact .refl s
  · exact .refl s
  · have hrecord := s.sameHeaders_record (s.found ws st (p :: ps))
    dsimp only
    split_ifs
    · exact hrecord
    · cases ws.readAt st (ws.canonical chosen) with
      | ok text => exact hrecord.trans (sameHeaders_noted _ _ _ _)
      | error e => exact hrecord

def learn (s : Session) (key text : Text) : Session :=
  { s with
    headers := s.headers.insert key (Prototype.ofText text)
    files := (s.files.add key).2 }

theorem scanText_of_isHeader {σ : Type} {header : Text}
    (h : s.settings.isHeader header = true) (ws : Workspace (StateM σ)) (text : Text) :
    s.scanText ws header text =
      (.ok (Prototype.ofText text), s.learn (ws.canonical header) text) := if_pos h

theorem scan_of_ok {σ : Type} {ws : Workspace (StateM σ)} {st : σ} {header : Text}
    {prototypes : List Prototype} (h : ((s.scan ws header).run st).1.1 = .ok prototypes) :
    s.settings.isHeader header = true ∧ ∃ text, ws.readAt st header = .ok text ∧
      ((s.scan ws header).run st).1.2 = s.learn (ws.canonical header) text := by
  rw [scan_run] at h ⊢
  split_ifs at h ⊢ with hheader
  cases hread : ws.readAt st header with
  | error e => simp [hread] at h
  | ok text =>
    refine ⟨hheader, text, rfl, ?_⟩
    dsimp only
    rw [scanText_of_isHeader hheader]

/-- The known headers are told apart by normal paths, which are paths of headers and known files. -/
structure Coherent (s : Session) : Prop where
  nodup : s.headers.keys.Nodup
  normal : ∀ key ∈ s.headers.keys, Path.normalize key = key
  isHeader : ∀ key ∈ s.headers.keys, s.settings.isHeader key = true
  numbered : ∀ key ∈ s.headers.keys, key ∈ s.files.paths

theorem Coherent.of_sameHeaders (h : s.Coherent) (hsame : s.SameHeaders s') : s'.Coherent := by
  constructor
  · rw [hsame.headers]
    exact h.nodup
  · rw [hsame.headers]
    exact h.normal
  · rw [hsame.headers, hsame.settings]
    exact h.isHeader
  · rw [hsame.headers]
    exact fun key hkey => hsame.files.subset (h.numbered key hkey)

theorem Coherent.learn (h : s.Coherent) {key : Text} (hnormal : Path.normalize key = key)
    (hheader : s.settings.isHeader key = true) (text : Text) : (s.learn key text).Coherent := by
  constructor
  · rw [Session.learn, Table.keys_insert, List.nodup_cons]
    exact ⟨by simp, h.nodup.filter _⟩
  all_goals
    intro k hk
    rcases Table.mem_keys_insert.mp hk with rfl | hk
  · exact hnormal
  · exact h.normal k hk
  · exact hheader
  · exact h.isHeader k hk
  · have hmem := s.files.mem_add k
    rw [hnormal] at hmem
    exact hmem
  · exact (s.files.prefix_add key).subset (h.numbered k hk)

theorem Coherent.erase (h : s.Coherent) (key : Text) :
    Coherent { s with headers := s.headers.erase key } := by
  constructor
  · rw [Table.keys_erase]
    exact h.nodup.filter _
  · exact fun k hk => h.normal k (Table.mem_keys_erase.mp hk).1
  · exact fun k hk => h.isHeader k (Table.mem_keys_erase.mp hk).1
  · exact fun k hk => h.numbered k (Table.mem_keys_erase.mp hk).1

end Session

/-! ## Histories -/

/-- An operation, with the documents it was done on and its answer. -/
structure Event where
  operation : Operation
  memory : Memory
  answer : Except Session.Error Answer

namespace Event

def scan? (e : Event) : Option (Text × Text) :=
  match e.operation, e.answer with
  | .scan header, .ok _ =>
    (e.memory.read header).toOption.map fun text => (Path.normalize header, text)
  | .scanText header text, .ok _ => some (Path.normalize header, text)
  | _, _ => none

def forgets? (e : Event) : Option Text :=
  match e.operation with
  | .invalidate header => some (Path.normalize header)
  | _ => none

/-- The event is a scan of the file, or makes it forgotten. -/
def Touches (e : Event) (key : Text) : Prop :=
  e.scan?.map (·.1) = some key ∨ e.forgets? = some key

instance (e : Event) (key : Text) : Decidable (e.Touches key) :=
  inferInstanceAs (Decidable (_ ∨ _))

end Event

/-- The last scan of a file was of this text, and the file was not forgotten since. -/
def LastScan (history : List Event) (key text : Text) : Prop :=
  ∃ before e after, history = before ++ e :: after ∧ e.scan? = some (key, text) ∧
    ∀ later ∈ after, ¬ later.Touches key

/-- The file was scanned, and not forgotten since. -/
def Live (history : List Event) (key : Text) : Prop := ∃ text, LastScan history key text

theorem lastScan_nil {key text : Text} : ¬ LastScan [] key text := by
  rintro ⟨before, e, after, hnil, -⟩
  simp at hnil

theorem lastScan_concat {history : List Event} {e : Event} {key text : Text} :
    LastScan (history ++ [e]) key text ↔
      e.scan? = some (key, text) ∨ ¬ e.Touches key ∧ LastScan history key text := by
  constructor
  · rintro ⟨before, e', after, heq, hscan, hafter⟩
    -- The scan is the new event itself, or the new event comes after it.
    rcases List.eq_nil_or_concat after with rfl | ⟨after, last, rfl⟩
    · obtain ⟨-, rfl⟩ := List.append_singleton_inj.mp heq
      exact .inl hscan
    · rw [List.concat_eq_append] at heq hafter
      rw [← List.cons_append, ← List.append_assoc, List.append_singleton_inj] at heq
      obtain ⟨rfl, rfl⟩ := heq
      exact .inr ⟨hafter e (by simp), before, e', after, rfl, hscan,
        fun later hlater => hafter later (by simp [hlater])⟩
  · rintro (hscan | ⟨htouch, before, e', after, rfl, hscan, hafter⟩)
    · exact ⟨history, e, [], rfl, hscan, by simp⟩
    · refine ⟨before, e', after ++ [e], by simp, hscan, ?_⟩
      intro later hlater
      rcases List.mem_append.mp hlater with hlater | hlater
      · exact hafter later hlater
      · rw [List.mem_singleton.mp hlater]
        exact htouch

namespace Workbench

variable {w : Workbench} {op : Operation} {header text : Text} {e : Session.Error} {answer : Answer}

def event (w : Workbench) (op : Operation) : Event := ⟨op, w.memory, (w.step op).1⟩

def history (w : Workbench) : List Operation → List Event
  | [] => []
  | op :: ops => w.event op :: (w.step op).2.history ops

theorem run_concat (w : Workbench) (ops : List Operation) (op : Operation) :
    w.run (ops ++ [op]) = ((w.run ops).step op).2 := by
  simp [run]

theorem history_concat (w : Workbench) (ops : List Operation) (op : Operation) :
    w.history (ops ++ [op]) = w.history ops ++ [(w.run ops).event op] := by
  induction ops generalizing w with
  | nil => rfl
  | cons op' ops ih => exact congrArg _ (ih (w.step op').2)

/-! ## One step -/

/-- All that a step can do to a session: it scans a header, forgets one, or does neither. -/
inductive StepEffect (s : Session) (e : Event) (s' : Session) : Prop where
  | learned (key text : Text) (scan : e.scan? = some (key, text)) (forgets : e.forgets? = none)
    (normal : Path.normalize key = key) (isHeader : s.settings.isHeader key = true)
    (session : s' = s.learn key text)
  | forgot (key : Text) (scan : e.scan? = none) (forgets : e.forgets? = some key)
    (session : s' = { s with headers := s.headers.erase key })
  | neither (scan : e.scan? = none) (forgets : e.forgets? = none) (same : s.SameHeaders s')

theorem scan?_of_error (h : (w.step op).1 = .error e) : (w.event op).scan? = none := by
  unfold Event.scan? event
  rw [h]
  cases op <;> rfl

theorem scan?_of_ok (h : (w.step (.scan header)).1 = .ok answer)
    (hread : w.memory.read header = .ok text) :
    (w.event (.scan header)).scan? = some (Path.normalize header, text) := by
  simp [Event.scan?, event, h, hread, Except.toOption]

theorem stepEffect_of_error (h : (w.step op).1 = .error e) (hforgets : (w.event op).forgets? = none)
    (hsession : (w.step op).2.session = w.session) :
    StepEffect w.session (w.event op) (w.step op).2.session := by
  rw [hsession]
  exact .neither (scan?_of_error h) hforgets (.refl _)

theorem stepEffect_scan (w : Workbench) (header : Text) :
    StepEffect w.session (w.event (.scan header)) (w.step (.scan header)).2.session := by
  cases hanswer : (w.step (.scan header)).1 with
  | error e =>
    exact stepEffect_of_error hanswer rfl (Session.scan_of_error (outcome_eq_error.mp hanswer))
  | ok answer =>
    cases hscan : ((w.session.scan Memory.workspace header).run w.memory).1.1 with
    | error e =>
      rw [step, outcome_eq_error.mpr hscan] at hanswer
      cases hanswer
    | ok prototypes =>
      obtain ⟨hheader, text, hread, hsession⟩ := Session.scan_of_ok hscan
      exact .learned (Path.normalize header) text (scan?_of_ok hanswer hread) rfl
        (Path.normalize_normalize header) ((Settings.isHeader_normalize _ _).trans hheader) hsession

theorem stepEffect_scanText (w : Workbench) (header text : Text) :
    StepEffect w.session (w.event (.scanText header text))
      (w.step (.scanText header text)).2.session := by
  by_cases hheader : w.session.settings.isHeader header = true
  · have hscan := Session.scanText_of_isHeader hheader Memory.workspace text
    have hstep : w.step (.scanText header text) = (.ok (.prototypes (Prototype.ofText text)),
        { w with session := w.session.learn (Path.normalize header) text }) := by
      rw [step, hscan]
      rfl
    refine .learned (Path.normalize header) text ?_ rfl
      (Path.normalize_normalize header) ((Settings.isHeader_normalize _ _).trans hheader) ?_
    · rw [event, hstep]
      rfl
    · rw [hstep]
  · have hstep : (w.step (.scanText header text)).1 = .error (.notHeader header) := by
      rw [step, outcome_eq_error, Session.scanText, if_neg hheader]
    exact stepEffect_of_error hstep rfl (Session.scanText_of_error (outcome_eq_error.mp hstep))

theorem stepEffect (w : Workbench) (op : Operation) :
    StepEffect w.session (w.event op) (w.step op).2.session := by
  cases op with
  | scan header => exact stepEffect_scan w header
  | scanText header text => exact stepEffect_scanText w header text
  | find header =>
    exact .neither rfl rfl (Session.sameHeaders_find Memory.steady_workspace w.memory header)
  | sync header chosen =>
    exact .neither rfl rfl
      (Session.sameHeaders_sync Memory.steady_workspace w.memory header chosen)
  | invalidate header => exact .forgot (Path.normalize header) rfl rfl rfl
  | apply | setVerbose | put | lock | setReadOnly =>
    exact .neither rfl rfl ⟨rfl, rfl, List.prefix_refl _⟩

theorem settings_step (w : Workbench) (op : Operation) :
    (w.step op).2.session.settings = w.session.settings := by
  rcases stepEffect w op with
    ⟨key, text, -, -, -, -, hsession⟩ | ⟨key, -, -, hsession⟩ | ⟨-, -, hsame⟩
  · rw [hsession]
    rfl
  · rw [hsession]
  · exact hsame.settings

theorem coherent_step (h : w.session.Coherent) (op : Operation) :
    (w.step op).2.session.Coherent := by
  rcases stepEffect w op with
    ⟨key, text, -, -, hnormal, hheader, hsession⟩ | ⟨key, -, -, hsession⟩ | ⟨-, -, hsame⟩
  · rw [hsession]
    exact h.learn hnormal hheader text
  · rw [hsession]
    exact h.erase key
  · exact h.of_sameHeaders hsame

/-- A step changes what is known of the file that it scans or forgets, and of no other. -/
theorem get?_step (w : Workbench) (op : Operation) (key : Text) (prototypes : List Prototype) :
    (w.step op).2.session.headers.get? key = some prototypes ↔
      (∃ text, (w.event op).scan? = some (key, text) ∧ prototypes = Prototype.ofText text) ∨
        ¬ (w.event op).Touches key ∧ w.session.headers.get? key = some prototypes := by
  unfold Event.Touches
  rcases stepEffect w op with
    ⟨k, text, hscan, hforgets, -, -, hsession⟩ | ⟨k, hscan, hforgets, hsession⟩ |
      ⟨hscan, hforgets, hsame⟩
  · rw [hscan, hforgets, hsession, Session.learn, Table.get?_insert]
    by_cases hkey : key = k <;> simp [hkey, eq_comm]
  · rw [hscan, hforgets, hsession, Table.get?_erase]
    by_cases hkey : key = k <;> simp [hkey, eq_comm]
  · rw [hscan, hforgets, hsame.headers]
    simp

/-! ## Runs -/

def fresh (settings : Settings) (memory : Memory) : Workbench := ⟨{ settings }, memory⟩

theorem coherent_fresh (settings : Settings) (memory : Memory) :
    (fresh settings memory).session.Coherent := by
  constructor <;> simp [fresh, Table.keys]

theorem settings_run (w : Workbench) (ops : List Operation) :
    (w.run ops).session.settings = w.session.settings := by
  induction ops using List.reverseRecOn with
  | nil => rfl
  | append_singleton ops op ih => rw [run_concat, settings_step, ih]

theorem coherent_run (h : w.session.Coherent) (ops : List Operation) :
    (w.run ops).session.Coherent := by
  induction ops using List.reverseRecOn with
  | nil => exact h
  | append_singleton ops op ih =>
    rw [run_concat]
    exact coherent_step ih op

theorem get?_run (settings : Settings) (memory : Memory) (ops : List Operation) (key : Text)
    (prototypes : List Prototype) :
    ((fresh settings memory).run ops).session.headers.get? key = some prototypes ↔
      ∃ text, LastScan ((fresh settings memory).history ops) key text ∧
        prototypes = Prototype.ofText text := by
  -- A later event decides over the earlier ones, so the induction is on the last operation.
  induction ops using List.reverseRecOn with
  | nil => simp [run, fresh, history, lastScan_nil, Table.get?]
  | append_singleton ops op ih =>
    rw [run_concat, history_concat, get?_step, ih]
    simp only [lastScan_concat]
    constructor
    · rintro (⟨text, hscan, rfl⟩ | ⟨htouch, text, hlast, rfl⟩)
      · exact ⟨text, .inl hscan, rfl⟩
      · exact ⟨text, .inr ⟨htouch, hlast⟩, rfl⟩
    · rintro ⟨text, hscan | ⟨htouch, hlast⟩, rfl⟩
      · exact .inl ⟨text, hscan, rfl⟩
      · exact .inr ⟨htouch, text, hlast, rfl⟩

theorem mem_keys_run (settings : Settings) (memory : Memory) (ops : List Operation) (key : Text) :
    key ∈ ((fresh settings memory).run ops).session.headers.keys ↔
      Live ((fresh settings memory).history ops) key := by
  rw [Table.mem_keys_iff, Table.contains, Option.isSome_iff_exists]
  simp only [get?_run]
  constructor
  · rintro ⟨prototypes, text, hlast, -⟩
    exact ⟨text, hlast⟩
  · rintro ⟨text, hlast⟩
    exact ⟨_, text, hlast, rfl⟩

theorem headers_unchanged (h : (∃ e, (w.step op).1 = .error e) ∨ (∃ header, op = .find header) ∨
    (∃ header chosen, op = .sync header chosen) ∨ ∃ plan, op = .apply plan) :
    (w.step op).2.session.headers = w.session.headers := by
  rcases h with ⟨e, herror⟩ | ⟨header, rfl⟩ | ⟨header, chosen, rfl⟩ | ⟨plan, rfl⟩
  · exact headers_of_error herror
  · exact (Session.sameHeaders_find Memory.steady_workspace w.memory header).headers
  · exact (Session.sameHeaders_sync Memory.steady_workspace w.memory header chosen).headers
  · rfl

/-- What a session knows of headers is what its history tells. -/
theorem headers_eq_history (settings : Settings) (memory : Memory) (ops : List Operation) :
    let w := (fresh settings memory).run ops
    let history := (fresh settings memory).history ops
    (∀ header text, LastScan history (Path.normalize header) text →
      w.session.scanned? Memory.workspace header = some (Prototype.ofText text)) ∧
    (∀ header, ¬ Live history (Path.normalize header) →
      w.session.scanned? Memory.workspace header = none) ∧
    (∃ live : List Text, live.Nodup ∧ (∀ key, key ∈ live ↔ Live history key) ∧
      w.session.headers.size = live.length) ∧
    (∀ header, ∃ known, (w.step (.invalidate header)).1 = .ok (.known known) ∧
      (known = true ↔ Live history (Path.normalize header))) ∧
    (∀ op, (∃ e, (w.step op).1 = .error e) ∨ (∃ header, op = .find header) ∨
      (∃ header chosen, op = .sync header chosen) ∨ (∃ plan, op = .apply plan) →
      (w.step op).2.session.headers = w.session.headers) ∧
    w.session.settings = settings ∧
    ∀ key, Live history key → Path.normalize key = key ∧ settings.isHeader key = true ∧
      w.session.files.find key ≠ 0 := by
  intro w history
  have hcoherent : w.session.Coherent := coherent_run (coherent_fresh settings memory) ops
  have hsettings : w.session.settings = settings := settings_run (fresh settings memory) ops
  have hlive : ∀ key, key ∈ w.session.headers.keys ↔ Live history key :=
    mem_keys_run settings memory ops
  refine ⟨?_, ?_, ?_, ?_, ?_, hsettings, ?_⟩
  · intro header text hlast
    exact (get?_run settings memory ops _ _).mpr ⟨text, hlast, rfl⟩
  · intro header hdead
    rw [← hlive, Table.mem_keys_iff, Table.contains, Bool.not_eq_true,
      Option.isSome_eq_false_iff, Option.isNone_iff_eq_none] at hdead
    exact hdead
  · exact ⟨w.session.headers.keys, hcoherent.nodup, hlive, (List.length_map _).symm⟩
  · intro header
    exact ⟨_, rfl, Table.mem_keys_iff.symm.trans (hlive _)⟩
  · intro op hop
    exact headers_unchanged hop
  · intro key hkey
    rw [← hlive] at hkey
    have hnormal := hcoherent.normal key hkey
    have hheader := hcoherent.isHeader key hkey
    rw [hsettings] at hheader
    refine ⟨hnormal, hheader, FileIndex.find_ne_zero_iff.mpr ?_⟩
    rw [hnormal]
    exact hcoherent.numbered key hkey

theorem headers_eq_history_spellings :
    let before : List Operation := [.put "./inc//a.h" "void f();\n", .scan "inc/a.h"]
    let after : List Operation := [.scanText "b.h" "int b();\n", .lock "inc/a.h", .scan "inc/a.h",
      .scanText "a.txt" "int t();\n", .invalidate "./b.h"]
    let ops := before ++ .scanText "inc/../inc/a.h" "void g();\n" :: after
    let w := (fresh {} {}).run ops
    let history := (fresh {} {}).history ops
    LastScan history "inc/a.h" "void g();\n" ∧
    w.session.scanned? Memory.workspace "inc/./a.h" = some (Prototype.ofText "void g();\n") ∧
    w.session.files.find "inc/a.h" ≠ 0 ∧
    ¬ Live history "b.h" ∧ w.session.scanned? Memory.workspace "x/../b.h" = none := by
  intro before after ops w history
  obtain ⟨hscanned, hnone, -, -, -, -, hlive⟩ := headers_eq_history {} {} ops
  have hlast : LastScan history "inc/a.h" "void g();\n" :=
    ⟨(fresh {} {}).history before, _, _, rfl, by decide +kernel, by decide +kernel⟩
  have hspelling : Path.normalize "inc/./a.h" = "inc/a.h" := by decide
  have hspelling' : Path.normalize "x/../b.h" = "b.h" := by decide
  have hdead : ¬ Live history "b.h" := by
    rw [← mem_keys_run]
    decide +kernel
  refine ⟨hlast, hscanned _ _ ?_, (hlive _ ⟨_, hlast⟩).2.2, hdead, hnone _ ?_⟩
  · rw [hspelling]
    exact hlast
  · rw [hspelling']
    exact hdead

end Workbench

end HeaderOrder

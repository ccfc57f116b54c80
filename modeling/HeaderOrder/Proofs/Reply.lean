import HeaderOrder.Command.Script
import HeaderOrder.Proofs.Message
import HeaderOrder.Proofs.Replacement

/-!
# What a command replies and leaves

Sessions that know the same headers reply alike, whatever numbers files have.
-/

namespace HeaderOrder.Session

variable {σ : Type} {ws : Workspace (StateM σ)} {st : σ} {s s' s'' : Session} {quiet dryRun : Bool}
  {header target : Text}

/-! ## Sessions that reply alike -/

/-- The sessions have the same settings and know the same headers. -/
structure Alike (s s' : Session) : Prop where
  settings : s'.settings = s.settings
  verbose : s'.verbose = s.verbose
  headers : s'.headers = s.headers

theorem Alike.refl (s : Session) : s.Alike s := ⟨rfl, rfl, rfl⟩

theorem Alike.symm (h : s.Alike s') : s'.Alike s :=
  ⟨h.settings.symm, h.verbose.symm, h.headers.symm⟩

theorem Alike.trans (h : s.Alike s') (h' : s'.Alike s'') : s.Alike s'' :=
  ⟨h'.settings.trans h.settings, h'.verbose.trans h.verbose, h'.headers.trans h.headers⟩

theorem alike_flush (s : Session) : s.Alike s.flush.2 := ⟨rfl, rfl, rfl⟩

theorem Alike.flush (h : s.Alike s') : s.flush.2.Alike s'.flush.2 :=
  ⟨h.settings, h.verbose, h.headers⟩

theorem alike_record (s : Session) (found : Findings) : s.Alike (s.record found) := ⟨rfl, rfl, rfl⟩

theorem alike_noted (s : Session) (header : Text) (prototypes : List Prototype)
    (plan : Option Plan) : s.Alike (s.noted header prototypes plan) := by
  unfold noted
  split_ifs
  · exact ⟨rfl, rfl, rfl⟩
  · exact .refl s

theorem Alike.scanned? (h : s.Alike s') (ws : Workspace (StateM σ)) (header : Text) :
    s'.scanned? ws header = s.scanned? ws header := by
  unfold Session.scanned?
  rw [h.headers]

theorem Alike.found (h : s.Alike s') (ws : Workspace (StateM σ)) (st : σ)
    (prototypes : List Prototype) : s'.found ws st prototypes = s.found ws st prototypes := by
  unfold Session.found
  rw [h.settings]

/-- Both runs have the same answer, and sessions that are alike and print the same. -/
structure SameOutcome {α : Type} (r r' : α × Session) : Prop where
  answer : r'.1 = r.1
  alike : r.2.Alike r'.2
  printed : r'.2.flush.1 = r.2.flush.1

theorem Alike.sameOutcome {α : Type} (h : s.Alike s') (hs : s.log = {}) (hs' : s'.log = {})
    (answer : α) : SameOutcome (answer, s) (answer, s') :=
  ⟨rfl, h, by rw [flush_of_log hs, flush_of_log hs']⟩

/-! ## Scans, searches and plans -/

theorem Alike.learn (h : s.Alike s') (key text : Text) :
    (s.learn key text).Alike (s'.learn key text) := by
  refine ⟨h.settings, h.verbose, ?_⟩
  unfold Session.learn
  rw [h.headers]

theorem Alike.scan (h : s.Alike s') (hs : s.log = {}) (hs' : s'.log = {})
    (ws : Workspace (StateM σ)) (st : σ) (header : Text) :
    SameOutcome ((s.scan ws header).run st).1 ((s'.scan ws header).run st).1 := by
  rw [scan_run, scan_run, h.settings]
  split_ifs with hheader
  · cases ws.readAt st header with
    | error e => exact h.sameOutcome hs hs' _
    | ok text =>
      dsimp only
      rw [scanText_of_isHeader hheader, scanText_of_isHeader (h.settings ▸ hheader)]
      exact (h.learn _ _).sameOutcome hs hs' _
  · exact h.sameOutcome hs hs' _

theorem sameOutcome_record {α : Type} (h : s.Alike s') (hs : s.log = {}) (hs' : s'.log = {})
    (answer : α) (found : Findings) :
    SameOutcome (answer, s.record found) (answer, s'.record found) :=
  ⟨rfl, ⟨h.settings, h.verbose, h.headers⟩, by rw [flush_record hs, flush_record hs']⟩

theorem Alike.find (h : s.Alike s') (hs : s.log = {}) (hs' : s'.log = {}) (hws : ws.Steady)
    (st : σ) (header : Text) :
    SameOutcome ((s.find ws header).run st).1 ((s'.find ws header).run st).1 := by
  rw [find_run hws, find_run hws, h.scanned?]
  cases s.scanned? ws header with
  | none => exact h.sameOutcome hs hs' _
  | some prototypes =>
    dsimp only
    rw [h.found]
    exact sameOutcome_record h hs hs' _ _

theorem Alike.sync (h : s.Alike s') (hs : s.log = {}) (hs' : s'.log = {}) (hws : ws.Steady)
    (st : σ) (header target : Text) :
    SameOutcome ((s.sync ws header target).run st).1 ((s'.sync ws header target).run st).1 := by
  rw [sync_run hws, sync_run hws, h.scanned?]
  rcases s.scanned? ws header with _ | _ | ⟨p, ps⟩
  · exact h.sameOutcome hs hs' _
  · exact h.sameOutcome hs hs' _
  · dsimp only
    rw [h.found]
    split_ifs
    · exact sameOutcome_record h hs hs' _ _
    · cases ws.readAt st (ws.canonical target) with
      | error e => exact sameOutcome_record h hs hs' _ _
      | ok text =>
        refine ⟨rfl, ?_, ?_⟩
        · have hrecord := (sameOutcome_record h hs hs' () (s.found ws st (p :: ps))).alike
          exact ((alike_noted _ _ _ _).symm.trans hrecord).trans (alike_noted _ _ _ _)
        · dsimp only
          rw [flush_noted hs, flush_noted hs', h.verbose]

theorem alike_find (s : Session) (hws : ws.Steady) (st : σ) (header : Text) :
    s.Alike ((s.find ws header).run st).1.2 := by
  rw [find_run hws]
  cases s.scanned? ws header with
  | none => exact .refl s
  | some prototypes => exact s.alike_record _

theorem alike_sync (s : Session) (hws : ws.Steady) (st : σ) (header target : Text) :
    s.Alike ((s.sync ws header target).run st).1.2 := by
  rw [sync_run hws]
  rcases s.scanned? ws header with _ | _ | ⟨p, ps⟩
  · exact .refl s
  · exact .refl s
  · have hrecord := s.alike_record (s.found ws st (p :: ps))
    dsimp only
    split_ifs
    · exact hrecord
    · cases ws.readAt st (ws.canonical target) with
      | error e => exact hrecord
      | ok text => exact hrecord.trans (alike_noted _ _ _ _)

/-! ## Replies -/

def scanAnswer (quiet verbose : Bool) (header notes : Text) : Except Error (List Prototype) → Reply
  | .error e => .after notes (.failure e.message)
  | .ok prototypes =>
    if quiet then { err := notes }
    else
      { out := List.flatten ["Found ", Text.decimal prototypes.length, " prototype(s) in ", header,
          "\n"] ++ prototypes.flatMap (prototypeLine verbose)
        err := notes }

def findAnswer (s : Session) (quiet : Bool) (header notes : Text) :
    Except Error (List Definition) → Reply
  | .error e => .after notes (.failure e.message)
  | .ok definitions =>
    if quiet then { err := notes }
    else
      { out := List.flatten ["Found ", Text.decimal definitions.length,
          " implementation(s) across workspace for header ", header, "\n"] ++
            definitions.flatMap s.definitionLine
        err := notes }

def choicesAnswer (s : Session) (quiet : Bool) (notes : Text) :
    Except Error (List Definition) → Reply
  | .error e => .after notes (.failure e.message)
  | .ok [] => .after notes (.info quiet nothingFound)
  | .ok definitions => .after notes { Reply.failure "choose a target file" with
      out := "Candidate files:\n" ++ (Definition.files definitions).flatMap fun file =>
        List.flatten ["  ", s.display file, "\n"] }

theorem scanReply_run (s : Session) (ws : Workspace (StateM σ)) (st : σ) (quiet : Bool)
    (header : Text) :
    (s.scanReply ws quiet header).run st =
      let r := (s.scan ws header).run st
      ((scanAnswer quiet r.1.2.verbose header r.1.2.flush.1 r.1.1, r.1.2.flush.2), r.2) := by
  unfold scanReply
  rw [run_bind_eq]
  generalize (s.scan ws header).run st = r
  obtain ⟨⟨answer, s⟩, st⟩ := r
  cases answer with
  | error e => rfl
  | ok prototypes => cases quiet <;> rfl

theorem findReply_run (s : Session) (ws : Workspace (StateM σ)) (st : σ) (quiet : Bool)
    (header : Text) :
    (s.findReply ws quiet header).run st =
      let r := (s.find ws header).run st
      ((r.1.2.findAnswer quiet header r.1.2.flush.1 r.1.1, r.1.2.flush.2), r.2) := by
  unfold findReply
  rw [run_bind_eq]
  generalize (s.find ws header).run st = r
  obtain ⟨⟨answer, s⟩, st⟩ := r
  cases answer with
  | error e => rfl
  | ok definitions => cases quiet <;> rfl

theorem choicesReply_run (s : Session) (ws : Workspace (StateM σ)) (st : σ) (quiet : Bool)
    (header : Text) :
    (s.choicesReply ws quiet header).run st =
      let r := (s.find ws header).run st
      ((r.1.2.choicesAnswer quiet r.1.2.flush.1 r.1.1, r.1.2.flush.2), r.2) := by
  unfold choicesReply
  rw [run_bind_eq]
  generalize (s.find ws header).run st = r
  obtain ⟨⟨answer, s⟩, st⟩ := r
  match answer with
  | .error e => rfl
  | .ok [] => rfl
  | .ok (d :: ds) => rfl

/-- The plan that is to be shown or carried out, when a sync has this answer. -/
def planned? : Except Error Sync → Option Plan
  | .ok ⟨_ :: _, plan⟩ => plan
  | _ => none

theorem exists_sync_of_planned {answer : Except Error Sync} {plan : Plan}
    (h : planned? answer = some plan) : ∃ definitions, answer = .ok ⟨definitions, some plan⟩ := by
  match answer, h with
  | .ok ⟨d :: ds, some _⟩, rfl => exact ⟨d :: ds, rfl⟩

def planlessAnswer (quiet : Bool) (target notes : Text) : Except Error Sync → Reply
  | .error e => .after notes (.failure e.message)
  | .ok ⟨[], _⟩ => .after notes (.info quiet nothingFound)
  | .ok ⟨definitions, _⟩ => .after notes (.info quiet (noPlan definitions target))

def applyAnswer (quiet : Bool) (notes : Text) : Except AccessError Unit → Reply
  | .error e => .after notes (.failure ("Failed to apply edits: " ++ (Error.access e).message))
  | .ok () => .after notes (.info quiet "Reordered functions to match header prototype order.")

theorem reorderReply_run (s : Session) (ws : Workspace (StateM σ)) (st : σ) (quiet dryRun : Bool)
    (header target : Text) :
    (s.reorderReply ws quiet dryRun header target).run st =
      let r := (s.sync ws header target).run st
      match planned? r.1.1 with
      | none =>
        ((planlessAnswer quiet (ws.canonical target) r.1.2.flush.1 r.1.1, r.1.2.flush.2), r.2)
      | some plan =>
        if dryRun then
          ((.after r.1.2.flush.1 (r.1.2.previewReply plan), r.1.2.flush.2), r.2)
        else
          let applied := (ws.apply plan).run r.2
          ((applyAnswer quiet r.1.2.flush.1 applied.1, r.1.2.flush.2), applied.2) := by
  unfold reorderReply
  rw [run_bind_eq]
  generalize (s.sync ws header target).run st = r
  obtain ⟨⟨answer, s⟩, st⟩ := r
  match answer with
  | .error e => rfl
  | .ok ⟨[], _⟩ => rfl
  | .ok ⟨d :: ds, none⟩ => rfl
  | .ok ⟨d :: ds, some plan⟩ =>
    cases dryRun with
    | true => rfl
    | false =>
      dsimp only [planned?]
      rw [if_neg (by simp), if_neg (by simp), run_bind_eq, Session.apply, run_bind_eq]
      generalize (ws.apply plan).run st = applied
      obtain ⟨answer, st⟩ := applied
      cases answer with
      | error e => rfl
      | ok _ => rfl

theorem exists_scanned (s : Session) (ws : Workspace (StateM σ)) (st : σ) (header : Text) :
    ∃ headers files, ((s.scan ws header).run st).1.2 = { s with headers, files } := by
  rw [scan_run]
  split_ifs with hheader
  · cases ws.readAt st header with
    | error e => exact ⟨_, _, rfl⟩
    | ok text =>
      dsimp only
      rw [scanText_of_isHeader hheader]
      exact ⟨_, _, rfl⟩
  · exact ⟨_, _, rfl⟩

/-! ## Commands over a file tree -/

theorem scan_tree (s : Session) (t : FileTree) (dir : List Text) (root header : Text) :
    ((s.scan ((FileTree.disk dir).workspace root) header).run t).2 = t :=
  keeps_scan (FileTree.readsKeep_workspace dir (· = t) root) header t rfl

theorem find_tree (s : Session) (t : FileTree) (dir : List Text) (root header : Text) :
    ((s.find ((FileTree.disk dir).workspace root) header).run t).2 = t :=
  keeps_find (FileTree.readsKeep_workspace dir (· = t) root) header t rfl

theorem sync_tree (s : Session) (t : FileTree) (dir : List Text) (root header target : Text) :
    ((s.sync ((FileTree.disk dir).workspace root) header target).run t).2 = t :=
  keeps_sync (FileTree.readsKeep_workspace dir (· = t) root) header target t rfl

section

variable {t : FileTree} {dir : List Text} {root here : Text} {command : Command}

/-- The reply of a command, the session after it and the files that it leaves. -/
def afterCommand (s : Session) (t : FileTree) (dir : List Text) (root here : Text) (quiet : Bool)
    (command : Command) : (Reply × Session) × FileTree :=
  (s.runCommand ((FileTree.disk dir).workspace root) quiet here command).run t

theorem display_of_settings (h : s'.settings = s.settings) : s'.display = s.display := by
  funext path
  unfold display
  rw [h]

theorem findAnswer_of_alike (h : s.Alike s') : s'.findAnswer = s.findAnswer := by
  funext quiet header notes answer
  have hline : s'.definitionLine = s.definitionLine := by
    funext d
    unfold definitionLine
    rw [display_of_settings h.settings]
  cases answer with
  | error e => rfl
  | ok definitions =>
    unfold findAnswer
    rw [hline]

theorem choicesAnswer_of_alike (h : s.Alike s') : s'.choicesAnswer = s.choicesAnswer := by
  funext quiet notes answer
  match answer with
  | .error e => rfl
  | .ok [] => rfl
  | .ok (d :: ds) =>
    unfold choicesAnswer
    rw [display_of_settings h.settings]

theorem previewReply_of_settings (h : s'.settings = s.settings) :
    s'.previewReply = s.previewReply := by
  funext plan
  unfold previewReply
  rw [display_of_settings h]

/-- Both runs reply the same, leave the same files, and sessions that are alike. -/
structure SameReply (r r' : (Reply × Session) × FileTree) : Prop where
  reply : r'.1.1 = r.1.1
  alike : r.1.2.Alike r'.1.2
  tree : r'.2 = r.2

theorem choicesReply_of_scanned {prototypes : List Prototype} (hs : s.log = {})
    (h : s.scanned? ((FileTree.disk dir).workspace root) (Disk.canonical here header) =
      some prototypes) :
    let found := s.found ((FileTree.disk dir).workspace root) t prototypes
    (s.afterCommand t dir root here quiet (.sync header none dryRun)).1.1 =
      s.choicesAnswer quiet found.text (.ok found.definitions) := by
  intro found
  unfold afterCommand
  dsimp only [runCommand, syncReply, Option.map_none]
  rw [choicesReply_run]
  dsimp only
  rw [find_run (FileTree.steady_workspace dir root), h]
  dsimp only
  rw [flush_record hs]
  rfl

theorem log_runCommand (hs : s.log = {}) :
    (s.afterCommand t dir root here quiet command).1.2.log = {} := by
  unfold afterCommand
  cases command with
  | scan header =>
    dsimp only [runCommand]
    rw [scanReply_run]
    rfl
  | find header =>
    dsimp only [runCommand]
    rw [findReply_run]
    rfl
  | invalidate header => exact hs
  | sync header target dryRun =>
    cases target with
    | none =>
      dsimp only [runCommand, syncReply, Option.map_none]
      rw [choicesReply_run]
      rfl
    | some target =>
      dsimp only [runCommand, syncReply, Option.map_some]
      rw [reorderReply_run]
      dsimp only
      split
      · rfl
      · split_ifs <;> rfl
  | stop => exact hs

/-- Sessions that are alike carry out a command with the same effect. -/
theorem Alike.afterCommand (h : s.Alike s') (hs : s.log = {}) (hs' : s'.log = {}) (t : FileTree)
    (dir : List Text) (root here : Text) (quiet : Bool) (command : Command) :
    SameReply (s.afterCommand t dir root here quiet command)
      (s'.afterCommand t dir root here quiet command) := by
  have hws := FileTree.steady_workspace dir root
  unfold Session.afterCommand
  cases command with
  | scan header =>
    have hsame := h.scan hs hs' ((FileTree.disk dir).workspace root) t (Disk.canonical here header)
    dsimp only [runCommand]
    rw [scanReply_run, scanReply_run]
    dsimp only
    rw [hsame.answer, hsame.printed, hsame.alike.verbose, scan_tree, scan_tree]
    exact ⟨rfl, hsame.alike.flush, rfl⟩
  | find header =>
    have hsame := h.find hs hs' hws t (Disk.canonical here header)
    dsimp only [runCommand]
    rw [findReply_run, findReply_run]
    dsimp only
    rw [hsame.answer, hsame.printed, findAnswer_of_alike hsame.alike, find_tree, find_tree]
    exact ⟨rfl, hsame.alike.flush, rfl⟩
  | invalidate header =>
    simp only [runCommand, invalidate, h.headers]
    exact ⟨rfl, ⟨h.settings, h.verbose, rfl⟩, rfl⟩
  | sync header target dryRun =>
    cases target with
    | none =>
      have hsame := h.find hs hs' hws t (Disk.canonical here header)
      dsimp only [runCommand, syncReply, Option.map_none]
      rw [choicesReply_run, choicesReply_run]
      dsimp only
      rw [hsame.answer, hsame.printed, choicesAnswer_of_alike hsame.alike, find_tree, find_tree]
      exact ⟨rfl, hsame.alike.flush, rfl⟩
    | some target =>
      have hsame := h.sync hs hs' hws t (Disk.canonical here header) (Disk.canonical here target)
      dsimp only [runCommand, syncReply, Option.map_some]
      rw [reorderReply_run, reorderReply_run]
      dsimp only
      rw [hsame.answer, hsame.printed, previewReply_of_settings hsame.alike.settings, sync_tree,
        sync_tree]
      split
      · exact ⟨rfl, hsame.alike.flush, rfl⟩
      · split_ifs
        · exact ⟨rfl, hsame.alike.flush, rfl⟩
        · exact ⟨rfl, hsame.alike.flush, rfl⟩
  | stop => exact ⟨rfl, h, rfl⟩

theorem failed_scanAnswer {verbose : Bool} {notes : Text} {answer : Except Error (List Prototype)}
    (h : (scanAnswer quiet verbose header notes answer).failed = true) :
    ∃ e, answer = .error e := by
  cases answer with
  | error e => exact ⟨e, rfl⟩
  | ok prototypes =>
    unfold scanAnswer at h
    cases quiet <;> simp at h

theorem failed_applyAnswer {notes : Text} {answer : Except AccessError Unit}
    (h : (applyAnswer quiet notes answer).failed = true) : ∃ e, answer = .error e := by
  cases answer with
  | error e => exact ⟨e, rfl⟩
  | ok _ => simp [applyAnswer, Reply.after, Reply.info] at h

theorem afterCommand_of_failed
    (h : (s.afterCommand t dir root here quiet command).1.1.failed = true) :
    s.Alike (s.afterCommand t dir root here quiet command).1.2 ∧
      (s.afterCommand t dir root here quiet command).2 = t := by
  have hws := FileTree.steady_workspace dir root
  unfold afterCommand at h ⊢
  cases command with
  | scan header =>
    dsimp only [runCommand] at h ⊢
    rw [scanReply_run] at h ⊢
    obtain ⟨e, herror⟩ := failed_scanAnswer h
    dsimp only
    rw [scan_of_error herror, scan_tree]
    exact ⟨s.alike_flush, rfl⟩
  | find header =>
    dsimp only [runCommand] at h ⊢
    rw [findReply_run]
    exact ⟨(s.alike_find hws t _).trans (alike_flush _), find_tree ..⟩
  | invalidate header => cases h
  | sync header target dryRun =>
    cases target with
    | none =>
      dsimp only [runCommand, syncReply, Option.map_none] at h ⊢
      rw [choicesReply_run]
      exact ⟨(s.alike_find hws t _).trans (alike_flush _), find_tree ..⟩
    | some target =>
      have halike := (s.alike_sync hws t (Disk.canonical here header)
        (Disk.canonical here target)).trans (alike_flush _)
      dsimp only [runCommand, syncReply, Option.map_some] at h ⊢
      rw [reorderReply_run] at h ⊢
      dsimp only at h ⊢
      rw [sync_tree] at h ⊢
      cases hplan : planned? ((s.sync ((FileTree.disk dir).workspace root)
          (Disk.canonical here header) (Disk.canonical here target)).run t).1.1 with
      | none => exact ⟨halike, rfl⟩
      | some plan =>
        rw [hplan] at h
        dsimp only at h ⊢
        split_ifs at h ⊢
        · exact ⟨halike, rfl⟩
        · -- A sync with a plan fails only where the plan fails.
          obtain ⟨e, herror⟩ := failed_applyAnswer h
          exact ⟨halike, FileTree.tree_of_apply_error herror⟩
  | stop => cases h

end

end HeaderOrder.Session

import HeaderOrder.Proofs.SyncCall

/-!
# What a run writes

The syncs of a run are its calls, and between them no file changes.
-/

namespace HeaderOrder

open Byte Text

/-! ## Calls one after another -/

/-- Each call is carried out on the files that the call before it left. -/
def SyncCall.Thread (dir : List Text) : FileTree → List SyncCall → FileTree → Prop
  | t, [], t' => t' = t
  | t, c :: cs, t' => c.tree = t ∧ Thread dir (c.after dir) cs t'

theorem SyncCall.exists_touched_of_thread {dir names : List Text} {t t' : FileTree}
    {cs : List SyncCall} (h : Thread dir t cs t') (hnames : t'.node? names ≠ t.node? names) :
    ∃ c ∈ cs, (c.after dir).node? names ≠ c.tree.node? names := by
  induction cs generalizing t with
  | nil =>
    rw [show t' = t from h] at hnames
    exact absurd rfl hnames
  | cons c cs ih =>
    obtain ⟨rfl, hrest⟩ := h
    -- Either this call changed the place, or a later one did.
    by_cases hc : (c.after dir).node? names = c.tree.node? names
    · rw [← hc] at hnames
      obtain ⟨d, hd, htouched⟩ := ih hrest hnames
      exact ⟨d, List.mem_cons_of_mem _ hd, htouched⟩
    · exact ⟨c, by simp, hc⟩

theorem Session.tree_afterCommand {command : Command} (s : Session) (t : FileTree)
    (dir : List Text) (root here : Text) (quiet : Bool)
    (h : ∀ header target, command ≠ .sync header (some target) false) :
    (s.afterCommand t dir root here quiet command).2 = t := by
  unfold afterCommand
  match command with
  | .scan header =>
    dsimp only [runCommand]
    rw [scanReply_run]
    exact scan_tree ..
  | .find header =>
    dsimp only [runCommand]
    rw [findReply_run]
    exact find_tree ..
  | .invalidate header => rfl
  | .sync header none dryRun =>
    dsimp only [runCommand, syncReply, Option.map_none]
    rw [choicesReply_run]
    exact find_tree ..
  | .sync header (some target) true =>
    dsimp only [runCommand, syncReply, Option.map_some]
    rw [reorderReply_run]
    dsimp only
    split
    · exact sync_tree ..
    · rw [if_pos rfl]
      exact sync_tree ..
  | .sync header (some target) false => exact absurd rfl (h header target)
  | .stop => rfl

def SyncCall.ofExecution? (dir : List Text) (root : Text) (quiet : Bool) (e : Execution) :
    Option SyncCall :=
  match Command.ofLine? e.line with
  | some (.ok (.sync header target dryRun)) => some {
      session := e.session
      tree := e.tree
      root := (FileTree.disk dir).absoluteRoot root
      quiet
      scansFirst := false
      header := Disk.canonical (FileTree.pathOf dir) header
      target := target.map (Disk.canonical (FileTree.pathOf dir))
      dryRun
      absolute := FileTree.isAbsolute_absoluteRoot dir root }
  | _ => none

theorem SyncCall.thread_executions (s : Session) (t : FileTree) (dir : List Text) (root : Text)
    (quiet : Bool) (lines : List Text) :
    let here := FileTree.pathOf dir
    let absolute := (FileTree.disk dir).absoluteRoot root
    Thread dir t
      ((s.executions t dir absolute here quiet lines).filterMap (ofExecution? dir root quiet))
      (s.afterScript t dir absolute here quiet lines).2 := by
  intro here absolute
  induction lines generalizing s t with
  | nil => rfl
  | cons line rest ih =>
    rcases Command.line_cases line with hblank | hstop | ⟨parsed, hparsed, hne⟩
    · rw [Session.executions_blank hblank, Session.afterScript_blank hblank]
      exact ih s t
    · rw [Session.executions_stop hstop, Session.afterScript_stop hstop]
      rfl
    · have hrest := ih (s.afterParsed t dir absolute here quiet parsed).1.2
        (s.afterParsed t dir absolute here quiet parsed).2
      rw [Session.executions_cons hparsed hne, Session.afterScript_cons hparsed hne]
      rw [List.filterMap_cons]
      dsimp only [ofExecution?]
      rw [hparsed]
      have hkept : ∀ command, (∀ header target, command ≠ .sync header (some target) false) →
          (s.afterParsed t dir absolute here quiet (.ok command)).2 = t :=
        fun command hcommand => s.tree_afterCommand t dir absolute here quiet hcommand
      -- Only a line with a sync is a call; after any other line the next call finds the same files.
      match parsed with
      | .error e => exact hrest
      | .ok (.sync header target dryRun) => exact ⟨rfl, hrest⟩
      | .ok (.scan header) =>
        rw [hkept _ (by simp)] at hrest ⊢
        exact hrest
      | .ok (.find header) =>
        rw [hkept _ (by simp)] at hrest ⊢
        exact hrest
      | .ok (.invalidate header) => exact hrest
      | .ok .stop => exact absurd rfl hne

theorem SyncCall.reply_of_execution (s : Session) (t : FileTree) (dir : List Text) (root : Text)
    (quiet : Bool) (lines : List Text) {e : Execution} {c : SyncCall}
    (he : e ∈ s.executions t dir ((FileTree.disk dir).absoluteRoot root) (FileTree.pathOf dir) quiet
      lines)
    (hc : ofExecution? dir root quiet e = some c) : c.reply dir = e.reply := by
  induction lines generalizing s t with
  | nil => cases he
  | cons line rest ih =>
    rcases Command.line_cases line with hblank | hstop | ⟨parsed, hparsed, hne⟩
    · rw [Session.executions_blank hblank] at he
      exact ih s t he
    · rw [Session.executions_stop hstop] at he
      cases he
    · rw [Session.executions_cons hparsed hne] at he
      rcases List.mem_cons.mp he with rfl | he
      · dsimp only [ofExecution?] at hc
        rw [hparsed] at hc
        split at hc
        next header target dryRun heq =>
          cases heq
          cases hc
          rfl
        next => cases hc
      · exact ih _ _ he

/-! ## The calls of a run -/

namespace FileTree

/-- The syncs that a run carries out. -/
def syncCalls (t : FileTree) (dir : List Text) (stdin : Text) : List Text → List SyncCall
  | [] => []
  | command :: texts =>
    match Subcommand.ofText? command with
    | some .sync =>
      match t.prepared dir .sync texts with
      | .error _ => []
      | .ok (a, settings) => [{
          session := fresh a settings
          tree := t
          root := (disk dir).absoluteRoot settings.root
          quiet := a.quiet
          scansFirst := true
          header := header dir a
          target := target? dir a
          dryRun := a.dryRun
          absolute := isAbsolute_absoluteRoot dir settings.root }]
    | some .session =>
      match t.prepared dir .session texts with
      | .error _ => []
      | .ok (a, settings) =>
        match t.script? dir stdin a.positionals with
        | none => []
        | some script =>
          ((fresh a settings).executions t dir ((disk dir).absoluteRoot settings.root) (pathOf dir)
            a.quiet (script.splitOn lineFeed)).filterMap
              (SyncCall.ofExecution? dir settings.root a.quiet)
    | _ => []

theorem thread_syncCalls (t : FileTree) (dir : List Text) (stdin : Text) (argv : List Text) :
    SyncCall.Thread dir t (t.syncCalls dir stdin argv)
      (((disk dir).run (pure stdin) argv).run t).2 := by
  unfold syncCalls
  match argv with
  | [] => rfl
  | command :: texts =>
    dsimp only
    cases hcommand : Subcommand.ofText? command with
    | none => exact run_of_no_subcommand hcommand
    | some c =>
      rw [run_of_subcommand hcommand]
      cases c with
      | scan =>
        dsimp only
        rcases t.prepared dir .scan texts with o | ⟨a, settings⟩
        · rfl
        · dsimp only
          rw [runWith_scan]
          dsimp only
          rw [Session.scanReply_run]
          exact Session.scan_tree ..
      | find =>
        dsimp only
        rcases t.prepared dir .find texts with o | ⟨a, settings⟩
        · rfl
        · dsimp only
          rw [runWith_find]
          dsimp only
          rw [scanFirst_run]
          split
          · rfl
          · rw [Session.findReply_run]
            exact Session.find_tree ..
      | sync =>
        dsimp only
        rcases t.prepared dir .sync texts with o | ⟨a, settings⟩
        · rfl
        · exact ⟨rfl, rfl⟩
      | session =>
        dsimp only
        rcases t.prepared dir .session texts with o | ⟨a, settings⟩
        · rfl
        · dsimp only
          rw [runWith_session]
          cases t.script? dir stdin a.positionals with
          | none => rfl
          | some script => exact SyncCall.thread_executions ..

/-- What a call replies is among the replies of the run. -/
theorem reply_of_mem_syncCalls {t : FileTree} {dir : List Text} {stdin : Text} {argv : List Text}
    {c : SyncCall} (h : c ∈ t.syncCalls dir stdin argv) : ∃ replies,
      (((disk dir).run (pure stdin) argv).run t).1 = .ofReplies replies ∧
        c.reply dir ∈ replies := by
  unfold syncCalls at h
  match argv with
  | [] => cases h
  | command :: texts =>
    dsimp only at h
    split at h
    next hcommand =>
      rw [run_of_subcommand hcommand]
      cases hprepared : t.prepared dir .sync texts with
      | error o =>
        rw [hprepared] at h
        cases h
      | ok r =>
        obtain ⟨a, settings⟩ := r
        rw [hprepared] at h
        rw [List.mem_singleton.mp h]
        exact ⟨[_], rfl, List.mem_singleton_self _⟩
    next hcommand =>
      rw [run_of_subcommand hcommand]
      cases hprepared : t.prepared dir .session texts with
      | error o =>
        rw [hprepared] at h
        cases h
      | ok r =>
        obtain ⟨a, settings⟩ := r
        rw [hprepared] at h
        dsimp only at h ⊢
        rw [runWith_session]
        cases hscript : t.script? dir stdin a.positionals with
        | none =>
          rw [hscript] at h
          cases h
        | some script =>
          rw [hscript] at h
          obtain ⟨e, he, hc⟩ := List.mem_filterMap.mp h
          refine ⟨_, rfl, ?_⟩
          rw [SyncCall.reply_of_execution _ _ _ _ _ _ he hc, ← Session.map_reply_executions]
          exact List.mem_map_of_mem he
    next => cases h

/-- Only the syncs of a run write, and they write what their dry runs show. -/
theorem run_writes_as_shown (t : FileTree) (dir : List Text) (stdin : Text) (argv : List Text) :
    let calls := t.syncCalls dir stdin argv
    let r := ((disk dir).run (pure stdin) argv).run t
    SyncCall.Thread dir t calls r.2 ∧
    (∀ c ∈ calls, ∃ replies, r.1 = .ofReplies replies ∧ c.reply dir ∈ replies) ∧
    (∀ names, r.2.node? names ≠ t.node? names → ∃ c ∈ calls, ∃ path, c.Edits dir path ∧
      (c.plan? dir).isSome = true ∧ (c.tree.place? dir path = some names ∨
        c.tree.place? dir (path ++ Disk.temporarySuffix) = some names ∨
          ¬ c.tree.Unshared dir (path ++ Disk.temporarySuffix) ∧
            c.tree.LeadsTo dir (path ++ Disk.temporarySuffix) names)) ∧
    (∀ c ∈ calls, ∀ path, c.Edits dir path → (c.plan? dir = none ∧ c.after dir = c.tree) ∨
      ∃ plan, c.plan? dir = some plan ∧ c.WritesShown dir path plan.range plan.text) ∧
    (∀ c ∈ calls, (∀ path, ¬ c.Edits dir path) → c.after dir = c.tree) ∧
    ∀ (s : Session) (t : FileTree) (root here : Text) (quiet : Bool) (command : Command),
      (∀ header target, command ≠ .sync header (some target) false) →
      (s.afterCommand t dir root here quiet command).2 = t := by
  intro calls r
  have hthread := t.thread_syncCalls dir stdin argv
  refine ⟨hthread, fun c hc => reply_of_mem_syncCalls hc, ?_, ?_, ?_, ?_⟩
  · intro names hnames
    obtain ⟨c, hc, htouched⟩ := SyncCall.exists_touched_of_thread hthread hnames
    exact ⟨c, hc, SyncCall.edits_of_touched htouched⟩
  · intro c _ path hedits
    cases hplan : c.plan? dir with
    | none => exact .inl ⟨rfl, (SyncCall.run_of_no_plan hplan c.dryRun).2⟩
    | some plan => exact .inr ⟨plan, rfl, SyncCall.writesShown_of_edits hedits hplan⟩
  · exact fun c _ hedits => SyncCall.after_of_not_edits hedits
  · exact fun s t root here quiet command h => s.tree_afterCommand t dir root here quiet h

theorem run_writes_as_shown_swap :
    let t := (({} : FileTree).putFile ["w", "a.h"] { bytes := "void f();\nvoid g();\n" }).putFile
      ["w", "a.c"] { bytes := "void g() {}\nvoid f() {}\n" }
    let t' := (((disk ["w"]).run (pure []) ["sync", "a.h", "a.c"]).run t).2
    t'.node? ["w", "a.c"] = some (.file { bytes := "void f() {}\n\nvoid g() {}\n" }) ∧
    ∃ c ∈ t.syncCalls ["w"] [] ["sync", "a.h", "a.c"], ∃ path range new,
      c.WritesShown ["w"] path range new := by
  intro t t'
  have hnew : t'.node? ["w", "a.c"] = some (.file { bytes := "void f() {}\n\nvoid g() {}\n" }) := by
    dsimp only [t', t]
    decide +kernel
  have hold : t.node? ["w", "a.c"] = some (.file { bytes := "void g() {}\nvoid f() {}\n" }) := by
    decide +kernel
  obtain ⟨-, -, htouched, hshown, -⟩ := run_writes_as_shown t ["w"] [] ["sync", "a.h", "a.c"]
  have hchanged : t'.node? ["w", "a.c"] ≠ t.node? ["w", "a.c"] := by
    rw [hnew, hold]
    decide
  obtain ⟨c, hc, path, hedits, hplan, -⟩ := htouched _ hchanged
  refine ⟨hnew, c, hc, path, ?_⟩
  rcases hshown c hc path hedits with ⟨hnone, -⟩ | ⟨plan, -, hwrites⟩
  · rw [hnone] at hplan
    cases hplan
  · exact ⟨plan.range, plan.text, hwrites⟩

/-- A link at the path of the temporary file, and a link on the way to the chosen file. -/
theorem run_writes_through_links :
    let header := ({} : FileTree).putFile ["w", "a.h"] { bytes := "void f();\nvoid g();\n" }
    let t := header.putFile ["w", "a.c"] { bytes := "void g() {}\nvoid f() {}\n" }
    let linked := (t.putFile ["w", "k"] { bytes := "k" }).putLink ["w", "a.c.horder.tmp"] "k"
    let argv : List Text := ["sync", "a.h", "a.c"]
    let beside := header.putFile ["x", "a.c"] { bytes := "void g() {}\nvoid f() {}\n" }
    let around := (beside.putLink ["d"] "x").putFile ["w", "..\\d\\a.c"] { bytes := [] }
    let argv' : List Text := ["sync", "a.h", "/d/a.c"]
    let run := fun (t : FileTree) argv => (((disk ["w"]).run (pure []) argv).run t).2
    let paths : FileTree → List Text → List Text := fun t argv =>
      (t.syncCalls ["w"] [] argv).filterMap (·.path?)
    (paths linked argv = ["/w/a.c"] ∧
      (run linked argv).node? ["w", "k"] =
        some (.file { bytes := "void f() {}\n\nvoid g() {}\n" })) ∧
    (paths around argv' = ["/d/a.c"] ∧ pathOf ["x", "a.c"] = "/x/a.c" ∧
      (run around argv').node? ["x", "a.c"] =
        some (.file { bytes := "void f() {}\n\nvoid g() {}\n" })) := by
  intro header t linked argv beside around argv' run paths
  refine ⟨⟨?_, ?_⟩, ?_, ?_, ?_⟩
  · dsimp only [paths, linked, argv, t, header]
    decide +kernel
  · dsimp only [run, linked, argv, t, header]
    decide +kernel
  · dsimp only [paths, around, beside, argv', header]
    decide +kernel
  · decide
  · dsimp only [run, around, beside, argv', header]
    decide +kernel

end FileTree

end HeaderOrder

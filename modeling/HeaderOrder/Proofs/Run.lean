import HeaderOrder.Proofs.Arguments
import HeaderOrder.Proofs.Script

/-! # What a run comes to -/

namespace HeaderOrder

open Byte Text

namespace FileTree

variable {t : FileTree} {dir : List Text} {stdin : Text} {c : Subcommand} {texts : List Text}

/-! ## Settings and scripts -/

theorem keeps_readStream? (dir : List Text) (P : FileTree → Prop) (path : Text) :
    Keeps P ((disk dir).readStream? path) := by
  have hentry : Keeps P (Disk.entry? (disk dir) path) := fun _ h => h
  have hcontents : Keeps P ((disk dir).contents? path) := fun _ h => h
  unfold Disk.readStream?
  refine hentry.bind fun entry => ?_
  match entry with
  | none => exact .pure _
  | some .directory => exact .pure _
  | some (.file _) => exact hcontents

theorem keeps_readManifest (dir : List Text) (P : FileTree → Prop) (path : Text)
    (base : Settings) : Keeps P ((disk dir).readManifest path base) := by
  unfold Disk.readManifest
  refine (keeps_readStream? dir P path).bind fun text => ?_
  cases text with
  | none => exact .pure _
  | some text => exact .pure _

theorem keeps_project (dir : List Text) (P : FileTree → Prop) (root manifest : Text) :
    Keeps P ((disk dir).project root manifest) := by
  have hentry : ∀ path, Keeps P (Disk.entry? (disk dir) path) := fun _ _ h => h
  have hreal : ∀ path, Keeps P ((disk dir).realPath path) := fun _ _ h => h
  unfold Disk.project
  refine (hentry _).bind fun entry => ?_
  match entry with
  | none => exact .pure _
  | some (.file _) => exact .pure _
  | some .directory =>
    refine (hreal _).bind fun real => ?_
    cases real with
    | error reason => exact .pure _
    | ok real =>
      dsimp only
      by_cases hgiven : manifest ≠ []
      · rw [if_pos hgiven]
        exact keeps_readManifest dir P _ _
      · rw [if_neg hgiven]
        refine (hentry _).bind fun entry => ?_
        match entry with
        | none => exact .pure _
        | some .directory => exact .pure _
        | some (.file _) => exact keeps_readManifest dir P _ _

def settings (t : FileTree) (dir : List Text) (a : Arguments) :
    Except Disk.ProjectError Settings :=
  (((disk dir).settings a).run t).1

theorem settings_run (t : FileTree) (dir : List Text) (a : Arguments) :
    ((disk dir).settings a).run t = (t.settings dir a, t) := by
  have hkeeps : Keeps (· = t) ((disk dir).settings a) :=
    (keeps_project dir _ a.root a.config).bind fun _ => .pure _
  exact Prod.ext rfl (hkeeps t rfl)

/-- The script of a session: the input, unless the path of a script is given. -/
def script? (t : FileTree) (dir : List Text) (stdin : Text) : List Text → Option Text
  | [] => some stdin
  | path :: _ => (((disk dir).readStream? path).run t).1

/-! ## What a command goes to work with -/

/-- The arguments and the settings of a command, or the outcome of a run that has none. -/
def prepared (t : FileTree) (dir : List Text) (c : Subcommand) (texts : List Text) :
    Except Outcome (Arguments × Settings) :=
  match Arguments.readFrom (c = .sync) {} texts with
  | .error e => .error (.failure e.message)
  | .ok a =>
    match c.arityError? a.positionals.length with
    | some message => .error (.failure message)
    | none =>
      match t.settings dir a with
      | .error e => .error (.ofProjectError e)
      | .ok settings => .ok (a, settings)

theorem runSubcommand_run (t : FileTree) (dir : List Text) (stdin : Text) (c : Subcommand)
    (texts : List Text) :
    ((disk dir).runSubcommand (pure stdin) c texts).run t =
      match t.prepared dir c texts with
      | .error o => (o, t)
      | .ok (a, settings) => ((disk dir).runWith (pure stdin) c a settings).run t := by
  unfold Disk.runSubcommand prepared Arguments.readFrom Arguments.parse
  rcases Argument.read (c = .sync) texts with ⟨groups, _ | e⟩
  · dsimp only
    cases c.arityError? (groups.foldl Arguments.add {}).positionals.length with
    | some message => rfl
    | none =>
      dsimp only
      rw [run_bind_eq, settings_run]
      cases t.settings dir (groups.foldl Arguments.add {}) with
      | error e => rfl
      | ok settings => rfl
  · rfl

theorem run_of_subcommand {command : Text} (h : Subcommand.ofText? command = some c) :
    ((disk dir).run (pure stdin) (command :: texts)).run t =
      match t.prepared dir c texts with
      | .error o => (o, t)
      | .ok (a, settings) => ((disk dir).runWith (pure stdin) c a settings).run t := by
  have hversion : command ≠ "--version" := by
    rintro rfl
    revert h
    cases c <;> decide
  have hhelp : ¬ (command = "-h" ∨ command = "--help") := by
    rintro (rfl | rfl) <;>
    · revert h
      cases c <;> decide
  rw [Disk.run, if_neg hversion, if_neg hhelp, h]
  exact runSubcommand_run t dir stdin c texts

theorem run_of_no_subcommand {command : Text} (h : Subcommand.ofText? command = none) :
    (((disk dir).run (pure stdin) (command :: texts)).run t).2 = t := by
  rw [Disk.run]
  split_ifs
  · rfl
  · rfl
  · rw [h]
    rfl

/-! ## What a command does -/

def fresh (a : Arguments) (settings : Settings) : Session := { settings, verbose := a.verbose }

def header (dir : List Text) (a : Arguments) : Text :=
  (a.positionals.map (disk dir).absoluteArgument).head?.getD []

def target? (dir : List Text) (a : Arguments) : Option Text :=
  (a.positionals.map (disk dir).absoluteArgument)[1]?

theorem scanFirst_run (s : Session) (t : FileTree) (dir : List Text) (root header : Text)
    (next : Session → StateM FileTree (Reply × Session)) :
    (s.scanFirst ((disk dir).workspace root) header next).run t =
      match ((s.scan ((disk dir).workspace root) header).run t).1 with
      | (.error e, s) => ((.after s.flush.1 (.failure e.message), s.flush.2), t)
      | (.ok _, s) => (next s).run t := by
  have htree := s.scan_tree t dir root header
  unfold Session.scanFirst
  rw [run_bind_eq]
  generalize (s.scan ((disk dir).workspace root) header).run t = r at htree ⊢
  obtain ⟨⟨answer, s⟩, t'⟩ := r
  rw [show t' = t from htree]
  cases answer with
  | error e => rfl
  | ok prototypes => rfl

theorem runWith_scan (t : FileTree) (dir : List Text) (stdin : Text) (a : Arguments)
    (settings : Settings) :
    ((disk dir).runWith (pure stdin) .scan a settings).run t =
      let ws := (disk dir).workspace ((disk dir).absoluteRoot settings.root)
      let r := ((fresh a settings).scanReply ws a.quiet (header dir a)).run t
      (.ofReply r.1.1, r.2) := by
  rfl

theorem runWith_find (t : FileTree) (dir : List Text) (stdin : Text) (a : Arguments)
    (settings : Settings) :
    ((disk dir).runWith (pure stdin) .find a settings).run t =
      let ws := (disk dir).workspace ((disk dir).absoluteRoot settings.root)
      let r := ((fresh a settings).scanFirst ws (header dir a)
        (·.findReply ws a.quiet (header dir a))).run t
      (.ofReply r.1.1, r.2) := by
  rfl

theorem runWith_session (t : FileTree) (dir : List Text) (stdin : Text) (a : Arguments)
    (settings : Settings) :
    ((disk dir).runWith (pure stdin) .session a settings).run t =
      match t.script? dir stdin a.positionals with
      | none => (.failure ("cannot open session script: " ++ a.positionals.head?.getD []), t)
      | some script =>
        let r := (fresh a settings).afterScript t dir ((disk dir).absoluteRoot settings.root)
          (pathOf dir) a.quiet (script.splitOn lineFeed)
        (.ofReplies r.1.1, r.2) := by
  unfold Disk.runWith
  dsimp only
  unfold Disk.runSession script?
  match a.positionals with
  | [] => rfl
  | path :: paths =>
    have hread := keeps_readStream? dir (· = t) path t rfl
    dsimp only
    rw [run_bind_eq, hread]
    cases (((disk dir).readStream? path).run t).1 with
    | none => rfl
    | some script => rfl

end FileTree

end HeaderOrder

import HeaderOrder.Command.Arguments
import HeaderOrder.Command.Script
import HeaderOrder.Command.Usage

/-! # The command line -/

namespace HeaderOrder

open Byte Text

/-- How a run ends. It is aborted at a manifest line that is not reported as an error. -/
inductive Exit where
  | status (code : Nat)
  | aborted
  deriving DecidableEq, Repr

/-- What a run leaves besides the files it changed. -/
structure Outcome where
  exit : Exit
  out : Text := []
  err : Text := []
  deriving DecidableEq, Repr

namespace Outcome

/-- The replies of a run, one after another. A run fails when one of them does. -/
def ofReplies (replies : List Reply) : Outcome :=
  { exit := .status (if replies.any (·.failed) then 1 else 0)
    out := replies.flatMap (·.out)
    err := replies.flatMap (·.err) }

def ofReply (r : Reply) : Outcome := ofReplies [r]

def failure (message : Text) : Outcome := ofReply (.failure message)

def ofProjectError : Disk.ProjectError → Outcome
  | .manifest (.line _ _ .blankValue) => { exit := .aborted }
  | e => failure e.message

end Outcome

inductive Subcommand where
  | scan
  | find
  | sync
  | session
  deriving DecidableEq, Repr

namespace Subcommand

def ofText? (text : Text) : Option Subcommand :=
  if text = "scan" then some scan
  else if text = "find" then some find
  else if text = "sync" then some sync
  else if text = "session" then some session
  else none

def arityError? (c : Subcommand) (count : Nat) : Option Text :=
  match c with
  | scan => if count = 1 then none else some "scan expects exactly one header path"
  | find => if count = 1 then none else some "find expects exactly one header path"
  | sync =>
    if count = 1 ∨ count = 2 then none
    else some "sync expects a header path and an optional target file"
  | session => if count ≤ 1 then none else some "session accepts at most one script path"

end Subcommand

namespace Disk

variable {m : Type → Type} [Monad m]

/-- An argument as a normal path from the root. The empty argument stays empty. -/
def absoluteArgument (disk : Disk m) (text : Text) : Text :=
  if text = [] then [] else canonical disk.workingDirectory text

def settings (disk : Disk m) (a : Arguments) : m (Except ProjectError Settings) := do
  return (← disk.project a.root a.config).map a.override

/-- Runs the lines of a script, or of the input when no script is given. -/
def runSession (disk : Disk m) (input : m Text) (a : Arguments) (ws : Workspace m) (s : Session) :
    m Outcome := do
  let script? ← match a.positionals with
    | [] => some <$> input
    | path :: _ => disk.readStream? path
  match script? with
  | none => return .failure ("cannot open session script: " ++ a.positionals.head?.getD [])
  | some script =>
    let (replies, _) ← s.runScript ws a.quiet disk.workingDirectory (script.splitOn lineFeed)
    return .ofReplies replies

def runWith (disk : Disk m) (input : m Text) (c : Subcommand) (a : Arguments)
    (settings : Settings) : m Outcome := do
  let ws := disk.workspace (disk.absoluteRoot settings.root)
  let s : Session := { settings := settings, verbose := a.verbose }
  let paths := a.positionals.map disk.absoluteArgument
  let header := paths.head?.getD []
  match c with
  | .scan => return .ofReply (← s.scanReply ws a.quiet header).1
  | .find => return .ofReply (← s.scanFirst ws header (·.findReply ws a.quiet header)).1
  | .sync =>
    return .ofReply
      (← s.scanFirst ws header (·.syncReply ws a.quiet a.dryRun header paths[1]?)).1
  | .session => disk.runSession input a ws s

def runSubcommand (disk : Disk m) (input : m Text) (c : Subcommand) (texts : List Text) :
    m Outcome := do
  match Arguments.parse (c = .sync) texts with
  | (_, some e) => return .failure e.message
  | (a, none) =>
    match c.arityError? a.positionals.length with
    | some message => return .failure message
    | none =>
      match ← disk.settings a with
      | .error e => return .ofProjectError e
      | .ok settings => disk.runWith input c a settings

/-- Runs a command line. The input is read only when a session needs it. -/
def run (disk : Disk m) (input : m Text) : List Text → m Outcome
  | [] => return { exit := .status 1, err := usageText }
  | command :: texts =>
    if command = "--version" then return { exit := .status 0, out := versionText }
    else if command = "-h" ∨ command = "--help" then
      return { exit := .status 0, out := usageText }
    else match Subcommand.ofText? command with
      | some c => disk.runSubcommand input c texts
      | none =>
        let message := List.flatten ["unknown command '", command, "'"]
        return { exit := .status 1, err := Reply.errorLine message ++ usageText }

end Disk

end HeaderOrder

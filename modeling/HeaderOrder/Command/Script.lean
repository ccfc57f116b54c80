import HeaderOrder.Command.Reply
import HeaderOrder.Disk

/-! # Session scripts -/

namespace HeaderOrder

open Byte Text

inductive Command where
  | scan (header : Text)
  | find (header : Text)
  | invalidate (header : Text)
  | sync (header : Text) (target : Option Text) (dryRun : Bool)
  | stop
  deriving DecidableEq, Repr

namespace Command

inductive Error where
  | oneHeader (verb : Text)
  | headerAndTarget
  | unknown (verb : Text)
  deriving DecidableEq, Repr

def Error.message : Error → Text
  | oneHeader verb => verb ++ ofString " expects exactly one header path"
  | headerAndTarget => "sync expects a header path and an optional target file"
  | unknown verb => List.flatten ["unknown session command '", verb, "'"]

def ofHeader (verb : Text) (make : Text → Command) : List Text → Except Error Command
  | [header] => .ok (make header)
  | _ => .error (.oneHeader verb)

/-- A dry run may be asked for at any place. -/
def ofTargets (words : List Text) : Except Error Command :=
  let dryRun := words.contains (ofString "--dry-run")
  match words.filter (· ≠ ofString "--dry-run") with
  | [header] => .ok (sync header none dryRun)
  | [header, target] => .ok (sync header (some target) dryRun)
  | _ => .error .headerAndTarget

def ofWords (verb : Text) (words : List Text) : Except Error Command :=
  if verb = "quit" ∨ verb = "exit" then .ok stop
  else if verb = "scan" then ofHeader verb scan words
  else if verb = "find" then ofHeader verb find words
  else if verb = "invalidate" then ofHeader verb invalidate words
  else if verb = "sync" then ofTargets words
  else .error (.unknown verb)

/-- The command of a line. An empty line and one that starts with a hash sign have none. -/
def ofLine? (line : Text) : Option (Except Error Command) :=
  if (trim line).head? = some hash then none
  else match words line with
    | [] => none
    | verb :: rest => some (ofWords verb rest)

end Command

namespace Session

variable {m : Type → Type} [Monad m]

def runCommand (s : Session) (ws : Workspace m) (quiet : Bool) (dir : Text) :
    Command → m (Reply × Session)
  | .scan header => s.scanReply ws quiet (Disk.canonical dir header)
  | .find header => s.findReply ws quiet (Disk.canonical dir header)
  | .invalidate header =>
    let (known, s) := s.invalidate ws (Disk.canonical dir header)
    let answer := if known then "Invalidated " else "Nothing cached for "
    return (.info quiet (ofString answer ++ header), s)
  | .sync header target dryRun =>
    s.syncReply ws quiet dryRun (Disk.canonical dir header) (target.map (Disk.canonical dir))
  | .stop => return ({}, s)

/-- Runs the lines of a script. There is a reply for each line with a command. -/
def runScript (s : Session) (ws : Workspace m) (quiet : Bool) (dir : Text) :
    List Text → m (List Reply × Session)
  | [] => return ([], s)
  | line :: rest =>
    match Command.ofLine? line with
    | none => s.runScript ws quiet dir rest
    | some (.ok .stop) => return ([], s)
    | some (.error e) => do
      let (replies, s) ← s.runScript ws quiet dir rest
      return (.failure e.message :: replies, s)
    | some (.ok command) => do
      let (reply, s) ← s.runCommand ws quiet dir command
      let (replies, s) ← s.runScript ws quiet dir rest
      return (reply :: replies, s)

end Session

end HeaderOrder

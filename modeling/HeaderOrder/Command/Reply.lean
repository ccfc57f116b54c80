import HeaderOrder.Session

/-!
# Replies

Messages of the log go first and leave the log empty.
-/

namespace HeaderOrder

open Text

/-- What a command writes to its output and to its messages. -/
structure Reply where
  out : Text := []
  err : Text := []
  failed : Bool := false
  deriving DecidableEq, Repr

namespace Reply

def errorLine (message : Text) : Text := List.flatten ["error: ", message, "\n"]

def failure (message : Text) : Reply := { err := errorLine message, failed := true }

/-- A line that tells how things went. A quiet session leaves it out. -/
def info (quiet : Bool) (line : Text) : Reply :=
  { out := if quiet then [] else line ++ ofString "\n" }

/-- The reply with messages in front of its own. -/
def after (notes : Text) (r : Reply) : Reply := { r with err := notes ++ r.err }

end Reply

/-- The text of the log, and the session with an empty log. -/
def Session.flush (s : Session) : Text × Session :=
  (s.log.text (some s.files), { s with log := {} })

def Session.display (s : Session) (path : Text) : Text := Path.relativeTo path s.settings.root

variable {m : Type → Type} [Monad m]

namespace Session

/-! ## Scanning -/

def prototypeLine (verbose : Bool) (p : Prototype) : Text :=
  List.flatten ["  ", lineNumber p.span.first, ": ", p.name,
    if verbose then "  " ++ flatten p.signature else [], "\n"]

def scanReply (s : Session) (ws : Workspace m) (quiet : Bool) (header : Text) :
    m (Reply × Session) := do
  let (answer, s) ← s.scan ws header
  let (notes, s) := s.flush
  match answer with
  | .error e => return (.after notes (.failure e.message), s)
  | .ok prototypes =>
    if quiet then return ({ err := notes }, s)
    else
      let count := List.flatten
        ["Found ", decimal prototypes.length, " prototype(s) in ", header, "\n"]
      return ({ out := count ++ prototypes.flatMap (prototypeLine s.verbose), err := notes }, s)

/-- Scans a header and goes on, unless the header cannot be scanned. -/
def scanFirst (s : Session) (ws : Workspace m) (header : Text)
    (next : Session → m (Reply × Session)) : m (Reply × Session) := do
  let (answer, s) ← s.scan ws header
  match answer with
  | .error e =>
    let (notes, s) := s.flush
    return (.after notes (.failure e.message), s)
  | .ok _ => next s

/-! ## Finding -/

def definitionLine (s : Session) (d : Definition) : Text :=
  List.flatten ["  ", d.name, " — ", s.display d.file, ":", lineNumber d.line, "\n"]

def findReply (s : Session) (ws : Workspace m) (quiet : Bool) (header : Text) :
    m (Reply × Session) := do
  let (answer, s) ← s.find ws header
  let (notes, s) := s.flush
  match answer with
  | .error e => return (.after notes (.failure e.message), s)
  | .ok definitions =>
    if quiet then return ({ err := notes }, s)
    else
      let count := List.flatten ["Found ", decimal definitions.length,
        " implementation(s) across workspace for header ", header, "\n"]
      return ({ out := count ++ definitions.flatMap s.definitionLine, err := notes }, s)

/-! ## Reordering -/

def nothingFound : Text := "No implementations found in workspace."

/-- Lists the files to choose from. That no file is chosen is an error. -/
def choicesReply (s : Session) (ws : Workspace m) (quiet : Bool) (header : Text) :
    m (Reply × Session) := do
  let (answer, s) ← s.find ws header
  let (notes, s) := s.flush
  match answer with
  | .error e => return (.after notes (.failure e.message), s)
  | .ok [] => return (.after notes (.info quiet nothingFound), s)
  | .ok definitions =>
    let choices := (Definition.files definitions).flatMap fun file =>
      List.flatten ["  ", s.display file, "\n"]
    return (.after notes { Reply.failure "choose a target file" with
      out := "Candidate files:\n" ++ choices }, s)

def previewReply (s : Session) (plan : Plan) : Reply :=
  { out := List.flatten ["Would replace lines ", lineNumber plan.range.first, "-",
      lineNumber plan.range.last, " of ", s.display plan.file, " with:\n", plan.text, "\n"] }

/-- Why there is no plan although there are definitions. -/
def noPlan (definitions : List Definition) (file : Text) : Text :=
  if definitions.any (·.file = file) then "No matching functions to reorder in chosen file."
  else "No implementations from selected header found in this file."

/-- Puts the definitions of a file into header order, or shows how with a dry run. -/
def reorderReply (s : Session) (ws : Workspace m) (quiet dryRun : Bool) (header target : Text) :
    m (Reply × Session) := do
  let (answer, s) ← s.sync ws header target
  let (notes, s) := s.flush
  match answer with
  | .error e => return (.after notes (.failure e.message), s)
  | .ok ⟨[], _⟩ => return (.after notes (.info quiet nothingFound), s)
  | .ok ⟨definitions, none⟩ =>
    return (.after notes (.info quiet (noPlan definitions (ws.canonical target))), s)
  | .ok ⟨_, some plan⟩ =>
    if dryRun then return (.after notes (s.previewReply plan), s)
    else match ← Session.apply ws plan with
      | .error e => return (.after notes (.failure ("Failed to apply edits: " ++ e.message)), s)
      | .ok () =>
        return (.after notes
          (.info quiet "Reordered functions to match header prototype order."), s)

/-- Reorders the chosen file, or lists the files to choose from. -/
def syncReply (s : Session) (ws : Workspace m) (quiet dryRun : Bool) (header : Text)
    (target : Option Text) : m (Reply × Session) :=
  match target with
  | none => s.choicesReply ws quiet header
  | some target => s.reorderReply ws quiet dryRun header target

end Session

end HeaderOrder

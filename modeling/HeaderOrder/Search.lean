import HeaderOrder.Diagnostic
import HeaderOrder.Workspace

/-! # Searching documents -/

namespace HeaderOrder

/-- The definitions in some files, and the files that could not be read. -/
structure Findings where
  definitions : List Definition := []
  unreadable : List (Text × AccessError) := []
  deriving DecidableEq, Repr

namespace Workspace

variable {m : Type → Type} [Monad m]

/-- Reads each file once, in order, and looks for the names in those that can be read. -/
def searchFiles (ws : Workspace m) (names : List Text) : List Text → m Findings
  | [] => return {}
  | file :: files => do
    let answer ← ws.read file
    let later ← ws.searchFiles names files
    match answer with
    | .ok text =>
      return { later with definitions := Definition.ofText names text file ++ later.definitions }
    | .error e => return { later with unreadable := (file, e) :: later.unreadable }

/-- Without a name to look for no file is read. -/
def search (ws : Workspace m) (names files : List Text) : m Findings :=
  if names = [] then return {} else ws.searchFiles names files

end Workspace

namespace Findings

/-- The warning about a file that was skipped. -/
def warning (e : AccessError) (loc : Location) : Diagnostic :=
  ⟨.warning, "skipped unreadable file: " ++ e.message, loc⟩

/-- One warning for each file that was skipped, without saying where. -/
def warnings (found : Findings) : List Diagnostic :=
  found.unreadable.map fun skipped => warning skipped.2 {}

/-- The warnings about skipped files, each located at its file. New files are numbered. -/
def locate : List (Text × AccessError) → FileIndex → List Diagnostic × FileIndex
  | [], files => ([], files)
  | (path, e) :: rest, files =>
    let (file, files) := files.add path
    let (later, files) := locate rest files
    (warning e { file } :: later, files)

/-- One warning for each file that was skipped, located at the file. -/
def locatedWarnings (found : Findings) (files : FileIndex) : List Diagnostic × FileIndex :=
  locate found.unreadable files

end Findings

/-- Where a search reports: its log, and the numbered files, if files are numbered. -/
structure Reports where
  log : Log := {}
  files : Option FileIndex := none
  deriving DecidableEq, Repr

/-- Reports each file that was skipped. -/
def Reports.add (reports : Reports) (found : Findings) : Reports :=
  match reports.files with
  | none => { reports with log := reports.log.reportAll found.warnings }
  | some files =>
    let (warnings, numbered) := found.locatedWarnings files
    ⟨reports.log.reportAll warnings, some numbered⟩

/-- The definitions of the names in some files. A file that cannot be read is reported. -/
def Workspace.locate {m : Type → Type} [Monad m] (ws : Workspace m) (names files : List Text)
    (reports : Reports) : m (List Definition × Reports) := do
  let found ← ws.search names files
  return (found.definitions, reports.add found)

end HeaderOrder

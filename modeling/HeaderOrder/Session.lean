import HeaderOrder.Search
import HeaderOrder.Table

/-!
# Sessions

A session remembers the prototypes of the headers it has scanned.
-/

namespace HeaderOrder

structure Session where
  settings : Settings := {}
  verbose : Bool := false
  /-- The prototypes of the scanned headers, by canonical path. -/
  headers : Table Text (List Prototype) := {}
  log : Log := {}
  files : FileIndex := {}

namespace Session

inductive Error where
  | notHeader (path : Text)
  | notScanned
  | access (e : AccessError)
  deriving DecidableEq, Repr

def Error.message : Error → Text
  | notHeader path => List.flatten ["'", path, "' is not recognized as a header"]
  | notScanned => "No cached prototypes — run \"scan\" first."
  | access e => e.message

variable {m : Type → Type} [Monad m]

/-! ## Headers -/

/-- Takes the prototypes of a header from its text. -/
def scanText (s : Session) (ws : Workspace m) (header text : Text) :
    Except Error (List Prototype) × Session :=
  if s.settings.isHeader header then
    let prototypes := Prototype.ofText text
    (.ok prototypes, { s with
      headers := s.headers.insert (ws.canonical header) prototypes
      files := (s.files.add (ws.canonical header)).2 })
  else
    (.error (.notHeader header), s)

def scan (s : Session) (ws : Workspace m) (header : Text) :
    m (Except Error (List Prototype) × Session) :=
  if s.settings.isHeader header then do
    match ← ws.read header with
    | .error e => return (.error (.access e), s)
    | .ok text => return s.scanText ws header text
  else
    return (.error (.notHeader header), s)

def scanned? (s : Session) (ws : Workspace m) (header : Text) : Option (List Prototype) :=
  s.headers.get? (ws.canonical header)

/-- Forgets a header. Tells whether it was known. -/
def invalidate (s : Session) (ws : Workspace m) (header : Text) : Bool × Session :=
  (s.headers.contains (ws.canonical header),
    { s with headers := s.headers.erase (ws.canonical header) })

/-! ## Definitions -/

/-- The definitions of the prototypes in all candidates. Without a prototype nothing is listed. -/
def locate (s : Session) (ws : Workspace m) (prototypes : List Prototype) :
    m (List Definition × Session) :=
  match Prototype.names prototypes with
  | [] => return ([], s)
  | names => do
    let files ← ws.candidates s.settings.query
    let (definitions, reports) ← ws.locate names files ⟨s.log, some s.files⟩
    return (definitions, { s with log := reports.log, files := reports.files.getD s.files })

def find (s : Session) (ws : Workspace m) (header : Text) :
    m (Except Error (List Definition) × Session) :=
  match s.scanned? ws header with
  | none => return (.error .notScanned, s)
  | some prototypes => do
    let (definitions, s) ← s.locate ws prototypes
    return (.ok definitions, s)

/-! ## Plans -/

/-- The definitions that were found, and the plan for the chosen file. -/
structure Sync where
  definitions : List Definition
  plan : Option Plan
  deriving DecidableEq, Repr

/-- The first prototype of each name that the plan does not write. -/
def unplaced (prototypes : List Prototype) (plan : Option Plan) : List Prototype :=
  (prototypes.filter fun p => p.name ∉ plan.elim [] Plan.names).eraseDupsBy (·.name == ·.name)

/-- The note about a prototype of a header that has no definition in the chosen file. -/
def unplacedNote (header : Nat) (p : Prototype) : Diagnostic :=
  ⟨.note, List.flatten ["no implementation of '", p.name, "' in the chosen file"],
    .ofLine header p.span.first⟩

/-- Notes the prototypes that have no definition in the chosen file. -/
def noteUnplaced (s : Session) (header : Text) (prototypes : List Prototype)
    (plan : Option Plan) : Session :=
  let (number, files) := s.files.add header
  { s with
    files
    log := s.log.reportAll ((unplaced prototypes plan).map (unplacedNote number)) }

/-- Plans the header order for a chosen file. Without any definition no file is read. -/
def sync (s : Session) (ws : Workspace m) (header chosen : Text) :
    m (Except Error Sync × Session) :=
  match s.scanned? ws header with
  | none | some [] => return (.error .notScanned, s)
  | some prototypes => do
    let (definitions, s) ← s.locate ws prototypes
    if definitions = [] then
      return (.ok ⟨[], none⟩, s)
    else
      let target := ws.canonical chosen
      match ← ws.read target with
      | .error e => return (.error (.access e), s)
      | .ok text =>
        let plan := Plan.make? prototypes definitions target text
        let s := if s.verbose then s.noteUnplaced (ws.canonical header) prototypes plan else s
        return (.ok ⟨definitions, plan⟩, s)

def apply (ws : Workspace m) (plan : Plan) : m (Except Error Unit) := do
  return (← ws.apply plan).mapError .access

end Session

end HeaderOrder

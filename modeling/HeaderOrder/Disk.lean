import HeaderOrder.Glob
import HeaderOrder.Manifest
import HeaderOrder.Workspace

/-!
# Projects on disk

The few things that are asked of a disk, and what is made of them.
-/

namespace HeaderOrder

open Byte Text

inductive DiskEntry where
  | directory
  | file (size : Nat)
  deriving DecidableEq, Repr

/-- A disk as one process sees it. Relative paths start in the working directory. -/
structure Disk (m : Type → Type) where
  workingDirectory : Text
  entry? : Text → m (Option DiskEntry)
  /-- The bytes of a file, when it can be opened. -/
  contents? : Text → m (Option Text)
  /-- The names on the way from the root to where a path leads, as a path, or why it leads
  nowhere. -/
  realPath : Text → m (Except Text Text)
  /-- The paths of all files below a directory. A directory below it is entered when its path
  passes the test. -/
  walk : Text → (Text → Bool) → m (List Text)
  /-- Creates a file or gives it new contents. Tells whether it could be opened. -/
  write : Text → Text → m Bool
  /-- Puts a file in the place of another, or says why not. -/
  rename : Text → Text → m (Except Text Unit)
  remove : Text → m Unit

namespace Disk

variable {m : Type → Type} [Monad m]

/-! ## Reading -/

/-- Source files of more bytes than this are not read. -/
def sourceLimit : Nat := 256 * 1024 * 1024

/-- The bytes of a source file. The size of a directory is beyond all limits. -/
def readSource (disk : Disk m) (path : Text) : m (Except AccessError Text) := do
  match ← disk.entry? path with
  | none => return .error (.cannotOpen path)
  | some .directory => return .error (.tooLarge path)
  | some (.file size) =>
    if sourceLimit < size then
      return .error (.tooLarge path)
    else match ← disk.contents? path with
      | none => return .error (.cannotOpen path)
      | some text => return .ok text

/-- The bytes of a manifest or a script. A directory can be opened and has none. -/
def readStream? (disk : Disk m) (path : Text) : m (Option Text) := do
  match ← disk.entry? path with
  | none => return none
  | some .directory => return some []
  | some (.file _) => disk.contents? path

/-! ## Projects -/

inductive ProjectError where
  | notDirectory (path : Text)
  | cannotResolve (path reason : Text)
  | manifest (e : Manifest.Error)
  deriving DecidableEq, Repr

def ProjectError.message : ProjectError → Text
  | notDirectory path => List.flatten ["workspace root is not a directory: ", path]
  | cannotResolve path reason =>
    List.flatten ["cannot resolve workspace root ", path, ": ", reason]
  | manifest e => e.message

def manifestName : Text := "horder.project"

def readManifest (disk : Disk m) (path : Text) (base : Settings) :
    m (Except ProjectError Settings) := do
  match ← disk.readStream? path with
  | none => return .error (.manifest (.cannotOpen path))
  | some text => return (Manifest.parse path text base).mapError .manifest

def orHere (path : Text) : Text := if path = [] then Path.here else path

/-- The settings of the project in a directory. Its own manifest is used when no other is given
and it has one. A directory that is found from the working directory can be out of reach from the
root, where its path is longer. -/
def project (disk : Disk m) (root manifest : Text) : m (Except ProjectError Settings) := do
  match ← disk.entry? (orHere root) with
  | some .directory =>
    match ← disk.realPath (Path.absolute disk.workingDirectory (orHere root)) with
    | .error reason => return .error (.cannotResolve root reason)
    | .ok real =>
      let base : Settings := { root := Path.normalize real }
      if manifest ≠ [] then
        disk.readManifest manifest base
      else
        let path := Path.join real manifestName
        match ← disk.entry? path with
        | some (.file _) => disk.readManifest path base
        | _ => return .ok base
  | _ => return .error (.notDirectory (orHere root))

/-! ## The workspace below a directory -/

def absoluteRoot (disk : Disk m) (root : Text) : Text :=
  Path.normalize (Path.absolute disk.workingDirectory (orHere root))

def canonical (root path : Text) : Text := Path.normalize (Path.absolute root path)

/-- The path of a directory passes when the excluding pattern does not match it with a slash at
its end. -/
def enters (excluded : Glob) (root path : Text) : Bool :=
  !excluded.accepts (Path.relativeTo path root ++ [slash])

/-- The files of a query, among those a walk has found, in the order of their paths. -/
def select (query : Query) (root : Text) (files : List Text) : List Text :=
  let included := Glob.ofText query.included
  let excluded := Glob.ofText query.excluded
  let chosen := (files.map (Path.relativeTo · root)).filter fun path =>
    included.accepts path && !excluded.accepts path
  ((chosen.map (canonical root)).mergeSort le).take query.limit

def candidates (disk : Disk m) (root : Text) (query : Query) : m (List Text) := do
  if query.included = [] ∨ query.limit = 0 then
    return []
  else match ← disk.entry? root with
    | some .directory =>
      let files ← disk.walk root (enters (Glob.ofText query.excluded) root)
      return select query root files
    | _ => return []

/-- What the name of a file that takes another's place ends in. -/
def temporarySuffix : Text := ".horder.tmp"

/-- Writes the edited text beside its file and then puts it in the file's place. -/
def replaceFile (disk : Disk m) (path text : Text) : m (Except AccessError Unit) := do
  let temporary := path ++ temporarySuffix
  if ← disk.write temporary text then
    match ← disk.rename temporary path with
    | .ok () => return .ok ()
    | .error reason =>
      disk.remove temporary
      return .error (.cannotReplace path reason)
  else
    return .error (.cannotWrite temporary)

def apply (disk : Disk m) (root : Text) (plan : Plan) : m (Except AccessError Unit) := do
  let target := canonical root plan.file
  match ← disk.readSource target with
  | .error e => return .error e
  | .ok text =>
    match replaceLines text plan.range plan.text with
    | .error e => return .error (.outside e)
    | .ok edited => disk.replaceFile target edited

/-- The workspace of the files below a directory, which is given from the root. -/
def workspace (disk : Disk m) (root : Text) : Workspace m where
  canonical := canonical root
  read path := disk.readSource (canonical root path)
  candidates := disk.candidates root
  apply := disk.apply root

end Disk

end HeaderOrder

import HeaderOrder.Disk
import HeaderOrder.Table

/-!
# File trees

The names in the directories of a disk, and the files and links that they stand for.
-/

namespace HeaderOrder

open Byte

/-- The contents of a file: its bytes, and after them a hole that reads as zeros. -/
structure FileContents where
  bytes : Text
  hole : Nat := 0
  deriving DecidableEq, Repr

namespace FileContents

def size (f : FileContents) : Nat := f.bytes.length + f.hole

def text (f : FileContents) : Text := f.bytes ++ List.replicate f.hole 0

end FileContents

/-- What a name stands for. Names of one file have the same number. -/
inductive DirEntry where
  | directory
  | file (id : Nat)
  | link (target : Text)
  deriving DecidableEq, Repr

/-- Whether a name is that of a file, where a link may lead to one. -/
def DirEntry.isFile (leads : Bool) : DirEntry → Bool
  | directory => false
  | file _ => true
  | link _ => leads

/-- What is seen at a place. -/
inductive FileNode where
  | directory
  | file (contents : FileContents)
  | link (target : Text)
  deriving DecidableEq, Repr

/-- What a process is told of a place to which a path leads. -/
def FileNode.told? : FileNode → Option DiskEntry
  | directory => some .directory
  | file f => some (.file f.size)
  | link _ => none

def FileNode.text? : FileNode → Option Text
  | file f => some f.text
  | _ => none

/-- The places below the root, each by the names on the way to it, and the files by their
numbers. -/
structure FileTree where
  nodes : Table (List Text) DirEntry := {}
  files : Table Nat FileContents := {}

namespace FileTree

/-! ## Finding -/

def entryAt? (t : FileTree) (names : List Text) : Option DirEntry :=
  if names = [] then some .directory else t.nodes.get? names

def contents (t : FileTree) (id : Nat) : FileContents := (t.files.get? id).getD { bytes := [] }

def node? (t : FileTree) (names : List Text) : Option FileNode :=
  (t.entryAt? names).map fun
    | .directory => .directory
    | .file id => .file (t.contents id)
    | .link target => .link target

def maxName : Nat := 255

/-- A path has fewer bytes than this. -/
def maxPath : Nat := 4096

/-- No more links than these are followed for one path. -/
def maxLinks : Nat := 40

/-- Goes on by one part of a path. The last part need not be there. -/
def enter? (t : FileTree) (names : List Text) (part : Text) : Option (List Text) :=
  if t.entryAt? names ≠ some .directory ∨ maxName < part.length then none
  else if part = [] ∨ part = Path.here then some names
  else if part = Path.above then
    if t.entryAt? names.dropLast = some .directory then some names.dropLast else none
  else some (names ++ [part])

/-- Where a path starts that is followed from a directory. -/
def start (names : List Text) (path : Text) : List Text :=
  if Path.isAbsolute path then [] else names

/-- Goes on by the parts of a path up to the first link. From there the target of the link and
the parts behind it are left to `next`. -/
def advance (t : FileTree) (next : List Text → List Text → Option (List Text)) :
    List Text → List Text → Option (List Text)
  | names, [] => some names
  | names, part :: parts =>
    match t.enter? names part with
    | none => none
    | some place =>
      match t.entryAt? place with
      | some (.link target) => next (start names target) (target.splitOn slash ++ parts)
      | _ => t.advance next place parts

/-- Goes on by the parts of a path, through so many links. -/
def follow (t : FileTree) : Nat → List Text → List Text → Option (List Text)
  | 0 => t.advance fun _ _ => none
  | links + 1 => t.advance (t.follow links)

/-- What is followed of a path: the bytes before the first zero byte. -/
def followed (path : Text) : Text := path.takeWhile (· ≠ 0)

/-- The parts of a path, if it can be followed at all. -/
def parts? (path : Text) : Option (List Text) :=
  let path := followed path
  if path = [] ∨ maxPath ≤ path.length then none else some (path.splitOn slash)

/-- The place to which a path leads. -/
def resolve? (t : FileTree) (dir : List Text) (path : Text) : Option (List Text) :=
  (parts? path).bind fun parts => t.follow maxLinks (start dir path) parts

/-- The place of a path itself: a link there is not followed. -/
def place? (t : FileTree) (dir : List Text) (path : Text) : Option (List Text) :=
  (parts? path).bind fun parts =>
    (t.follow maxLinks (start dir path) parts.dropLast).bind (t.enter? · (parts.getLastD []))

def find? (t : FileTree) (dir : List Text) (path : Text) : Option FileNode :=
  (t.resolve? dir path).bind t.node?

def isFile (t : FileTree) (dir : List Text) (path : Text) : Bool :=
  match t.find? dir path with
  | some (.file _) => true
  | _ => false

def pathOf (names : List Text) : Text := slash :: [slash].intercalate names

/-- The files below a directory, as names seen from it, and the links that lead to files. A
directory on the way is entered when its names pass the test. -/
def filesBelow (t : FileTree) (names : List Text) (leads enters : List Text → Bool) :
    List (List Text) :=
  t.nodes.entries.filterMap fun (key, entry) =>
    (names.isPrefixOf? key).filter fun rest =>
      rest ≠ [] ∧ entry.isFile (leads rest) ∧
        (List.range rest.length).all fun n => n = 0 || enters (rest.take n)

/-! ## Changing -/

def put (t : FileTree) (names : List Text) (entry : DirEntry) : FileTree :=
  { t with nodes := t.nodes.insert names entry }

def setContents (t : FileTree) (id : Nat) (f : FileContents) : FileTree :=
  { t with files := t.files.insert id f }

/-- A number that no file has. -/
def newId (t : FileTree) : Nat :=
  t.nodes.entries.foldr (fun e id => match e.2 with
    | .file id' => max id (id' + 1)
    | _ => id) 0

/-- Makes a new file. -/
def create (t : FileTree) (names : List Text) (f : FileContents) : FileTree :=
  (t.put names (.file t.newId)).setContents t.newId f

def makeDirectory (t : FileTree) (names : List Text) : FileTree :=
  (List.range names.length).foldl
    (fun t n => t.put (names.take (n + 1)) .directory) t

def putFile (t : FileTree) (names : List Text) (f : FileContents) : FileTree :=
  (t.makeDirectory names.dropLast).create names f

def putLink (t : FileTree) (names : List Text) (target : Text) : FileTree :=
  (t.makeDirectory names.dropLast).put names (.link target)

def removeAll (t : FileTree) (names : List Text) : FileTree :=
  { t with nodes := ⟨t.nodes.entries.filter fun e => !names.isPrefixOf e.1⟩ }

/-- Writes the file to which a path leads. A file that is not there is made. -/
def write? (t : FileTree) (dir : List Text) (path text : Text) : Option FileTree :=
  match t.resolve? dir path with
  | none => none
  | some names =>
    match t.entryAt? names with
    | none => some (t.create names { bytes := text })
    | some (.file id) => some (t.setContents id { bytes := text })
    | some _ => none

/-- Both names stand for one file. -/
def sameFile : DirEntry → DirEntry → Bool
  | .file id, .file id' => id == id'
  | _, _ => false

/-- Moves the name of a file or a link. A directory is not replaced, and between names of one file
nothing is moved. -/
def rename (t : FileTree) (dir : List Text) (source target : Text) : Except Text FileTree :=
  match t.place? dir source, t.place? dir target with
  | some old, some new =>
    match t.entryAt? old, t.entryAt? new with
    | none, _ | some .directory, _ => .error "No such file or directory"
    | some _, some .directory => .error "Is a directory"
    | some entry, entry' =>
      if old = new ∨ entry'.any (sameFile entry) then .ok t
      else .ok (FileTree.put { t with nodes := t.nodes.erase old } new entry)
  | _, _ => .error "No such file or directory"

def remove (t : FileTree) (dir : List Text) (path : Text) : FileTree :=
  match t.place? dir path with
  | none => t
  | some names =>
    match t.entryAt? names with
    | none | some .directory => t
    | some _ => { t with nodes := t.nodes.erase names }

/-! ## The disk of a tree -/

/-- The disk that a process in the directory `dir` sees. A directory that is there has no path
from the root only when that path is too long. -/
def disk (dir : List Text) : Disk (StateM FileTree) where
  workingDirectory := pathOf dir
  entry? path := fun t => ((t.find? dir path).bind FileNode.told?, t)
  contents? path := fun t => ((t.find? dir path).bind FileNode.text?, t)
  realPath path := fun t =>
    (match t.resolve? dir path with
      | none => .error "File name too long"
      | some names => .ok (pathOf names), t)
  walk path enters := fun t =>
    let below := fun rest => Path.join path ([slash].intercalate rest)
    (((t.resolve? dir path).elim [] fun names =>
      (t.filesBelow names (fun rest => t.isFile dir (below rest))
        fun rest => enters (below rest)).map below), t)
  write path text := fun t =>
    match t.write? dir path text with
    | none => (false, t)
    | some t => (true, t)
  rename source target := fun t =>
    match t.rename dir source target with
    | .error reason => (.error reason, t)
    | .ok t => (.ok (), t)
  remove path := fun t => ((), t.remove dir path)

end FileTree

end HeaderOrder

import HeaderOrder.CommandLine

/-! # The program -/

namespace HeaderOrder

def attempt {α : Type} (action : IO α) : IO (Option α) := do
  try
    return some (← action)
  catch _ => return none

def toBytes (t : Text) : ByteArray := ⟨t.toArray⟩

def ofBytes (b : ByteArray) : Text := b.data.toList

/-- Runs an action on the name that a path is. The name ends at the first zero byte. -/
def withName {α : Type} (path : Text) (action : String → IO α) : IO (Option α) :=
  match String.fromUTF8? (toBytes (path.takeWhile (· ≠ 0))) with
  | none => return none
  | some name => attempt (action name)

def processEntry? (path : Text) : IO (Option DiskEntry) := do
  let entry ← withName path fun name => do
    if name.isEmpty then
      return none
    let data ← (System.mkFilePath [name]).metadata
    match data.type with
    | .dir => return some DiskEntry.directory
    | .file => return some (.file data.byteSize.toNat)
    | _ => return none
  return entry.join

/-- The files below a directory. Links to directories are not followed. -/
partial def processWalk (path : Text) (enters : Text → Bool) : IO (List Text) := do
  let entries ← withName path fun name => do
    (System.mkFilePath [name]).readDir
  let found ← (entries.getD #[]).toList.mapM fun entry => do
    let path := Path.join path (Text.ofString entry.fileName)
    let link := (← attempt entry.path.symlinkMetadata).any (·.type == .symlink)
    match ← processEntry? path with
    | none => return []
    | some (.file _) => return [path]
    | some .directory => if !link && enters path then processWalk path enters else return []
  return found.flatten

/-- The disk of the process, in its working directory. A path has a real path only when it leads
somewhere, which a path that is too long does not. -/
def processDisk (workingDirectory : Text) : Disk IO where
  workingDirectory
  entry? := processEntry?
  contents? path := withName path fun name => return ofBytes (← IO.FS.readBinFile name)
  realPath path := do
    let real ← withName path fun name => do
      let _ ← (System.mkFilePath [name]).metadata
      return Text.ofString (← IO.FS.realPath name).toString
    match real with
    | none => return .error "File name too long"
    | some real => return .ok real
  walk := processWalk
  write path text :=
    return (← withName path fun name => IO.FS.writeBinFile name (toBytes text)).isSome
  rename source target := do
    let moved ← withName source fun old => do
      return (← withName target fun new => IO.FS.rename old new).isSome
    if moved == some true then return .ok () else return .error "the file could not be moved"
  remove path := do
    let _ ← withName path fun name => IO.FS.removeFile name

/-- All that is left of the standard input, after what was read of it. -/
partial def readInput (read : ByteArray) : IO Text := do
  let more ← (← IO.getStdin).read 65536
  if more.isEmpty then return ofBytes read else readInput (read ++ more)

end HeaderOrder

open HeaderOrder in
def main (args : List String) : IO UInt32 := do
  let dir := Text.ofString (← IO.currentDir).toString
  let outcome ← (processDisk dir).run (readInput .empty) (args.map Text.ofString)
  (← IO.getStdout).write (toBytes outcome.out)
  (← IO.getStderr).write (toBytes outcome.err)
  match outcome.exit with
  | .status code => return code.toUInt32
  | .aborted => return 134

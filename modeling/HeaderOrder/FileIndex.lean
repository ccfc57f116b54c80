import HeaderOrder.Path

/-!
# File numbers

Files are numbered from 1, in the order they are added. No file has the number 0.
-/

namespace HeaderOrder

/-- The normal forms of the known files. The number of a file is one more than its place. -/
structure FileIndex where
  paths : List Text := []
  deriving DecidableEq, Repr

namespace FileIndex

def size (ix : FileIndex) : Nat := ix.paths.length

/-- The number of a file, or 0. -/
def find (ix : FileIndex) (path : Text) : Nat :=
  (ix.paths.idxOf? (Path.normalize path)).elim 0 (· + 1)

def path (ix : FileIndex) (id : Nat) : Text :=
  if id = 0 then [] else (ix.paths[id - 1]?).getD []

/-- The number of a file, which is a new one when the file was not known. -/
def add (ix : FileIndex) (path : Text) : Nat × FileIndex :=
  match ix.paths.idxOf? (Path.normalize path) with
  | some i => (i + 1, ix)
  | none => (ix.size + 1, ⟨ix.paths ++ [Path.normalize path]⟩)

end FileIndex

end HeaderOrder

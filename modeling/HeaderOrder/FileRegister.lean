import HeaderOrder.Diagnostic
import HeaderOrder.Table

/-!
# The file register

The known files, kept both ways: the file of a number and the number of a file.
-/

namespace HeaderOrder

structure FileRegister where
  /-- The normal forms of the known files. -/
  paths : List Text := []
  /-- The number of the next new file. -/
  next : Nat := 1
  numbers : Table Text Nat := {}

namespace FileRegister

/-- The largest number of a file. -/
def numberLimit : Nat := 0xFFFFFFFF

def exhausted : Diagnostic := ⟨.error, "source manager exhausted file identifier space", {}⟩

/-- The number of a file, and what is printed. A new file has the number 0 when no other is left. -/
def add (r : FileRegister) (path : Text) : (Nat × Text) × FileRegister :=
  let file := Path.normalize path
  match r.numbers.get? file with
  | some number => ((number, []), r)
  | none =>
    if numberLimit < r.next then ((0, exhausted.text none), r)
    else ((r.next, []), {
      paths := r.paths ++ [file]
      next := r.next + 1
      numbers := r.numbers.insert file r.next })

def size (r : FileRegister) : Nat := r.paths.length

/-- The path of a file, which is empty when no file has the number. -/
def path (r : FileRegister) (number : Nat) : Text :=
  if number = 0 ∨ r.size < number then [] else (r.paths[number - 1]?).getD []

/-- The number of a file, or 0. -/
def find (r : FileRegister) (path : Text) : Nat := (r.numbers.get? (Path.normalize path)).getD 0

/-- The files alone. -/
def index (r : FileRegister) : FileIndex := ⟨r.paths⟩

end FileRegister

end HeaderOrder

import HeaderOrder.Code

/-! # Prototypes of a header -/

namespace HeaderOrder

open Byte Text Code

/-- A function that a header declares: its name, the declaration and the lines it is on. -/
structure Prototype where
  name : Text
  signature : Text := []
  span : Span := ⟨0, 0⟩
  deriving DecidableEq, Repr

namespace Prototype

/-- A statement that is given up when it grows beyond this many lines. -/
def maxLines : Nat := 20

def isDeclaration (statement : Text) : Bool :=
  statement.contains openParen && statement.contains closeParen &&
    !startsWithWord statement "typedef" && !startsWithWord statement "using"

/-- The function that the lines of a finished statement declare. `last` is the last of them. -/
def ofStatement? (lines : List Text) (last : Nat) : Option Prototype :=
  let statement := trim (Terminator.lf.text.intercalate lines)
  if isDeclaration statement then
    (lastCall? statement).map fun name => ⟨name, statement, last + 1 - lines.length, last⟩
  else
    none

/-- The prototypes of the lines from line `i` on. `pending` holds the lines of the statement that
line `i` goes on with. A preprocessor line drops them, and a comment starts no statement. -/
def ofLines (i : Nat) (pending : List Text) : List Text → List Prototype
  | [] => []
  | line :: rest =>
    if isDirective line then ofLines (i + 1) [] rest
    else if pending = [] ∧ isComment line then ofLines (i + 1) [] rest
    else
      let statement := pending ++ [line]
      if endsStatement line then
        (ofStatement? statement i).toList ++ ofLines (i + 1) [] rest
      else
        ofLines (i + 1) (if maxLines < statement.length then [] else statement) rest

def ofText (text : Text) : List Prototype := ofLines 0 [] (splitLines text)

/-- The declared names, each once and in order of first declaration. The empty name is no name. -/
def distinct (names : List Text) : List Text := (names.filter (· ≠ [])).eraseDups

def names (prototypes : List Prototype) : List Text := distinct (prototypes.map (·.name))

end Prototype

end HeaderOrder

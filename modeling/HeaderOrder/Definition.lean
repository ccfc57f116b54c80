import HeaderOrder.Prototype

/-!
# Definitions in a source text

A body runs from its opening brace to the line where the braces balance.
-/

namespace HeaderOrder

open Byte Text Code

/-- The body of a function: the line it starts on, the lines it takes and the file it is in. -/
structure Definition where
  name : Text
  line : Nat
  span : Span
  file : Text
  deriving DecidableEq, Repr

namespace Definition

/-- The opening brace is on one of this many lines, or there is no body. -/
def braceWindow : Nat := 30

/-- The line holds the name and an opening parenthesis right after it. -/
def mentions (line name : Text) : Bool := occurs (name ++ [openParen]) line

/-- The length, less one, of the body that starts on the first of `lines`. -/
def bodyLength? (lines : List Text) : Option Nat :=
  (openingLine? (lines.take braceWindow)).map (blockEnd lines)

/-- The definitions of the lines from line `i` on. Those of one line come in the order of the
wanted names. -/
def ofLines (names : List Text) (file : Text) (i : Nat) : List Text → List Definition
  | [] => []
  | line :: rest =>
    (if isComment line then []
      else (names.filter (mentions line)).filterMap fun name =>
        (bodyLength? (line :: rest)).map fun n => ⟨name, i, ⟨i, i + n⟩, file⟩)
    ++ ofLines names file (i + 1) rest

def ofText (names : List Text) (text file : Text) : List Definition :=
  ofLines (Prototype.distinct names) file 0 (splitLines text)

/-- The files with a definition, each once. -/
def files (definitions : List Definition) : List Text := (definitions.map (·.file)).eraseDups

end Definition

end HeaderOrder

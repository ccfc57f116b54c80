import HeaderOrder.Definition
import HeaderOrder.Edit

/-!
# The plan that puts definitions into header order

A plan puts the definitions of one file into the order of the prototypes.
-/

namespace HeaderOrder

open Text

/-- A replacement of lines of a file, and the names of the definitions it writes. -/
structure Plan where
  file : Text
  range : Span
  text : Text
  names : List Text
  deriving DecidableEq, Repr

namespace Plan

/-- The smallest span that covers both. -/
def hull (s t : Span) : Span := ⟨min s.first t.first, max s.last t.last⟩

/-- The definitions of the target whose spans fit its lines. -/
def fitting (definitions : List Definition) (target : Text) (lineCount : Nat) : List Definition :=
  definitions.filter fun d => d.file = target ∧ d.span.Fits lineCount

/-- The first definition of each prototype that has one, in the order of the prototypes. -/
def ordered (prototypes : List Prototype) (definitions : List Definition) : List Definition :=
  prototypes.filterMap fun p => definitions.find? (·.name = p.name)

/-- The blocks of lines, each joined by the line ending, with an empty line between two. -/
def joinBlocks (lines : List Text) (lineEnding : Text) (definitions : List Definition) : Text :=
  (lineEnding ++ lineEnding).intercalate
    (definitions.map fun d => joinLines lines d.span lineEnding)

/-- The plan for a target file with this text. There is none when no prototype has a definition
that fits. -/
def make? (prototypes : List Prototype) (definitions : List Definition) (target text : Text) :
    Option Plan :=
  let lines := splitLines text
  let inFile := fitting definitions target lines.length
  let blocks := ordered prototypes inFile
  match inFile with
  | [] => none
  | first :: rest =>
    if blocks = [] then none
    else some {
      file := target
      range := (rest.map (·.span)).foldl hull first.span
      text := joinBlocks lines (lineEnding text) blocks
      names := blocks.map (·.name) }

end Plan

end HeaderOrder

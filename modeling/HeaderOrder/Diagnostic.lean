import HeaderOrder.FileIndex
import HeaderOrder.Line

/-!
# Diagnostics

Notes, warnings and errors are kept in the order of their reports until they are printed.
-/

namespace HeaderOrder

inductive Severity where
  | note
  | warning
  | error
  deriving DecidableEq, Repr

def Severity.word : Severity → Text
  | note => "note"
  | warning => "warning"
  | error => "error"

/-- A place in a file. Zero stands for a part that is not known. -/
structure Location where
  file : Nat := 0
  line : Nat := 0
  column : Nat := 0
  deriving DecidableEq, Repr

namespace Location

/-- The largest number of 32 bits. -/
def lineLimit : Nat := 0xFFFFFFFF

/-- The place of a line counted from 0. A number that does not fit is not known. -/
def ofLine (file line : Nat) : Location :=
  { file, line := if line < lineLimit then line + 1 else 0 }

/-- The place in front of a message, with a colon between two parts and after the last one. -/
def text (loc : Location) (files : FileIndex) : Text :=
  match files.path loc.file with
  | [] => []
  | path =>
    let line := if loc.line = 0 then [] else [Text.decimal loc.line]
    let column := if loc.line = 0 ∨ loc.column = 0 then [] else [Text.decimal loc.column]
    (Text.ofString ":").intercalate (path :: line ++ column) ++ Text.ofString ": "

end Location

structure Diagnostic where
  severity : Severity
  message : Text
  loc : Location := {}
  deriving DecidableEq, Repr

/-- One line, without the place when the files are not known. -/
def Diagnostic.text (d : Diagnostic) (files : Option FileIndex) : Text :=
  List.flatten [files.elim [] d.loc.text, d.severity.word, ": ", d.message, "\n"]

/-- The diagnostics that are not yet printed, in the order of their reports. -/
structure Log where
  entries : List Diagnostic := []
  deriving DecidableEq, Repr

namespace Log

def report (log : Log) (d : Diagnostic) : Log := ⟨log.entries ++ [d]⟩

def reportAll (log : Log) (ds : List Diagnostic) : Log := ⟨log.entries ++ ds⟩

def count (log : Log) (s : Severity) : Nat := log.entries.countP (·.severity = s)

def text (log : Log) (files : Option FileIndex) : Text :=
  log.entries.flatMap (·.text files)

end Log

end HeaderOrder

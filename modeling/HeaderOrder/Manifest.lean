import HeaderOrder.Line
import HeaderOrder.Settings

/-!
# Manifests

A manifest has one directive on a line: a word, blanks and a value.
-/

namespace HeaderOrder.Manifest

open Byte Text

inductive Fault where
  /-- There is no blank in the line. -/
  | missingValue (line : Text)
  /-- The line holds nothing but blanks after its first blank. This is not reported as an error
  of the manifest: the program stops. -/
  | blankValue
  /-- A directive other than `header-ext` comes again. -/
  | duplicate (word : Text)
  | invalidLimit (value : Text)
  | unknown (word : Text)
  deriving DecidableEq, Repr

def Fault.message : Fault → Text
  | missingValue line => List.flatten ["directive missing value: '", line, "'"]
  | blankValue => []
  | duplicate word => List.flatten ["duplicate directive '", word, "'"]
  | invalidLimit value =>
    List.flatten ["invalid limit '", value, "'; expected a positive integer"]
  | unknown word => List.flatten ["unknown directive '", word, "'"]

/-- A manifest fails at its first line with a fault. Lines are counted from 1. -/
inductive Error where
  | cannotOpen (path : Text)
  | line (path : Text) (number : Nat) (fault : Fault)
  deriving DecidableEq, Repr

def Error.message : Error → Text
  | cannotOpen path => List.flatten ["cannot open manifest: ", path]
  | line path number fault => List.flatten [path, ":", decimal number, ": ", fault.message]

/-! ## Lines -/

def isBlank (b : Byte) : Bool := b == space || b == tab

/-- A blank or the carriage return of a terminator. -/
def isTrailing (b : Byte) : Bool := isBlank b || b == carriageReturn || b == lineFeed

/-- A line without the blanks at its ends. When nothing would be left, its end stays as it is. -/
def strip (line : Text) : Text :=
  let line := line.dropWhile isBlank
  if line.all isTrailing then line else (line.reverse.dropWhile isTrailing).reverse

/-- The word and the value of a line, or `none` for a line that says nothing. -/
def entry? (line : Text) : Except Fault (Option (Text × Text)) :=
  let line := strip line
  if line = [] ∨ line.head? = some hash then
    .ok none
  else match line.dropWhile (!isBlank ·) with
    | [] => .error (.missingValue line)
    | gap => match gap.dropWhile isBlank with
      | [] => .error .blankValue
      | value => .ok (some (line.takeWhile (!isBlank ·), value))

/-! ## Directives -/

structure Draft where
  included : Option Text := none
  excluded : Option Text := none
  limit : Option Nat := none
  headerExtensions : Option (List Text) := none
  deriving DecidableEq, Repr

/-- An extension in lower case and with a dot in front. -/
def normalExtension (value : Text) : Text :=
  let ext := lowercase value
  if ext.head? = some dot ∨ ext = [] then ext else dot :: ext

def Draft.add (d : Draft) (word value : Text) : Except Fault Draft :=
  if word = "include" then
    if d.included.isSome then .error (.duplicate word) else .ok { d with included := some value }
  else if word = "exclude" then
    if d.excluded.isSome then .error (.duplicate word) else .ok { d with excluded := some value }
  else if word = "limit" then
    if d.limit.isSome then .error (.duplicate word)
    else match positive? value with
      | none => .error (.invalidLimit value)
      | some n => .ok { d with limit := some n }
  else if word = "header-ext" then
    .ok { d with headerExtensions := some (d.headerExtensions.getD [] ++ [normalExtension value]) }
  else
    .error (.unknown word)

def Draft.addLine (d : Draft) (line : Text) : Except Fault Draft := do
  match ← entry? line with
  | none => return d
  | some (word, value) => d.add word value

/-- The draft after all lines, or the first fault with its line. `n` is the number of the first
of the lines. -/
def Draft.addLines (d : Draft) (n : Nat) : List Text → Except (Nat × Fault) Draft
  | [] => .ok d
  | line :: rest =>
    match d.addLine line with
    | .error fault => .error (n, fault)
    | .ok d => d.addLines (n + 1) rest

def Draft.settings (d : Draft) (base : Settings) : Settings :=
  { base with
    query := {
      included := d.included.getD base.query.included
      excluded := d.excluded.getD base.query.excluded
      limit := d.limit.getD base.query.limit }
    headerExtensions := d.headerExtensions.getD base.headerExtensions }

/-- The settings that a manifest with this text makes of `base`. -/
def parse (path text : Text) (base : Settings) : Except Error Settings :=
  match Draft.addLines {} 1 (text.splitOn lineFeed) with
  | .error (n, fault) => .error (.line path n fault)
  | .ok d => .ok (d.settings { base with manifest := Path.normalize path })

end HeaderOrder.Manifest

import HeaderOrder.Settings

/-!
# Arguments of a command

Reading stops at the first argument at which no group starts or is completed.
-/

namespace HeaderOrder

open Byte Text

inductive Argument where
  | verbose
  | quiet
  | dryRun
  | root (path : Text)
  | config (path : Text)
  | included (pattern : Text)
  | excluded (pattern : Text)
  | limit (n : Nat)
  | positional (text : Text)
  deriving DecidableEq, Repr

namespace Argument

inductive Error where
  | missingValue (option : Text)
  | invalidLimit (value : Text)
  | unknownOption (text : Text)
  deriving DecidableEq, Repr

def Error.message : Error → Text
  | missingValue option => List.flatten ["missing value for ", option]
  | invalidLimit value => List.flatten ["--limit expects a positive integer, got '", value, "'"]
  | unknownOption text => List.flatten ["unknown option '", text, "'"]

def looksLikeOption (text : Text) : Bool := 1 < text.length && text.head? == some dash

def single? (allowDryRun : Bool) (text : Text) : Option Argument :=
  if text = "--verbose" ∨ text = "-v" then some verbose
  else if text = "--quiet" ∨ text = "-q" then some quiet
  else if allowDryRun ∧ text = "--dry-run" then some dryRun
  else if looksLikeOption text then none
  else some (positional text)

/-- The group of an option, made from the argument after it. -/
def valued? (text : Text) : Option (Text → Except Error Argument) :=
  if text = "--root" then some (.ok ∘ root)
  else if text = "--config" then some (.ok ∘ config)
  else if text = "--include" then some (.ok ∘ included)
  else if text = "--exclude" then some (.ok ∘ excluded)
  else if text = "--limit" then some fun value =>
    match positive? value with
    | none => .error (.invalidLimit value)
    | some n => .ok (limit n)
  else none

def read (allowDryRun : Bool) : List Text → List Argument × Option Error
  | [] => ([], none)
  | text :: rest =>
    match single? allowDryRun text with
    | some group =>
      let (groups, error) := read allowDryRun rest
      (group :: groups, error)
    | none =>
      match valued? text with
      | none => ([], some (.unknownOption text))
      | some make =>
        match rest with
        | [] => ([], some (.missingValue text))
        | value :: rest =>
          match make value with
          | .error e => ([], some e)
          | .ok group =>
            let (groups, error) := read allowDryRun rest
            (group :: groups, error)

end Argument

/-- What the groups of a command line say. A later group takes the place of an earlier one. -/
structure Arguments where
  positionals : List Text := []
  dryRun : Bool := false
  root : Text := []
  config : Text := []
  included : Option Text := none
  excluded : Option Text := none
  limit : Option Nat := none
  verbose : Bool := false
  quiet : Bool := false
  deriving DecidableEq, Repr

namespace Arguments

def add (a : Arguments) : Argument → Arguments
  | .verbose => { a with verbose := true }
  | .quiet => { a with quiet := true }
  | .dryRun => { a with dryRun := true }
  | .root path => { a with root := path }
  | .config path => { a with config := path }
  | .included pattern => { a with included := some pattern }
  | .excluded pattern => { a with excluded := some pattern }
  | .limit n => { a with limit := some n }
  | .positional text => { a with positionals := a.positionals ++ [text] }

/-- The arguments, with what was read before an error. -/
def parse (allowDryRun : Bool) (texts : List Text) : Arguments × Option Argument.Error :=
  let (groups, error) := Argument.read allowDryRun texts
  (groups.foldl add {}, error)

/-- The patterns and the limit that are given go before those of the project. -/
def override (a : Arguments) (s : Settings) : Settings :=
  { s with query := {
      included := a.included.getD s.query.included
      excluded := a.excluded.getD s.query.excluded
      limit := a.limit.getD s.query.limit } }

end Arguments

end HeaderOrder

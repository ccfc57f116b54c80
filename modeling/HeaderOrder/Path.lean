import HeaderOrder.Text

/-!
# Paths

Slashes and backslashes are separators. No file is looked at.
-/

namespace HeaderOrder

open Byte

/-- A path from the root, or from some directory that is not said. -/
structure Path where
  rooted : Bool
  parts : List Text
  deriving DecidableEq, Repr

namespace Path

def isSeparator (b : Byte) : Bool := b == slash || b == backslash

def here : Text := [dot]

def above : Text := [dot, dot]

/-- Goes on by one part. The stack has the innermost part first. Nothing is above the root, and
without a root a double dot that cancels nothing is kept. -/
def enter (rooted : Bool) (stack : List Text) (part : Text) : List Text :=
  if part = [] ∨ part = here then stack
  else if part = above then
    match stack with
    | [] => if rooted then [] else [above]
    | top :: rest => if top = above then above :: stack else rest
  else part :: stack

def isRooted (t : Text) : Bool := t.head?.any isSeparator

def ofText (t : Text) : Path :=
  ⟨isRooted t, ((t.splitOnP isSeparator).foldl (enter (isRooted t)) []).reverse⟩

def toText (p : Path) : Text :=
  if p.rooted then slash :: [slash].intercalate p.parts
  else if p.parts = [] then here
  else [slash].intercalate p.parts

def normalize (t : Text) : Text := (ofText t).toText

/-- A path that starts at the root as it stands. Here a backslash is a byte of a name. -/
def isAbsolute (t : Text) : Bool := t.head? == some slash

def join (dir name : Text) : Text :=
  if dir.getLast? = some slash then dir ++ name else dir ++ slash :: name

/-- The path as seen from the root, when `dir` is the directory it starts in. -/
def absolute (dir t : Text) : Text := if isAbsolute t then t else join dir t

/-- What follows the last slash. -/
def basename (t : Text) : Text := (t.splitOn slash).getLast?.getD []

/-- The part of a name from its last dot on, in lower case. A dot in front starts no extension. -/
def extensionOfName (name : Text) : Text :=
  let tail := name.reverse.takeWhile (· ≠ dot)
  let stem := name.reverse.dropWhile (· ≠ dot)
  if stem.length ≤ 1 then [] else Text.lowercase (dot :: tail.reverse)

def extension (t : Text) : Text := extensionOfName (basename (normalize t))

/-- The path as seen from `root`, or its normal form when it is not below `root`. -/
def relativeTo (t root : Text) : Text :=
  let path := normalize t
  let dir := normalize root
  if dir = here then path
  else if path = dir then here
  else ((if dir = [slash] then dir else dir ++ [slash]).isPrefixOf? path).getD path

end Path

end HeaderOrder

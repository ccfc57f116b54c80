import HeaderOrder.Line

/-!
# Code, line by line

Nothing is parsed: comments, strings and macros are bytes like any others.
-/

namespace HeaderOrder.Code

open Byte Text

/-! ## Lines -/

/-- The first byte that is not white space is a hash sign. -/
def isDirective (line : Text) : Bool := [hash].isPrefixOf (trimLeft line)

/-- The line holds a `//` comment and nothing else. -/
def isComment (line : Text) : Bool := [slash, slash].isPrefixOf (trimLeft line)

def endsStatement (line : Text) : Bool := (trimRight line).getLast? == some semicolon

/-! ## Calls -/

theorem length_dropWhile_lt {p : Byte → Bool} {b : Byte} {t : Text} (h : p b = true) :
    ((b :: t).dropWhile p).length < (b :: t).length := by
  rw [List.dropWhile_cons_of_pos h]
  exact Nat.lt_succ_of_le (List.dropWhile_sublist (p := p)).length_le

theorem length_dropWhile_le (p : Byte → Bool) (t : Text) : (t.dropWhile p).length ≤ t.length :=
  (List.dropWhile_sublist (p := p)).length_le

/-- The identifiers that an opening parenthesis follows, in order. Digits in front of an
identifier are not part of it, and white space may stand before the parenthesis. -/
def callNames : Text → List Text
  | [] => []
  | b :: t =>
    if h : isIdentChar b then
      let name := ((b :: t).takeWhile isIdentChar).dropWhile (!isIdentStart ·)
      let rest := (b :: t).dropWhile isIdentChar
      have := length_dropWhile_lt (t := t) h
      have := length_dropWhile_le isSpace rest
      if name ≠ [] ∧ (rest.dropWhile isSpace).head? = some openParen then
        name :: callNames (rest.dropWhile isSpace).tail
      else
        callNames rest
    else
      callNames t
  termination_by t => t.length
  decreasing_by
    all_goals simp_wf
    all_goals grind

def lastCall? (t : Text) : Option Text := (callNames t).getLast?

/-! ## Blocks -/

def balance (line : Text) : Int := line.count openBrace - line.count closeBrace

@[simp] theorem balance_nil : balance [] = 0 := rfl

@[simp] theorem balance_append (s t : Text) : balance (s ++ t) = balance s + balance t := by
  simp only [balance, List.count_append]
  omega

/-- The number of lines before the first one that ends at depth 0 with a brace opened, on it or
before. `depth` and `opened` tell what came before. -/
def closingLine? : Int → Bool → List Text → Option Nat
  | _, _, [] => none
  | depth, opened, line :: rest =>
    let depth := depth + balance line
    let opened := opened || line.contains openBrace
    if opened ∧ depth = 0 then some 0 else (closingLine? depth opened rest).map (· + 1)

/-- The last line of the block that starts on line `start`, or `start` when it never closes. -/
def blockEnd (lines : List Text) (start : Nat) : Nat :=
  start + (closingLine? 0 false (lines.drop start)).getD 0

/-- The number of lines before the first one with an opening brace. A statement that ends on an
earlier line has no body. -/
def openingLine? : List Text → Option Nat
  | [] => none
  | line :: rest =>
    if line.contains openBrace then some 0
    else if endsStatement line then none
    else (openingLine? rest).map (· + 1)

end HeaderOrder.Code

/-!
# Text as bytes

A text is a list of bytes and no encoding is assumed.
-/

namespace HeaderOrder

abbrev Byte := UInt8

/-- A text is a list of bytes. -/
abbrev Text := List UInt8

/-! ## Bytes -/

namespace Byte

abbrev tab : Byte := 9
abbrev lineFeed : Byte := 10
abbrev carriageReturn : Byte := 13
abbrev space : Byte := 32
abbrev hash : Byte := 35
abbrev openParen : Byte := 40
abbrev closeParen : Byte := 41
abbrev star : Byte := 42
abbrev comma : Byte := 44
abbrev dash : Byte := 45
abbrev dot : Byte := 46
abbrev slash : Byte := 47
abbrev semicolon : Byte := 59
abbrev question : Byte := 63
abbrev backslash : Byte := 92
abbrev underscore : Byte := 95
abbrev openBrace : Byte := 123
abbrev closeBrace : Byte := 125

/-- Space, tab, line feed, vertical tab, form feed and carriage return. -/
def isSpace (b : Byte) : Bool := b == space || (9 ≤ b && b ≤ 13)

def isDigit (b : Byte) : Bool := 48 ≤ b && b ≤ 57

def isUpper (b : Byte) : Bool := 65 ≤ b && b ≤ 90

def isLower (b : Byte) : Bool := 97 ≤ b && b ≤ 122

def isIdentStart (b : Byte) : Bool := isUpper b || isLower b || b == underscore

def isIdentChar (b : Byte) : Bool := isIdentStart b || isDigit b

def toLower (b : Byte) : Byte := if isUpper b then b + 32 else b

end Byte

namespace Text

/-! ## Literals and numbers -/

def ofString (s : String) : Text := s.toUTF8.data.toList

end Text

instance : Coe String Text := ⟨Text.ofString⟩

namespace Text

/-- The digits of a number, the leading one first. -/
def decimal (n : Nat) : Text := (Nat.toDigits 10 n).map Char.toUInt8

/-- The number that a text of digits writes. Signs, blanks and the empty text write none. -/
def natural? (t : Text) : Option Nat :=
  if t ≠ [] ∧ t.all Byte.isDigit then
    some (t.foldl (fun n b => 10 * n + (b.toNat - 48)) 0)
  else
    none

/-- Sizes and line numbers have 64 bits. -/
def wordSize : Nat := 0x10000000000000000

/-- A number from 1 that is below the word size, as written in decimal. -/
def positive? (t : Text) : Option Nat :=
  (natural? t).filter fun n => 0 < n && n < wordSize

/-! ## Trimming and words -/

def trimLeft (t : Text) : Text := t.dropWhile Byte.isSpace

def trimRight (t : Text) : Text := (t.reverse.dropWhile Byte.isSpace).reverse

def trim (t : Text) : Text := trimRight (trimLeft t)

def words (t : Text) : List Text := (t.splitOnP Byte.isSpace).filter (· ≠ [])

def startsWithWord (t word : Text) : Bool :=
  match word.isPrefixOf? t with
  | none => false
  | some [] => true
  | some (b :: _) => !Byte.isIdentChar b

def occurs (part : Text) : Text → Bool
  | [] => part.isEmpty
  | b :: t => part.isPrefixOf (b :: t) || occurs part t

theorem occurs_iff {part t : Text} : occurs part t = true ↔ part <:+: t := by
  induction t with
  | nil => simp [occurs, List.infix_nil]
  | cons b t ih => simp [occurs, List.infix_cons_iff, ih]

/-- The text with each run of blanks and line ends made one space, and none at either end. -/
def flatten (t : Text) : Text :=
  [Byte.space].intercalate ((t.splitOnP fun b =>
    b == Byte.space || b == Byte.tab || b == Byte.lineFeed || b == Byte.carriageReturn).filter
      (· ≠ []))

def lowercase (t : Text) : Text := t.map Byte.toLower

/-! ## Order -/

/-- The order of texts compares bytes, and a text comes after its own beginnings. -/
def le : Text → Text → Bool
  | [], _ => true
  | _ :: _, [] => false
  | a :: s, b :: t => if a = b then le s t else a < b

end Text

end HeaderOrder

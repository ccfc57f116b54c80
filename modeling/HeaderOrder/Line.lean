import HeaderOrder.Text

/-!
# Lines

A line keeps its terminator, so the lines of a text hold all its bytes.
-/

namespace HeaderOrder

open Byte

/-- What stands between a line and the next one. Only the last line has no terminator. -/
inductive Terminator where
  | none
  | lf
  | crlf
  deriving DecidableEq, Repr

namespace Terminator

def text : Terminator → Text
  | none => []
  | lf => [lineFeed]
  | crlf => [carriageReturn, lineFeed]

end Terminator

structure Line where
  content : Text
  terminator : Terminator
  deriving DecidableEq, Repr

namespace Line

def text (l : Line) : Text := l.content ++ l.terminator.text

/-- Puts a byte in front of a list of lines. A carriage return joins the line feed after it. -/
def push (b : Byte) : List Line → List Line
  | [] => [⟨[b], .none⟩]
  | l :: ls =>
    if b = lineFeed then ⟨[], .lf⟩ :: l :: ls
    else if b = carriageReturn ∧ l = ⟨[], .lf⟩ then ⟨[], .crlf⟩ :: ls
    else ⟨b :: l.content, l.terminator⟩ :: ls

end Line

namespace Text

/-- The lines of a text. There is always a last one, which may be empty. -/
def lines (t : Text) : List Line := t.foldr Line.push [⟨[], .none⟩]

def splitLines (t : Text) : List Text := (lines t).map Line.content

def unlines (ls : List Line) : Text := ls.flatMap Line.text

/-- The terminator of the first line, which the rest of a text is taken to follow. -/
def lineEnding (t : Text) : Text :=
  match lines t with
  | ⟨_, .crlf⟩ :: _ => Terminator.crlf.text
  | _ => Terminator.lf.text

/-! ## The lines hold the whole text -/

@[simp] theorem lines_nil : lines [] = [⟨[], .none⟩] := rfl

@[simp] theorem lines_cons (b : Byte) (t : Text) : lines (b :: t) = Line.push b (lines t) := rfl

theorem lines_ne_nil (t : Text) : lines t ≠ [] := by
  cases t with
  | nil => simp
  | cons b t =>
    rw [lines_cons]
    cases lines t with
    | nil => simp [Line.push]
    | cons l ls =>
      simp only [Line.push]
      split
      · simp
      · split <;> simp

theorem unlines_push (b : Byte) (ls : List Line) : unlines (Line.push b ls) = b :: unlines ls := by
  cases ls with
  | nil => simp [Line.push, unlines, Line.text, Terminator.text]
  | cons l ls =>
    simp only [Line.push]
    split
    · next h => simp [unlines, Line.text, Terminator.text, h]
    · split
      · next h => simp [unlines, Line.text, Terminator.text, h.1, h.2]
      · simp [unlines, Line.text]

theorem unlines_lines (t : Text) : unlines (lines t) = t := by
  induction t with
  | nil => rfl
  | cons b t ih => rw [lines_cons, unlines_push, ih]

end Text

/-! ## Spans -/

/-- A range of lines, counted from 0, with both ends in it. -/
structure Span where
  first : Nat
  last : Nat
  deriving DecidableEq, Repr

namespace Span

/-- The number of lines, as a 64-bit word. A reversed span holds none. -/
def lineCount (s : Span) : Nat :=
  if s.first ≤ s.last then (s.last - s.first + 1) % Text.wordSize else 0

/-- The span is not reversed and ends within `n` lines. -/
def Fits (s : Span) (n : Nat) : Prop := s.first ≤ s.last ∧ s.last < n

instance (s : Span) (n : Nat) : Decidable (s.Fits n) := inferInstanceAs (Decidable (_ ∧ _))

/-- The elements of `ls` in the span. A span that reaches beyond the end is cut there. -/
def slice {α : Type} (s : Span) (ls : List α) : List α :=
  (ls.drop s.first).take (s.last + 1 - s.first)

end Span

def Text.joinLines (ls : List Text) (s : Span) (sep : Text) : Text :=
  sep.intercalate (s.slice ls)

/-- A 0-based line as it is shown: from 1, in a 64-bit word. -/
def lineNumber (n : Nat) : Text := Text.decimal ((n + 1) % Text.wordSize)

end HeaderOrder

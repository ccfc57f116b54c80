import HeaderOrder.Line

/-! # Replacing lines -/

namespace HeaderOrder

/-- The span of an edit does not lie in the document, which has so many lines. -/
structure OutsideDocument where
  span : Span
  lineCount : Nat
  deriving DecidableEq, Repr

def OutsideDocument.message (e : OutsideDocument) : Text :=
  List.flatten ["line range ", lineNumber e.span.first, "-", lineNumber e.span.last,
    " is outside the document (", Text.decimal e.lineCount, " lines)"]

namespace Text

/-- The text with the lines of the span replaced by `new`. -/
def replaceLines (text : Text) (span : Span) (new : Text) : Except OutsideDocument Text :=
  let ls := lines text
  if span.Fits ls.length then
    let kept := (ls[span.last]?.map Line.terminator).getD .none
    .ok (unlines (ls.take span.first) ++ new ++ kept.text ++ unlines (ls.drop (span.last + 1)))
  else
    .error ⟨span, ls.length⟩

end Text

end HeaderOrder

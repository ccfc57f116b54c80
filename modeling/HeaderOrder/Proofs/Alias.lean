import HeaderOrder.Proofs.Prototype
import Mathlib.Data.List.DropRight

/-! # Typedefs and using declarations -/

namespace HeaderOrder

open Byte Text Code

/-! ## The ends of a text -/

namespace Text

variable {t word line : Text} {blanks rest : List Text}

def IsBlank (line : Text) : Prop := trimLeft line = []

instance (line : Text) : Decidable (IsBlank line) := inferInstanceAs (Decidable (_ = _))

theorem trimLeft_append (hline : ¬ IsBlank line) (t : Text) :
    trimLeft (line ++ t) = trimLeft line ++ t := by
  unfold IsBlank trimLeft at hline
  rw [trimLeft, List.dropWhile_append, if_neg (by simpa using hline)]
  rfl

theorem trimLeft_blank_append (hline : IsBlank line) (t : Text) :
    trimLeft (line ++ t) = trimLeft t := by
  unfold IsBlank trimLeft at hline
  rw [trimLeft, List.dropWhile_append, if_pos (by simp [hline])]
  rfl

theorem trimLeft_intercalate (hblanks : ∀ l ∈ blanks, IsBlank l) (hline : ¬ IsBlank line)
    (rest : List Text) : trimLeft (Terminator.lf.text.intercalate (blanks ++ line :: rest)) =
      Terminator.lf.text.intercalate (trimLeft line :: rest) := by
  induction blanks with
  | nil =>
    rw [List.nil_append]
    rcases eq_or_ne rest [] with rfl | hne
    · simp
    · rw [List.intercalate_cons_of_ne_nil hne, List.intercalate_cons_of_ne_nil hne,
        List.append_assoc, List.append_assoc, trimLeft_append hline]
  | cons blank blanks ih =>
    have hlf : IsBlank Terminator.lf.text := by decide
    rw [List.cons_append, List.intercalate_cons_of_ne_nil (by simp), List.append_assoc,
      trimLeft_blank_append (hblanks blank (by simp)), trimLeft_blank_append hlf,
      ih fun l hl => hblanks l (List.mem_cons_of_mem _ hl)]

theorem trimRight_append {b : Byte} (hlast : word.getLast? = some b) (hb : isSpace b = false)
    (t : Text) : trimRight (word ++ t) = word ++ trimRight t := by
  obtain ⟨word, rfl⟩ := List.getLast?_eq_some_iff.mp hlast
  unfold trimRight
  rw [List.reverse_append, List.dropWhile_append]
  split_ifs with hempty
  · have hnil : t.reverse.dropWhile isSpace = [] := by simpa using hempty
    simp [hnil, hb]
  · simp

theorem head?_trimRight {b : Byte} (h : (trimRight t).head? = some b) : t.head? = some b := by
  have hp : trimRight t <+: t := List.rdropWhile_prefix isSpace t
  obtain ⟨rest, hrest⟩ := hp
  rw [← hrest, List.head?_append, h]
  rfl

theorem HasFirstWord.trimRight {b : Byte} (hlast : word.getLast? = some b)
    (hb : isSpace b = false) (h : HasFirstWord word t) :
    HasFirstWord word (Text.trimRight t) := by
  obtain ⟨rest, rfl, hrest⟩ := h
  refine ⟨Text.trimRight rest, trimRight_append hlast hb rest, ?_⟩
  intro c hc
  exact hrest c (head?_trimRight hc)

theorem HasFirstWord.intercalate (h : HasFirstWord word line) (rest : List Text) :
    HasFirstWord word (Terminator.lf.text.intercalate (line :: rest)) := by
  obtain ⟨more, rfl, hmore⟩ := h
  rcases eq_or_ne rest [] with rfl | hne
  · exact ⟨more, by simp, hmore⟩
  · refine ⟨more ++ Terminator.lf.text ++ Terminator.lf.text.intercalate rest, ?_, ?_⟩
    · rw [List.intercalate_cons_of_ne_nil hne]
      simp only [List.append_assoc]
    · intro b hb
      cases more with
      | nil =>
        cases hb
        decide
      | cons c more =>
        cases hb
        exact hmore b rfl

theorem HasFirstWord.head?_eq (hne : word ≠ []) (h : HasFirstWord word t) :
    t.head? = word.head? := by
  obtain ⟨rest, rfl, -⟩ := h
  rw [List.head?_append, Option.or_of_isSome (List.isSome_head?.mpr hne)]

theorem HasFirstWord.not_isBlank (hne : word ≠ []) (h : HasFirstWord word (trimLeft line)) :
    ¬ IsBlank line := by
  intro hblank
  obtain ⟨rest, hsplit, -⟩ := h
  rw [hblank] at hsplit
  exact hne (List.append_eq_nil_iff.mp hsplit.symm).1

end Text

namespace Prototype

variable {lines : List Text}

def NamesType (t : Text) : Prop := HasFirstWord "typedef" t ∨ HasFirstWord "using" t

/-! ## What the first line with text decides -/

theorem namesType_trim {blanks : List Text} {line : Text} (hblanks : ∀ l ∈ blanks, IsBlank l)
    (h : NamesType (trimLeft line)) (rest : List Text) :
    NamesType (trim (Terminator.lf.text.intercalate (blanks ++ line :: rest))) := by
  have hword {word : Text} {b : Byte} (hlast : word.getLast? = some b) (hb : isSpace b = false)
      (hw : HasFirstWord word (trimLeft line)) :
      HasFirstWord word (trim (Terminator.lf.text.intercalate (blanks ++ line :: rest))) := by
    have hne : word ≠ [] := by
      rintro rfl
      simp at hlast
    rw [trim, trimLeft_intercalate hblanks (hw.not_isBlank hne)]
    exact (hw.intercalate rest).trimRight hlast hb
  rcases h with h | h
  · exact Or.inl (hword rfl (by decide) h)
  · exact Or.inr (hword rfl (by decide) h)

theorem not_namesType_slash (t : Text) : ¬ NamesType (slash :: t) := by
  rintro (hword | hword)
  · have := hword.head?_eq (by decide)
    rw [List.head?_cons] at this
    exact absurd this (by decide)
  · have := hword.head?_eq (by decide)
    rw [List.head?_cons] at this
    exact absurd this (by decide)

theorem not_namesType_trim {blanks : List Text} {line : Text} (hblanks : ∀ l ∈ blanks, IsBlank l)
    (hline : isComment line = true) (rest : List Text) :
    ¬ NamesType (trim (Terminator.lf.text.intercalate (blanks ++ line :: rest))) := by
  obtain ⟨more, hmore⟩ := List.isPrefixOf_iff_prefix.mp hline
  have hnot : ¬ IsBlank line := by
    intro hblank
    rw [hblank] at hmore
    simp at hmore
  have hslash : ∃ t, trim (Terminator.lf.text.intercalate (blanks ++ line :: rest)) =
      slash :: t := by
    rw [trim, trimLeft_intercalate hblanks hnot, ← hmore]
    rcases eq_or_ne rest [] with rfl | hne
    · rw [List.intercalate_singleton, trimRight_append rfl (by decide)]
      exact ⟨_, rfl⟩
    · rw [List.intercalate_cons_of_ne_nil hne, List.append_assoc, List.append_assoc,
        trimRight_append rfl (by decide)]
      exact ⟨_, rfl⟩
  obtain ⟨t, ht⟩ := hslash
  rw [ht]
  exact not_namesType_slash t

/-! ## Type names in a header -/

/-- A typedef or a using declaration among the lines of a header. It starts where nothing is
pending, and `lead` holds the blank lines and comments in front of its first word. -/
structure Alias (lines : List Text) where
  before : List Text
  lead : List Text
  head : Text
  body : List Text
  after : List Text
  split : lines = before ++ (lead ++ head :: body) ++ after
  boundary : ∀ line, before.getLast? = some line →
    isDirective line = true ∨ endsStatement line = true
  short : (lead ++ head :: body).length ≤ maxLines
  noDirective : ∀ line ∈ lead ++ head :: body, isDirective line = false
  goesOn : ∀ line ∈ (lead ++ head :: body).dropLast, endsStatement line = false
  ends : ∀ line, (head :: body).getLast? = some line → endsStatement line = true
  quiet : ∀ line ∈ lead, IsBlank line ∨ isComment line = true
  names : NamesType (trimLeft head)

namespace Alias

variable (a : Alias lines)

def last : Nat := a.before.length + a.lead.length + a.body.length

/-- The lines in front of the first word that are part of the statement: those from the first
blank line on. -/
def opened : List Text := a.lead.dropWhile isComment

def statement : List Text := a.opened ++ a.head :: a.body

def text : Text := trim (Terminator.lf.text.intercalate a.statement)

def skipped : List Text := a.lead.takeWhile isComment

theorem skipped_append_opened : a.skipped ++ a.opened = a.lead := List.takeWhile_append_dropWhile

theorem statement_ne_nil : a.statement ≠ [] := by
  simp [statement]

theorem lines_eq : lines = (a.before ++ a.skipped) ++ a.statement ++ a.after := by
  rw [statement, List.append_assoc a.before, ← List.append_assoc a.skipped,
    skipped_append_opened]
  exact a.split

theorem mem_lead_of_mem_opened {line : Text} (h : line ∈ a.opened) : line ∈ a.lead :=
  (List.dropWhile_sublist isComment).subset h

theorem mem_of_mem_statement {line : Text} (h : line ∈ a.statement) :
    line ∈ a.lead ++ a.head :: a.body := by
  rcases List.mem_append.mp h with h | h
  · exact List.mem_append_left _ (a.mem_lead_of_mem_opened h)
  · exact List.mem_append_right _ h

theorem isComment_head : isComment a.head = false := by
  by_contra hc
  rw [Bool.not_eq_false] at hc
  obtain ⟨more, hmore⟩ := List.isPrefixOf_iff_prefix.mp hc
  have := a.names
  rw [← hmore] at this
  exact not_namesType_slash _ this

theorem isComment_of_head? {line : Text} (h : a.statement.head? = some line) :
    isComment line = false := by
  unfold statement at h
  cases hopened : a.opened with
  | nil =>
    rw [hopened] at h
    cases h
    exact a.isComment_head
  | cons first rest =>
    rw [hopened] at h
    cases h
    have hstop := List.head?_dropWhile_not isComment a.lead
    have hfirst : (a.lead.dropWhile isComment).head? = some line := congrArg List.head? hopened
    rw [hfirst] at hstop
    simpa using hstop

theorem fresh : Fresh lines (a.before ++ a.skipped).length := by
  have hstart : Fresh lines a.before.length := by
    rcases List.eq_nil_or_concat a.before with hnil | ⟨before, line, hbefore⟩
    · rw [hnil]
      exact .start
    · have hl : lines[before.length]? = some line := by
        have := congrArg (·[before.length]?) a.split
        simpa [hbefore] using this
      rw [hbefore, List.length_concat]
      rcases a.boundary line (by simp [hbefore]) with hd | he
      · exact .directive hl hd
      · exact .ended hl he
  have hcomments : ∀ line ∈ a.skipped, isComment line = true :=
    fun line hl => List.mem_takeWhile_imp hl
  have hdrop : lines.drop a.before.length = a.skipped ++ (a.statement ++ a.after) := by
    have := congrArg (List.drop a.before.length) a.lines_eq
    simpa using this
  rw [List.length_append]
  exact hstart.of_comments hcomments hdrop

theorem length_statement :
    (a.before ++ a.skipped).length + a.statement.length = a.last + 1 := by
  have hlead := congrArg List.length a.skipped_append_opened
  simp only [List.length_append, List.length_cons, last, statement] at hlead ⊢
  omega

theorem drop_eq : lines.drop (a.before ++ a.skipped).length = a.statement ++ a.after := by
  have := congrArg (List.drop (a.before ++ a.skipped).length) a.lines_eq
  rwa [List.append_assoc, List.drop_left] at this

theorem slice_eq : Span.slice ⟨(a.before ++ a.skipped).length, a.last⟩ lines = a.statement := by
  have hlen := a.length_statement
  rw [Span.slice, a.drop_eq, List.take_left' (by simp only; omega)]

theorem getLast?_statement : a.statement.getLast? = lines[a.last]? := by
  have hlen := a.length_statement
  have hget : lines[a.last]? = (a.before ++ a.skipped ++ a.statement ++ a.after)[a.last]? :=
    congrArg (·[a.last]?) a.lines_eq
  have hpos := List.length_pos_iff.mpr a.statement_ne_nil
  rw [hget, List.append_assoc, List.getElem?_append_right (by omega),
    List.getElem?_append_left (by omega), List.getLast?_eq_getElem?]
  congr 1
  omega

theorem isStatement : IsStatement lines ⟨(a.before ++ a.skipped).length, a.last⟩ := by
  have hlen := a.length_statement
  have hpos := List.length_pos_iff.mpr a.statement_ne_nil
  have hlines := congrArg List.length a.lines_eq
  have hlead := congrArg List.length a.skipped_append_opened
  have hshort := a.short
  simp only [List.length_append, List.length_cons] at hlines hlead hshort hlen
  refine ⟨a.fresh, ⟨?_, ?_⟩, ?_, ?_, ?_, ?_, ?_⟩
  · simp only [List.length_append]
    omega
  · simp only
    omega
  · intro line hl
    apply a.isComment_of_head?
    rw [← Nat.add_zero (a.before ++ a.skipped).length, ← List.getElem?_drop, a.drop_eq,
      List.getElem?_append_left hpos] at hl
    rw [List.head?_eq_getElem?, hl]
  · intro line hl
    rw [a.slice_eq] at hl
    exact a.noDirective line (a.mem_of_mem_statement hl)
  · intro line hl
    rw [← a.getLast?_statement, statement, List.getLast?_append_of_ne_nil _ (by simp)] at hl
    exact a.ends line hl
  · intro line hl
    rw [a.slice_eq, statement, List.dropLast_append_of_ne_nil (by simp)] at hl
    apply a.goesOn line
    rw [List.dropLast_append_of_ne_nil (by simp)]
    rcases List.mem_append.mp hl with hl | hl
    · exact List.mem_append_left _ (a.mem_lead_of_mem_opened hl)
    · exact List.mem_append_right _ hl
  · simp only [List.length_append, last]
    omega

theorem namesType_text (h : ∀ line ∈ a.opened, isComment line = false) : NamesType a.text := by
  apply namesType_trim _ a.names
  intro line hl
  rcases a.quiet line (a.mem_lead_of_mem_opened hl) with hblank | hc
  · exact hblank
  · rw [h line hl] at hc
    exact absurd hc (by decide)

theorem not_namesType_text (h : ∃ line ∈ a.opened, isComment line = true) :
    ¬ NamesType a.text := by
  obtain ⟨line, blanks, rest, hblanks, hline, hopened⟩ :
      ∃ line blanks rest, (∀ l ∈ blanks, IsBlank l) ∧ isComment line = true ∧
        a.opened = blanks ++ line :: rest := by
    obtain ⟨line, hfirst⟩ := Option.isSome_iff_exists.mp (List.find?_isSome.mpr h)
    obtain ⟨hline, blanks, rest, hopened, hcode⟩ := List.find?_eq_some_iff_append.mp hfirst
    refine ⟨line, blanks, rest, ?_, hline, hopened⟩
    intro l hl
    have hmem : l ∈ a.opened := hopened ▸ List.mem_append_left _ hl
    rcases a.quiet l (a.mem_lead_of_mem_opened hmem) with hblank | hc
    · exact hblank
    · exact absurd hc (by simpa using hcode l hl)
  rw [text, statement, hopened, List.append_assoc, List.cons_append]
  exact not_namesType_trim hblanks hline _

/-- A typedef or a using declaration is declared just below a blank line and a comment. -/
theorem declared_iff {header : Text} (a : Alias (splitLines header)) :
    (∃ p ∈ ofText header, p.span.last = a.last) ↔
      (∃ line ∈ a.opened, isComment line = true) ∧ openParen ∈ a.text ∧ closeParen ∈ a.text ∧
        ∃ name, lastCall? a.text = some name := by
  have htext : statementText (splitLines header) ⟨(a.before ++ a.skipped).length, a.last⟩ =
      a.text := by
    rw [statementText, joinLines, a.slice_eq, text]
  rw [a.isStatement.exists_prototype_iff, htext]
  constructor
  · rintro ⟨hcand, hname⟩
    refine ⟨?_, hcand.openParen_mem, hcand.closeParen_mem, hname⟩
    by_contra hnone
    simp only [not_exists, not_and, Bool.not_eq_true] at hnone
    rcases a.namesType_text hnone with hword | hword
    · exact hcand.not_typedef hword
    · exact hcand.not_using hword
  · rintro ⟨hcomment, hopen, hclose, hname⟩
    have hnot := a.not_namesType_text hcomment
    exact ⟨⟨hopen, hclose, fun h => hnot (Or.inl h), fun h => hnot (Or.inr h)⟩, hname⟩

def commentedText : Text := "// callbacks\n\ntypedef void (*callback_t)(int);\n"

/-- A comment above the blank line opens nothing. -/
def commented : Alias (splitLines commentedText) where
  before := []
  lead := ["// callbacks", ""]
  head := "typedef void (*callback_t)(int);"
  body := []
  after := [""]
  split := by decide
  boundary := by simp
  short := by decide
  noDirective := by decide
  goesOn := by decide
  ends := by
    rintro line ⟨⟩
    decide
  quiet := by decide
  names := Or.inl (startsWithWord_iff.mp (by decide))

theorem declared_iff_commented : ¬ ∃ p ∈ ofText commentedText, p.span.last = commented.last := by
  intro h
  obtain ⟨hcomment, -⟩ := commented.declared_iff.mp h
  exact absurd hcomment (by decide)

def maskedText : Text := "\n// callbacks\ntypedef void (*callback_t)(int);\n"

/-- The blank line opens the statement, and the comment below it hides the typedef. -/
def masked : Alias (splitLines maskedText) where
  before := []
  lead := ["", "// callbacks"]
  head := "typedef void (*callback_t)(int);"
  body := []
  after := [""]
  split := by decide
  boundary := by simp
  short := by decide
  noDirective := by decide
  goesOn := by decide
  ends := by
    rintro line ⟨⟩
    decide
  quiet := by decide
  names := Or.inl (startsWithWord_iff.mp (by decide))

theorem masked_declared : ∃ p ∈ ofText maskedText,
    p.name = ofString "void" ∧ p.span.last = masked.last := by
  have hfound : ofText maskedText =
      [⟨"void", "// callbacks\ntypedef void (*callback_t)(int);", ⟨0, 2⟩⟩] := by
    decide +kernel
  rw [hfound]
  exact ⟨_, List.mem_singleton_self _, rfl, rfl⟩

end Alias

end Prototype

end HeaderOrder

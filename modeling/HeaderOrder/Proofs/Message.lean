import HeaderOrder.Command.Reply
import HeaderOrder.Proofs.History

/-! # Messages about files -/

namespace HeaderOrder

/-! ## What is printed -/

/-- The text of a diagnostic about the file with this path. -/
def Diagnostic.textIn (d : Diagnostic) (path : Text) : Text :=
  { d with loc.file := 1 : Diagnostic }.text (some ⟨[path]⟩)

theorem Diagnostic.text_eq_textIn {d : Diagnostic} {files : FileIndex} {path : Text}
    (h : files.path d.loc.file = path) : d.text (some files) = d.textIn path := by
  have hone : (⟨[path]⟩ : FileIndex).path 1 = path := rfl
  simp only [textIn, text, Option.elim_some, Location.text, h, hone]

theorem Log.text_reportAll (log : Log) (ds : List Diagnostic) (files : Option FileIndex) :
    (log.reportAll ds).text files = log.text files ++ ds.flatMap (·.text files) :=
  List.flatMap_append

def Findings.text (found : Findings) : Text :=
  found.unreadable.flatMap fun skipped =>
    (warning skipped.2 {}).textIn (Path.normalize skipped.1)

theorem Findings.text_locate (skipped : List (Text × AccessError)) (files files' : FileIndex)
    (h : (locate skipped files).2.paths <+: files'.paths) :
    (locate skipped files).1.flatMap (·.text (some files')) =
      skipped.flatMap fun skipped => (warning skipped.2 {}).textIn (Path.normalize skipped.1) := by
  induction skipped generalizing files with
  | nil => rfl
  | cons skip skipped ih =>
    obtain ⟨hid, hpath⟩ := files.path_add skip.1
    have hprefix : (files.add skip.1).2.paths <+: files'.paths :=
      (prefix_locate skipped _).trans h
    have hhead : (warning skip.2 { file := (files.add skip.1).1 }).text (some files') =
        (warning skip.2 {}).textIn (Path.normalize skip.1) := by
      apply Diagnostic.text_eq_textIn
      rw [← hpath]
      exact FileIndex.path_of_prefix hprefix hid
    rw [List.flatMap_cons, ← hhead, ← ih _ h]
    rfl

namespace Session

variable {s : Session} {header : Text} {prototypes : List Prototype} {plan : Option Plan}
  {found : Findings}

def unplacedText (header : Text) (prototypes : List Prototype) (plan : Option Plan) : Text :=
  (unplaced prototypes plan).flatMap fun p => (unplacedNote 0 p).textIn (Path.normalize header)

theorem flush_of_log (h : s.log = {}) : s.flush = ([], s) := by
  obtain ⟨settings, verbose, headers, log, files⟩ := s
  cases h
  rfl

theorem text_record {files : FileIndex} (h : s.log = {})
    (hfiles : (s.record found).files.paths <+: files.paths) :
    (s.record found).log.text (some files) = found.text := by
  rw [record, Log.text_reportAll, h]
  exact Findings.text_locate found.unreadable s.files files hfiles

theorem flush_record (h : s.log = {}) : (s.record found).flush.1 = found.text :=
  text_record h (List.prefix_refl _)

theorem text_unplacedNotes (s : Session) (header : Text) (ps : List Prototype) :
    (ps.map (unplacedNote (s.files.add header).1)).flatMap (·.text (some (s.files.add header).2)) =
      ps.flatMap fun p => (unplacedNote 0 p).textIn (Path.normalize header) := by
  have hnote : ∀ p, (unplacedNote (s.files.add header).1 p).text
      (some (s.files.add header).2) = (unplacedNote 0 p).textIn (Path.normalize header) :=
    fun p => Diagnostic.text_eq_textIn (s.files.path_add header).2
  simp only [List.flatMap_map, hnote]

theorem flush_noted (h : s.log = {}) :
    ((s.record found).noted header prototypes plan).flush.1 =
      found.text ++ if s.verbose then unplacedText header prototypes plan else [] := by
  have hverbose : (s.record found).verbose = s.verbose := rfl
  unfold noted
  rw [hverbose]
  split_ifs
  · rw [flush, noteUnplaced]
    dsimp only
    rw [Log.text_reportAll, text_record h ((s.record found).files.prefix_add header),
      text_unplacedNotes]
    rfl
  · rw [List.append_nil]
    exact flush_record h

end Session

end HeaderOrder

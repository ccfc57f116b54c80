import HeaderOrder.CommandLine
import HeaderOrder.Proofs.Reply

/-! # Scripts and their lines -/

namespace HeaderOrder

def Command.Stops (line : Text) : Prop := ofLine? line = some (.ok .stop)

instance (line : Text) : Decidable (Command.Stops line) :=
  inferInstanceAs (Decidable (_ = _))

theorem Command.line_cases (line : Text) : ofLine? line = none ∨ Stops line ∨
    ∃ parsed, ofLine? line = some parsed ∧ parsed ≠ .ok .stop := by
  unfold Stops
  cases ofLine? line with
  | none => exact .inl rfl
  | some parsed =>
    by_cases hstop : parsed = .ok .stop
    · exact .inr (.inl (congrArg some hstop))
    · exact .inr (.inr ⟨parsed, rfl, hstop⟩)

/-- A line that was run, the session and the files it was run on, and the reply. -/
structure Execution where
  line : Text
  session : Session
  tree : FileTree
  reply : Reply

namespace Session

variable {s s' : Session} {t : FileTree} {dir : List Text} {root here line : Text} {quiet : Bool}
  {parsed : Except Command.Error Command} {before after rest lines : List Text} {reply : Reply}

/-! ## One line -/

/-- The reply to a line with this command, the session after it and the files that it leaves. -/
def afterParsed (s : Session) (t : FileTree) (dir : List Text) (root here : Text) (quiet : Bool) :
    Except Command.Error Command → (Reply × Session) × FileTree
  | .error e => ((.failure e.message, s), t)
  | .ok command => s.afterCommand t dir root here quiet command

theorem log_afterParsed (hs : s.log = {}) :
    (s.afterParsed t dir root here quiet parsed).1.2.log = {} := by
  cases parsed with
  | error e => exact hs
  | ok command => exact log_runCommand hs

theorem Alike.afterParsed (h : s.Alike s') (hs : s.log = {}) (hs' : s'.log = {}) (t : FileTree)
    (dir : List Text) (root here : Text) (quiet : Bool) (parsed : Except Command.Error Command) :
    SameReply (s.afterParsed t dir root here quiet parsed)
      (s'.afterParsed t dir root here quiet parsed) := by
  cases parsed with
  | error e => exact ⟨rfl, h, rfl⟩
  | ok command => exact h.afterCommand hs hs' t dir root here quiet command

theorem afterParsed_of_failed
    (h : (s.afterParsed t dir root here quiet parsed).1.1.failed = true) :
    s.Alike (s.afterParsed t dir root here quiet parsed).1.2 ∧
      (s.afterParsed t dir root here quiet parsed).2 = t := by
  cases parsed with
  | error e => exact ⟨.refl s, rfl⟩
  | ok command => exact afterCommand_of_failed h

/-! ## All lines -/

/-- What a script makes of its lines: the replies, the session after it and the files that it
leaves. -/
def afterScript (s : Session) (t : FileTree) (dir : List Text) (root here : Text) (quiet : Bool)
    (lines : List Text) : (List Reply × Session) × FileTree :=
  (s.runScript ((FileTree.disk dir).workspace root) quiet here lines).run t

/-- The lines of a script that are run, up to the one that stops it. -/
def executions (s : Session) (t : FileTree) (dir : List Text) (root here : Text) (quiet : Bool) :
    List Text → List Execution
  | [] => []
  | line :: rest =>
    match Command.ofLine? line with
    | none => s.executions t dir root here quiet rest
    | some parsed =>
      if parsed = .ok .stop then []
      else
        let r := s.afterParsed t dir root here quiet parsed
        ⟨line, s, t, r.1.1⟩ :: r.1.2.executions r.2 dir root here quiet rest

theorem afterScript_blank (h : Command.ofLine? line = none) :
    s.afterScript t dir root here quiet (line :: rest) =
      s.afterScript t dir root here quiet rest := by
  unfold afterScript
  rw [runScript, h]

theorem afterScript_stop (h : Command.Stops line) :
    s.afterScript t dir root here quiet (line :: rest) = (([], s), t) := by
  unfold afterScript
  rw [runScript, show Command.ofLine? line = some (.ok .stop) from h]
  rfl

theorem afterScript_cons (h : Command.ofLine? line = some parsed) (hstop : parsed ≠ .ok .stop) :
    s.afterScript t dir root here quiet (line :: rest) =
      let r := s.afterParsed t dir root here quiet parsed
      let r' := r.1.2.afterScript r.2 dir root here quiet rest
      ((r.1.1 :: r'.1.1, r'.1.2), r'.2) := by
  unfold afterScript
  rw [runScript, h]
  match parsed with
  | .error e => rfl
  | .ok .stop => exact absurd rfl hstop
  | .ok (.scan header) => rfl
  | .ok (.find header) => rfl
  | .ok (.invalidate header) => rfl
  | .ok (.sync header target dryRun) => rfl

theorem executions_blank (h : Command.ofLine? line = none) :
    s.executions t dir root here quiet (line :: rest) =
      s.executions t dir root here quiet rest := by
  rw [executions, h]

theorem executions_stop (h : Command.Stops line) :
    s.executions t dir root here quiet (line :: rest) = [] := by
  rw [executions, show Command.ofLine? line = some (.ok .stop) from h]
  rfl

theorem executions_cons (h : Command.ofLine? line = some parsed) (hstop : parsed ≠ .ok .stop) :
    s.executions t dir root here quiet (line :: rest) =
      let r := s.afterParsed t dir root here quiet parsed
      ⟨line, s, t, r.1.1⟩ :: r.1.2.executions r.2 dir root here quiet rest := by
  rw [executions, h]
  dsimp only
  rw [if_neg hstop]

theorem map_reply_executions (s : Session) (t : FileTree) (dir : List Text) (root here : Text)
    (quiet : Bool) (lines : List Text) :
    (s.executions t dir root here quiet lines).map (·.reply) =
      (s.afterScript t dir root here quiet lines).1.1 := by
  induction lines generalizing s t with
  | nil => rfl
  | cons line rest ih =>
    rcases Command.line_cases line with hblank | hstop | ⟨parsed, hparsed, hne⟩
    · rw [executions_blank hblank, afterScript_blank hblank]
      exact ih s t
    · rw [executions_stop hstop, afterScript_stop hstop]
      rfl
    · rw [executions_cons hparsed hne, afterScript_cons hparsed hne]
      exact congrArg _ (ih _ _)

theorem append_of_stops (hstop : Command.Stops line) (s : Session) (t : FileTree)
    (dir : List Text) (root here : Text) (quiet : Bool) (before after : List Text) :
    s.afterScript t dir root here quiet (before ++ line :: after) =
        s.afterScript t dir root here quiet before ∧
      s.executions t dir root here quiet (before ++ line :: after) =
        s.executions t dir root here quiet before := by
  induction before generalizing s t with
  | nil => exact ⟨afterScript_stop hstop, executions_stop hstop⟩
  | cons line' before ih =>
    rw [List.cons_append]
    rcases Command.line_cases line' with hblank | hstop' | ⟨parsed, hparsed, hne⟩
    · rw [afterScript_blank hblank, afterScript_blank hblank, executions_blank hblank,
        executions_blank hblank]
      exact ih s t
    · rw [afterScript_stop hstop', afterScript_stop hstop', executions_stop hstop',
        executions_stop hstop']
      exact ⟨rfl, rfl⟩
    · rw [afterScript_cons hparsed hne, afterScript_cons hparsed hne, executions_cons hparsed hne,
        executions_cons hparsed hne]
      dsimp only
      rw [(ih _ _).1, (ih _ _).2]
      exact ⟨rfl, rfl⟩

theorem append_of_not_stops (hrun : ∀ l ∈ before, ¬ Command.Stops l) (s : Session) (t : FileTree)
    (after : List Text) :
    let r := s.afterScript t dir root here quiet before
    let r' := r.1.2.afterScript r.2 dir root here quiet after
    s.afterScript t dir root here quiet (before ++ after) =
        ((r.1.1 ++ r'.1.1, r'.1.2), r'.2) ∧
      s.executions t dir root here quiet (before ++ after) =
        s.executions t dir root here quiet before ++
          r.1.2.executions r.2 dir root here quiet after := by
  induction before generalizing s t with
  | nil => exact ⟨rfl, rfl⟩
  | cons line before ih =>
    have hrest := ih fun l hl => hrun l (List.mem_cons_of_mem _ hl)
    dsimp only at hrest ⊢
    rw [List.cons_append]
    rcases Command.line_cases line with hblank | hstop | ⟨parsed, hparsed, hne⟩
    · rw [afterScript_blank hblank, afterScript_blank hblank, executions_blank hblank,
        executions_blank hblank]
      exact hrest s t
    · exact absurd hstop (hrun line (by simp))
    · rw [afterScript_cons hparsed hne, afterScript_cons hparsed hne, executions_cons hparsed hne,
        executions_cons hparsed hne]
      dsimp only
      rw [(hrest _ _).1, (hrest _ _).2]
      exact ⟨rfl, rfl⟩

theorem log_afterScript (hs : s.log = {}) (t : FileTree) (dir : List Text) (root here : Text)
    (quiet : Bool) (lines : List Text) :
    (s.afterScript t dir root here quiet lines).1.2.log = {} := by
  induction lines generalizing s t with
  | nil => exact hs
  | cons line rest ih =>
    rcases Command.line_cases line with hblank | hstop | ⟨parsed, hparsed, hne⟩
    · rw [afterScript_blank hblank]
      exact ih hs t
    · rw [afterScript_stop hstop]
      exact hs
    · rw [afterScript_cons hparsed hne]
      exact ih (log_afterParsed hs) _

/-- The executed lines of a script with their replies. -/
def transcript (s : Session) (t : FileTree) (dir : List Text) (root here : Text) (quiet : Bool)
    (lines : List Text) : List (Text × Reply) :=
  (s.executions t dir root here quiet lines).map fun e => (e.line, e.reply)

/-- Sessions that are alike run a script with the same replies and the same effect. -/
theorem Alike.script (h : s.Alike s') (hs : s.log = {}) (hs' : s'.log = {}) (t : FileTree)
    (dir : List Text) (root here : Text) (quiet : Bool) (lines : List Text) :
    s'.transcript t dir root here quiet lines = s.transcript t dir root here quiet lines ∧
    (s.afterScript t dir root here quiet lines).1.2.Alike
      (s'.afterScript t dir root here quiet lines).1.2 ∧
    (s'.afterScript t dir root here quiet lines).2 =
      (s.afterScript t dir root here quiet lines).2 := by
  unfold transcript
  induction lines generalizing s s' t with
  | nil => exact ⟨rfl, h, rfl⟩
  | cons line rest ih =>
    rcases Command.line_cases line with hblank | hstop | ⟨parsed, hparsed, hne⟩
    · rw [executions_blank hblank, executions_blank hblank, afterScript_blank hblank,
        afterScript_blank hblank]
      exact ih h hs hs' t
    · rw [executions_stop hstop, executions_stop hstop, afterScript_stop hstop,
        afterScript_stop hstop]
      exact ⟨rfl, h, rfl⟩
    · have hstep := h.afterParsed hs hs' t dir root here quiet parsed
      obtain ⟨hrest, halike, htree⟩ := ih hstep.alike (log_afterParsed hs) (log_afterParsed hs')
        (s.afterParsed t dir root here quiet parsed).2
      rw [executions_cons hparsed hne, executions_cons hparsed hne, afterScript_cons hparsed hne,
        afterScript_cons hparsed hne]
      dsimp only
      rw [hstep.reply, hstep.tree]
      refine ⟨?_, halike, htree⟩
      rw [List.map_cons, List.map_cons, hrest]

/-! ## Lines that fail -/

theorem transcript_append (hrun : ∀ l ∈ before, ¬ Command.Stops l) (s : Session) (t : FileTree)
    (after : List Text) :
    s.transcript t dir root here quiet (before ++ after) =
      s.transcript t dir root here quiet before ++
        (s.afterScript t dir root here quiet before).1.2.transcript
          (s.afterScript t dir root here quiet before).2 dir root here quiet after := by
  unfold transcript
  rw [(append_of_not_stops hrun s t after).2, List.map_append]

theorem exists_parsed_of_transcript
    (h : s.transcript t dir root here quiet (before ++ [line]) =
      s.transcript t dir root here quiet before ++ [(line, reply)]) :
    (∀ l ∈ before, ¬ Command.Stops l) ∧
    ∃ parsed, Command.ofLine? line = some parsed ∧ parsed ≠ .ok .stop ∧
      ((s.afterScript t dir root here quiet before).1.2.afterParsed
        (s.afterScript t dir root here quiet before).2 dir root here quiet parsed).1.1 = reply := by
  have hrun : ∀ l ∈ before, ¬ Command.Stops l := by
    intro l hl hstop
    obtain ⟨xs, ys, rfl⟩ := List.append_of_mem hl
    have hcut : ∀ zs, s.transcript t dir root here quiet (xs ++ l :: zs) =
        s.transcript t dir root here quiet xs :=
      fun zs => congrArg (List.map _) (append_of_stops hstop s t dir root here quiet xs zs).2
    rw [List.append_assoc, List.cons_append, hcut, hcut] at h
    simp at h
  refine ⟨hrun, ?_⟩
  rw [transcript_append hrun, List.append_cancel_left_eq] at h
  unfold transcript at h
  rcases Command.line_cases line with hblank | hstop | ⟨parsed, hparsed, hne⟩
  · rw [executions_blank hblank] at h
    cases h
  · rw [executions_stop hstop] at h
    cases h
  · rw [executions_cons hparsed hne] at h
    refine ⟨parsed, hparsed, hne, ?_⟩
    simpa [executions] using h

theorem script_without_failed (hs : s.log = {})
    (h : s.transcript t dir root here quiet (before ++ [line]) =
      s.transcript t dir root here quiet before ++ [(line, reply)])
    (hfailed : reply.failed = true) (after : List Text) :
    let r := s.afterScript t dir root here quiet (before ++ line :: after)
    let r' := s.afterScript t dir root here quiet (before ++ after)
    r.2 = r'.2 ∧ r.1.2.headers = r'.1.2.headers ∧
    ∃ rest, s.transcript t dir root here quiet (before ++ line :: after) =
        s.transcript t dir root here quiet before ++ (line, reply) :: rest ∧
      s.transcript t dir root here quiet (before ++ after) =
        s.transcript t dir root here quiet before ++ rest := by
  obtain ⟨hrun, parsed, hparsed, hne, rfl⟩ := exists_parsed_of_transcript h
  have hlog := log_afterScript hs t dir root here quiet before
  rw [transcript_append hrun, transcript_append hrun, (append_of_not_stops hrun s t _).1,
    (append_of_not_stops hrun s t _).1]
  dsimp only
  generalize s.afterScript t dir root here quiet before = r at hlog hfailed ⊢
  obtain ⟨⟨replies, s₁⟩, t₁⟩ := r
  dsimp only at hlog hfailed ⊢
  -- The failed line leaves the same files and a session like the one before it.
  obtain ⟨halike, htree⟩ := afterParsed_of_failed hfailed
  obtain ⟨hrest, hheaders, hfiles⟩ :=
    halike.script hlog (log_afterParsed hlog) t₁ dir root here quiet after
  rw [afterScript_cons hparsed hne]
  dsimp only
  rw [htree]
  refine ⟨hfiles, hheaders.headers, _, ?_, rfl⟩
  rw [← hrest]
  unfold transcript
  rw [executions_cons hparsed hne]
  dsimp only
  rw [htree]
  rfl

/-- A line that fails can be taken out of a script. -/
theorem runScript_isolates_failed (t : FileTree) (dir : List Text) (root here : Text)
    (settings : Settings) (verbose quiet : Bool) :
    let s : Session := { settings, verbose }
    let run := fun lines =>
      (s.runScript ((FileTree.disk dir).workspace root) quiet here lines).run t
    let transcript := s.transcript t dir root here quiet
    (∀ before line after reply,
      transcript (before ++ [line]) = transcript before ++ [(line, reply)] → reply.failed = true →
      (run (before ++ line :: after)).2 = (run (before ++ after)).2 ∧
      (run (before ++ line :: after)).1.2.headers = (run (before ++ after)).1.2.headers ∧
      ∃ rest, transcript (before ++ line :: after) =
          transcript before ++ (line, reply) :: rest ∧
        transcript (before ++ after) = transcript before ++ rest) ∧
    (∀ lines, (run lines).1.1 = (transcript lines).map (·.2)) ∧
    (∀ lines, let exit := (Outcome.ofReplies (run lines).1.1).exit
      (exit = .status 1 ↔ ∃ e ∈ transcript lines, e.2.failed = true) ∧
      (exit = .status 0 ↔ ∀ e ∈ transcript lines, e.2.failed = false)) ∧
    ∀ before line after, Command.Stops line →
      run (before ++ line :: after) = run before ∧
      transcript (before ++ line :: after) = transcript before := by
  intro s run transcript
  have hreplies : ∀ lines, (run lines).1.1 = (transcript lines).map (·.2) := by
    intro lines
    have hmap := map_reply_executions s t dir root here quiet lines
    simp only [transcript, Session.transcript, List.map_map]
    exact hmap.symm
  refine ⟨?_, hreplies, ?_, ?_⟩
  · intro before line after reply h hfailed
    exact script_without_failed rfl h hfailed after
  · intro lines exit
    have hexit : exit = .status (if (transcript lines).any (·.2.failed) then 1 else 0) := by
      dsimp only [exit, Outcome.ofReplies]
      rw [hreplies, List.any_map]
      rfl
    rw [hexit]
    constructor
    · simp
    · simp
  · intro before line after hstop
    obtain ⟨hrun, hexecutions⟩ := append_of_stops hstop s t dir root here quiet before after
    exact ⟨hrun, congrArg (List.map _) hexecutions⟩

theorem runScript_isolates_failed_choice :
    let t := ((({} : FileTree).putFile ["a.h"] { bytes := "void f();\nvoid g();\n" }).putFile
      ["a.c"] { bytes := "void g() {}\nvoid f() {}\n" }).putFile
        ["b.c"] { bytes := [], hole := 300000000 }
    let s : Session := { settings := { root := "/" } }
    let transcript := s.transcript t [] "/" "/" true
    let choice : Text × Reply := ("sync a.h", {
      out := "Candidate files:\n  a.c\n"
      err := List.flatten ["/b.c: warning: skipped unreadable file: source file too large: /b.c ",
        "(limit: 256 MB)\n", "error: choose a target file\n"]
      failed := true })
    transcript ["scan a.h", "sync a.h"] = transcript ["scan a.h"] ++ [choice] ∧
    (s.afterScript t [] "/" "/" true ["scan a.h", "sync a.h", "sync a.h a.c", "quit"]).2 =
      (s.afterScript t [] "/" "/" true ["scan a.h", "sync a.h a.c", "quit"]).2 ∧
    (∃ rest, transcript ["scan a.h", "sync a.h", "sync a.h a.c", "quit"] =
        transcript ["scan a.h"] ++ choice :: rest ∧
      transcript ["scan a.h", "sync a.h a.c", "quit"] = transcript ["scan a.h"] ++ rest) ∧
    transcript ["scan a.h", "quit", "sync a.h"] = transcript ["scan a.h"] := by
  intro t s transcript choice
  obtain ⟨hfailed, -, -, hstop⟩ := runScript_isolates_failed t [] "/" "/" s.settings false true
  have hline : transcript ["scan a.h", "sync a.h"] = transcript ["scan a.h"] ++ [choice] := by
    let ws := (FileTree.disk []).workspace "/"
    let query := s.settings.query
    let r := s.afterScript t [] "/" "/" true ["scan a.h"]
    let prototypes : List Prototype := [⟨"f", "void f();", ⟨0, 0⟩⟩, ⟨"g", "void g();", ⟨1, 1⟩⟩]
    have hcommand : Command.ofLine? "sync a.h" = some (.ok (.sync "a.h" none false)) := by decide
    have hscanned : r.1.2.scanned? ws (Disk.canonical "/" "a.h") = some prototypes := by
      decide +kernel
    have hwalk : (((FileTree.disk []).walk "/" (Disk.enters (Glob.ofText query.excluded) "/")).run
        t).1 = (["/b.c", "/a.c", "/a.h"] : List Text) := by
      decide +kernel
    have hselect : Disk.select query "/" ["/b.c", "/a.c", "/a.h"] =
        (["/a.c", "/b.c"] : List Text) := by
      have hchosen : (((["/b.c", "/a.c", "/a.h"] : List Text).map (Path.relativeTo · "/")).filter
          fun path => (Glob.ofText query.included).accepts path &&
            !(Glob.ofText query.excluded).accepts path).map (Disk.canonical "/") =
          (["/b.c", "/a.c"] : List Text) := by
        decide +kernel
      have hle : Text.le "/b.c" "/a.c" = false := by decide
      rw [Disk.select, hchosen]
      simp [List.mergeSort, List.MergeSort.Internal.splitInTwo, hle, query, s]
    have hcandidates : ws.candidatesAt t query = (["/a.c", "/b.c"] : List Text) :=
      (congrArg (Disk.select query "/") hwalk).trans hselect
    have hfound : r.1.2.found ws t prototypes = {
        definitions := [⟨"g", 0, ⟨0, 0⟩, "/a.c"⟩, ⟨"f", 1, ⟨1, 1⟩, "/a.c"⟩]
        unreadable := [("/b.c", .tooLarge "/b.c")] } := by
      unfold found
      rw [show r.1.2.settings.query = query from rfl, hcandidates]
      decide +kernel
    have hlog : r.1.2.log = {} := log_afterScript rfl t [] "/" "/" true ["scan a.h"]
    have hreply : (r.1.2.afterParsed r.2 [] "/" "/" true (.ok (.sync "a.h" none false))).1.1 =
        choice.2 := by
      refine (choicesReply_of_scanned hlog hscanned).trans ?_
      rw [show r.2 = t from rfl, hfound]
      decide
    have hrun : ∀ line ∈ (["scan a.h"] : List Text), ¬ Command.Stops line := by decide
    refine (transcript_append hrun s t ["sync a.h"]).trans (congrArg _ ?_)
    unfold Session.transcript
    rw [executions_cons hcommand nofun]
    exact congrArg (fun reply => [(choice.1, reply)]) hreply
  obtain ⟨htree, -, hrest⟩ :=
    hfailed ["scan a.h"] "sync a.h" ["sync a.h a.c", "quit"] choice.2 hline rfl
  obtain ⟨-, hquit⟩ := hstop ["scan a.h"] "quit" ["sync a.h"] (by decide)
  exact ⟨hline, htree, hrest, hquit⟩

end Session

end HeaderOrder

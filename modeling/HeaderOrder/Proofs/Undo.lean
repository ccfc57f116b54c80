import HeaderOrder.Proofs.Edit

/-!
# Edits that can be undone

The lines of a span are found by offsets that are counted in bytes.
-/

namespace HeaderOrder

open Byte

namespace Text

variable {text new u : Text} {span : Span} {l : Line} {xs ms ns ys : List Line}

/-! ## Offsets -/

/-- The number of bytes in front of line `k`. -/
def lineStart : Text → Nat → Nat
  | _, 0 => 0
  | [], _ + 1 => 0
  | b :: t, k + 1 => lineStart t (if b = lineFeed then k else k + 1) + 1

/-- The number of bytes in front of the end of the line that starts behind `start` bytes. A
carriage return of that line in front of its line feed comes after the end. -/
def contentEnd (t : Text) (start : Nat) : Nat :=
  let line := (t.drop start).takeWhile (· ≠ lineFeed)
  if line.getLast? = some carriageReturn ∧ start + line.length < t.length then
    start + line.length - 1
  else
    start + line.length

theorem lineStart_append (h : lineFeed ∉ u) (t : Text) (k : Nat) :
    lineStart (u ++ lineFeed :: t) (k + 1) = u.length + 1 + lineStart t k := by
  induction u with
  | nil => simp [lineStart, Nat.add_comm]
  | cons b u ih =>
    simp only [List.mem_cons, not_or] at h
    rw [List.cons_append, lineStart, if_neg (Ne.symm h.1), ih h.2, List.length_cons]
    omega

theorem lineStart_unlines (h : ∀ m ∈ xs, m.Inner) (t : Text) :
    lineStart (unlines xs ++ t) xs.length = (unlines xs).length := by
  induction xs with
  | nil => cases t <;> rfl
  | cons m xs ih =>
    obtain ⟨u, hu, hlf⟩ := Line.text_of_inner (h m (by simp))
    have hrest := ih fun n hn => h n (List.mem_cons_of_mem _ hn)
    have hcons : unlines (m :: xs) = u ++ lineFeed :: unlines xs := by simp [unlines, hu]
    rw [hcons, List.append_assoc, List.cons_append, List.length_cons, lineStart_append hlf, hrest]
    simp only [List.length_append, List.length_cons]
    omega

theorem contentEnd_unlines (h : Cut (l :: ys)) (front : Text) :
    contentEnd (front ++ unlines (l :: ys)) front.length = front.length + l.content.length := by
  have hline : unlines (l :: ys) = l.content ++ (l.terminator.text ++ unlines ys) := by
    simp [unlines, Line.text]
  have hreg := regular_of_cut h l (by simp)
  have hcontent : ∀ b ∈ l.content, decide (b ≠ lineFeed) = true :=
    fun b hb => decide_eq_true fun heq => hreg.1 (heq ▸ hb)
  unfold contentEnd
  rw [List.drop_left, hline, List.takeWhile_append_of_pos hcontent]
  cases hk : l.terminator with
  | none => simp [eq_nil_of_terminator h hk, Terminator.text, unlines]
  | lf =>
    have hlast := hreg.2 hk
    simp [Terminator.text, hlast]
  | crlf => simp [Terminator.text, carriageReturn_ne_lineFeed]

/-- The offsets of a span cut a text where its lines are cut. -/
theorem bytes_of_lines (h : lines text = xs ++ (ms ++ l :: ys)) :
    text.take (lineStart text xs.length) = unlines xs ∧
    (text.take (contentEnd text (lineStart text (xs.length + ms.length)))).drop
        (lineStart text xs.length) = unlines ms ++ l.content ∧
    text.drop (contentEnd text (lineStart text (xs.length + ms.length))) =
      l.terminator.text ++ unlines ys := by
  obtain ⟨hxs, hms, hend⟩ := inner_of_lines h
  have htext : text = unlines xs ++ unlines ms ++ unlines (l :: ys) := by
    rw [← unlines_lines text, h]
    simp [unlines]
  have hfirst : lineStart text xs.length = (unlines xs).length := by
    rw [htext, List.append_assoc, lineStart_unlines hxs]
  have hlast : lineStart text (xs.length + ms.length) = (unlines xs ++ unlines ms).length := by
    have hinner : ∀ m ∈ xs ++ ms, m.Inner := List.forall_mem_append.mpr ⟨hxs, hms⟩
    rw [htext, ← unlines_append, ← List.length_append, lineStart_unlines hinner]
  have hcontent : contentEnd text (lineStart text (xs.length + ms.length)) =
      (unlines xs ++ (unlines ms ++ l.content)).length := by
    rw [hlast, htext, contentEnd_unlines hend]
    simp [Nat.add_assoc]
  rw [hcontent, hfirst, text_of_lines h]
  refine ⟨?_, ?_, List.drop_left⟩
  · rw [List.append_assoc, List.take_left]
  · rw [List.take_left, List.drop_left]

/-! ## Edits -/

theorem exists_lines_concat (t : Text) : ∃ ns c, lines t = ns ++ [⟨c, .none⟩] ∧
    (∀ n ∈ ns, n.Inner) ∧ lineFeed ∉ c ∧ t = unlines ns ++ c := by
  have hcut := cut_lines t
  have ht := unlines_lines t
  obtain ⟨ns, ⟨c, k⟩, hns⟩ := (List.eq_nil_or_concat' (lines t)).resolve_left (lines_ne_nil t)
  rw [hns, cut_append (by simp)] at hcut
  obtain ⟨hinner, hreg, hnone⟩ := hcut
  obtain rfl : k = .none := hnone
  refine ⟨ns, c, hns, hinner, hreg.1, ?_⟩
  rw [← ht, hns]
  simp [unlines, Line.text, Terminator.text]

theorem lines_of_edit (h : lines text = xs ++ (ms ++ l :: ys))
    (hnew : new.getLast? ≠ some carriageReturn) : ∃ ns c, lines new = ns ++ [⟨c, .none⟩] ∧
      lines (unlines xs ++ new ++ (l.terminator.text ++ unlines ys)) =
        xs ++ (ns ++ ⟨c, l.terminator⟩ :: ys) := by
  obtain ⟨ns, c, hns, hinner, hlf, hsplit⟩ := exists_lines_concat new
  have hplain : Plain c := by
    refine ⟨hlf, ?_⟩
    intro hc
    apply hnew
    rw [hsplit, List.getLast?_append, hc]
    rfl
  refine ⟨ns, c, hns, ?_⟩
  rw [← lines_unlines (cut_of_lines h hinner hplain), hsplit]
  simp [unlines, Line.text]

theorem replaceLines_eq_error_iff {e : OutsideDocument} : replaceLines text span new = .error e ↔
    (span.last < span.first ∨ (splitLines text).length ≤ span.last) ∧
      e = ⟨span, (splitLines text).length⟩ := by
  have hfits : ¬ span.Fits (lines text).length ↔
      span.last < span.first ∨ (lines text).length ≤ span.last := by
    rw [Span.Fits, not_and_or, not_le, not_lt]
  rw [length_splitLines, replaceLines, ← hfits]
  split_ifs with h
  · simp [h]
  · simp [h, eq_comm]

/-- An edit whose span lies in the text can be undone, and no other edit is made. -/
theorem replaceLines_undo (text : Text) (span : Span) (new : Text) :
    (∀ e, replaceLines text span new = .error e ↔
      (span.last < span.first ∨ (splitLines text).length ≤ span.last) ∧
        e = ⟨span, (splitLines text).length⟩) ∧
    (span.Fits (splitLines text).length → ∃ edited, replaceLines text span new = .ok edited ∧
      edited = text.take (lineStart text span.first) ++ new ++
        text.drop (contentEnd text (lineStart text span.last)) ∧
      (new.getLast? ≠ some carriageReturn →
        splitLines edited = (splitLines text).take span.first ++ splitLines new ++
          (splitLines text).drop (span.last + 1) ∧
        replaceLines edited ⟨span.first, span.first + (splitLines new).length - 1⟩
          ((text.take (contentEnd text (lineStart text span.last))).drop
            (lineStart text span.first)) = .ok text)) := by
  refine ⟨fun e => replaceLines_eq_error_iff, ?_⟩
  intro hfits
  rw [length_splitLines] at hfits
  obtain ⟨xs, ms, l, ys, hlines, rfl⟩ := exists_parts hfits
  obtain ⟨hbefore, hold, hafter⟩ := bytes_of_lines hlines
  refine ⟨_, replaceLines_of_lines hlines new, by rw [hbefore, hafter], ?_⟩
  intro hnew
  obtain ⟨ns, c, hns, hedited⟩ := lines_of_edit hlines hnew
  constructor
  · have hdrop : (xs ++ (ms ++ l :: ys)).drop (xs.length + ms.length + 1) = ys := by
      simp [Nat.add_assoc]
    simp only [splitLines, hedited, hlines, hns, ← List.map_drop, hdrop]
    simp
  · have hlast : xs.length + (splitLines new).length - 1 = xs.length + ns.length := by
      rw [length_splitLines, hns, List.length_append, List.length_singleton]
      omega
    rw [hlast, replaceLines_of_lines hedited, hold, Except.ok.injEq]
    exact (text_of_lines hlines).symm

theorem replaceLines_undo_mixed :
    let text : Text := "a\r\r\nb\n\nend"
    let new : Text := "x\r\ny\n"
    let edited : Text := "x\r\ny\n\n\nend"
    replaceLines text ⟨0, 1⟩ new = .ok edited ∧
      splitLines edited = ["x", "y", "", "", "end"] ∧
      replaceLines edited ⟨0, 2⟩ "a\r\r\nb" = .ok text := by
  intro text new edited
  obtain ⟨edited', hok, -, hplain⟩ := (replaceLines_undo text ⟨0, 1⟩ new).2 (by decide)
  obtain ⟨hlines, hundo⟩ := hplain (by decide)
  cases hok
  exact ⟨rfl, hlines, hundo⟩

end Text

end HeaderOrder

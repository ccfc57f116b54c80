import HeaderOrder.Manifest
import HeaderOrder.Proofs.LineEnding
import HeaderOrder.Proofs.Path

/-! # Manifests with carriage returns -/

namespace HeaderOrder

open Byte Text

/-! ## Lines with carriage returns -/

namespace Text

variable {t line : Text} {cs : List Text}

theorem lineFeed_not_mem_of_mem_splitOn (h : line ∈ t.splitOn lineFeed) : lineFeed ∉ line := by
  rw [List.splitOn_eq_splitOnP] at h
  intro hmem
  exact absurd (plain_of_mem_splitOnP h lineFeed hmem) (by simp)

theorem mem_of_mem_splitOn {b : Byte} (h : line ∈ t.splitOn lineFeed) (hb : b ∈ line) : b ∈ t := by
  have := mem_intercalate_of_mem [lineFeed] h hb
  rwa [List.intercalate_splitOn] at this

def returned : List Text → List Text
  | [] => []
  | [c] => [c]
  | c :: d :: cs => (c ++ [carriageReturn]) :: returned (d :: cs)

theorem returned_ne_nil (hne : cs ≠ []) : returned cs ≠ [] := by
  match cs with
  | [] => exact absurd rfl hne
  | [_] => simp [returned]
  | _ :: _ :: _ => simp [returned]

theorem returned_append {xs ys : List Text} (hne : ys ≠ []) :
    returned (xs ++ ys) = xs.map (· ++ [carriageReturn]) ++ returned ys := by
  induction xs with
  | nil => rfl
  | cons x xs ih =>
    obtain ⟨z, zs, hz⟩ := List.exists_cons_of_ne_nil (List.append_ne_nil_of_right_ne_nil xs hne)
    rw [List.cons_append, hz, returned, ← hz, ih, List.map_cons, List.cons_append]

theorem intercalate_returned (cs : List Text) :
    [lineFeed].intercalate (returned cs) = Terminator.crlf.text.intercalate cs := by
  induction cs using returned.induct with
  | case1 => rfl
  | case2 c => rfl
  | case3 c d cs ih =>
    rw [returned, List.intercalate_cons_of_ne_nil (returned_ne_nil (by simp)), ih,
      List.intercalate_cons_of_ne_nil (List.cons_ne_nil d cs)]
    simp [Terminator.text]

theorem lineFeed_not_mem_returned (h : ∀ c ∈ cs, lineFeed ∉ c) :
    ∀ c ∈ returned cs, lineFeed ∉ c := by
  induction cs using returned.induct with
  | case1 => simp [returned]
  | case2 c => simpa [returned] using h
  | case3 c d cs ih =>
    intro e he
    rcases List.mem_cons.mp he with rfl | he
    · simpa using ⟨h c (by simp), carriageReturn_ne_lineFeed.symm⟩
    · exact ih (fun f hf => h f (List.mem_cons_of_mem _ hf)) e he

theorem splitOn_toCrlf (t : Text) :
    (toCrlf t).splitOn lineFeed = returned (t.splitOn lineFeed) := by
  have hlines : ∀ c ∈ t.splitOn lineFeed, lineFeed ∉ c :=
    fun c hc => lineFeed_not_mem_of_mem_splitOn hc
  have htext : toCrlf t = [lineFeed].intercalate (returned (t.splitOn lineFeed)) := by
    rw [intercalate_returned, ← toCrlf_intercalate hlines]
    exact congrArg toCrlf (List.intercalate_splitOn lineFeed).symm
  rw [htext, List.splitOn_intercalate lineFeed (lineFeed_not_mem_returned hlines)
    (returned_ne_nil (List.splitOn_ne_nil lineFeed t))]

def concatLines (lines : List Text) : Text := lines.flatMap (· ++ [lineFeed])

theorem splitOn_concatLines (h : ∀ c ∈ cs, lineFeed ∉ c) :
    (concatLines cs).splitOn lineFeed = cs ++ [[]] := by
  induction cs with
  | nil => simp [concatLines]
  | cons c cs ih =>
    have hsplit : concatLines (c :: cs) = c ++ lineFeed :: concatLines cs := by simp [concatLines]
    rw [hsplit, List.splitOn_append_cons_self_of_not_mem (h c (by simp)),
      ih fun d hd => h d (List.mem_cons_of_mem _ hd), List.cons_append]

end Text

namespace Manifest

variable {line text : Text} {xs : List Text}

/-! ## One line -/

def IsBare (line : Text) : Prop := ∀ b ∈ line, isBlank b = true

instance (line : Text) : Decidable (IsBare line) := decidable_of_iff _ List.all_eq_true

theorem isBlank_carriageReturn : isBlank carriageReturn = false := by decide

theorem dropWhile_return (line : Text) :
    (line ++ [carriageReturn]).dropWhile isBlank =
      line.dropWhile isBlank ++ [carriageReturn] := by
  rw [List.dropWhile_append]
  split_ifs with hempty
  · have hnil : line.dropWhile isBlank = [] := by simpa using hempty
    rw [hnil, List.dropWhile_cons_of_neg (by simp [isBlank_carriageReturn])]
    rfl
  · rfl

theorem exists_kept (hcr : carriageReturn ∉ line) (hlf : lineFeed ∉ line)
    (h : ¬ IsBare line) : ∃ b ∈ line.dropWhile isBlank, isTrailing b = false := by
  have hne : line.dropWhile isBlank ≠ [] := by
    intro hnil
    exact h (List.dropWhile_eq_nil_iff.mp hnil)
  have hblank := List.head_dropWhile_not isBlank hne
  have hmem : (line.dropWhile isBlank).head hne ∈ line :=
    (List.dropWhile_sublist isBlank).subset (List.head_mem hne)
  refine ⟨_, List.head_mem hne, ?_⟩
  simp only [isTrailing, hblank, Bool.false_or, Bool.or_eq_false_iff, beq_eq_false_iff_ne]
  constructor
  · intro heq
    exact hcr (heq ▸ hmem)
  · intro heq
    exact hlf (heq ▸ hmem)

theorem strip_return (hcr : carriageReturn ∉ line) (hlf : lineFeed ∉ line)
    (h : ¬ IsBare line) : strip (line ++ [carriageReturn]) = strip line := by
  obtain ⟨b, hb, hkept⟩ := exists_kept hcr hlf h
  unfold strip
  simp only [dropWhile_return]
  rw [if_neg, if_neg, List.reverse_append]
  · rfl
  · intro hall
    rw [List.all_eq_true.mp hall b hb] at hkept
    cases hkept
  · intro hall
    rw [List.all_eq_true.mp hall b (List.mem_append_left _ hb)] at hkept
    cases hkept

theorem strip_bare_return (h : IsBare line) :
    strip (line ++ [carriageReturn]) = [carriageReturn] := by
  have hnil : line.dropWhile isBlank = [] := List.dropWhile_eq_nil_iff.mpr h
  unfold strip
  simp only [dropWhile_return, hnil]
  decide

theorem addLine_return (d : Draft) (hcr : carriageReturn ∉ line) (hlf : lineFeed ∉ line)
    (h : ¬ IsBare line) : d.addLine (line ++ [carriageReturn]) = d.addLine line := by
  unfold Draft.addLine entry?
  rw [strip_return hcr hlf h]

theorem addLine_bare_return (d : Draft) (h : IsBare line) :
    d.addLine (line ++ [carriageReturn]) = .error (.missingValue [carriageReturn]) := by
  unfold Draft.addLine entry?
  rw [strip_bare_return h]
  rfl

/-! ## Many lines -/

theorem addLines_append (d : Draft) (n : Nat) (xs ys : List Text) :
    d.addLines n (xs ++ ys) = (d.addLines n xs).bind (·.addLines (n + xs.length) ys) := by
  induction xs generalizing d n with
  | nil => rfl
  | cons line xs ih =>
    rw [List.cons_append, Draft.addLines, Draft.addLines]
    cases d.addLine line with
    | error fault => rfl
    | ok d' =>
      simp only [ih]
      rw [List.length_cons, Nat.add_assoc, Nat.add_comm 1]

theorem addLines_map_return (d : Draft) (n : Nat)
    (h : ∀ line ∈ xs, carriageReturn ∉ line ∧ lineFeed ∉ line ∧ ¬ IsBare line) :
    d.addLines n (xs.map (· ++ [carriageReturn])) = d.addLines n xs := by
  induction xs generalizing d n with
  | nil => rfl
  | cons line xs ih =>
    obtain ⟨hcr, hlf, hbare⟩ := h line (by simp)
    rw [List.map_cons, Draft.addLines, Draft.addLines, addLine_return d hcr hlf hbare]
    cases d.addLine line with
    | error fault => rfl
    | ok d' => exact ih _ _ fun l hl => h l (List.mem_cons_of_mem _ hl)

theorem parse_eq (path text : Text) (base : Settings) : parse path text base =
    match Draft.addLines {} 1 (text.splitOn lineFeed) with
    | .error (n, fault) => .error (.line path n fault)
    | .ok d => .ok (d.settings { base with manifest := Path.normalize path }) := rfl

/-- Carriage returns change nothing, unless a line of blanks has one. -/
theorem parse_toCrlf (path text : Text) (base : Settings) (hcr : carriageReturn ∉ text) :
    ((∀ line ∈ (text.splitOn lineFeed).dropLast, ¬ IsBare line) →
      parse path (toCrlf text) base = parse path text base) ∧
    ∀ solid bare rest, text.splitOn lineFeed = solid ++ bare :: rest → rest ≠ [] →
      (∀ line ∈ solid, ¬ IsBare line) → IsBare bare →
        parse path (toCrlf text) base = (parse path (concatLines solid) base).bind fun _ =>
          .error (.line path (solid.length + 1) (.missingValue [carriageReturn])) := by
  have hkept {xs : List Text} (hxs : ∀ line ∈ xs, line ∈ text.splitOn lineFeed)
      (hsolid : ∀ line ∈ xs, ¬ IsBare line) :
      ∀ line ∈ xs, carriageReturn ∉ line ∧ lineFeed ∉ line ∧ ¬ IsBare line := by
    intro line hl
    have hmem := hxs line hl
    exact ⟨fun hb => hcr (mem_of_mem_splitOn hmem hb), lineFeed_not_mem_of_mem_splitOn hmem,
      hsolid line hl⟩
  constructor
  · intro hsolid
    have hinit := hkept (fun line hl => List.dropLast_subset _ hl) hsolid
    have hlines : Draft.addLines {} 1 ((toCrlf text).splitOn lineFeed) =
        Draft.addLines {} 1 (text.splitOn lineFeed) := by
      obtain ⟨init, last, hsplit⟩ : ∃ init last, text.splitOn lineFeed = init ++ [last] :=
        ⟨_, _, (List.dropLast_concat_getLast (List.splitOn_ne_nil lineFeed text)).symm⟩
      rw [hsplit, List.dropLast_concat] at hinit
      rw [splitOn_toCrlf, hsplit, returned_append (by simp), returned, addLines_append,
        addLines_append, addLines_map_return _ _ hinit, List.length_map]
    rw [parse_eq, parse_eq, hlines]
  · intro solid bare rest hsplit hrest hsolid hbare
    have hinit := hkept (fun line hl => hsplit ▸ List.mem_append_left _ hl) hsolid
    have hlines : Draft.addLines {} 1 ((toCrlf text).splitOn lineFeed) =
        (Draft.addLines {} 1 solid).bind fun _ =>
          .error (solid.length + 1, .missingValue [carriageReturn]) := by
      obtain ⟨next, rest, rfl⟩ := List.exists_cons_of_ne_nil hrest
      rw [splitOn_toCrlf, hsplit, returned_append (by simp), returned, addLines_append,
        addLines_map_return _ _ hinit]
      congr 1
      funext d
      rw [Draft.addLines, addLine_bare_return d hbare, List.length_map, Nat.add_comm]
    have habove : Draft.addLines {} 1 ((concatLines solid).splitOn lineFeed) =
        Draft.addLines {} 1 solid := by
      rw [splitOn_concatLines fun line hl => (hinit line hl).2.1, addLines_append]
      cases Draft.addLines {} 1 solid <;> rfl
    rw [parse_eq, parse_eq, hlines, habove]
    cases Draft.addLines {} 1 solid <;> rfl

theorem parse_toCrlf_limit :
    parse "horder.project" (toCrlf "limit 12\n# all\n \t") {} =
      .ok { manifest := "horder.project", query := { limit := 12 } } ∧
    parse "horder.project" (toCrlf "limit 12\n\nlimit 12\n") {} =
      .error (.line "horder.project" 2 (.missingValue "\r")) :=
  ⟨(parse_toCrlf _ "limit 12\n# all\n \t" _ (by decide)).1 (by decide),
    (parse_toCrlf _ "limit 12\n\nlimit 12\n" _ (by decide)).2 ["limit 12"] []
      ["limit 12", ""] (by decide) (by decide) (by decide) (by decide)⟩

/-- A blank line is read with line feeds alone, and with carriage returns it is not. -/
theorem parse_blank_return :
    parse "horder.project" "limit 12\n\n" {} =
      .ok { manifest := "horder.project", query := { limit := 12 } } ∧
    parse "horder.project" (toCrlf "limit 12\n\n") {} =
      .error (.line "horder.project" 2 (.missingValue "\r")) := by
  constructor <;> rfl

end Manifest

end HeaderOrder

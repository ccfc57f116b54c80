import HeaderOrder.Proofs.Prototype

/-! # Headers that are continued -/

namespace HeaderOrder

open Byte Text Code

/-! ## A carriage return at the end of a line -/

namespace Text

variable {line word : Text} {pending : List Text}

theorem trimRight_return (line : Text) :
    trimRight (line ++ [carriageReturn]) = trimRight line := by
  have hspace : isSpace carriageReturn = true := by decide
  unfold trimRight
  rw [List.reverse_append, List.reverse_singleton, List.singleton_append,
    List.dropWhile_cons_of_pos hspace]

theorem trimLeft_return (line : Text) : trimLeft (line ++ [carriageReturn]) =
    if trimLeft line = [] then [] else trimLeft line ++ [carriageReturn] := by
  have hspace : isSpace carriageReturn = true := by decide
  unfold trimLeft
  rw [List.dropWhile_append]
  simp [hspace]

theorem trim_return (line : Text) : trim (line ++ [carriageReturn]) = trim line := by
  unfold trim
  rw [trimLeft_return]
  split_ifs with hblank
  · rw [hblank]
  · rw [trimRight_return]

theorem isPrefixOf_trimLeft_return (h : carriageReturn ∉ word) :
    word.isPrefixOf (trimLeft (line ++ [carriageReturn])) = word.isPrefixOf (trimLeft line) := by
  rw [trimLeft_return]
  split_ifs with hblank
  · rw [hblank]
  · rw [Bool.eq_iff_iff, List.isPrefixOf_iff_prefix, List.isPrefixOf_iff_prefix,
      List.prefix_concat_iff]
    constructor
    · rintro (rfl | hprefix)
      · exact absurd (by simp) h
      · exact hprefix
    · exact Or.inr

theorem intercalate_return (pending : List Text) (line : Text) :
    Terminator.lf.text.intercalate (pending ++ [line ++ [carriageReturn]]) =
      Terminator.lf.text.intercalate (pending ++ [line]) ++ [carriageReturn] := by
  rcases eq_or_ne pending [] with rfl | hne
  · simp
  · rw [intercalate_append hne (by simp), intercalate_append hne (by simp)]
    simp

theorem exists_splitLines_append (a b : Text) : ∃ init last kept,
    splitLines a = init ++ [last] ∧ (last = kept ∨ last = kept ++ [carriageReturn]) ∧
      splitLines (a ++ lineFeed :: b) = init ++ kept :: splitLines b := by
  obtain ⟨ls, l, hlines⟩ : ∃ ls l, lines a = ls ++ [l] :=
    ⟨_, _, (List.dropLast_concat_getLast (lines_ne_nil a)).symm⟩
  have hcut := cut_lines a
  rw [hlines, cut_append (by simp)] at hcut
  obtain ⟨hinner, hreg, hnone⟩ := hcut
  have htext : a = unlines ls ++ l.content := by
    conv_lhs => rw [← unlines_lines a, hlines, unlines_append]
    simp [unlines, Line.text, hnone, Terminator.text]
  -- The last line with its new terminator.
  obtain ⟨k, hk, hktext, hkept⟩ : ∃ k : Line, k.Inner ∧ k.text = l.content ++ [lineFeed] ∧
      (l.content = k.content ∨ l.content = k.content ++ [carriageReturn]) := by
    by_cases hcr : l.content.getLast? = some carriageReturn
    · obtain ⟨c, hc⟩ := List.getLast?_eq_some_iff.mp hcr
      have hlf : lineFeed ∉ c := by
        intro hmem
        exact hreg.1 (hc ▸ List.mem_append_left _ hmem)
      exact ⟨⟨c, .crlf⟩, ⟨⟨hlf, by simp⟩, by simp⟩, by simp [Line.text, Terminator.text, hc],
        Or.inr hc⟩
    · exact ⟨⟨l.content, .lf⟩, ⟨⟨hreg.1, fun _ => hcr⟩, by simp⟩, rfl, Or.inl rfl⟩
  have hwhole : a ++ lineFeed :: b = unlines (ls ++ k :: lines b) := by
    have hk' : unlines (k :: lines b) = k.text ++ b := by
      rw [← List.singleton_append, unlines_append, unlines_lines]
      simp [unlines]
    rw [unlines_append, hk', hktext, htext]
    simp
  have hall : Cut (ls ++ k :: lines b) := by
    rw [cut_append (by simp), cut_cons (lines_ne_nil b)]
    exact ⟨hinner, hk, cut_lines b⟩
  refine ⟨ls.map Line.content, l.content, k.content, ?_, hkept, ?_⟩
  · rw [splitLines, hlines, List.map_append]
    rfl
  · rw [splitLines, hwhole, lines_unlines hall, List.map_append]
    rfl

end Text

namespace Prototype

variable {lines pending statement : List Text} {line a b : Text} {i n : Nat} {p : Prototype}

theorem isDirective_return (line : Text) :
    isDirective (line ++ [carriageReturn]) = isDirective line :=
  isPrefixOf_trimLeft_return (by decide)

theorem isComment_return (line : Text) :
    isComment (line ++ [carriageReturn]) = isComment line :=
  isPrefixOf_trimLeft_return (by decide)

theorem endsStatement_return (line : Text) :
    endsStatement (line ++ [carriageReturn]) = endsStatement line := by
  unfold endsStatement
  rw [trimRight_return]

theorem ofStatement?_return (pending : List Text) (line : Text) (last : Nat) :
    ofStatement? (pending ++ [line ++ [carriageReturn]]) last =
      ofStatement? (pending ++ [line]) last := by
  unfold ofStatement?
  rw [intercalate_return, trim_return]
  simp

/-- The carriage return of its terminator does not change what the last line declares. -/
theorem ofLines_return (i : Nat) (pending : List Text) (line : Text) :
    ofLines i pending [line ++ [carriageReturn]] = ofLines i pending [line] := by
  rw [ofLines_cons, ofLines_cons]
  unfold finish?
  rw [isDirective_return, isComment_return, endsStatement_return]
  split_ifs
  · rfl
  · rw [Option.bind_some, Option.bind_some, ofStatement?_return]
    rfl

/-! ## Lines in front of others -/

/-- Nothing is carried beyond the line. -/
def Closes (line : Text) : Prop := isDirective line = true ∨ endsStatement line = true

theorem carry_of_closes (h : Closes line) (pending : List Text) : carry pending line = [] := by
  unfold carry
  rw [if_pos]
  rcases h with hd | he
  · exact Or.inl hd
  · exact Or.inr (Or.inl he)

theorem Closes.of_return (h : Closes (line ++ [carriageReturn])) : Closes line := by
  unfold Closes at h
  rwa [isDirective_return, endsStatement_return] at h

theorem ofLines_append (i : Nat) (pending xs ys : List Text) :
    ofLines i pending (xs ++ ys) =
      ofLines i pending xs ++ ofLines (i + xs.length) (xs.foldl carry pending) ys := by
  induction xs generalizing i pending with
  | nil => rfl
  | cons x xs ih =>
    rw [List.cons_append, ofLines_cons, ofLines_cons, ih, List.append_assoc, List.length_cons,
      List.foldl_cons, Nat.add_assoc, Nat.add_comm 1]

/-- The prototype when `n` lines are put in front of its header. -/
def shift (n : Nat) (p : Prototype) : Prototype :=
  { p with span := ⟨p.span.first + n, p.span.last + n⟩ }

theorem ofStatement?_shift (h : statement.length ≤ i + 1) (n : Nat) :
    ofStatement? statement (i + n) = (ofStatement? statement i).map (shift n) := by
  unfold ofStatement?
  dsimp only
  split_ifs
  · rw [Option.map_map, show i + n + 1 - statement.length = i + 1 - statement.length + n by omega]
    rfl
  · rfl

theorem ofLines_shift (h : pending.length ≤ i) (n : Nat) :
    ofLines (i + n) pending lines = (ofLines i pending lines).map (shift n) := by
  induction lines generalizing i pending with
  | nil => rfl
  | cons line rest ih =>
    have hcarry := length_carry pending line
    have hrest : ofLines (i + 1 + n) (carry pending line) rest =
        (ofLines (i + 1) (carry pending line) rest).map (shift n) := ih (by omega)
    have hline : (finish? pending line).bind (ofStatement? · (i + n)) =
        ((finish? pending line).bind (ofStatement? · i)).map (shift n) := by
      unfold finish?
      split_ifs
      · rfl
      · exact ofStatement?_shift (by simpa using h) n
    rw [ofLines_cons, ofLines_cons, List.map_append, ← hrest, Nat.add_right_comm, hline,
      Option.toList_map]

theorem ofText_append (h : ∀ line, (splitLines a).getLast? = some line → Closes line) :
    ofText (a ++ lineFeed :: b) = ofText a ++ (ofText b).map (shift (splitLines a).length) := by
  obtain ⟨init, last, kept, hinit, hkept, hwhole⟩ := exists_splitLines_append a b
  have hcloses : Closes kept := by
    have hlast := h last (by rw [hinit, List.getLast?_concat])
    rcases hkept with rfl | rfl
    · exact hlast
    · exact hlast.of_return
  have hfirst : ofText a = ofLines 0 [] (init ++ [kept]) := by
    rw [ofText, hinit]
    rcases hkept with rfl | rfl
    · rfl
    · rw [ofLines_append, ofLines_append, ofLines_return]
  have hcarried : (init ++ [kept]).foldl carry [] = [] := by
    rw [List.foldl_append]
    exact carry_of_closes hcloses _
  rw [ofText, hwhole, ← List.singleton_append, ← List.append_assoc, ofLines_append, ← hfirst,
    hcarried, ofLines_shift (Nat.le_refl 0), hinit, List.length_append, List.length_append]
  rfl

/-! ## One declaration on a line -/

theorem splitLines_of_not_mem {t : Text} (h : lineFeed ∉ t) : splitLines t = [t] := by
  rw [splitLines, lines_of_not_mem h]
  rfl

theorem closes_of_ofText (hline : lineFeed ∉ line) (h : ofText line = [p]) :
    Closes line ∧ p.span = ⟨0, 0⟩ := by
  rw [ofText, splitLines_of_not_mem hline, ofLines_cons] at h
  have hp : p ∈ ((finish? [] line).bind (ofStatement? · 0)).toList := by
    have hempty : ofLines (0 + 1) (carry [] line) [] = [] := rfl
    rw [hempty, List.append_nil] at h
    rw [h]
    exact List.mem_singleton_self p
  rw [Option.mem_toList, Option.bind_eq_some_iff] at hp
  obtain ⟨statement, hfinish, hp⟩ := hp
  unfold finish? at hfinish
  split_ifs at hfinish with hskip
  simp only [not_or, Bool.not_eq_false] at hskip
  cases hfinish
  exact ⟨Or.inr hskip.2.1, (ofStatement?_eq_some_iff.mp hp).2.2.2⟩

theorem ofText_declaration_append (hline : lineFeed ∉ line) (h : ofText line = [p]) (t : Text) :
    ofText (line ++ lineFeed :: t) = p :: (ofText t).map (shift 1) := by
  have hsplit := splitLines_of_not_mem hline
  rw [ofText_append, h, hsplit]
  · rfl
  · rw [hsplit]
    rintro line ⟨⟩
    exact (closes_of_ofText hline h).1

theorem ofText_declarations {declarations : List (Text × Prototype)} {tail : Text}
    (h : ∀ d ∈ declarations, lineFeed ∉ d.1 ∧ ofText d.1 = [d.2])
    (htail : tail = [] ∨ tail = [lineFeed]) :
    ofText ([lineFeed].intercalate (declarations.map Prod.fst) ++ tail) =
      declarations.mapIdx fun i d => { d.2 with span := ⟨i, i⟩ } := by
  have hempty : ofText [] = [] ∧ ofText [lineFeed] = [] := ⟨rfl, rfl⟩
  induction declarations with
  | nil =>
    rcases htail with rfl | rfl
    · exact hempty.1
    · exact hempty.2
  | cons d rest ih =>
    obtain ⟨hline, hp⟩ := h d (by simp)
    have hsame : ({ d.2 with span := ⟨0, 0⟩ } : Prototype) = d.2 := by
      rw [← (closes_of_ofText hline hp).2]
    have ih := ih fun e he => h e (List.mem_cons_of_mem _ he)
    rw [List.mapIdx_cons, hsame]
    rcases eq_or_ne rest [] with rfl | hne
    · rcases htail with rfl | rfl
      · simpa using hp
      · have hlast := ofText_declaration_append hline hp []
        rw [hempty.1] at hlast
        simpa using hlast
    · rw [List.map_cons, List.intercalate_cons_of_ne_nil (by simpa using hne), List.append_assoc,
        List.append_assoc, List.singleton_append, ofText_declaration_append hline hp, ih,
        List.mapIdx_eq_zipIdx_map, List.map_map, List.mapIdx_eq_zipIdx_map]
      rfl

/-- A header that is continued behind a line that closes has the prototypes of both parts. -/
theorem ofText_local :
    (∀ a b, (∀ line, (splitLines a).getLast? = some line →
        isDirective line = true ∨ endsStatement line = true) →
      ofText (a ++ lineFeed :: b) = ofText a ++ (ofText b).map (shift (splitLines a).length)) ∧
    ∀ declarations : List (Text × Prototype),
      (∀ d ∈ declarations, lineFeed ∉ d.1 ∧ ofText d.1 = [d.2]) →
        ∀ tail, tail = [] ∨ tail = [lineFeed] →
          ofText ([lineFeed].intercalate (declarations.map Prod.fst) ++ tail) =
            declarations.mapIdx fun i d => { d.2 with span := ⟨i, i⟩ } :=
  ⟨fun _ _ h => ofText_append h, fun _ h _ htail => ofText_declarations h htail⟩

theorem ofText_local_pragma :
    ofText "int f(\n  int);\n#pragma once \r\nvoid g();\n// h\nvoid h();" =
      [⟨"f", "int f(\n  int);", ⟨0, 1⟩⟩, ⟨"g", "void g();", ⟨3, 3⟩⟩, ⟨"h", "void h();", ⟨5, 5⟩⟩] ∧
    ofText "int f();\r\n\tint g(int x);\n" =
      [⟨"f", "int f();", ⟨0, 0⟩⟩, ⟨"g", "int g(int x);", ⟨1, 1⟩⟩] := by
  constructor
  · exact (ofText_local.1 "int f(\n  int);\n#pragma once \r" "void g();\n// h\nvoid h();"
      (by decide)).trans (by decide +kernel)
  · exact ofText_local.2 [("int f();\r", ⟨"f", "int f();", ⟨0, 0⟩⟩),
      ("\tint g(int x);", ⟨"g", "int g(int x);", ⟨0, 0⟩⟩)]
      (List.forall_mem_cons.mpr ⟨⟨by decide, by decide +kernel⟩,
        List.forall_mem_cons.mpr ⟨⟨by decide, by decide +kernel⟩, by simp⟩⟩) [lineFeed] (Or.inr rfl)

end Prototype

end HeaderOrder

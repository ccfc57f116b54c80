import HeaderOrder.Proofs.Alias
import HeaderOrder.Proofs.Locality

/-!
# Blank lines in a header

Only the first statement below blank lines can feel them, and here is told when it does.
-/

namespace HeaderOrder

open Byte Text Code

/-! ## White space in front of a text -/

namespace Text

variable {s t : Text}

theorem isBlank_iff : IsBlank t ↔ ∀ b ∈ t, isSpace b = true := List.dropWhile_eq_nil_iff

theorem trimRight_append_of_not_isBlank (ht : ¬ IsBlank t) (s : Text) :
    trimRight (s ++ t) = s ++ trimRight t := by
  have hne : t.reverse.dropWhile isSpace ≠ [] := by
    intro hnil
    rw [List.dropWhile_eq_nil_iff] at hnil
    exact ht (isBlank_iff.mpr fun b hb => hnil b (List.mem_reverse.mpr hb))
  unfold trimRight
  rw [List.reverse_append, List.dropWhile_append, if_neg (by simpa using hne)]
  simp

theorem not_isBlank_trimLeft (ht : ¬ IsBlank t) : ¬ IsBlank (trimLeft t) := by
  unfold IsBlank trimLeft at ht ⊢
  rwa [List.dropWhile_idempotent]

theorem not_isBlank_intercalate {lines : List Text} {line : Text} (hmem : line ∈ lines)
    (hline : ¬ IsBlank line) (sep : Text) : ¬ IsBlank (sep.intercalate lines) := by
  rw [isBlank_iff] at hline ⊢
  exact fun h => hline fun b hb => h b (mem_intercalate_of_mem sep hmem hb)

theorem trim_append (hs : ¬ IsBlank s) (ht : ¬ IsBlank t) :
    trim (s ++ lineFeed :: t) = trimLeft s ++ lineFeed :: (t.takeWhile isSpace ++ trim t) := by
  have hsplit : t.takeWhile isSpace ++ trimLeft t = t := List.takeWhile_append_dropWhile
  have hwhole : trimLeft s ++ lineFeed :: t =
      (trimLeft s ++ lineFeed :: t.takeWhile isSpace) ++ trimLeft t := by
    conv_lhs => rw [← hsplit]
    simp
  rw [trim, trimLeft_append hs, hwhole,
    trimRight_append_of_not_isBlank (not_isBlank_trimLeft ht), trim]
  simp

theorem trim_blanks {blanks lines : List Text} (hblanks : ∀ l ∈ blanks, IsBlank l)
    (hlines : lines ≠ []) :
    trim (Terminator.lf.text.intercalate (blanks ++ lines)) =
      trim (Terminator.lf.text.intercalate lines) := by
  induction blanks with
  | nil => rfl
  | cons blank blanks ih =>
    have hlf : IsBlank Terminator.lf.text := by decide
    rw [← ih fun l hl => hblanks l (List.mem_cons_of_mem _ hl), List.cons_append,
      List.intercalate_cons_of_ne_nil (by simp [hlines]), List.append_assoc, trim,
      trimLeft_blank_append (hblanks blank (by simp)), trimLeft_blank_append hlf]
    rfl

end Text

namespace Prototype

variable {pending blanks lead lines : List Text} {line last a b : Text} {i n : Nat}

/-! ## Names and signatures -/

/-- What a prototype says, without the lines that it is on. -/
def wording (p : Prototype) : Text × Text := (p.name, p.signature)

def declares? (statement : List Text) : Option (Text × Text) :=
  (ofStatement? statement 0).map wording

def saidOf (pending lines : List Text) : List (Text × Text) := (ofLines 0 pending lines).map wording

/-- What a header declares, in order. -/
def said (text : Text) : List (Text × Text) := (ofText text).map wording

theorem wording_ofStatement? (statement : List Text) (i : Nat) :
    (ofStatement? statement i).map wording = declares? statement := by
  unfold declares? ofStatement?
  dsimp only
  split_ifs
  · rw [Option.map_map, Option.map_map]
    rfl
  · rfl

theorem map_wording_ofLines (i : Nat) (pending lines : List Text) :
    (ofLines i pending lines).map wording = saidOf pending lines := by
  have hany : ∀ j, (ofLines i pending lines).map wording = (ofLines j pending lines).map wording := by
    induction lines generalizing i pending with
    | nil => exact fun _ => rfl
    | cons line rest ih =>
      intro j
      rw [ofLines_cons, ofLines_cons, List.map_append, List.map_append, ← Option.toList_map,
        ← Option.toList_map, Option.map_bind, Option.map_bind, ih (i + 1) _ (j + 1)]
      simp only [Function.comp_def, wording_ofStatement?]
  exact hany 0

theorem saidOf_cons (pending : List Text) (line : Text) (rest : List Text) :
    saidOf pending (line :: rest) =
      ((finish? pending line).bind declares?).toList ++ saidOf (carry pending line) rest := by
  unfold saidOf
  rw [ofLines_cons, List.map_append, ← Option.toList_map, Option.map_bind, map_wording_ofLines,
    saidOf]
  simp only [Function.comp_def, wording_ofStatement?]

theorem saidOf_append (pending xs ys : List Text) :
    saidOf pending (xs ++ ys) = saidOf pending xs ++ saidOf (xs.foldl carry pending) ys := by
  rw [saidOf, ofLines_append, List.map_append, map_wording_ofLines, map_wording_ofLines]

theorem finish?_of_not_closes (h : ¬ Closes line) (pending : List Text) :
    finish? pending line = none := by
  unfold finish?
  rw [if_pos]
  exact .inr (.inl (by simpa using fun he => h (.inr he)))

theorem saidOf_of_goesOn (h : ∀ line ∈ lines, ¬ Closes line) (pending : List Text) :
    saidOf pending lines = [] := by
  induction lines generalizing pending with
  | nil => rfl
  | cons line rest ih =>
    rw [saidOf_cons, finish?_of_not_closes (h line (by simp)),
      ih fun l hl => h l (List.mem_cons_of_mem _ hl)]
    rfl

theorem saidOf_opening (hlead : ∀ line ∈ lead, ¬ Closes line) (hlast : Closes last)
    (pending rest : List Text) : saidOf pending (lead ++ last :: rest) =
      ((finish? (lead.foldl carry pending) last).bind declares?).toList ++ saidOf [] rest := by
  rw [saidOf_append, saidOf_of_goesOn hlead, saidOf_cons, carry_of_closes hlast]
  rfl

/-! ## Lines that are pending -/

theorem carry_of_not_closes (h : ¬ Closes line) (hc : pending = [] → isComment line = false) :
    carry pending line = if maxLines ≤ pending.length then [] else pending ++ [line] :=
  carry_of_goesOn (by simpa using fun hd => h (.inl hd)) (by simpa using fun he => h (.inr he)) hc

theorem not_closes_of_isBlank (h : IsBlank line) : ¬ Closes line := by
  have hright : trimRight line = [] := by
    unfold trimRight
    rw [List.reverse_eq_nil_iff, List.dropWhile_eq_nil_iff]
    exact fun b hb => isBlank_iff.mp h b (List.mem_reverse.mp hb)
  rintro (hd | he)
  · rw [isDirective, h] at hd
    cases hd
  · rw [endsStatement, hright] at he
    cases he

theorem isComment_of_isBlank (h : IsBlank line) : isComment line = false := by
  rw [isComment, h]
  rfl

/-- Blank lines are given up each time that the statement has grown too long. -/
theorem foldl_carry_blanks (hpending : ∀ l ∈ pending, IsBlank l) (hlen : pending.length ≤ maxLines)
    (hblanks : ∀ l ∈ blanks, IsBlank l) :
    (blanks.foldl carry pending).length = (pending.length + blanks.length) % (maxLines + 1) ∧
      ∀ l ∈ blanks.foldl carry pending, IsBlank l := by
  induction blanks generalizing pending with
  | nil => exact ⟨(Nat.mod_eq_of_lt (Nat.lt_succ_of_le hlen)).symm, hpending⟩
  | cons blank blanks ih =>
    have hblank := hblanks blank (by simp)
    have hrest : ∀ l ∈ blanks, IsBlank l := fun l hl => hblanks l (List.mem_cons_of_mem _ hl)
    rw [List.foldl_cons, carry_of_not_closes (not_closes_of_isBlank hblank)
      fun _ => isComment_of_isBlank hblank]
    split_ifs with hfull
    · obtain ⟨hlength, hall⟩ := ih (List.forall_mem_nil _) (Nat.zero_le _) hrest
      refine ⟨?_, hall⟩
      rw [hlength, List.length_cons, List.length_nil, Nat.le_antisymm hlen hfull,
        show maxLines + (blanks.length + 1) = 0 + blanks.length + (maxLines + 1) by omega,
        Nat.add_mod_right]
    · have hpending' : ∀ l ∈ pending ++ [blank], IsBlank l := by
        intro l hl
        rcases List.mem_append.mp hl with hl | hl
        · exact hpending l hl
        · exact List.mem_singleton.mp hl ▸ hblank
      obtain ⟨hlength, hall⟩ := ih hpending' (by simp; omega) hrest
      refine ⟨?_, hall⟩
      rw [hlength, List.length_append, List.length_singleton, List.length_cons, Nat.add_right_comm,
        Nat.add_assoc]

theorem foldl_carry_of_room (hpending : pending ≠ []) (hlines : ∀ line ∈ lines, ¬ Closes line)
    (hroom : pending.length + lines.length ≤ maxLines) :
    lines.foldl carry pending = pending ++ lines := by
  induction lines generalizing pending with
  | nil => simp
  | cons line rest ih =>
    rw [List.length_cons] at hroom
    rw [List.foldl_cons, carry_of_not_closes (hlines line (by simp)) fun h => absurd h hpending,
      if_neg (by omega), ih (by simp) (fun l hl => hlines l (List.mem_cons_of_mem _ hl))
        (by simp; omega), List.append_assoc, List.singleton_append]

theorem foldl_carry_of_full (hpending : pending ≠ []) (hlines : ∀ line ∈ lines, ¬ Closes line)
    (hlen : pending.length ≤ maxLines) (hfull : maxLines < pending.length + lines.length) :
    lines.foldl carry pending = (lines.drop (maxLines + 1 - pending.length)).foldl carry [] := by
  obtain ⟨line, hline⟩ : ∃ line, lines[maxLines - pending.length]? = some line :=
    ⟨_, List.getElem?_eq_getElem (by omega)⟩
  have hsplit : lines = lines.take (maxLines - pending.length) ++
      line :: lines.drop (maxLines + 1 - pending.length) := by
    rw [show maxLines + 1 - pending.length = maxLines - pending.length + 1 by omega]
    obtain ⟨hlt, rfl⟩ := List.getElem?_eq_some_iff.mp hline
    rw [← List.drop_eq_getElem_cons hlt, List.take_append_drop]
  have hroom : (lines.take (maxLines - pending.length)).foldl carry pending =
      pending ++ lines.take (maxLines - pending.length) :=
    foldl_carry_of_room hpending (fun l hl => hlines l (List.mem_of_mem_take hl))
      (by rw [List.length_take]; omega)
  have hgoes : ¬ Closes line := hlines line (List.mem_of_getElem? hline)
  have hgiven : carry (pending ++ lines.take (maxLines - pending.length)) line = [] := by
    rw [carry_of_not_closes hgoes fun h => absurd (List.append_eq_nil_iff.mp h).1 hpending, if_pos]
    rw [List.length_append, List.length_take]
    omega
  conv_lhs => rw [hsplit]
  rw [List.foldl_append, hroom, List.foldl_cons, hgiven]

theorem foldl_carry_nil (hlines : ∀ line ∈ lines, ¬ Closes line) (hroom : lines.length ≤ maxLines) :
    lines.foldl carry [] = lines.dropWhile isComment := by
  induction lines with
  | nil => rfl
  | cons line rest ih =>
    have hrest : ∀ l ∈ rest, ¬ Closes l := fun l hl => hlines l (List.mem_cons_of_mem _ hl)
    rw [List.length_cons] at hroom
    by_cases hc : isComment line = true
    · have hskip : carry [] line = [] := if_pos (.inr (.inr (.inl ⟨rfl, hc⟩)))
      rw [List.foldl_cons, hskip, List.dropWhile_cons_of_pos hc, ih hrest (by omega)]
    · rw [List.foldl_cons, carry_of_not_closes (hlines line (by simp)) fun _ => by simpa using hc,
        if_neg (by decide), List.nil_append, List.dropWhile_cons_of_neg hc,
        foldl_carry_of_room (by simp) hrest (by simp; omega), List.singleton_append]

/-! ## Statements below blank lines and comments -/

theorem declares?_congr {xs ys : List Text} (h : trim (Terminator.lf.text.intercalate xs) =
    trim (Terminator.lf.text.intercalate ys)) : declares? xs = declares? ys := by
  unfold declares? ofStatement?
  rw [h]
  dsimp only
  split_ifs
  · rw [Option.map_map, Option.map_map]
    rfl
  · rfl

theorem declares?_blanks (hblanks : ∀ l ∈ blanks, IsBlank l) (hlines : lines ≠ []) :
    declares? (blanks ++ lines) = declares? lines :=
  declares?_congr (trim_blanks hblanks hlines)

theorem declares?_eq_some_iff {statement : List Text} {w : Text × Text} :
    declares? statement = some w ↔
      IsCandidate (trim (Terminator.lf.text.intercalate statement)) ∧
        lastCall? (trim (Terminator.lf.text.intercalate statement)) = some w.1 ∧
          w.2 = trim (Terminator.lf.text.intercalate statement) := by
  unfold declares?
  rw [Option.map_eq_some_iff]
  constructor
  · rintro ⟨p, hp, rfl⟩
    obtain ⟨hcand, hname, hsig, -⟩ := ofStatement?_eq_some_iff.mp hp
    exact ⟨hcand, hname, hsig⟩
  · rintro ⟨hcand, hname, hsig⟩
    exact ⟨⟨w.1, w.2, ⟨0 + 1 - statement.length, 0⟩⟩,
      ofStatement?_eq_some_iff.mpr ⟨hcand, hname, hsig, rfl⟩, rfl⟩

theorem not_isBlank_of_isComment (h : isComment line = true) : ¬ IsBlank line := by
  intro hblank
  rw [isComment_of_isBlank hblank] at h
  cases h

theorem not_isBlank_of_closes (h : Closes line) : ¬ IsBlank line :=
  fun hblank => not_closes_of_isBlank hblank h

/-- Comments in front of a statement come into its text, which goes on as without them. -/
theorem trim_comments {comments statement : List Text} (hne : comments ≠ [])
    (hcomments : ∀ l ∈ comments, isComment l = true) (hlast : last ∈ statement)
    (hblank : ¬ IsBlank last) : ∃ text blank, IsBlank blank ∧
      trim (Terminator.lf.text.intercalate (comments ++ statement)) =
        text ++ lineFeed :: (blank ++ trim (Terminator.lf.text.intercalate statement)) := by
  obtain ⟨comment, hcomment⟩ := List.exists_mem_of_ne_nil comments hne
  have hfirst := not_isBlank_intercalate hcomment
    (not_isBlank_of_isComment (hcomments comment hcomment)) Terminator.lf.text
  have hsecond := not_isBlank_intercalate hlast hblank Terminator.lf.text
  refine ⟨trimLeft (Terminator.lf.text.intercalate comments),
    (Terminator.lf.text.intercalate statement).takeWhile isSpace,
    isBlank_iff.mpr fun b hb => List.mem_takeWhile_imp hb, ?_⟩
  rw [intercalate_append hne (List.ne_nil_of_mem hlast), List.append_assoc]
  exact trim_append hfirst hsecond

theorem declares?_comments {comments statement : List Text} (hne : comments ≠ [])
    (hcomments : ∀ l ∈ comments, isComment l = true) (hlast : last ∈ statement)
    (hblank : ¬ IsBlank last) (h : declares? (comments ++ statement) = none) :
    declares? statement = none := by
  by_contra hsome
  obtain ⟨w, hw⟩ := Option.ne_none_iff_exists'.mp hsome
  obtain ⟨hcand, hname, -⟩ := declares?_eq_some_iff.mp hw
  obtain ⟨text, blank, hspace, htrim⟩ := trim_comments hne hcomments hlast hblank
  obtain ⟨comment, more, rfl⟩ := List.exists_cons_of_ne_nil hne
  -- The whole text starts with a slash, so it is no typedef, and it calls what the statement does.
  have hslash : ¬ NamesType (trim (Terminator.lf.text.intercalate (comment :: more ++ statement))) :=
    not_namesType_trim (List.forall_mem_nil _) (hcomments comment (by simp)) (more ++ statement)
  have hcalls : callNames (trim (Terminator.lf.text.intercalate statement)) <:+
      callNames (trim (Terminator.lf.text.intercalate (comment :: more ++ statement))) := by
    rw [htrim, ← callNames_trimLeft, ← trimLeft_blank_append hspace, callNames_trimLeft]
    exact callNames_suffix (by decide) _ _
  obtain ⟨name, hlastCall⟩ : ∃ name,
      lastCall? (trim (Terminator.lf.text.intercalate (comment :: more ++ statement))) =
        some name := by
    rw [← Option.ne_none_iff_exists', lastCall?, ne_eq, List.getLast?_eq_none_iff]
    intro hnil
    rw [hnil, List.suffix_nil] at hcalls
    rw [lastCall?, hcalls] at hname
    cases hname
  have hmem : ∀ b ∈ trim (Terminator.lf.text.intercalate statement),
      b ∈ trim (Terminator.lf.text.intercalate (comment :: more ++ statement)) := by
    intro b hb
    rw [htrim]
    simp [hb]
  have hcand' : IsCandidate (trim (Terminator.lf.text.intercalate (comment :: more ++ statement))) :=
    ⟨hmem _ hcand.openParen_mem, hmem _ hcand.closeParen_mem, fun ht => hslash (.inl ht),
      fun hu => hslash (.inr hu)⟩
  have hdeclares : declares? (comment :: more ++ statement) = some (name, _) :=
    declares?_eq_some_iff.mpr ⟨hcand', hlastCall, rfl⟩
  rw [h] at hdeclares
  cases hdeclares

theorem declares?_comments_ne {comments statement : List Text} {w : Text × Text}
    (hne : comments ≠ []) (hcomments : ∀ l ∈ comments, isComment l = true)
    (hlast : last ∈ statement) (hblank : ¬ IsBlank last)
    (h : declares? (comments ++ statement) = some w) : declares? statement ≠ some w := by
  intro h'
  obtain ⟨-, -, hsig⟩ := declares?_eq_some_iff.mp h
  obtain ⟨-, -, hsig'⟩ := declares?_eq_some_iff.mp h'
  obtain ⟨text, blank, -, htrim⟩ := trim_comments hne hcomments hlast hblank
  have hlen := congrArg List.length (hsig'.symm.trans (hsig.trans htrim))
  simp only [List.length_append, List.length_cons] at hlen
  omega

/-! ## The first statement -/

/-- The lines in front of the first that closes, and that one. -/
structure IsOpening (lines lead : List Text) (last : Text) : Prop where
  start : lead ++ [last] <+: lines
  goesOn : ∀ line ∈ lead, ¬ Closes line
  closes : Closes last

theorem exists_opening (lines : List Text) :
    (∀ line ∈ lines, ¬ Closes line) ∨ ∃ lead last, IsOpening lines lead last := by
  induction lines with
  | nil => exact .inl (by simp)
  | cons line rest ih =>
    by_cases hline : Closes line
    · exact .inr ⟨[], line, List.prefix_append [line] rest, by simp, hline⟩
    · rcases ih with hrest | ⟨lead, last, hstart, hgoes, hlast⟩
      · exact .inl (List.forall_mem_cons.mpr ⟨hline, hrest⟩)
      · exact .inr ⟨line :: lead, last, List.cons_prefix_cons.mpr ⟨rfl, hstart⟩,
          List.forall_mem_cons.mpr ⟨hline, hgoes⟩, hlast⟩

/-- What the statement declares that `last` ends, when nothing is pending in front of `lead`. -/
def endingOn? (lead : List Text) (last : Text) : Option (Text × Text) :=
  (finish? (lead.foldl carry []) last).bind declares?

/-- The first statement declares the same with `n` blank lines in front of it. While it has room
below them, it does unless it starts with a comment. A statement without room is given up in the
midst of it, and what is left then must declare the same. -/
def Undisturbed (n : Nat) (lead : List Text) (last : Text) : Prop :=
  let opened := n % (maxLines + 1)
  isDirective last = true ∨ opened = 0 ∨
    if opened + lead.length ≤ maxLines then
      (∀ line, (lead ++ [last]).head? = some line → isComment line = false) ∨
        declares? (lead ++ [last]) = none
    else
      endingOn? (lead.drop (maxLines + 1 - opened)) last = endingOn? lead last

theorem finish?_of_isDirective (h : isDirective last = true) (pending : List Text) :
    finish? pending last = none := if_pos (.inl h)

theorem finish?_of_ends (hd : isDirective last = false) (hlast : Closes last)
    (hc : pending = [] → isComment last = false) : finish? pending last = some (pending ++ [last]) := by
  have he : endsStatement last = true := hlast.resolve_left (by simp [hd])
  unfold finish?
  rw [if_neg]
  rintro (hd' | he' | ⟨hnil, hc'⟩)
  · rw [hd] at hd'
    cases hd'
  · rw [he] at he'
    cases he'
  · rw [hc hnil] at hc'
    cases hc'

theorem dropWhile_isComment
    (h : ∀ line, (lead ++ [last]).head? = some line → isComment line = false) :
    lead.dropWhile isComment = lead := by
  rw [List.dropWhile_eq_self_iff]
  intro hpos
  rw [h _ (by rw [List.head?_append, List.head?_eq_getElem?,
    List.getElem?_eq_getElem hpos, Option.some_or])]
  simp

theorem takeWhile_isComment_ne_nil
    (h : ¬ ∀ line, (lead ++ [last]).head? = some line → isComment line = false)
    (hlast : lead.dropWhile isComment = [] → isComment last = false) :
    lead.takeWhile isComment ≠ [] := by
  intro hnil
  apply h
  intro line hline
  cases lead with
  | nil =>
    cases hline
    exact hlast rfl
  | cons first rest =>
    cases hline
    by_contra hcomment
    rw [List.takeWhile_cons_of_pos (by simpa using hcomment)] at hnil
    cases hnil

theorem endingOn?_of_room (hd : isDirective last = false) (hlead : ∀ line ∈ lead, ¬ Closes line)
    (hlast : Closes last) (hroom : lead.length ≤ maxLines) :
    ((∀ line, (lead ++ [last]).head? = some line → isComment line = false) ∨
        declares? (lead ++ [last]) = none) ↔
      declares? (lead ++ [last]) = endingOn? lead last := by
  have hsplit : lead.takeWhile isComment ++ lead.dropWhile isComment = lead :=
    List.takeWhile_append_dropWhile
  have hblank := not_isBlank_of_closes hlast
  unfold endingOn?
  rw [foldl_carry_nil hlead hroom]
  by_cases hhead : ∀ line, (lead ++ [last]).head? = some line → isComment line = false
  · -- No comment is skipped.
    have hc : lead = [] → isComment last = false := by
      rintro rfl
      exact hhead last rfl
    rw [dropWhile_isComment hhead, finish?_of_ends hd hlast hc]
    simp [hhead]
  · simp only [hhead, false_or]
    by_cases hnone : lead.dropWhile isComment = [] ∧ isComment last = true
    · rw [finish?, if_pos (.inr (.inr hnone))]
      rfl
    · have hc : lead.dropWhile isComment = [] → isComment last = false :=
        fun hnil => by simpa [hnil] using hnone
      have hne := takeWhile_isComment_ne_nil hhead hc
      have hwhole : lead ++ [last] =
          lead.takeWhile isComment ++ (lead.dropWhile isComment ++ [last]) := by
        rw [← List.append_assoc, hsplit]
      have hcomments : ∀ l ∈ lead.takeWhile isComment, isComment l = true :=
        fun l hl => List.mem_takeWhile_imp hl
      have hmem : last ∈ lead.dropWhile isComment ++ [last] := by simp
      rw [finish?_of_ends hd hlast hc, Option.bind_some, hwhole]
      constructor
      · intro h
        rw [h, declares?_comments hne hcomments hmem hblank h]
      · intro h
        by_contra hsome
        obtain ⟨w, hw⟩ := Option.ne_none_iff_exists'.mp hsome
        exact declares?_comments_ne hne hcomments hmem hblank hw (h.symm.trans hw)

theorem undisturbed_iff (hblanks : ∀ l ∈ blanks, IsBlank l) (hlead : ∀ line ∈ lead, ¬ Closes line)
    (hlast : Closes last) : Undisturbed blanks.length lead last ↔
      (finish? (lead.foldl carry (blanks.foldl carry [])) last).bind declares? =
        endingOn? lead last := by
  obtain ⟨hlen, hopened⟩ := foldl_carry_blanks (List.forall_mem_nil _) (Nat.zero_le _) hblanks
  rw [List.length_nil, Nat.zero_add] at hlen
  unfold Undisturbed
  dsimp only
  rw [← hlen]
  generalize blanks.foldl carry [] = opened at hlen hopened ⊢
  have hle : opened.length ≤ maxLines := by
    rw [hlen]
    exact Nat.le_of_lt_succ (Nat.mod_lt _ (Nat.succ_pos maxLines))
  by_cases hd : isDirective last = true
  · simp [endingOn?, hd, finish?_of_isDirective hd]
  by_cases hnil : opened = []
  · subst hnil
    simp [endingOn?]
  have hpos := List.length_pos_iff.mpr hnil
  rw [or_iff_right hd, or_iff_right (Nat.ne_of_gt hpos)]
  split_ifs with hroom
  · have hne : opened ++ lead ≠ [] := by simp [hnil]
    rw [foldl_carry_of_room hnil hlead hroom, finish?_of_ends (by simpa using hd) hlast
      fun h => absurd h hne, Option.bind_some, List.append_assoc,
      declares?_blanks hopened (by simp),
      endingOn?_of_room (by simpa using hd) hlead hlast (by omega)]
  · rw [foldl_carry_of_full hnil hlead hle (by omega)]
    rfl

/-! ## Blank lines between two parts of a header -/

/-- A header that is continued. No line is in front of the second part when the first is empty. -/
def below (a b : Text) : Text := if a = [] then b else a ++ lineFeed :: b

def withFeeds (lines : List Text) : Text := lines.flatMap (· ++ [lineFeed])

theorem said_below (h : a = [] ∨ ∀ line, (splitLines a).getLast? = some line → Closes line)
    (b : Text) : said (below a b) = said a ++ said b := by
  unfold below
  split_ifs with ha
  · rw [ha]
    rfl
  · rw [said, ofText_append (h.resolve_left ha), List.map_append, List.map_map]
    rfl

/-- Blank lines stay blank when a carriage return goes to their terminator. -/
theorem splitLines_withFeeds (hblanks : ∀ l ∈ blanks, IsBlank l ∧ lineFeed ∉ l) (b : Text) :
    ∃ lines, lines.length = blanks.length ∧ (∀ l ∈ lines, IsBlank l) ∧
      splitLines (withFeeds blanks ++ b) = lines ++ splitLines b := by
  induction blanks with
  | nil => exact ⟨[], rfl, by simp, rfl⟩
  | cons blank blanks ih =>
    obtain ⟨lines, hlen, hlines, hsplit⟩ := ih fun l hl => hblanks l (List.mem_cons_of_mem _ hl)
    obtain ⟨hblank, hlf⟩ := hblanks blank (by simp)
    obtain ⟨init, last, kept, hinit, hkept, hwhole⟩ :=
      exists_splitLines_append blank (withFeeds blanks ++ b)
    rw [splitLines_of_not_mem hlf] at hinit
    obtain ⟨rfl, rfl⟩ : init = [] ∧ last = blank := by
      have := List.append_inj' (hinit.symm.trans (List.nil_append [blank]).symm) rfl
      exact ⟨this.1, by simpa using this.2⟩
    refine ⟨kept :: lines, by simp [hlen], List.forall_mem_cons.mpr ⟨?_, hlines⟩, ?_⟩
    · rw [isBlank_iff] at hblank ⊢
      rcases hkept with rfl | rfl
      · exact hblank
      · exact fun c hc => hblank c (List.mem_append_left _ hc)
    · have htext : withFeeds (last :: blanks) ++ b = last ++ lineFeed :: (withFeeds blanks ++ b) := by
        simp [withFeeds]
      rw [htext, hwhole, hsplit]
      rfl

/-- Blank lines can change what the first statement below them declares, and nothing else. -/
theorem said_blank_lines (ha : a = [] ∨ ∀ line, (splitLines a).getLast? = some line →
      isDirective line = true ∨ endsStatement line = true)
    (hblanks : ∀ l ∈ blanks, IsBlank l ∧ lineFeed ∉ l) :
    (∃ first first' later, said (below a b) = said a ++ Option.toList first ++ later ∧
      said (below a (withFeeds blanks ++ b)) = said a ++ Option.toList first' ++ later) ∧
    (said (below a (withFeeds blanks ++ b)) = said (below a b) ↔
      ∀ lead last, IsOpening (splitLines b) lead last → Undisturbed blanks.length lead last) := by
  obtain ⟨lines, hlen, hlines, hsplit⟩ := splitLines_withFeeds hblanks b
  have hgoes : ∀ l ∈ lines, ¬ Closes l := fun l hl => not_closes_of_isBlank (hlines l hl)
  have hwith : said (below a (withFeeds blanks ++ b)) =
      said a ++ saidOf (lines.foldl carry []) (splitLines b) := by
    have hb : said (withFeeds blanks ++ b) = saidOf [] (lines ++ splitLines b) := by
      rw [said, ofText, hsplit, saidOf]
    rw [said_below ha, hb, saidOf_append, saidOf_of_goesOn hgoes, List.nil_append]
  have hwithout : said (below a b) = said a ++ saidOf [] (splitLines b) := said_below ha b
  have hopening : ∀ {lead last}, IsOpening (splitLines b) lead last → ∃ rest,
      splitLines b = lead ++ last :: rest := by
    rintro lead last ⟨⟨rest, hrest⟩, -, -⟩
    exact ⟨rest, by rw [← hrest]; simp⟩
  rw [hwith, hwithout]
  constructor
  · rcases exists_opening (splitLines b) with hnone | ⟨lead, last, hop⟩
    · refine ⟨none, none, [], ?_, ?_⟩ <;>
      · rw [saidOf_of_goesOn hnone]
        simp
    · obtain ⟨rest, hrest⟩ := hopening hop
      rw [hrest, saidOf_opening hop.goesOn hop.closes, saidOf_opening hop.goesOn hop.closes]
      exact ⟨_, _, saidOf [] rest, (List.append_assoc _ _ _).symm, (List.append_assoc _ _ _).symm⟩
  · rw [List.append_cancel_left_eq, ← hlen]
    constructor
    · intro heq lead last hop
      obtain ⟨rest, hrest⟩ := hopening hop
      rw [hrest, saidOf_opening hop.goesOn hop.closes, saidOf_opening hop.goesOn hop.closes,
        List.append_cancel_right_eq] at heq
      have hfirst := congrArg List.head? heq
      rw [Option.head?_toList, Option.head?_toList] at hfirst
      exact (undisturbed_iff hlines hop.goesOn hop.closes).mpr hfirst
    · intro hall
      rcases exists_opening (splitLines b) with hnone | ⟨lead, last, hop⟩
      · rw [saidOf_of_goesOn hnone, saidOf_of_goesOn hnone]
      · obtain ⟨rest, hrest⟩ := hopening hop
        have hsame := (undisturbed_iff hlines hop.goesOn hop.closes).mp (hall lead last hop)
        rw [hrest, saidOf_opening hop.goesOn hop.closes, saidOf_opening hop.goesOn hop.closes, hsame]
        rfl

theorem said_blank_lines_room :
    said "int a();\n\n \t\r\nint f(\n  int);\n// g\nvoid g();" =
      said "int a();\nint f(\n  int);\n// g\nvoid g();" := by
  have hundisturbed : ∀ lead last,
      IsOpening (splitLines "int f(\n  int);\n// g\nvoid g();") lead last →
        Undisturbed 2 lead last := by
    rintro lead last ⟨hstart, -, -⟩
    have hlen := hstart.length_le
    have hlines : (splitLines "int f(\n  int);\n// g\nvoid g();").length = 4 := by decide
    have hmod : 2 % (maxLines + 1) = 2 := by decide
    rw [List.length_append, List.length_singleton, hlines] at hlen
    have hroom : 2 % (maxLines + 1) + lead.length ≤ maxLines := by
      rw [hmod, maxLines]
      omega
    refine .inr (.inr ?_)
    rw [if_pos hroom]
    left
    intro line hline
    obtain ⟨rest, hrest⟩ := hstart
    have hfirst := congrArg List.head? hrest
    rw [List.head?_append, hline] at hfirst
    cases hfirst
    decide
  have h := (@said_blank_lines [[], ofString " \t\r"] "int a();"
    "int f(\n  int);\n// g\nvoid g();" (.inr (by decide)) (by decide)).2.mpr hundisturbed
  exact h

/-- A comment below a blank line, and a declaration of two lines below twenty blank lines. -/
theorem said_blank_lines_disturbed :
    said (below [] "// see g(x)\nint n;\n") = [] ∧
    said (below [] (withFeeds [[]] ++ ofString "// see g(x)\nint n;\n")) =
      [(ofString "g", ofString "// see g(x)\nint n;")] ∧
    said (below [] "int f(\n  int);\n") = [(ofString "f", ofString "int f(\n  int);")] ∧
    said (below [] (withFeeds (List.replicate 20 []) ++ ofString "int f(\n  int);\n")) = [] := by
  decide +kernel

end Prototype

end HeaderOrder

import HeaderOrder.Code
import Mathlib.Data.List.DropRight
import Mathlib.Order.Lattice.Nat

/-! # Calls in a text -/

namespace HeaderOrder

open Byte Text

/-! ## Identifiers -/

namespace Text

variable {t run name : Text}

/-- A letter or an underscore, and letters, underscores and digits after it. -/
def IsIdentifier (t : Text) : Prop :=
  ∃ b rest, t = b :: rest ∧ isIdentStart b = true ∧ ∀ c ∈ rest, isIdentChar c = true

theorem isIdentifier_dropWhile (hall : ∀ c ∈ t, isIdentChar c = true)
    (hne : t.dropWhile (!isIdentStart ·) ≠ []) : IsIdentifier (t.dropWhile (!isIdentStart ·)) := by
  obtain ⟨b, rest, hsplit⟩ := List.exists_cons_of_ne_nil hne
  refine ⟨b, rest, hsplit, ?_, ?_⟩
  · have := List.head_dropWhile_not (!isIdentStart ·) hne
    simpa [hsplit] using this
  · intro c hc
    apply hall c
    apply (List.dropWhile_sublist (!isIdentStart ·)).subset
    rw [hsplit]
    exact List.mem_cons_of_mem _ hc

theorem dropWhile_ne_nil_iff :
    run.dropWhile (!isIdentStart ·) ≠ [] ↔ ∃ b ∈ run, isIdentStart b = true := by
  simp [List.dropWhile_eq_nil_iff]

/-- Behind digits, a run of identifier characters ends in one identifier only. -/
theorem dropWhile_eq_iff (hrun : ∀ b ∈ run, isIdentChar b = true)
    (hnames : ∃ b ∈ run, isIdentStart b = true) : run.dropWhile (!isIdentStart ·) = name ↔
      ∃ digits, run = digits ++ name ∧ (∀ b ∈ digits, isIdentStart b = false) ∧
        IsIdentifier name := by
  constructor
  · rintro rfl
    refine ⟨run.takeWhile (!isIdentStart ·), List.takeWhile_append_dropWhile.symm, ?_,
      isIdentifier_dropWhile hrun (dropWhile_ne_nil_iff.mpr hnames)⟩
    intro b hb
    simpa using List.mem_takeWhile_imp hb
  · rintro ⟨digits, rfl, hdigits, b, rest, rfl, hb, -⟩
    rw [List.dropWhile_append_of_pos (by simpa using hdigits),
      List.dropWhile_cons_of_neg (by simp [hb])]

theorem getLast?_rdropWhile {r : Byte → Bool} {b : Byte}
    (h : (t.rdropWhile r).getLast? = some b) : r b = false := by
  have hne : t.rdropWhile r ≠ [] := by
    intro hnil
    rw [hnil] at h
    cases h
  have hlast := List.rdropWhile_last_not r t hne
  rw [List.getLast?_eq_getLast_of_ne_nil hne, Option.some.injEq] at h
  simpa [h] using hlast

theorem rdropWhile_append {r : Byte → Bool} {s : Text}
    (hs : ∀ b, s.getLast? = some b → r b = false) (ht : ∀ b ∈ t, r b = true) :
    (s ++ t).rdropWhile r = s ∧ (s ++ t).rtakeWhile r = t := by
  induction t using List.reverseRecOn with
  | nil =>
    have hlast : ∀ hne : s ≠ [], ¬ r (s.getLast hne) = true := by
      intro hne
      simp [hs _ (List.getLast?_eq_getLast_of_ne_nil hne)]
    rw [List.append_nil, List.rdropWhile_eq_self_iff, List.rtakeWhile_eq_nil_iff]
    exact ⟨hlast, hlast⟩
  | append_singleton t b ih =>
    obtain ⟨hdrop, htake⟩ := ih fun c hc => ht c (List.mem_append_left _ hc)
    have hb := ht b (by simp)
    rw [← List.append_assoc, List.rdropWhile_concat_pos _ _ _ hb,
      List.rtakeWhile_concat_pos _ _ _ hb, hdrop, htake]
    exact ⟨rfl, rfl⟩

end Text

namespace Code

/-! ## Calls in a longer text -/

variable {b : Byte} {s t front run space after name : Text} {p q : Nat}

theorem isIdentChar_of_isSpace (h : isSpace b = true) : isIdentChar b = false := by
  grind [isSpace, isIdentChar, isIdentStart, isUpper, isLower, isDigit]

theorem callNames_cons (h : isIdentChar b = false) (t : Text) :
    callNames (b :: t) = callNames t := by
  rw [callNames, dif_neg (by simp [h])]

theorem callNames_run {c : Byte} (h : isIdentChar c = true) (s : Text) :
    callNames (c :: s) =
      let name := ((c :: s).takeWhile isIdentChar).dropWhile (!isIdentStart ·)
      let rest := (c :: s).dropWhile isIdentChar
      if name ≠ [] ∧ (rest.dropWhile isSpace).head? = some openParen then
        name :: callNames (rest.dropWhile isSpace).tail
      else
        callNames rest := by
  rw [callNames, dif_pos h]

theorem callNames_trimLeft (t : Text) : callNames (trimLeft t) = callNames t := by
  induction t with
  | nil => rfl
  | cons b t ih =>
    unfold trimLeft at ih ⊢
    by_cases hb : isSpace b = true
    · rw [List.dropWhile_cons_of_pos hb, callNames_cons (isIdentChar_of_isSpace hb), ih]
    · rw [List.dropWhile_cons_of_neg hb]

theorem callNames_of_head? {rest : Text} (h : (rest.dropWhile isSpace).head? = some openParen) :
    callNames rest = callNames (rest.dropWhile isSpace).tail := by
  obtain ⟨u, hu⟩ := List.head?_eq_some_iff.mp h
  have hparen : isIdentChar openParen = false := by decide
  rw [← callNames_trimLeft rest, trimLeft, hu, callNames_cons hparen, List.tail_cons]

theorem takeWhile_append_stop {p : Byte → Bool} (hb : p b = false) (s t : Text) :
    (s ++ b :: t).takeWhile p = s.takeWhile p ∧
      (s ++ b :: t).dropWhile p = s.dropWhile p ++ b :: t := by
  induction s with
  | nil => simp [hb]
  | cons c s ih =>
    by_cases hc : p c = true
    · simp [hc, ih]
    · simp [hc]

/-- What a text calls is called last, whatever stands in front of it and apart from it. -/
theorem callNames_suffix (hb : isIdentChar b = false) (s t : Text) :
    callNames t <:+ callNames (s ++ b :: t) := by
  induction s using callNames.induct with
  | case1 =>
    rw [List.nil_append, callNames_cons hb]
  | case2 c s hc name rest _ _ hcall ih =>
    obtain ⟨hname, hrest⟩ := takeWhile_append_stop hb (c :: s) t
    obtain ⟨u, hu⟩ := List.head?_eq_some_iff.mp hcall.2
    have hhead : ((rest ++ b :: t).dropWhile isSpace) = openParen :: (u ++ b :: t) := by
      rw [List.dropWhile_append, hu]
      rfl
    rw [hu, List.tail_cons] at ih
    have hcall' : name ≠ [] ∧ ((rest ++ b :: t).dropWhile isSpace).head? = some openParen :=
      ⟨hcall.1, by rw [hhead]; rfl⟩
    rw [List.cons_append, callNames_run hc, ← List.cons_append, hname, hrest]
    dsimp only
    rw [if_pos hcall', hhead]
    exact ih.trans (List.suffix_cons _ _)
  | case3 c s hc name rest _ _ hcall ih =>
    obtain ⟨hname, hrest⟩ := takeWhile_append_stop hb (c :: s) t
    rw [List.cons_append, callNames_run hc, ← List.cons_append, hname, hrest]
    dsimp only
    split_ifs with hcall'
    · -- The parenthesis of the longer text stands behind `s`, so it is not part of a call there.
      rw [← callNames_of_head? hcall'.2]
      exact ih.trans (List.suffix_cons _ _)
    · exact ih
  | case4 c s hc ih =>
    rw [List.cons_append, callNames_cons (by simpa using hc)]
    exact ih

/-! ## Call points -/

/-- The identifier characters in front of a place, which white space may keep apart from it. -/
def runBefore (t : Text) (p : Nat) : Text :=
  ((t.take p).rdropWhile isSpace).rtakeWhile isIdentChar

/-- The place has an opening parenthesis, and the identifier characters in front of it are more
than digits. -/
def IsCallPoint (t : Text) (p : Nat) : Prop :=
  t[p]? = some openParen ∧ ∃ b ∈ runBefore t p, isIdentStart b = true

/-- A text cut at the parenthesis of a call, with the whole run of identifier characters in front
of it. -/
structure IsCall (t front run space after : Text) : Prop where
  whole : t = front ++ run ++ space ++ openParen :: after
  front_ends : ∀ b, front.getLast? = some b → isIdentChar b = false
  run_ident : ∀ b ∈ run, isIdentChar b = true
  names : ∃ b ∈ run, isIdentStart b = true
  space_blank : ∀ b ∈ space, isSpace b = true

theorem runBefore_of_isCall (h : IsCall t front run space after) :
    runBefore t (front ++ run ++ space).length = run := by
  have hspace : ∀ b, (front ++ run).getLast? = some b → isSpace b = false := by
    intro b hb
    obtain ⟨c, hc, -⟩ := h.names
    rw [List.getLast?_append_of_ne_nil _ (List.ne_nil_of_mem hc)] at hb
    by_contra hblank
    have hident := h.run_ident b (List.mem_of_getLast? hb)
    rw [isIdentChar_of_isSpace (by simpa using hblank)] at hident
    cases hident
  rw [runBefore, h.whole, List.take_left, (rdropWhile_append hspace h.space_blank).1,
    (rdropWhile_append h.front_ends h.run_ident).2]

theorem isCallPoint_iff : IsCallPoint t p ↔ ∃ front run space after,
    IsCall t front run space after ∧ p = (front ++ run ++ space).length := by
  constructor
  · rintro ⟨hparen, hnames⟩
    obtain ⟨hlt, hget⟩ := List.getElem?_eq_some_iff.mp hparen
    have hsplit : ((t.take p).rdropWhile isSpace).rdropWhile isIdentChar ++ runBefore t p ++
        (t.take p).rtakeWhile isSpace = t.take p := by
      rw [runBefore, List.rdropWhile_append_rtakeWhile, List.rdropWhile_append_rtakeWhile]
    refine ⟨((t.take p).rdropWhile isSpace).rdropWhile isIdentChar, runBefore t p,
      (t.take p).rtakeWhile isSpace, t.drop (p + 1), ⟨?_, ?_, ?_, hnames, ?_⟩, ?_⟩
    · rw [hsplit, ← hget, ← List.drop_eq_getElem_cons hlt, List.take_append_drop]
    · exact fun b => getLast?_rdropWhile
    · exact fun b => List.mem_rtakeWhile_imp
    · exact fun b => List.mem_rtakeWhile_imp
    · rw [hsplit, List.length_take]
      omega
  · rintro ⟨front, run, space, after, h, rfl⟩
    refine ⟨?_, ?_⟩
    · rw [h.whole]
      simp
    · rw [runBefore_of_isCall h]
      exact h.names

theorem IsCallPoint.append (h : IsCallPoint t p)
    (hborder : ∀ b c, s.getLast? = some b → t.head? = some c → isIdentChar b = true →
      isIdentChar c = false) : IsCallPoint (s ++ t) (s.length + p) := by
  obtain ⟨front, run, space, after, hcall, rfl⟩ := isCallPoint_iff.mp h
  refine isCallPoint_iff.mpr ⟨s ++ front, run, space, after,
    ⟨?_, ?_, hcall.run_ident, hcall.names, hcall.space_blank⟩, by simp⟩
  · rw [hcall.whole]
    simp
  · intro b hb
    rcases eq_or_ne front [] with rfl | hfront
    · -- The run starts where the two texts meet.
      rw [List.append_nil] at hb
      obtain ⟨c, hc, -⟩ := hcall.names
      obtain ⟨d, run, rfl⟩ := List.exists_cons_of_ne_nil (List.ne_nil_of_mem hc)
      by_contra hident
      have hd := hborder b d hb (by rw [hcall.whole]; rfl) (by simpa using hident)
      rw [hcall.run_ident d (by simp)] at hd
      cases hd
    · rw [List.getLast?_append_of_ne_nil _ hfront] at hb
      exact hcall.front_ends b hb

/-! ## The last call -/

theorem callNames_of_isCall (h : IsCall t [] run space after) :
    callNames t = run.dropWhile (!isIdentStart ·) :: callNames after := by
  obtain ⟨c, hc, -⟩ := h.names
  obtain ⟨d, more, rfl⟩ := List.exists_cons_of_ne_nil (List.ne_nil_of_mem hc)
  -- The byte behind the run is white space or the parenthesis.
  have hstop : ∃ b rest, space ++ openParen :: after = b :: rest ∧ isIdentChar b = false := by
    cases hs : space with
    | nil => exact ⟨openParen, after, rfl, by decide⟩
    | cons b rest => exact ⟨b, _, rfl, isIdentChar_of_isSpace (h.space_blank b (by simp [hs]))⟩
  obtain ⟨b, rest, hrest, hb⟩ := hstop
  obtain ⟨htake, hdrop⟩ := takeWhile_append_stop hb (d :: more) rest
  rw [List.takeWhile_eq_self_iff.mpr h.run_ident] at htake
  rw [List.dropWhile_eq_nil_iff.mpr h.run_ident, List.nil_append] at hdrop
  have hparen : (space ++ openParen :: after).dropWhile isSpace = openParen :: after := by
    rw [List.dropWhile_append_of_pos h.space_blank, List.dropWhile_cons_of_neg (by decide)]
  rw [h.whole, List.nil_append, List.append_assoc, hrest, List.cons_append,
    callNames_run (h.run_ident d (by simp)), ← List.cons_append, htake, hdrop]
  dsimp only
  rw [← hrest, hparen, if_pos ⟨dropWhile_ne_nil_iff.mpr h.names, rfl⟩, List.tail_cons]

theorem callNames_suffix_of_isCall (h : IsCall t front run space after) :
    run.dropWhile (!isIdentStart ·) :: callNames after <:+ callNames t := by
  have hcall := callNames_of_isCall (t := run ++ space ++ openParen :: after)
    ⟨rfl, by simp, h.run_ident, h.names, h.space_blank⟩
  have hwhole : t = front ++ (run ++ space ++ openParen :: after) := by
    rw [h.whole]
    simp
  rw [hwhole, ← hcall]
  rcases List.eq_nil_or_concat' front with rfl | ⟨front, b, rfl⟩
  · exact List.suffix_refl _
  · rw [← List.append_cons]
    exact callNames_suffix (h.front_ends b (by simp)) front _

theorem exists_isCallPoint (h : callNames t ≠ []) : ∃ p, IsCallPoint t p := by
  induction t using callNames.induct with
  | case1 => simp [callNames] at h
  | case2 b t hb name rest _ _ hcall ih =>
    obtain ⟨after, hafter⟩ := List.head?_eq_some_iff.mp hcall.2
    refine ⟨_, isCallPoint_iff.mpr ⟨[], (b :: t).takeWhile isIdentChar, rest.takeWhile isSpace,
      after, ⟨?_, by simp, fun c => List.mem_takeWhile_imp, dropWhile_ne_nil_iff.mp hcall.1,
        fun c => List.mem_takeWhile_imp⟩, rfl⟩⟩
    rw [← hafter, List.nil_append, List.append_assoc, List.takeWhile_append_dropWhile,
      List.takeWhile_append_dropWhile]
  | case3 b t hb name rest _ _ hcall ih =>
    rw [callNames, dif_pos hb, if_neg hcall] at h
    obtain ⟨p, hp⟩ := ih h
    have hsplit : (b :: t).takeWhile isIdentChar ++ rest = b :: t :=
      List.takeWhile_append_dropWhile
    refine ⟨_, hsplit ▸ hp.append ?_⟩
    intro _ c _ hc _
    have hhead := List.head?_dropWhile_not isIdentChar (b :: t)
    rwa [hc] at hhead
  | case4 b t hb ih =>
    rw [callNames, dif_neg hb] at h
    obtain ⟨p, hp⟩ := ih h
    refine ⟨_, hp.append (s := [b]) ?_⟩
    intro c _ hc _ hident
    cases hc
    exact absurd hident hb

theorem exists_isGreatest (h : IsCallPoint t p) : ∃ q, IsGreatest {q | IsCallPoint t q} q := by
  have hbdd : BddAbove {q | IsCallPoint t q} := by
    refine ⟨t.length, ?_⟩
    intro q hq
    obtain ⟨hlt, -⟩ := List.getElem?_eq_some_iff.mp hq.1
    exact hlt.le
  exact ⟨_, Nat.sSup_mem ⟨p, h⟩ hbdd, fun q hq => le_csSup hbdd hq⟩

theorem lastCall?_of_isGreatest (h : IsGreatest {q | IsCallPoint t q} p) :
    lastCall? t = some ((runBefore t p).dropWhile (!isIdentStart ·)) := by
  obtain ⟨hp, hlast⟩ := h
  obtain ⟨front, run, space, after, hcall, rfl⟩ := isCallPoint_iff.mp hp
  -- A call behind this one would have a later parenthesis.
  have hnone : callNames after = [] := by
    by_contra hne
    obtain ⟨q, hq⟩ := exists_isCallPoint hne
    have hwhole : t = front ++ run ++ space ++ [openParen] ++ after := by
      rw [hcall.whole]
      simp
    have hlater : IsCallPoint t ((front ++ run ++ space ++ [openParen]).length + q) := by
      rw [hwhole]
      apply hq.append
      intro b _ hb _ hident
      rw [List.getLast?_concat, Option.some.injEq] at hb
      rw [← hb] at hident
      exact absurd hident (by decide)
    have := hlast hlater
    simp only [List.length_append, List.length_singleton] at this
    omega
  obtain ⟨names, hnames⟩ := callNames_suffix_of_isCall hcall
  rw [lastCall?, ← hnames, hnone, List.getLast?_concat, runBefore_of_isCall hcall]

theorem exists_of_lastCall? (h : lastCall? t = some name) :
    ∃ p, IsGreatest {q | IsCallPoint t q} p ∧
      (runBefore t p).dropWhile (!isIdentStart ·) = name := by
  obtain ⟨p, hp⟩ : ∃ p, IsCallPoint t p := by
    apply exists_isCallPoint
    intro hnil
    rw [lastCall?, hnil] at h
    cases h
  obtain ⟨q, hq⟩ := exists_isGreatest hp
  rw [lastCall?_of_isGreatest hq, Option.some.injEq] at h
  exact ⟨q, hq, h⟩

theorem isIdentifier_of_lastCall? (h : lastCall? t = some name) : IsIdentifier name := by
  obtain ⟨p, ⟨hp, -⟩, rfl⟩ := exists_of_lastCall? h
  exact isIdentifier_dropWhile (fun b => List.mem_rtakeWhile_imp) (dropWhile_ne_nil_iff.mpr hp.2)

/-- The last call is the one with the last parenthesis that is a call. -/
theorem lastCall?_at_last_callPoint (t : Text) :
    (lastCall? t = none ↔ ∀ p, ¬ IsCallPoint t p) ∧
    ∀ name, lastCall? t = some name ↔ ∃ p, IsGreatest {q | IsCallPoint t q} p ∧
      ∃ digits, runBefore t p = digits ++ name ∧ (∀ b ∈ digits, isIdentStart b = false) ∧
        IsIdentifier name := by
  constructor
  · constructor
    · intro h p hp
      obtain ⟨q, hq⟩ := exists_isGreatest hp
      rw [lastCall?_of_isGreatest hq] at h
      cases h
    · intro h
      rw [Option.eq_none_iff_forall_ne_some]
      intro name hname
      obtain ⟨p, hp, -⟩ := exists_of_lastCall? hname
      exact h p hp.1
  · intro name
    have hrun : ∀ p, ∀ b ∈ runBefore t p, isIdentChar b = true :=
      fun p b => List.mem_rtakeWhile_imp
    constructor
    · intro h
      obtain ⟨p, hp, hname⟩ := exists_of_lastCall? h
      exact ⟨p, hp, (dropWhile_eq_iff (hrun p) hp.1.2).mp hname⟩
    · rintro ⟨p, hp, hname⟩
      rw [lastCall?_of_isGreatest hp, (dropWhile_eq_iff (hrun p) hp.1.2).mpr hname]

/-- Digits in front of an identifier are no part of it, and digits alone call nothing. -/
example : lastCall? "int 2fast\n (int 9(x))" = some "fast" := by cbv

end Code

end HeaderOrder

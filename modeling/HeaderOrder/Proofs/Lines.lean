import HeaderOrder.Line
import Mathlib.Data.List.Basic
import Mathlib.Data.List.DropRight

/-!
# Lines that make up a text

Which lists of lines are cut texts, and that such a list is cut from its own text.
-/

namespace HeaderOrder

open Byte Text

theorem isPrefixOf?_eq_none_iff {α : Type} [BEq α] [LawfulBEq α] {front l : List α} :
    front.isPrefixOf? l = none ↔ ¬ front <+: l := by
  rw [← Option.not_isSome_iff_eq_none, List.isSome_isPrefixOf?_eq_isPrefixOf,
    List.isPrefixOf_iff_prefix]

/-! ## The lines of a text -/

theorem carriageReturn_ne_lineFeed : carriageReturn ≠ lineFeed := by decide

namespace Line

/-- The content is what is left when the terminator is taken off. -/
def Regular (l : Line) : Prop :=
  lineFeed ∉ l.content ∧ (l.terminator = .lf → l.content.getLast? ≠ some carriageReturn)

def Inner (l : Line) : Prop := l.Regular ∧ l.terminator ≠ .none

theorem text_of_inner {l : Line} (h : l.Inner) : ∃ t, l.text = t ++ [lineFeed] ∧ lineFeed ∉ t := by
  obtain ⟨c, k⟩ := l
  obtain ⟨⟨hlf, -⟩, hk⟩ := h
  simp only at hlf hk
  cases k with
  | none => exact absurd rfl hk
  | lf => exact ⟨c, rfl, hlf⟩
  | crlf =>
    refine ⟨c ++ [carriageReturn], by simp [text, Terminator.text], ?_⟩
    simpa [hlf] using carriageReturn_ne_lineFeed.symm

end Line

namespace Text

/-- The lists of lines that a text can be cut into. Only the last line has no terminator. -/
def Cut : List Line → Prop
  | [] => False
  | [l] => l.Regular ∧ l.terminator = .none
  | l :: ls => l.Inner ∧ Cut ls

theorem cut_cons {l : Line} {ls : List Line} (hne : ls ≠ []) :
    Cut (l :: ls) ↔ l.Inner ∧ Cut ls := by
  cases ls with
  | nil => exact absurd rfl hne
  | cons l' ls => rfl

theorem cut_append {xs ys : List Line} (hne : ys ≠ []) :
    Cut (xs ++ ys) ↔ (∀ l ∈ xs, l.Inner) ∧ Cut ys := by
  induction xs with
  | nil => simp
  | cons l xs ih => rw [List.cons_append, cut_cons (by simp [hne]), ih]; simp [and_assoc]

theorem cut_push (b : Byte) {ls : List Line} (h : Cut ls) : Cut (Line.push b ls) := by
  rcases ls with _ | ⟨l, ls⟩
  · exact absurd h id
  simp only [Line.push]
  split_ifs with hlf hcr
  · exact ⟨⟨⟨by simp, by simp⟩, by simp⟩, h⟩
  · obtain ⟨-, rfl⟩ := hcr
    cases ls with
    | nil => exact absurd h.2 (by simp)
    | cons l' ls => exact ⟨⟨⟨by simp, by simp⟩, by simp⟩, h.2⟩
  · -- The byte goes on the line, and it is no carriage return that the line feed takes.
    have hreg : l.Regular → (⟨b :: l.content, l.terminator⟩ : Line).Regular := by
      rintro ⟨hl, hr⟩
      refine ⟨by simp [hl, Ne.symm hlf], ?_⟩
      intro hk
      obtain ⟨c, k⟩ := l
      cases c with
      | nil => simp_all
      | cons a c => simpa using hr hk
    cases ls with
    | nil => exact ⟨hreg h.1, h.2⟩
    | cons l' ls => exact ⟨⟨hreg h.1.1, h.1.2⟩, h.2⟩

theorem cut_lines (t : Text) : Cut (lines t) := by
  induction t with
  | nil => exact ⟨⟨by simp, by simp⟩, rfl⟩
  | cons b t ih => exact cut_push b ih

theorem regular_of_cut {ls : List Line} (h : Cut ls) : ∀ l ∈ ls, l.Regular := by
  induction ls with
  | nil => simp
  | cons l ls ih =>
    rcases eq_or_ne ls [] with rfl | hne
    · simpa using h.1
    · obtain ⟨hl, hls⟩ := (cut_cons hne).mp h
      intro m hm
      rcases List.mem_cons.mp hm with rfl | hm
      · exact hl.1
      · exact ih hls m hm

theorem lines_append_of_inner {l : Line} (h : l.Inner) (t : Text) :
    lines (l.text ++ t) = l :: lines t := by
  obtain ⟨c, k⟩ := l
  induction c with
  | nil =>
    obtain ⟨x, xs, hx⟩ := List.exists_cons_of_ne_nil (lines_ne_nil t)
    cases k with
    | none => exact absurd rfl h.2
    | lf => simp [Line.text, Terminator.text, Line.push, hx]
    | crlf => simp [Line.text, Terminator.text, Line.push, hx, carriageReturn_ne_lineFeed]
  | cons b c ih =>
    obtain ⟨⟨hlf, hcr⟩, hk⟩ := h
    simp only [List.mem_cons, not_or] at hlf hcr hk
    have hc : (⟨c, k⟩ : Line).Inner := by
      refine ⟨⟨hlf.2, ?_⟩, hk⟩
      intro hk'
      have := hcr hk'
      cases c <;> simp_all
    have htext : (⟨b :: c, k⟩ : Line).text ++ t = b :: ((⟨c, k⟩ : Line).text ++ t) := rfl
    rw [htext, lines_cons, ih hc, Line.push, if_neg (Ne.symm hlf.1), if_neg]
    rintro ⟨rfl, he⟩
    cases he
    exact hcr rfl rfl

theorem lines_of_not_mem {c : Text} (h : lineFeed ∉ c) : lines c = [⟨c, .none⟩] := by
  induction c with
  | nil => rfl
  | cons b c ih =>
    simp only [List.mem_cons, not_or] at h
    rw [lines_cons, ih h.2, Line.push, if_neg (Ne.symm h.1), if_neg (by simp)]

theorem lines_unlines {ls : List Line} (h : Cut ls) : lines (unlines ls) = ls := by
  induction ls with
  | nil => exact absurd h id
  | cons l ls ih =>
    rcases eq_or_ne ls [] with rfl | hne
    · obtain ⟨⟨hlf, -⟩, hk⟩ := h
      obtain ⟨c, k⟩ := l
      simp only at hlf hk
      subst hk
      simpa [unlines, Line.text, Terminator.text] using lines_of_not_mem hlf
    · obtain ⟨hl, hls⟩ := (cut_cons hne).mp h
      have hu : unlines (l :: ls) = l.text ++ unlines ls := by simp [unlines]
      rw [hu, lines_append_of_inner hl, ih hls]

theorem unlines_append (xs ys : List Line) : unlines (xs ++ ys) = unlines xs ++ unlines ys := by
  simp [unlines]

/-- Each byte begins at most one more line. -/
theorem length_lines_le (t : Text) : (lines t).length ≤ t.length + 1 := by
  induction t with
  | nil => simp
  | cons b t ih =>
    have hpush : ∀ ls, (Line.push b ls).length ≤ ls.length + 1 := by
      intro ls
      cases ls with
      | nil => simp [Line.push]
      | cons l ls =>
        simp only [Line.push]
        split
        · simp
        · split <;> simp
    rw [lines_cons, List.length_cons]
    exact (hpush _).trans (by omega)

@[simp] theorem length_splitLines (t : Text) : (splitLines t).length = (lines t).length := by
  simp [splitLines]

theorem lineFeed_not_mem_of_mem_splitLines {t c : Text} (h : c ∈ splitLines t) :
    lineFeed ∉ c := by
  obtain ⟨l, hl, rfl⟩ := List.mem_map.mp h
  exact (regular_of_cut (cut_lines t) l hl).1

/-! ## Contents that are joined -/

theorem intercalate_append {α : Type} {sep : List α} {xs ys : List (List α)} (hx : xs ≠ [])
    (hy : ys ≠ []) :
    sep.intercalate (xs ++ ys) = sep.intercalate xs ++ sep ++ sep.intercalate ys := by
  induction xs with
  | nil => exact absurd rfl hx
  | cons x xs ih =>
    rcases eq_or_ne xs [] with rfl | hne
    · rw [List.singleton_append, List.intercalate_cons_of_ne_nil hy]
      simp
    · rw [List.cons_append, List.intercalate_cons_of_ne_nil (by simp [hne]), ih hne,
        List.intercalate_cons_of_ne_nil hne]
      simp only [List.append_assoc]

theorem intercalate_groups_ne_nil {groups : List (List Text)} (hne : groups ≠ [])
    (h : ∀ g ∈ groups, g ≠ []) : List.intercalate [[]] groups ≠ [] := by
  obtain ⟨g, gs, rfl⟩ := List.exists_cons_of_ne_nil hne
  have hg := h g (by simp)
  cases gs <;> simp [hg]

theorem intercalate_groups {sep : Text} {groups : List (List Text)}
    (hne : ∀ g ∈ groups, g ≠ []) :
    (sep ++ sep).intercalate (groups.map sep.intercalate) =
      sep.intercalate (List.intercalate [[]] groups) := by
  induction groups with
  | nil => rfl
  | cons g groups ih =>
    have hg := hne g (by simp)
    have ih := ih (fun h hh => hne h (List.mem_cons_of_mem _ hh))
    rcases eq_or_ne groups [] with rfl | hgs
    · simp
    · have hrest := intercalate_groups_ne_nil hgs (fun h hh => hne h (List.mem_cons_of_mem _ hh))
      rw [List.map_cons, List.intercalate_cons_of_ne_nil (by simpa using hgs), ih,
        List.intercalate_cons_of_ne_nil hgs, List.append_assoc g,
        intercalate_append hg (by simp), List.singleton_append,
        List.intercalate_cons_of_ne_nil hrest]
      simp

theorem mem_intercalate_of_mem {α : Type} {xs : List (List α)} {x : List α} {a : α} (sep : List α)
    (hx : x ∈ xs) (ha : a ∈ x) : a ∈ sep.intercalate xs := by
  induction xs with
  | nil => simp at hx
  | cons y ys ih =>
    rcases eq_or_ne ys [] with rfl | hne
    · rw [List.mem_singleton.mp hx] at ha
      simpa using ha
    · rw [List.intercalate_cons_of_ne_nil hne]
      rcases List.mem_cons.mp hx with rfl | hx
      · exact List.mem_append_left _ (List.mem_append_left _ ha)
      · exact List.mem_append_right _ (ih hx)

theorem mem_intercalate {α : Type} {sep : List α} {xs : List (List α)} {a : α}
    (h : a ∈ sep.intercalate xs) : a ∈ sep ∨ ∃ x ∈ xs, a ∈ x := by
  induction xs with
  | nil => simp at h
  | cons x xs ih =>
    rcases eq_or_ne xs [] with rfl | hne
    · right; exact ⟨x, by simp, by simpa using h⟩
    · rw [List.intercalate_cons_of_ne_nil hne] at h
      simp only [List.mem_append] at h
      rcases h with (h | h) | h
      · exact Or.inr ⟨x, by simp, h⟩
      · exact Or.inl h
      · rcases ih h with h | ⟨y, hy, ha⟩
        · exact Or.inl h
        · exact Or.inr ⟨y, List.mem_cons_of_mem _ hy, ha⟩

theorem mem_intercalate_groups {groups : List (List Text)} {c : Text}
    (h : c ∈ List.intercalate [[]] groups) : c = [] ∨ ∃ g ∈ groups, c ∈ g :=
  (mem_intercalate h).imp_left List.mem_singleton.mp

/-- A content that stays the same under any terminator. -/
def Plain (c : Text) : Prop := lineFeed ∉ c ∧ c.getLast? ≠ some carriageReturn

/-- The contents as lines. `eol` ends each of them but the last one, which `last` ends. -/
def terminate (eol last : Terminator) : List Text → List Line
  | [] => []
  | [c] => [⟨c, last⟩]
  | c :: d :: cs => ⟨c, eol⟩ :: terminate eol last (d :: cs)

variable {eol last : Terminator} {cs : List Text}

theorem terminate_concat (eol last : Terminator) (cs : List Text) (c : Text) :
    terminate eol last (cs ++ [c]) = cs.map (Line.mk · eol) ++ [⟨c, last⟩] := by
  induction cs with
  | nil => rfl
  | cons d cs ih =>
    obtain ⟨e, es, he⟩ := List.exists_cons_of_ne_nil (List.append_ne_nil_of_right_ne_nil cs
      (List.cons_ne_nil c []))
    rw [List.cons_append, he, terminate, ← he, ih]
    rfl

theorem map_content_terminate (eol last : Terminator) (cs : List Text) :
    (terminate eol last cs).map Line.content = cs := by
  induction cs using terminate.induct with
  | case1 => rfl
  | case2 c => rfl
  | case3 c d cs ih => rw [terminate, List.map_cons, ih]

theorem unlines_terminate (eol last : Terminator) (hne : cs ≠ []) :
    unlines (terminate eol last cs) = eol.text.intercalate cs ++ last.text := by
  induction cs using terminate.induct with
  | case1 => exact absurd rfl hne
  | case2 c => simp [terminate, unlines, Line.text]
  | case3 c d cs ih =>
    have hu : unlines (⟨c, eol⟩ :: terminate eol last (d :: cs)) =
        c ++ eol.text ++ unlines (terminate eol last (d :: cs)) := by simp [unlines, Line.text]
    rw [terminate, hu, ih (by simp), List.intercalate_cons_of_ne_nil (List.cons_ne_nil d cs)]
    simp only [List.append_assoc]

theorem Plain.regular {c : Text} (h : Plain c) (k : Terminator) : (⟨c, k⟩ : Line).Regular :=
  ⟨h.1, fun _ => h.2⟩

theorem inner_of_mem_map (heol : eol ≠ .none) (hcs : ∀ c ∈ cs, Plain c) :
    ∀ l ∈ cs.map (Line.mk · eol), l.Inner := by
  intro l hl
  obtain ⟨c, hc, rfl⟩ := List.mem_map.mp hl
  exact ⟨(hcs c hc).regular eol, heol⟩

theorem cut_terminate (heol : eol ≠ .none) (hne : cs ≠ []) (hcs : ∀ c ∈ cs, Plain c) :
    Cut (terminate eol .none cs) := by
  obtain ⟨ds, c, rfl⟩ := (List.eq_nil_or_concat' cs).resolve_left hne
  rw [terminate_concat, cut_append (by simp)]
  exact ⟨inner_of_mem_map heol fun d hd => hcs d (List.mem_append_left _ hd),
    (hcs c (by simp)).regular _, rfl⟩

/-! ## Lines of joined contents -/

def withoutReturns (c : Text) : Text := c.rdropWhile (· == carriageReturn)

theorem withoutReturns_concat (c : Text) :
    withoutReturns (c ++ [carriageReturn]) = withoutReturns c :=
  List.rdropWhile_concat_pos _ _ _ (by simp)

theorem mem_withoutReturns {b : Byte} {c : Text} (h : b ∈ c) (hb : b ≠ carriageReturn) :
    b ∈ withoutReturns c := by
  rw [← List.rdropWhile_append_rtakeWhile (p := (· == carriageReturn)) (l := c)] at h
  rcases List.mem_append.mp h with hm | hm
  · exact hm
  · have hcr := List.mem_rtakeWhile_imp hm
    exact absurd (by simpa using hcr) hb

theorem exists_inner {c : Text} {k : Terminator} (hlf : lineFeed ∉ c) (hk : k ≠ .none) :
    ∃ l : Line, l.Inner ∧ l.text = c ++ k.text ∧
      withoutReturns l.content = withoutReturns c := by
  by_cases hcr : k = .lf ∧ c.getLast? = some carriageReturn
  · obtain ⟨rfl, hlast⟩ := hcr
    obtain ⟨c, rfl⟩ := List.getLast?_eq_some_iff.mp hlast
    refine ⟨⟨c, .crlf⟩, ⟨⟨?_, by simp⟩, by simp⟩, ?_, (withoutReturns_concat c).symm⟩
    · exact fun h => hlf (List.mem_append_left _ h)
    · simp [Line.text, Terminator.text]
  · exact ⟨⟨c, k⟩, ⟨⟨hlf, fun h hlast => hcr ⟨h, hlast⟩⟩, hk⟩, rfl, rfl⟩

theorem map_splitLines_intercalate {eol : Terminator} {cs : List Text} (heol : eol ≠ .none)
    (hne : cs ≠ []) (hcs : ∀ c ∈ cs, lineFeed ∉ c) :
    (splitLines (eol.text.intercalate cs)).map withoutReturns = cs.map withoutReturns := by
  induction cs with
  | nil => exact absurd rfl hne
  | cons c cs ih =>
    have hc := hcs c (by simp)
    rcases eq_or_ne cs [] with rfl | hcsne
    · simp [splitLines, lines_of_not_mem hc]
    · obtain ⟨l, hl, htext, hcontent⟩ := exists_inner hc heol
      have ih := ih hcsne (fun d hd => hcs d (List.mem_cons_of_mem _ hd))
      rw [splitLines] at ih ⊢
      rw [List.intercalate_cons_of_ne_nil hcsne, ← htext, lines_append_of_inner hl, List.map_cons,
        List.map_cons, ih, hcontent, List.map_cons]

theorem splitLines_intercalate {eol : Terminator} {cs : List Text} (heol : eol ≠ .none)
    (hne : cs ≠ []) (hcs : ∀ c ∈ cs, Plain c) : splitLines (eol.text.intercalate cs) = cs := by
  have hunlines := unlines_terminate eol .none hne
  rw [Terminator.text, List.append_nil] at hunlines
  rw [splitLines, ← hunlines, lines_unlines (cut_terminate heol hne hcs), map_content_terminate]

/-! ## The line ending of a text -/

def ending (t : Text) : Terminator :=
  if (lines t).head?.map Line.terminator = some .crlf then .crlf else .lf

theorem lineEnding_eq (t : Text) : lineEnding t = (ending t).text := by
  unfold lineEnding ending
  obtain ⟨⟨c, k⟩, ls, hl⟩ := List.exists_cons_of_ne_nil (lines_ne_nil t)
  rw [hl]
  cases k <;> rfl

theorem ending_ne_none (t : Text) : ending t ≠ .none := by
  unfold ending
  split <;> simp

end Text

end HeaderOrder

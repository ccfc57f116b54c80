import HeaderOrder.Edit
import HeaderOrder.Proofs.Lines

/-! # What an edit keeps and what it changes -/

namespace HeaderOrder

open Byte Text

/-! ## The elements of a span -/

namespace Span

variable {α : Type} {s : Span} {ls : List α} {l : α}

theorem slice_eq_append (h : s.first ≤ s.last) (hl : ls[s.last]? = some l) :
    s.slice ls = (ls.drop s.first).take (s.last - s.first) ++ [l] := by
  have hget : (ls.drop s.first)[s.last - s.first]? = some l := by
    rw [List.getElem?_drop, Nat.add_sub_cancel' h, hl]
  rw [slice, show s.last + 1 - s.first = s.last - s.first + 1 by omega, List.take_add_one, hget]
  rfl

theorem slice_append (xs ms ys : List α) (l : α) :
    slice ⟨xs.length, xs.length + ms.length⟩ (xs ++ (ms ++ l :: ys)) = ms ++ [l] := by
  have hlen : xs.length + ms.length + 1 - xs.length = ms.length + 1 := by omega
  rw [slice, List.drop_left, hlen, List.take_length_add_append]
  rfl

theorem take_slice_drop (ls : List α) (h : s.first ≤ s.last) :
    ls.take s.first ++ s.slice ls ++ ls.drop (s.last + 1) = ls := by
  have hd : ls.drop (s.last + 1) = (ls.drop s.first).drop (s.last + 1 - s.first) := by
    rw [List.drop_drop, show s.first + (s.last + 1 - s.first) = s.last + 1 by omega]
  rw [slice, hd, List.append_assoc, List.take_append_drop, List.take_append_drop]

theorem length_slice (h : s.Fits ls.length) : (s.slice ls).length = s.last + 1 - s.first := by
  obtain ⟨h1, h2⟩ := h
  simp [slice]
  omega

theorem slice_ne_nil (h : s.Fits ls.length) : s.slice ls ≠ [] := by
  intro hn
  have := length_slice h
  obtain ⟨h1, -⟩ := h
  rw [hn, List.length_nil] at this
  omega

theorem map_slice {β : Type} (f : α → β) : (s.slice ls).map f = s.slice (ls.map f) := by
  simp [slice, List.map_take, List.map_drop]

end Span

/-! ## The three parts of a text -/

namespace Text

/-- A text cut in three, where `old` holds the lines of the span up to the terminator of the last
of them, and `before` and `after` hold every byte around it. -/
structure IsSplitAt (text : Text) (span : Span) (before old after : Text) : Prop where
  whole : text = before ++ old ++ after
  before_ends : before = [] ∨ before.getLast? = some lineFeed
  count_before : before.count lineFeed = span.first
  splitLines_old : splitLines old = span.slice (splitLines text)
  after_starts : after = [] ∨ [lineFeed] <+: after ∨ [carriageReturn, lineFeed] <+: after
  -- A carriage return in front of the line feed belongs to the terminator.
  old_ends : [lineFeed] <+: after →
    ∀ c, (splitLines old).getLast? = some c → c.getLast? ≠ some carriageReturn

theorem count_unlines_of_inner {ls : List Line} (h : ∀ l ∈ ls, l.Inner) :
    (unlines ls).count lineFeed = ls.length := by
  induction ls with
  | nil => rfl
  | cons l ls ih =>
    obtain ⟨t, ht, hlf⟩ := Line.text_of_inner (h l (by simp))
    have := ih (fun m hm => h m (List.mem_cons_of_mem _ hm))
    simp [unlines, ht, List.count_eq_zero.mpr hlf] at this ⊢
    omega

theorem unlines_ends_of_inner {ls : List Line} (h : ∀ l ∈ ls, l.Inner) :
    unlines ls = [] ∨ (unlines ls).getLast? = some lineFeed := by
  rcases List.eq_nil_or_concat ls with rfl | ⟨ls, l, rfl⟩
  · exact Or.inl rfl
  · obtain ⟨t, ht, -⟩ := Line.text_of_inner (h l (by simp))
    right
    simp [unlines, ht, ← List.append_assoc]

variable {text c : Text} {span : Span} {l : Line} {xs ms ns ys : List Line}

theorem exists_line (h : span.Fits (lines text).length) :
    ∃ l, (lines text)[span.last]? = some l := by
  obtain ⟨-, h2⟩ := h
  exact ⟨_, List.getElem?_eq_getElem h2⟩

theorem exists_parts (h : span.Fits (lines text).length) :
    ∃ xs ms l ys, lines text = xs ++ (ms ++ l :: ys) ∧
      span = ⟨xs.length, xs.length + ms.length⟩ := by
  obtain ⟨l, hl⟩ := exists_line h
  obtain ⟨hle, hlt⟩ := h
  refine ⟨(lines text).take span.first,
    ((lines text).drop span.first).take (span.last - span.first), l,
    (lines text).drop (span.last + 1), ?_, ?_⟩
  · have hslice := Span.slice_eq_append hle hl
    conv_lhs => rw [← Span.take_slice_drop (lines text) hle, hslice]
    simp
  · simp only [List.length_take, List.length_drop]
    rw [Nat.min_eq_left (by omega), Nat.min_eq_left (by omega), Nat.add_sub_cancel' hle]

theorem inner_of_lines (h : lines text = xs ++ (ms ++ l :: ys)) :
    (∀ m ∈ xs, m.Inner) ∧ (∀ m ∈ ms, m.Inner) ∧ Cut (l :: ys) := by
  have hcut := cut_lines text
  rwa [h, cut_append (by simp), cut_append (by simp)] at hcut

theorem text_of_lines (h : lines text = xs ++ (ms ++ l :: ys)) :
    text = unlines xs ++ (unlines ms ++ l.content) ++ (l.terminator.text ++ unlines ys) := by
  rw [← unlines_lines text, h]
  simp [unlines, Line.text]

theorem eq_nil_of_terminator (h : Cut (l :: ys)) (hk : l.terminator = .none) : ys = [] := by
  by_contra hne
  exact ((cut_cons hne).mp h).1.2 hk

theorem replaceLines_of_lines (h : lines text = xs ++ (ms ++ l :: ys)) (new : Text) :
    replaceLines text ⟨xs.length, xs.length + ms.length⟩ new =
      .ok (unlines xs ++ new ++ (l.terminator.text ++ unlines ys)) := by
  have hl : (lines text)[xs.length + ms.length]? = some l := by simp [h]
  have hfits : (⟨xs.length, xs.length + ms.length⟩ : Span).Fits (lines text).length := by
    refine ⟨Nat.le_add_right _ _, ?_⟩
    simp only [h, List.length_append, List.length_cons]
    omega
  simp only [replaceLines, if_pos hfits, hl, Option.map_some, Option.getD_some]
  simp [h, Nat.add_assoc]

theorem cut_of_lines (h : lines text = xs ++ (ms ++ l :: ys)) (hns : ∀ n ∈ ns, n.Inner)
    (hc : Plain c) : Cut (xs ++ (ns ++ ⟨c, l.terminator⟩ :: ys)) := by
  obtain ⟨hxs, -, hend⟩ := inner_of_lines h
  rw [cut_append (by simp), cut_append (by simp)]
  refine ⟨hxs, hns, ?_⟩
  rcases eq_or_ne ys [] with rfl | hys
  · exact ⟨hc.regular _, hend.2⟩
  · rw [cut_cons hys] at hend ⊢
    exact ⟨⟨hc.regular _, hend.1.2⟩, hend.2⟩

/-- An edit whose span fits only changes bytes from its first line to its last one. -/
theorem exists_replaceLines (h : span.Fits (splitLines text).length) :
    ∃ before old after, IsSplitAt text span before old after ∧
      ∀ new, replaceLines text span new = .ok (before ++ new ++ after) := by
  rw [length_splitLines] at h
  obtain ⟨xs, ms, l, ys, hlines, rfl⟩ := exists_parts h
  obtain ⟨hxs, hms, hend⟩ := inner_of_lines hlines
  have hreg := regular_of_cut hend l (by simp)
  have hold : lines (unlines ms ++ l.content) = ms ++ [⟨l.content, .none⟩] := by
    have hcut : Cut (ms ++ [⟨l.content, .none⟩]) :=
      (cut_append (by simp)).mpr ⟨hms, ⟨hreg.1, by simp⟩, rfl⟩
    rw [← lines_unlines hcut]
    simp [unlines, Line.text, Terminator.text]
  refine ⟨unlines xs, unlines ms ++ l.content, l.terminator.text ++ unlines ys,
    ⟨text_of_lines hlines, unlines_ends_of_inner hxs, count_unlines_of_inner hxs, ?_, ?_, ?_⟩,
    replaceLines_of_lines hlines⟩
  · rw [splitLines, hold, splitLines, ← Span.map_slice, hlines, Span.slice_append]
    simp
  · cases hk : l.terminator with
    | none => left; rw [eq_nil_of_terminator hend hk]; rfl
    | lf => exact Or.inr (Or.inl (List.prefix_append _ _))
    | crlf => exact Or.inr (Or.inr (List.prefix_append _ _))
  · intro hlf c hc
    have hk : l.terminator = .lf := by
      cases hk : l.terminator with
      | none =>
        rw [hk, eq_nil_of_terminator hend hk] at hlf
        simp [Terminator.text, unlines] at hlf
      | lf => rfl
      | crlf => rw [hk] at hlf; simp [Terminator.text, carriageReturn_ne_lineFeed.symm] at hlf
    rw [splitLines, hold, List.map_append, List.map_singleton, List.getLast?_concat,
      Option.some.injEq] at hc
    rw [← hc]
    exact hreg.2 hk

theorem lines_of_replaceLines {eol : Terminator} {cs : List Text} {edited : Text}
    (heol : eol ≠ .none) (hne : cs ≠ []) (hcs : ∀ c ∈ cs, Plain c)
    (h : span.Fits (lines text).length) (hl : (lines text)[span.last]? = some l)
    (he : replaceLines text span (eol.text.intercalate cs) = .ok edited) :
    lines edited = (lines text).take span.first ++ terminate eol l.terminator cs ++
      (lines text).drop (span.last + 1) := by
  obtain ⟨xs, ms, l', ys, hlines, rfl⟩ := exists_parts h
  obtain rfl : l' = l := by simpa [hlines] using hl
  rw [replaceLines_of_lines hlines, Except.ok.injEq] at he
  obtain ⟨ds, c, rfl⟩ := (List.eq_nil_or_concat' cs).resolve_left hne
  have hinner := inner_of_mem_map heol fun d hd => hcs d (List.mem_append_left [c] hd)
  have hcut := cut_of_lines hlines hinner (hcs c (by simp))
  have hunlines := unlines_terminate eol l'.terminator hne
  rw [terminate_concat] at hunlines ⊢
  have hparts : (lines text).take xs.length ++ (ds.map (Line.mk · eol) ++ [⟨c, l'.terminator⟩]) ++
      (lines text).drop (xs.length + ms.length + 1) =
        xs ++ (ds.map (Line.mk · eol) ++ ⟨c, l'.terminator⟩ :: ys) := by
    simp [hlines, Nat.add_assoc]
  simp only [hparts]
  rw [← lines_unlines hcut, ← he, ← List.append_assoc, List.append_assoc (unlines xs), ← hunlines]
  simp [unlines]

end Text

end HeaderOrder

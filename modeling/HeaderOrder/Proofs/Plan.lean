import HeaderOrder.Plan
import HeaderOrder.Proofs.Definition
import Mathlib.Data.List.Pairwise

/-!
# What a plan says

A plan is the hull of the definitions that fit and the blocks of the first ones.
-/

namespace HeaderOrder

open Byte Text

/-! ## Spans -/

namespace Span

/-- No line is in both spans. -/
def Disjoint (s t : Span) : Prop := s.last < t.first ∨ t.last < s.first

instance (s t : Span) : Decidable (s.Disjoint t) := inferInstanceAs (Decidable (_ ∨ _))

theorem disjoint_of_ne {ds : List Definition} {d e : Definition}
    (h : ds.Pairwise fun d e => d.span.Disjoint e.span) (hd : d ∈ ds) (he : e ∈ ds)
    (hne : d ≠ e) : d.span.Disjoint e.span := by
  have : Std.Symm fun d e : Definition => d.span.Disjoint e.span := ⟨fun _ _ => Or.symm⟩
  exact h.forall hd he hne

/-- The smallest span that covers all the spans. -/
structure IsHull (r : Span) (ss : List Span) : Prop where
  covers : ∀ s ∈ ss, r.first ≤ s.first ∧ s.last ≤ r.last
  first_mem : ∃ s ∈ ss, s.first = r.first
  last_mem : ∃ s ∈ ss, s.last = r.last

theorem IsHull.of_hull {r s t : Span} {ss : List Span} (h : IsHull r (Plan.hull s t :: ss)) :
    IsHull r (s :: t :: ss) := by
  obtain ⟨hcov, hfirst, hlast⟩ := h
  have hst := hcov (Plan.hull s t) (by simp)
  simp only [Plan.hull] at hst
  constructor
  · intro u hu
    simp only [List.mem_cons] at hu
    rcases hu with rfl | rfl | hu
    · omega
    · omega
    · exact hcov u (List.mem_cons_of_mem _ hu)
  · obtain ⟨u, hu, he⟩ := hfirst
    rcases List.mem_cons.mp hu with rfl | hu
    · simp only [Plan.hull] at he
      rcases Nat.le_total s.first t.first with h | h
      · exact ⟨s, by simp, by omega⟩
      · exact ⟨t, by simp, by omega⟩
    · exact ⟨u, by simp [hu], he⟩
  · obtain ⟨u, hu, he⟩ := hlast
    rcases List.mem_cons.mp hu with rfl | hu
    · simp only [Plan.hull] at he
      rcases Nat.le_total s.last t.last with h | h
      · exact ⟨t, by simp, by omega⟩
      · exact ⟨s, by simp, by omega⟩
    · exact ⟨u, by simp [hu], he⟩

theorem isHull_foldl (s : Span) (ss : List Span) : IsHull (ss.foldl Plan.hull s) (s :: ss) := by
  induction ss generalizing s with
  | nil => exact ⟨by simp, ⟨s, by simp, rfl⟩, ⟨s, by simp, rfl⟩⟩
  | cons t ss ih => exact (ih (Plan.hull s t)).of_hull

theorem IsHull.unique {r r' : Span} {ss : List Span} (h : IsHull r ss) (h' : IsHull r' ss) :
    r = r' := by
  obtain ⟨s, hs, hsr⟩ := h.first_mem
  obtain ⟨t, ht, htr⟩ := h.last_mem
  obtain ⟨s', hs', hsr'⟩ := h'.first_mem
  obtain ⟨t', ht', htr'⟩ := h'.last_mem
  have := h.covers s' hs'
  have := h.covers t' ht'
  have := h'.covers s hs
  have := h'.covers t ht
  obtain ⟨a, b⟩ := r
  obtain ⟨a', b'⟩ := r'
  simp only [mk.injEq] at *
  omega

theorem IsHull.fits {r : Span} {ss : List Span} {n : Nat} (h : IsHull r ss)
    (hss : ∀ s ∈ ss, s.Fits n) : r.Fits n := by
  obtain ⟨t, ht, htr⟩ := h.last_mem
  have hcov := h.covers t ht
  obtain ⟨h1, h2⟩ := hss t ht
  exact ⟨by omega, by omega⟩

end Span

/-! ## The blocks of a plan -/

namespace Plan

variable {prototypes : List Prototype} {definitions : List Definition} {target text : Text}
  {p : Plan}

theorem fits_of_mem_fitting {d : Definition} {n : Nat} (h : d ∈ fitting definitions target n) :
    d.file = target ∧ d.span.Fits n := by
  simpa [fitting] using (List.mem_filter.mp h).2

theorem mem_of_mem_ordered {d : Definition} (h : d ∈ ordered prototypes definitions) :
    d ∈ definitions := by
  obtain ⟨q, -, hq⟩ := List.mem_filterMap.mp h
  exact List.mem_of_find?_eq_some hq

theorem ordered_fitting (prototypes : List Prototype) (definitions : List Definition)
    (target : Text) (n : Nat) :
    ordered prototypes (fitting definitions target n) = prototypes.filterMap fun q =>
      definitions.find? fun d => d.name = q.name ∧ d.file = target ∧ d.span.Fits n := by
  unfold ordered fitting
  congr 1
  funext q
  rw [List.find?_filter]
  congr 1
  funext d
  simp only [Bool.decide_and, Bool.decide_eq_true, Bool.and_comm]

/-- What a plan is, part by part. -/
theorem make?_eq_some_iff :
    make? prototypes definitions target text = some p ↔
      ordered prototypes (fitting definitions target (splitLines text).length) ≠ [] ∧
      p.file = target ∧
      p.range.IsHull ((fitting definitions target (splitLines text).length).map (·.span)) ∧
      p.text = joinBlocks (splitLines text) (lineEnding text)
        (ordered prototypes (fitting definitions target (splitLines text).length)) ∧
      p.names = (ordered prototypes
        (fitting definitions target (splitLines text).length)).map (·.name) := by
  unfold make?
  dsimp only
  generalize fitting definitions target (splitLines text).length = inFile
  cases inFile with
  | nil => simp [ordered]
  | cons d ds =>
    have hhull := Span.isHull_foldl d.span (ds.map (·.span))
    dsimp only
    split_ifs with hb
    · simp [hb]
    · simp only [Option.some.injEq]
      constructor
      · rintro rfl
        exact ⟨hb, rfl, hhull, rfl, rfl⟩
      · rintro ⟨-, hfile, hrange, htext, hnames⟩
        obtain ⟨file, range, text', names⟩ := p
        simp only at hfile hrange htext hnames
        rw [hfile, htext, hnames, hhull.unique hrange]

theorem joinBlocks_eq {lines : List Text} {eol : Text} {blocks : List Definition}
    (h : ∀ d ∈ blocks, d.span.Fits lines.length) :
    joinBlocks lines eol blocks =
      eol.intercalate (List.intercalate [[]] (blocks.map fun d => d.span.slice lines)) := by
  rw [← intercalate_groups]
  · simp [joinBlocks, joinLines, Function.comp_def]
  · intro g hg
    obtain ⟨d, hd, rfl⟩ := List.mem_map.mp hg
    exact Span.slice_ne_nil (h d hd)

theorem map_name_ordered (prototypes : List Prototype) (definitions : List Definition) :
    (ordered prototypes definitions).map (·.name) =
      (prototypes.map (·.name)).filter fun n => definitions.any fun d => d.name = n := by
  induction prototypes with
  | nil => rfl
  | cons q prototypes ih =>
    unfold ordered at ih ⊢
    rw [List.filterMap_cons, List.map_cons, List.filter_cons, ← ih]
    cases hf : definitions.find? fun d => d.name = q.name with
    | none =>
      have hany : (definitions.any fun d => d.name = q.name) = false := by
        simpa using hf
      rw [hany]
      simp
    | some d =>
      have hname : d.name = q.name := by simpa using List.find?_some hf
      have hany : (definitions.any fun d => d.name = q.name) = true :=
        List.any_eq_true.mpr ⟨d, List.mem_of_find?_eq_some hf, by simpa using hname⟩
      rw [hany]
      simp [hname]

/-! ## From a header to a plan -/

def declared (header : Text) : List Text := Prototype.names (Prototype.ofText header)

/-- The plan that puts the definitions of a source into the order of a header. -/
def ofHeader? (header source file : Text) : Option Plan :=
  make? (Prototype.ofText header) (Definition.ofText (declared header) source file) file source

theorem fitting_ofText (names : List Text) (source file : Text) :
    fitting (Definition.ofText names source file) file (splitLines source).length =
      Definition.ofText names source file := by
  rw [fitting, List.filter_eq_self]
  intro d hd
  obtain ⟨hfile, -, hfits⟩ := Definition.fits_of_mem_ofText hd
  simpa [hfile] using hfits

/-! ## Applying a plan -/

def blockLines (lines : List Text) (blocks : List Definition) : List Text :=
  List.intercalate [[]] (blocks.map fun d => d.span.slice lines)

theorem mem_blockLines {lines : List Text} {blocks : List Definition} {c : Text}
    (h : c ∈ blockLines lines blocks) : c = [] ∨ c ∈ lines := by
  rcases mem_intercalate_groups h with rfl | ⟨g, hg, hc⟩
  · exact Or.inl rfl
  · obtain ⟨d, -, rfl⟩ := List.mem_map.mp hg
    exact Or.inr (List.mem_of_mem_drop (List.mem_of_mem_take hc))

theorem lineFeed_not_mem_of_mem_blockLines {blocks : List Definition} {c : Text}
    (h : c ∈ blockLines (splitLines text) blocks) : lineFeed ∉ c := by
  rcases mem_blockLines h with rfl | hmem
  · simp
  · exact lineFeed_not_mem_of_mem_splitLines hmem

theorem plain_of_mem_blockLines {blocks : List Definition} {c : Text}
    (hplain : ∀ line ∈ splitLines text, line.getLast? ≠ some carriageReturn)
    (h : c ∈ blockLines (splitLines text) blocks) : Plain c := by
  refine ⟨lineFeed_not_mem_of_mem_blockLines h, ?_⟩
  rcases mem_blockLines h with rfl | hmem
  · simp
  · exact hplain c hmem

theorem range_fits (h : make? prototypes definitions target text = some p) :
    p.range.Fits (splitLines text).length := by
  obtain ⟨-, -, hhull, -, -⟩ := make?_eq_some_iff.mp h
  apply hhull.fits
  intro s hs
  obtain ⟨d, hd, rfl⟩ := List.mem_map.mp hs
  exact (fits_of_mem_fitting hd).2

theorem first_le_length (h : make? prototypes definitions target text = some p) :
    p.range.first ≤ (splitLines text).length := by
  obtain ⟨h1, h2⟩ := range_fits h
  omega

theorem text_eq (h : make? prototypes definitions target text = some p) :
    p.text = (ending text).text.intercalate (blockLines (splitLines text)
      (ordered prototypes (fitting definitions target (splitLines text).length))) := by
  obtain ⟨-, -, -, htext, -⟩ := make?_eq_some_iff.mp h
  rw [htext, lineEnding_eq, joinBlocks_eq, blockLines]
  intro d hd
  exact (fits_of_mem_fitting (mem_of_mem_ordered hd)).2

theorem blockLines_ne_nil (h : make? prototypes definitions target text = some p) :
    blockLines (splitLines text)
      (ordered prototypes (fitting definitions target (splitLines text).length)) ≠ [] := by
  obtain ⟨hne, -⟩ := make?_eq_some_iff.mp h
  apply intercalate_groups_ne_nil
  · simpa using hne
  · intro g hg
    obtain ⟨d, hd, rfl⟩ := List.mem_map.mp hg
    exact Span.slice_ne_nil (fits_of_mem_fitting (mem_of_mem_ordered hd)).2

theorem lines_of_apply {edited : Text} (h : make? prototypes definitions target text = some p)
    (hplain : ∀ line ∈ splitLines text, line.getLast? ≠ some carriageReturn)
    (he : replaceLines text p.range p.text = .ok edited) :
    ∃ l, (lines text)[p.range.last]? = some l ∧
      lines edited = (lines text).take p.range.first ++
        terminate (ending text) l.terminator (blockLines (splitLines text)
          (ordered prototypes (fitting definitions target (splitLines text).length))) ++
        (lines text).drop (p.range.last + 1) := by
  have hfits := range_fits h
  rw [length_splitLines] at hfits
  obtain ⟨l, hl⟩ := exists_line hfits
  rw [text_eq h] at he
  refine ⟨l, hl, lines_of_replaceLines (ending_ne_none text) (blockLines_ne_nil h) ?_ hfits hl he⟩
  intro c hc
  exact plain_of_mem_blockLines hplain hc

theorem splitLines_of_apply {edited : Text}
    (h : make? prototypes definitions target text = some p)
    (hplain : ∀ line ∈ splitLines text, line.getLast? ≠ some carriageReturn)
    (he : replaceLines text p.range p.text = .ok edited) :
    splitLines edited = (splitLines text).take p.range.first ++
      blockLines (splitLines text)
        (ordered prototypes (fitting definitions target (splitLines text).length)) ++
      (splitLines text).drop (p.range.last + 1) := by
  obtain ⟨l, -, hlines⟩ := lines_of_apply h hplain he
  conv_lhs => rw [splitLines, hlines]
  rw [List.map_append, List.map_append, map_content_terminate, List.map_take, List.map_drop]
  rfl

/-- A plan can be applied to its text, and only the lines of its range make way for its blocks. -/
theorem edit_of_make? (h : make? prototypes definitions target text = some p) :
    p.range.Fits (splitLines text).length ∧
    ∃ before old after, IsSplitAt text p.range before old after ∧
      replaceLines text p.range p.text = .ok (before ++ p.text ++ after) ∧
      ∃ blocks, blocks = (prototypes.filterMap fun q => definitions.find? fun d =>
          d.name = q.name ∧ d.file = target ∧ d.span.Fits (splitLines text).length) ∧
        p.names = blocks.map (·.name) ∧
        ((∀ line ∈ splitLines text, line.getLast? ≠ some carriageReturn) →
          splitLines (before ++ p.text ++ after) = (splitLines text).take p.range.first ++
            blockLines (splitLines text) blocks ++ (splitLines text).drop (p.range.last + 1)) := by
  have hfits := range_fits h
  obtain ⟨-, -, -, -, hnames⟩ := make?_eq_some_iff.mp h
  obtain ⟨before, old, after, hsplit, hreplace⟩ := exists_replaceLines hfits
  refine ⟨hfits, before, old, after, hsplit, hreplace p.text, _, rfl, ?_, ?_⟩
  · rw [hnames, ordered_fitting]
  · intro hplain
    rw [splitLines_of_apply h hplain (hreplace p.text), ordered_fitting]

theorem edit_of_make?_mixed :
    let text : Text := "top\r\na1\na2\r\nb1\n\nend"
    let new : Text := "b1\r\n\r\na1\r\na2\r\n\r\nb1"
    make? [{ name := "b" }, { name := "a" }, { name := "c" }, { name := "b" }]
        [⟨"a", 4, ⟨4, 6⟩, "f"⟩, ⟨"b", 3, ⟨3, 1⟩, "f"⟩, ⟨"c", 0, ⟨0, 5⟩, "g"⟩, ⟨"a", 1, ⟨1, 2⟩, "f"⟩,
          ⟨"b", 3, ⟨3, 3⟩, "f"⟩] "f" text = some ⟨"f", ⟨1, 3⟩, new, ["b", "a", "b"]⟩ ∧
      ∃ before after, replaceLines text ⟨1, 3⟩ new = .ok (before ++ new ++ after) ∧
        splitLines (before ++ new ++ after) =
          ["top", "b1", "", "a1", "a2", "", "b1", "", "end"] := by
  intro text new
  have hmake : make? [{ name := "b" }, { name := "a" }, { name := "c" }, { name := "b" }]
      [⟨"a", 4, ⟨4, 6⟩, "f"⟩, ⟨"b", 3, ⟨3, 1⟩, "f"⟩, ⟨"c", 0, ⟨0, 5⟩, "g"⟩, ⟨"a", 1, ⟨1, 2⟩, "f"⟩,
        ⟨"b", 3, ⟨3, 3⟩, "f"⟩] "f" text = some ⟨"f", ⟨1, 3⟩, new, ["b", "a", "b"]⟩ := by rfl
  obtain ⟨-, before, old, after, -, hreplace, blocks, rfl, -, hlines⟩ := edit_of_make? hmake
  refine ⟨hmake, before, after, hreplace, ?_⟩
  rw [hlines (by decide)]
  rfl

end Plan

end HeaderOrder

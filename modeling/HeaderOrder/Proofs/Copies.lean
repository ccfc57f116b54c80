import HeaderOrder.Proofs.Overlap
import Mathlib.Data.List.Nodup

/-!
# How often a plan copies a line

A line is copied once for each span it is in.
-/

namespace HeaderOrder

open Byte Text Code Definition

theorem Text.trim_ne_nil {b : Byte} {t : Text} (h : b ∈ t) (hb : isSpace b = false) :
    trim t ≠ [] := by
  have hleft : b ∈ trimLeft t := by
    have hsplit : b ∈ t.takeWhile isSpace ++ t.dropWhile isSpace := by
      rwa [List.takeWhile_append_dropWhile]
    rcases List.mem_append.mp hsplit with hm | hm
    · rw [List.mem_takeWhile_imp hm] at hb
      exact absurd hb (by simp)
    · exact hm
  intro hnil
  simp only [trim, trimRight, List.reverse_eq_nil_iff, List.dropWhile_eq_nil_iff,
    List.mem_reverse] at hnil
  rw [hnil b hleft] at hb
  exact absurd hb (by simp)

/-! ## Definitions that start inside another -/

namespace Definition

variable {names : List Text} {source file : Text} {ds : List Definition} {d e : Definition}

theorem pairwise_disjoint_iff (hnodup : ds.Nodup)
    (hspan : ∀ d ∈ ds, d.span.first = d.line ∧ d.span.first ≤ d.span.last) :
    (ds.map (·.span)).Pairwise Span.Disjoint ↔
      ∀ d ∈ ds, ∀ e ∈ ds, d ≠ e → ¬ d.span.Covers e.line := by
  rw [List.pairwise_map]
  constructor
  · intro h d hd e he hne hcov
    obtain ⟨h1, h2⟩ := hcov
    have := hspan e he
    rcases Span.disjoint_of_ne h hd he hne with hlt | hlt
    · omega
    · omega
  · intro h
    apply hnodup.pairwise_of_forall_ne
    intro d hd e he hne
    have hde := h d hd e he hne
    have hed := h e he d hd hne.symm
    have := hspan d hd
    have := hspan e he
    simp only [Span.Covers, not_and, Nat.not_le] at hde hed
    unfold Span.Disjoint
    omega

theorem exists_line_of_mem_ofText (h : d ∈ ofText names source file) :
    ∃ line, (splitLines source)[d.line]? = some line ∧ trim line ≠ [] ∧
      trim (withoutReturns line) ≠ [] := by
  obtain ⟨line, hline, -, -, hmentions, -⟩ := mem_ofText_iff.mp h
  have hmem : openParen ∈ line := (occurs_iff.mp hmentions).subset (by simp)
  exact ⟨line, hline, trim_ne_nil hmem (by decide),
    trim_ne_nil (mem_withoutReturns hmem (by decide)) (by decide)⟩

theorem spans_of_perm (hperm : ds.Perm (ofText names source file)) :
    ∀ d ∈ ds, d.span.first = d.line ∧ d.span.first ≤ d.span.last := by
  intro d hd
  obtain ⟨-, hfirst, hfits⟩ := fits_of_mem_ofText (hperm.mem_iff.mp hd)
  exact ⟨hfirst, hfits.1⟩

theorem one_lt_countP_covers (hd : d ∈ ds) (he : e ∈ ds) (hne : d ≠ e) {i : Nat}
    (hdi : d.span.Covers i) (hei : e.span.Covers i) :
    1 < (ds.map (·.span)).countP fun s => s.Covers i := by
  rw [List.countP_map, List.countP_eq_length_filter]
  have hdf : d ∈ ds.filter ((fun s => decide (Span.Covers s i)) ∘ fun d => d.span) := by
    simpa [hd] using hdi
  have hef : e ∈ ds.filter ((fun s => decide (Span.Covers s i)) ∘ fun d => d.span) := by
    simpa [he] using hei
  generalize List.filter _ ds = covering at hdf hef ⊢
  rcases covering with _ | ⟨x, _ | ⟨y, covering⟩⟩
  · simp at hdf
  · rw [List.mem_singleton] at hdf hef
    exact absurd (hdf.trans hef.symm) hne
  · simp

/-- Where definitions are not apart, a line that is not blank is in two of them. -/
theorem exists_doubled (hperm : ds.Perm (ofText names source file)) (hnodup : ds.Nodup)
    (h : ¬ (ds.map (·.span)).Pairwise Span.Disjoint) :
    ∃ i line, (splitLines source)[i]? = some line ∧ trim line ≠ [] ∧
      trim (withoutReturns line) ≠ [] ∧
      1 < (ds.map (·.span)).countP fun s => s.Covers i := by
  rw [pairwise_disjoint_iff hnodup (spans_of_perm hperm)] at h
  push Not at h
  obtain ⟨d, hd, e, he, hne, hcov⟩ := h
  obtain ⟨line, hline, hblank, hblank'⟩ := exists_line_of_mem_ofText (hperm.mem_iff.mp he)
  obtain ⟨hfirst, hlast⟩ := spans_of_perm hperm e he
  have hself : e.span.Covers e.line := ⟨by omega, by omega⟩
  exact ⟨e.line, line, hline, hblank, hblank', one_lt_countP_covers hd he hne hcov hself⟩

end Definition

/-! ## The lines of a plan -/

namespace Plan

variable {prototypes : List Prototype} {definitions blocks : List Definition}
  {lines new : List Text} {source file : Text} {p : Plan} {q : Text → Bool} {f : Text → Text}

theorem perm_ordered (hnames : (prototypes.map (·.name)).Nodup)
    (hone : (definitions.map (·.name)).Nodup)
    (hdeclared : ∀ d ∈ definitions, d.name ∈ prototypes.map (·.name)) :
    (ordered prototypes definitions).Perm definitions := by
  have hordered : ((ordered prototypes definitions).map (·.name)).Nodup := by
    rw [map_name_ordered]
    exact hnames.filter _
  rw [List.perm_ext_iff_of_nodup hordered.of_map hone.of_map]
  intro d
  constructor
  · exact mem_of_mem_ordered
  · intro hd
    have hname : d.name ∈ (ordered prototypes definitions).map (·.name) := by
      rw [map_name_ordered, List.mem_filter]
      exact ⟨hdeclared d hd, List.any_eq_true.mpr ⟨d, hd, by simp⟩⟩
    obtain ⟨e, he, hed⟩ := List.mem_map.mp hname
    rwa [← List.inj_on_of_nodup_map hone (mem_of_mem_ordered he) hd hed]

theorem perm_ordered_ofText {header : Text}
    (hnames : ((Prototype.ofText header).map (·.name)).Nodup)
    (hone : ((ofText (declared header) source file).map (·.name)).Nodup) :
    (ordered (Prototype.ofText header) (ofText (declared header) source file)).Perm
      (ofText (declared header) source file) := by
  apply perm_ordered hnames hone
  intro d hd
  obtain ⟨-, -, -, hname, -⟩ := mem_ofText_iff.mp hd
  exact (Prototype.mem_distinct.mp (Prototype.mem_distinct.mp hname).1).1

theorem countP_blockLines (hq : q [] = false) : (blockLines lines blocks).countP q =
    ((blocks.map (·.span)).map fun s => (s.slice lines).countP q).sum := by
  induction blocks with
  | nil => simp [blockLines]
  | cons d blocks ih =>
    rcases eq_or_ne blocks [] with rfl | hne
    · simp [blockLines]
    · rw [blockLines] at ih ⊢
      rw [List.map_cons, List.intercalate_cons_of_ne_nil (by simpa using hne), List.countP_append,
        List.countP_append, ih]
      simp [hq]

/-- The new lines are those of the spans, as far as `f` tells them apart. None but the empty line
comes from elsewhere, none is lost, and none is doubled when the spans are apart. -/
structure CopiesLines (f : Text → Text) (lines new : List Text) (spans : List Span) : Prop where
  count_eq : ∀ c ≠ [], (new.map f).count c =
    (spans.map fun s => ((s.slice lines).map f).count c).sum
  count_le : ∀ c ≠ [], ((Span.linesIn spans lines).map f).count c ≤ (new.map f).count c
  count_eq_iff : (∀ c, trim c ≠ [] →
    (new.map f).count c = ((Span.linesIn spans lines).map f).count c) ↔
      spans.Pairwise Span.Disjoint

theorem CopiesLines.of_map (hf : f [] = []) (hfits : ∀ d ∈ blocks, d.span.Fits lines.length)
    (hnew : new.map f = (blockLines lines blocks).map f)
    (hdoubled : ¬ (blocks.map (·.span)).Pairwise Span.Disjoint → ∃ i line, lines[i]? = some line ∧
      trim (f line) ≠ [] ∧ 1 < (blocks.map (·.span)).countP fun s => s.Covers i) :
    CopiesLines f lines new (blocks.map (·.span)) := by
  have hspans : ∀ s ∈ blocks.map (·.span), s.Fits lines.length := by
    intro s hs
    obtain ⟨d, hd, rfl⟩ := List.mem_map.mp hs
    exact hfits d hd
  have hcount : ∀ (xs : List Text) c, (xs.map f).count c = xs.countP fun x => f x == c := by
    intro xs c
    rw [List.count, List.countP_map]
    rfl
  have hsum : ∀ c ≠ [], (new.map f).count c =
      ((blocks.map (·.span)).map fun s => (s.slice lines).countP fun x => f x == c).sum := by
    intro c hc
    rw [hnew, hcount, countP_blockLines]
    simpa [hf] using hc.symm
  refine ⟨?_, ?_, ?_, ?_⟩
  · intro c hc
    simp only [hcount]
    rw [← hcount new, hsum c hc]
  · intro c hc
    rw [hsum c hc, hcount]
    exact Span.countP_linesIn_le hspans
  · -- A doubled line occurs too often.
    intro hall
    by_contra hne
    obtain ⟨i, line, hline, hblank, htwo⟩ := hdoubled hne
    have hc : f line ≠ [] := by
      intro hnil
      rw [hnil] at hblank
      exact hblank rfl
    have hlt := Span.countP_linesIn_lt (q := fun x => f x == f line) hspans hline (by simp) htwo
    rw [← hsum _ hc, hall _ hblank, hcount] at hlt
    exact Nat.lt_irrefl _ hlt
  · intro h c hblank
    have hc : c ≠ [] := by
      rintro rfl
      exact hblank rfl
    rw [hsum c hc, hcount]
    exact (Span.countP_linesIn_of_le_one hspans (Span.countP_covers_le_one h)).symm

/-- A plan copies every definition once, and each of its lines as often as they have it. -/
theorem copies_each_definition {header : Text}
    (hnames : ((Prototype.ofText header).map (·.name)).Nodup)
    (hone : ((ofText (declared header) source file).map (·.name)).Nodup)
    (hp : ofHeader? header source file = some p) :
    ∃ blocks, p.text = joinBlocks (splitLines source) (lineEnding source) blocks ∧
      p.names = blocks.map (·.name) ∧
      blocks.Perm (ofText (declared header) source file) ∧
      CopiesLines withoutReturns (splitLines source) (splitLines p.text) (blocks.map (·.span)) ∧
      ((∀ line ∈ splitLines source, line.getLast? ≠ some carriageReturn) →
        CopiesLines id (splitLines source) (splitLines p.text) (blocks.map (·.span))) ∧
      ((blocks.map (·.span)).Pairwise Span.Disjoint ↔
        ∀ d ∈ ofText (declared header) source file, ∀ e ∈ ofText (declared header) source file,
          d ≠ e → ¬ d.span.Covers e.line) := by
  unfold ofHeader? at hp
  obtain ⟨-, -, -, htext, hpnames⟩ := make?_eq_some_iff.mp hp
  have hjoined := text_eq hp
  have hne := blockLines_ne_nil hp
  rw [fitting_ofText] at htext hpnames hjoined hne
  have hperm := perm_ordered_ofText hnames hone
  generalize ordered (Prototype.ofText header) (ofText (declared header) source file) = blocks at *
  have hnodup : blocks.Nodup := ((hperm.map _).nodup_iff.mpr hone).of_map
  have hfits : ∀ d ∈ blocks, d.span.Fits (splitLines source).length := fun d hd =>
    (fits_of_mem_ofText (hperm.mem_iff.mp hd)).2.2
  refine ⟨blocks, htext, hpnames, hperm, ?_, ?_, ?_⟩
  · apply CopiesLines.of_map rfl hfits
    · rw [hjoined, map_splitLines_intercalate (ending_ne_none source) hne]
      exact fun c hc => lineFeed_not_mem_of_mem_blockLines hc
    · intro h
      obtain ⟨i, line, hline, -, hblank, htwo⟩ := exists_doubled hperm hnodup h
      exact ⟨i, line, hline, hblank, htwo⟩
  · intro hplain
    apply CopiesLines.of_map rfl hfits
    · rw [hjoined, splitLines_intercalate (ending_ne_none source) hne]
      exact fun c hc => plain_of_mem_blockLines hplain hc
    · intro h
      obtain ⟨i, line, hline, hblank, -, htwo⟩ := exists_doubled hperm hnodup h
      exact ⟨i, line, hline, hblank, htwo⟩
  · rw [pairwise_disjoint_iff hnodup (spans_of_perm hperm)]
    simp only [hperm.mem_iff]

theorem copies_each_definition_apart :
    let header : Text := "int b();\nint a();\n"
    let source : Text := "int a() \x7b\n  x;\n\x7d\nint b() \x7b\n\x7d\n"
    let text : Text := "int b() \x7b\n\x7d\n\nint a() \x7b\n  x;\n\x7d"
    ((Prototype.ofText header).map (·.name)).Nodup ∧
    ((ofText (declared header) source "f").map (·.name)).Nodup ∧
    ofHeader? header source "f" = some ⟨"f", ⟨0, 4⟩, text, ["b", "a"]⟩ ∧
    ∃ blocks : List Definition, blocks.Perm (ofText (declared header) source "f") ∧
      CopiesLines id (splitLines source) (splitLines text) (blocks.map (·.span)) := by
  have hnames : ((Prototype.ofText "int b();\nint a();\n").map (·.name)).Nodup := by
    decide +kernel
  have hone : ((ofText (declared "int b();\nint a();\n")
      "int a() \x7b\n  x;\n\x7d\nint b() \x7b\n\x7d\n" "f").map (·.name)).Nodup := by decide +kernel
  have hplan : ofHeader? "int b();\nint a();\n"
      "int a() \x7b\n  x;\n\x7d\nint b() \x7b\n\x7d\n" "f" = some ⟨"f", ⟨0, 4⟩,
        "int b() \x7b\n\x7d\n\nint a() \x7b\n  x;\n\x7d", ["b", "a"]⟩ := by decide +kernel
  obtain ⟨blocks, -, -, hperm, -, hcopies, -⟩ := copies_each_definition hnames hone hplan
  exact ⟨hnames, hone, hplan, blocks, hperm, hcopies (by decide)⟩

/-- A call on the line of a definition doubles that line. -/
theorem copies_doubled_or_cut :
    (let header : Text := "int alpha();\nint beta();\n"
      let source : Text := "int alpha() \x7b return beta(); \x7d\n"
      let line : Text := "int alpha() \x7b return beta(); \x7d"
      let text : Text := line ++ "\n\n" ++ line
      let found := ofText (declared header) source "f"
      ((Prototype.ofText header).map (·.name)).Nodup ∧ (found.map (·.name)).Nodup ∧
      ofHeader? header source "f" = some ⟨"f", ⟨0, 0⟩, text, ["alpha", "beta"]⟩ ∧
      (splitLines text).count line = 2 ∧
      (Span.linesIn (found.map (·.span)) (splitLines source)).count line = 1 ∧
      ¬ (found.map (·.span)).Pairwise Span.Disjoint) ∧
    (let header : Text := "int a();\n"
      let source : Text := "\nint a() \x7b\r\r\n\x7d\n"
      let line : Text := "int a() \x7b\r"
      let text : Text := line ++ "\n\x7d"
      let found := ofText (declared header) source "f"
      ((Prototype.ofText header).map (·.name)).Nodup ∧ (found.map (·.name)).Nodup ∧
      ofHeader? header source "f" = some ⟨"f", ⟨1, 2⟩, text, ["a"]⟩ ∧
      (splitLines text).count line = 0 ∧
      (Span.linesIn (found.map (·.span)) (splitLines source)).count line = 1) := by
  decide +kernel

end Plan

end HeaderOrder

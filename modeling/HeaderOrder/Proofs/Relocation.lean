import HeaderOrder.Proofs.Block

/-!
# Finding moved definitions again

In a movable source every definition is a block and nothing else mentions a name.
-/

namespace HeaderOrder

open Byte Text Code Definition

/-- Every mention of a name in code starts a definition, and each definition closes before the
next one starts. No content ends in a carriage return, which the text could not keep. -/
structure Movable (names : List Text) (source file : Text) : Prop where
  plain : ∀ line ∈ splitLines source, line.getLast? ≠ some carriageReturn
  disjoint : (ofText names source file).Pairwise fun d e => d.span.Disjoint e.span
  closes : ∀ d ∈ ofText names source file,
    (closedLength? ((splitLines source).drop d.line)).isSome
  mentioned : ∀ i, (h : i < (splitLines source).length) →
    isComment (splitLines source)[i] = false →
    (∃ n ∈ names, mentions (splitLines source)[i] n = true) →
    ∃ d ∈ ofText names source file, d.line = i

namespace Movable

variable {names : List Text} {source file edited : Text} {d e : Definition}

theorem eq_of_line_mem (h : Movable names source file) (hd : d ∈ ofText names source file)
    (he : e ∈ ofText names source file) (h1 : d.line ≤ e.line) (h2 : e.line ≤ d.span.last) :
    d = e := by
  by_contra hne
  obtain ⟨-, hdf, hdfit, -⟩ := fits_of_mem_ofText hd
  obtain ⟨-, hef, hefit, -⟩ := fits_of_mem_ofText he
  rcases Span.disjoint_of_ne h.disjoint hd he hne with hlt | hlt
  · omega
  · omega

theorem quiet_of_forall_ne (h : Movable names source file) {i : Nat} {line : Text}
    (hi : (splitLines source)[i]? = some line)
    (hne : ∀ d ∈ ofText names source file, d.line ≠ i) :
    Quiet (Prototype.distinct names) line := by
  obtain ⟨hlt, rfl⟩ := List.getElem?_eq_some_iff.mp hi
  by_contra hq
  simp only [Quiet, not_or, Bool.not_eq_true, not_forall, Bool.not_eq_false] at hq
  obtain ⟨hcode, n, hn, hm⟩ := hq
  obtain ⟨d, hd, hdi⟩ := h.mentioned i hlt hcode ⟨n, (Prototype.mem_distinct.mp hn).1, hm⟩
  exact hne d hd hdi

theorem eq_singleton_of_nodup {α : Type} {l : List α} {a : α} (hl : l.Nodup) (ha : a ∈ l)
    (h : ∀ b ∈ l, b = a) : l = [a] := by
  cases l with
  | nil => simp at ha
  | cons x xs =>
    have hx := h x (by simp)
    subst hx
    cases xs with
    | nil => rfl
    | cons y ys =>
      have hy := h y (by simp)
      simp [hy] at hl

theorem filter_mentions (h : Movable names source file) (hd : d ∈ ofText names source file)
    {line : Text} (hline : (splitLines source)[d.line]? = some line) :
    (Prototype.distinct names).filter (mentions line) = [d.name] := by
  obtain ⟨l, hl, hcode, hname, hm, n, hb, hdef⟩ := mem_ofText_iff.mp hd
  obtain rfl : l = line := by
    rw [hl] at hline
    exact Option.some.inj hline
  apply eq_singleton_of_nodup ((Prototype.nodup_distinct names).filter _)
  · exact List.mem_filter.mpr ⟨hname, hm⟩
  · intro m hm
    obtain ⟨hmem, hmen⟩ := List.mem_filter.mp hm
    have he : { d with name := m } ∈ ofText names source file :=
      mem_ofText_iff.mpr ⟨l, hl, hcode, hmem, hmen, n, hb, by rw [hdef]⟩
    have hlast : d.line ≤ d.span.last := by
      rw [hdef]
      exact Nat.le_add_right _ _
    have := h.eq_of_line_mem hd he (le_refl _) hlast
    exact (congrArg Definition.name this).symm

theorem quiet_of_mem_body (h : Movable names source file) (hd : d ∈ ofText names source file)
    {l : Text} (hl : l ∈ ((splitLines source).drop (d.line + 1)).take (d.span.last - d.line)) :
    Quiet (Prototype.distinct names) l := by
  obtain ⟨j, hj⟩ := List.mem_iff_getElem?.mp hl
  rw [List.getElem?_take] at hj
  split_ifs at hj with hjlt
  rw [List.getElem?_drop] at hj
  apply h.quiet_of_forall_ne hj
  intro e he hei
  have := h.eq_of_line_mem hd he (by omega) (by omega)
  rw [this] at hei
  omega

/-- The lines of a definition are a block. -/
theorem isBlock_of_mem (h : Movable names source file) (hd : d ∈ ofText names source file) :
    IsBlock (Prototype.distinct names) (d.name, d.span.slice (splitLines source)) := by
  obtain ⟨line, hline, hcode, -, -, n, hb, hdef⟩ := mem_ofText_iff.mp hd
  obtain ⟨-, hfirst, hfits⟩ := fits_of_mem_ofText hd
  have hlast : d.span.last = d.line + n := by rw [hdef]
  have htake : d.span.slice (splitLines source) =
      ((splitLines source).drop d.line).take (n + 1) := by
    rw [Span.slice, hfirst, hlast, show d.line + n + 1 - d.line = n + 1 by omega]
  have hslice : d.span.slice (splitLines source) =
      line :: ((splitLines source).drop (d.line + 1)).take n := by
    obtain ⟨hlt, rfl⟩ := List.getElem?_eq_some_iff.mp hline
    rw [htake, List.drop_eq_getElem_cons hlt, List.take_succ_cons]
  have hlength : (((splitLines source).drop (d.line + 1)).take n).length = n := by
    have := hfits.2
    rw [List.length_take, List.length_drop]
    omega
  refine ⟨line, _, hslice, hcode, h.filter_mentions hd hline, ?_, ?_⟩
  · intro l hl
    exact h.quiet_of_mem_body hd (by rwa [hlast, Nat.add_sub_cancel_left])
  · obtain ⟨m, hm⟩ := Option.isSome_iff_exists.mp (h.closes d hd)
    have hmn : n = m := by
      have := bodyLength?_of_closedLength? hm
      rw [hb] at this
      exact Option.some.inj this
    rw [hlength, hmn, ← hmn, ← hslice]
    apply closedLength?_congr (hmn ▸ hm)
    rw [htake]

end Movable

/-! ## After the plan -/

namespace Plan

variable {prototypes : List Prototype} {names : List Text} {source file edited : Text} {p : Plan}

/-- The names and the lines of the definitions that a plan writes. -/
def blocksOf (prototypes : List Prototype) (names : List Text) (source file : Text) :
    List (Text × List Text) :=
  (ordered prototypes (ofText names source file)).map fun d =>
    (d.name, d.span.slice (splitLines source))

theorem isBlock_of_mem_blocksOf (h : Movable names source file) {b : Text × List Text}
    (hb : b ∈ blocksOf prototypes names source file) : IsBlock (Prototype.distinct names) b := by
  obtain ⟨d, hd, rfl⟩ := List.mem_map.mp hb
  exact h.isBlock_of_mem (mem_of_mem_ordered hd)

theorem blockLines_eq (prototypes : List Prototype) (names : List Text) (source file : Text) :
    blockLines (splitLines source) (ordered prototypes (ofText names source file)) =
      List.intercalate [[]] ((blocksOf prototypes names source file).map (·.2)) := by
  simp [blockLines, blocksOf, Function.comp_def]

theorem line_mem_range
    (hp : make? prototypes (ofText names source file) file source = some p) {d : Definition}
    (hd : d ∈ ofText names source file) : p.range.first ≤ d.line ∧ d.line ≤ p.range.last := by
  obtain ⟨-, -, hhull, -, -⟩ := make?_eq_some_iff.mp hp
  rw [fitting_ofText] at hhull
  obtain ⟨-, hfirst, hfits, -⟩ := fits_of_mem_ofText hd
  have := hhull.covers _ (List.mem_map_of_mem hd)
  omega

theorem quiet_of_not_mem_range (h : Movable names source file)
    (hp : make? prototypes (ofText names source file) file source = some p) {i : Nat}
    {line : Text} (hi : (splitLines source)[i]? = some line)
    (hout : i < p.range.first ∨ p.range.last < i) : Quiet (Prototype.distinct names) line := by
  apply h.quiet_of_forall_ne hi
  intro d hd
  have := line_mem_range hp hd
  omega

theorem ofText_of_apply (h : Movable names source file)
    (hp : make? prototypes (ofText names source file) file source = some p)
    (he : replaceLines source p.range p.text = .ok edited) :
    ofText names edited file =
      placed file p.range.first (blocksOf prototypes names source file) := by
  have hlines := splitLines_of_apply hp h.plain he
  rw [fitting_ofText, blockLines_eq] at hlines
  have hpre : ∀ line ∈ (splitLines source).take p.range.first,
      Quiet (Prototype.distinct names) line := by
    intro line hline
    obtain ⟨i, hi⟩ := List.mem_iff_getElem?.mp hline
    rw [List.getElem?_take] at hi
    split_ifs at hi with hlt
    exact quiet_of_not_mem_range h hp hi (Or.inl hlt)
  have hpost : ∀ line ∈ (splitLines source).drop (p.range.last + 1),
      Quiet (Prototype.distinct names) line := by
    intro line hline
    obtain ⟨i, hi⟩ := List.mem_iff_getElem?.mp hline
    rw [List.getElem?_drop] at hi
    exact quiet_of_not_mem_range h hp hi (Or.inr (by omega))
  rw [ofText, hlines, List.append_assoc, ofLines_append_of_quiet _ _ hpre,
    List.length_take_of_le (first_le_length hp), Nat.zero_add]
  exact ofLines_blocks (fun b hb => isBlock_of_mem_blocksOf h hb) hpost

theorem map_slice_of_apply (h : Movable names source file)
    (hp : make? prototypes (ofText names source file) file source = some p)
    (he : replaceLines source p.range p.text = .ok edited) :
    (ofText names edited file).map (fun d => (d.name, d.span.slice (splitLines edited))) =
      blocksOf prototypes names source file := by
  have hlines := splitLines_of_apply hp h.plain he
  rw [fitting_ofText, blockLines_eq] at hlines
  rw [ofText_of_apply h hp he, hlines]
  apply map_slice_placed
  · exact List.length_take_of_le (first_le_length hp)
  · exact fun b hb => (isBlock_of_mem_blocksOf h hb).ne_nil

/-- After its plan is applied, a movable source has its definitions in the order of the header. -/
theorem definitions_in_header_order {header : Text}
    (h : Movable (declared header) source file) (hp : ofHeader? header source file = some p) :
    ∃ edited, replaceLines source p.range p.text = .ok edited ∧
      ∃ blocks, blocks = ((Prototype.ofText header).filterMap fun q =>
          (ofText (declared header) source file).find? fun d => d.name = q.name) ∧
        p.text = joinBlocks (splitLines source) (lineEnding source) blocks ∧
        p.names = ((Prototype.ofText header).map (·.name)).filter (fun n =>
          (ofText (declared header) source file).any fun d => d.name = n) ∧
        (ofText (declared header) edited file).map (·.name) = p.names ∧
        (ofText (declared header) edited file).map (fun d => d.span.slice (splitLines edited)) =
          blocks.map (fun d => d.span.slice (splitLines source)) ∧
        (ofText (declared header) edited file).head?.map (·.span.first) = some p.range.first ∧
        (ofText (declared header) edited file).IsChain
          (fun d e => e.span.first = d.span.last + 2) ∧
        ∀ d ∈ ofText (declared header) edited file, d.line = d.span.first ∧ d.file = file := by
  unfold ofHeader? at hp
  obtain ⟨before, old, after, -, hreplace⟩ := exists_replaceLines (range_fits hp)
  have he := hreplace p.text
  have hfound := ofText_of_apply h hp he
  have hblocks : ∀ b ∈ blocksOf (Prototype.ofText header) (declared header) source file,
      b.2 ≠ [] := fun b hb => (isBlock_of_mem_blocksOf h hb).ne_nil
  obtain ⟨hne, -, -, htext, hnames⟩ := make?_eq_some_iff.mp hp
  rw [fitting_ofText] at hne htext hnames
  refine ⟨_, he, _, rfl, htext, ?_, ?_, ?_, ?_, ?_, ?_⟩
  · rw [hnames, map_name_ordered]
  · rw [hfound, map_name_placed, hnames]
    simp [blocksOf]
  · have hslices := congrArg (List.map Prod.snd) (map_slice_of_apply h hp he)
    simpa [blocksOf, ordered, Function.comp_def] using hslices
  · rw [hfound]
    exact head?_placed (by simpa [blocksOf] using hne)
  · rw [hfound]
    exact isChain_placed hblocks
  · rw [hfound]
    exact fun d hd => of_mem_placed hd

def repeatedHeader : Text := "void b();\nint a();\nvoid b();\n"

/-- A source with an overload, code between the definitions, a comment that looks like one, and
both terminators. -/
def mixedSource : Text :=
  "top\nint a()\n\x7b\n  x;\n\x7d\nint k;\r\nvoid b() \x7b \x7d\n" ++
    "int a(int) \x7b \x7d\r\n// a() \x7b\n"

theorem definitions_in_header_order_mixed :
    Movable (declared repeatedHeader) mixedSource "f" ∧
    ∃ text edited, ofHeader? repeatedHeader mixedSource "f" =
        some ⟨"f", ⟨1, 7⟩, text, ["b", "a", "b"]⟩ ∧
      replaceLines mixedSource ⟨1, 7⟩ text = .ok edited ∧
      (ofText (declared repeatedHeader) edited "f").map (·.name) = ["b", "a", "b"] ∧
      (ofText (declared repeatedHeader) edited "f").map
          (fun d => d.span.slice (splitLines edited)) =
        ([["void b() \x7b \x7d"], ["int a()", "\x7b", "  x;", "\x7d"], ["void b() \x7b \x7d"]] :
          List (List Text)) := by
  have hmov : Movable (declared repeatedHeader) mixedSource "f" :=
    ⟨by decide +kernel, by decide +kernel, by decide +kernel, by decide +kernel⟩
  have hplan : ofHeader? repeatedHeader mixedSource "f" = some ⟨"f", ⟨1, 7⟩,
      "void b() \x7b \x7d\n\nint a()\n\x7b\n  x;\n\x7d\n\nvoid b() \x7b \x7d",
      ["b", "a", "b"]⟩ := by decide +kernel
  obtain ⟨edited, hedit, blocks, rfl, -, -, hnames, hslices, -⟩ :=
    definitions_in_header_order hmov hplan
  refine ⟨hmov, _, edited, hplan, hedit, hnames, ?_⟩
  rw [hslices]
  decide +kernel

end Plan

end HeaderOrder

import HeaderOrder.Proofs.Relocation

/-! # Synchronising twice -/

namespace HeaderOrder

open Byte Text Code Definition

namespace Plan

variable {prototypes : List Prototype} {names : List Text} {source file edited : Text} {p : Plan}

/-! ## The same blocks -/

def firsts (prototypes : List Prototype) (blocks : List (Text × List Text)) :
    List (Text × List Text) :=
  prototypes.filterMap fun q => blocks.find? fun b => b.1 = q.name

theorem find?_firsts {blocks : List (Text × List Text)} {q : Prototype} (hq : q ∈ prototypes) :
    ((firsts prototypes blocks).find? fun b => b.1 = q.name) =
      blocks.find? fun b => b.1 = q.name := by
  -- A block among the first ones is the first of its name.
  have hfirst : ∀ b ∈ firsts prototypes blocks, b.1 = q.name →
      (blocks.find? fun b => b.1 = q.name) = some b := by
    intro b hb hbq
    obtain ⟨r, -, hr⟩ := List.mem_filterMap.mp hb
    have hbr : b.1 = r.name := by simpa using List.find?_some hr
    rwa [hbr.symm.trans hbq] at hr
  cases hf : (firsts prototypes blocks).find? fun b => b.1 = q.name with
  | some b =>
    have hbq : b.1 = q.name := by simpa using List.find?_some hf
    exact (hfirst b (List.mem_of_find?_eq_some hf) hbq).symm
  | none =>
    symm
    rw [List.find?_eq_none] at hf ⊢
    intro b hb hbq
    obtain ⟨c, hc⟩ := Option.isSome_iff_exists.mp
      (List.find?_isSome.mpr ⟨b, hb, hbq⟩ : (blocks.find? fun b => b.1 = q.name).isSome)
    have hmem : c ∈ firsts prototypes blocks := List.mem_filterMap.mpr ⟨q, hq, hc⟩
    have hcq := List.find?_some (p := fun b : Text × List Text => b.1 = q.name) hc
    exact hf c hmem hcq

theorem firsts_firsts (prototypes : List Prototype) (blocks : List (Text × List Text)) :
    firsts prototypes (firsts prototypes blocks) = firsts prototypes blocks := by
  conv_lhs => rw [firsts]
  conv_rhs => rw [firsts]
  apply List.filterMap_congr
  intro q hq
  exact find?_firsts hq

theorem blocksOf_eq (prototypes : List Prototype) (names : List Text) (source file : Text) :
    blocksOf prototypes names source file = firsts prototypes
      ((ofText names source file).map fun d => (d.name, d.span.slice (splitLines source))) := by
  simp only [blocksOf, ordered, firsts, List.find?_map, List.map_filterMap, Function.comp_def]

theorem blocksOf_of_apply (h : Movable names source file)
    (hp : make? prototypes (ofText names source file) file source = some p)
    (he : replaceLines source p.range p.text = .ok edited) :
    blocksOf prototypes names edited file = blocksOf prototypes names source file := by
  rw [blocksOf_eq, map_slice_of_apply h hp he, blocksOf_eq, firsts_firsts]

/-! ## The same line ending -/

theorem ending_of_lines {pre post : List Line} {k : Terminator} {cs : List Text} (hne : cs ≠ [])
    (hlines : lines edited = pre ++ terminate (ending source) k cs ++ post)
    (hpre : ∀ l ∈ pre.head?, (lines source).head? = some l) :
    ending edited = ending source ∨ ∃ c, cs = [c] := by
  match pre, cs with
  | _, [] => exact absurd rfl hne
  | [], [c] => exact Or.inr ⟨c, rfl⟩
  | [], c :: d :: cs =>
    left
    have hhead : (lines edited).head?.map Line.terminator = some (ending source) := by
      rw [hlines]
      rfl
    rw [ending, hhead]
    have hnone := ending_ne_none source
    cases hk : ending source with
    | none => exact absurd hk hnone
    | lf => rfl
    | crlf => rfl
  | l :: pre, c :: cs =>
    left
    have hhead : (lines edited).head? = (lines source).head? := by
      rw [hlines, hpre l rfl]
      rfl
    rw [ending, ending, hhead]

theorem intercalate_ending {cs : List Text}
    (h : ending edited = ending source ∨ ∃ c, cs = [c]) :
    (ending edited).text.intercalate cs = (ending source).text.intercalate cs := by
  rcases h with h | ⟨c, rfl⟩
  · rw [h]
  · simp

/-! ## The same range -/

theorem replaceLines_self {pre post : List Line} {eol k : Terminator} {cs : List Text}
    (hne : cs ≠ []) (hlines : lines edited = pre ++ terminate eol k cs ++ post) :
    replaceLines edited ⟨pre.length, pre.length + cs.length - 1⟩ (eol.text.intercalate cs) =
      .ok edited := by
  have hunlines := unlines_terminate eol k hne
  obtain ⟨ds, c, rfl⟩ := (List.eq_nil_or_concat' cs).resolve_left hne
  rw [terminate_concat] at hlines hunlines
  have hparts : lines edited = pre ++ (ds.map (Line.mk · eol) ++ ⟨c, k⟩ :: post) := by
    rw [hlines]
    simp
  have hlast : pre.length + (ds ++ [c]).length - 1 =
      pre.length + (ds.map (Line.mk · eol)).length := by
    simp only [List.length_append, List.length_singleton, List.length_map]
    omega
  rw [hlast, replaceLines_of_lines hparts, Except.ok.injEq, ← List.append_assoc,
    List.append_assoc (unlines pre), ← hunlines, ← unlines_append, ← unlines_append, ← hlines,
    unlines_lines]

/-! ## The same edit -/

theorem text_of_apply (h : Movable names source file)
    (hp : make? prototypes (ofText names source file) file source = some p)
    (he : replaceLines source p.range p.text = .ok edited) :
    p.text = joinBlocks (splitLines edited) (lineEnding edited)
      (ordered prototypes (ofText names edited file)) := by
  have hblocks := blocksOf_of_apply h hp he
  have htext := text_eq hp
  obtain ⟨l, -, hlines⟩ := lines_of_apply hp h.plain he
  have hending := ending_of_lines (blockLines_ne_nil hp) hlines (by
    intro m hm
    rw [List.head?_take] at hm
    split_ifs at hm
    · simp at hm
    · exact hm)
  rw [fitting_ofText, blockLines_eq, ← hblocks, ← blockLines_eq] at hending htext
  rw [lineEnding_eq, joinBlocks_eq]
  · rw [htext, ← intercalate_ending hending, blockLines]
  · intro d hd
    exact (fits_of_mem_ofText (mem_of_mem_ordered hd)).2.2

theorem make?_of_apply (h : Movable names source file)
    (hp : make? prototypes (ofText names source file) file source = some p)
    (he : replaceLines source p.range p.text = .ok edited) :
    make? prototypes (ofText names edited file) file edited =
      some ⟨file, ⟨p.range.first, p.range.first + (blockLines (splitLines source)
        (ordered prototypes (ofText names source file))).length - 1⟩, p.text, p.names⟩ := by
  have hblocks := blocksOf_of_apply h hp he
  have htext := text_of_apply h hp he
  obtain ⟨hordered, -, -, -, hnames⟩ := make?_eq_some_iff.mp hp
  rw [fitting_ofText] at hordered hnames
  rw [make?_eq_some_iff, fitting_ofText]
  refine ⟨?_, rfl, ?_, htext, ?_⟩
  · intro hnil
    rw [blocksOf, hnil, blocksOf] at hblocks
    simpa [hordered] using hblocks.symm
  · rw [ofText_of_apply h hp he, blockLines_eq]
    apply isHull_placed
    · simpa [blocksOf] using hordered
    · exact fun b hb => (isBlock_of_mem_blocksOf h hb).ne_nil
  · rw [hnames]
    have := congrArg (List.map Prod.fst) hblocks
    simpa [blocksOf, Function.comp_def] using this.symm

/-- Synchronising a movable source once more changes nothing. -/
theorem ofHeader?_of_apply {header : Text} (h : Movable (declared header) source file)
    (hp : ofHeader? header source file = some p)
    (he : replaceLines source p.range p.text = .ok edited) :
    ∃ q, ofHeader? header edited file = some q ∧ q.text = p.text ∧ q.names = p.names ∧
      replaceLines edited q.range q.text = .ok edited := by
  unfold ofHeader? at hp ⊢
  have hne := blockLines_ne_nil hp
  obtain ⟨l, -, hlines⟩ := lines_of_apply hp h.plain he
  have hself := replaceLines_self hne hlines
  rw [List.length_take_of_le (by simpa using first_le_length hp), ← text_eq hp,
    fitting_ofText] at hself
  exact ⟨_, make?_of_apply h hp he, rfl, rfl, hself⟩

/-- A source with an overload, whose first line alone ends in a line feed without a carriage
return. -/
def overloadedSource : Text := "void a() \x7b \x7d\nvoid a(int) \x7b \x7d\r\n"

theorem ofHeader?_of_apply_overload :
    let edited : Text := "void a() \x7b \x7d\r\n"
    Movable (declared "void a();\n") overloadedSource "f" ∧
    ofHeader? "void a();\n" overloadedSource "f" =
      some ⟨"f", ⟨0, 1⟩, "void a() \x7b \x7d", ["a"]⟩ ∧
    replaceLines overloadedSource ⟨0, 1⟩ "void a() \x7b \x7d" = .ok edited ∧
    lineEnding edited ≠ lineEnding overloadedSource ∧
    ∃ q, ofHeader? "void a();\n" edited "f" = some q ∧ q.text = "void a() \x7b \x7d" ∧
      q.names = ["a"] ∧ replaceLines edited q.range q.text = .ok edited := by
  have hmov : Movable (declared "void a();\n") overloadedSource "f" :=
    ⟨by decide +kernel, by decide +kernel, by decide +kernel, by decide +kernel⟩
  have hplan : ofHeader? "void a();\n" overloadedSource "f" =
      some ⟨"f", ⟨0, 1⟩, "void a() \x7b \x7d", ["a"]⟩ := by decide +kernel
  have hedit : replaceLines overloadedSource ⟨0, 1⟩ "void a() \x7b \x7d" =
      .ok "void a() \x7b \x7d\r\n" := by rfl
  exact ⟨hmov, hplan, hedit, by decide, ofHeader?_of_apply hmov hplan hedit⟩

end Plan

end HeaderOrder

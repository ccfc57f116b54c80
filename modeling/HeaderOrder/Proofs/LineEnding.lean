import HeaderOrder.Proofs.Plan

/-! # Line feeds alone and with carriage returns -/

namespace HeaderOrder

open Byte Text

/-! ## The lines of a changed text -/

namespace Terminator

/-- The terminator with a carriage return in front of its line feed. -/
def toCrlf : Terminator → Terminator
  | none => none
  | _ => crlf

theorem toCrlf_ne_lf (k : Terminator) : k.toCrlf ≠ .lf := by
  cases k <;> simp [toCrlf]

end Terminator

def Line.toCrlf (l : Line) : Line := { l with terminator := l.terminator.toCrlf }

theorem Line.toCrlf_regular {l : Line} (h : l.Regular) : l.toCrlf.Regular :=
  ⟨h.1, fun hk => absurd hk (Terminator.toCrlf_ne_lf _)⟩

namespace Text

/-- The text with a carriage return put in front of each line feed. -/
def toCrlf (t : Text) : Text :=
  t.flatMap fun b => if b = lineFeed then [carriageReturn, lineFeed] else [b]

/-- No line feed has a carriage return in front of it. -/
def HasNoCrlf (t : Text) : Prop :=
  ∀ before after, t = before ++ lineFeed :: after → before.getLast? ≠ some carriageReturn

/-- Every line feed has a carriage return in front of it. -/
def HasOnlyCrlf (t : Text) : Prop :=
  ∀ before after, t = before ++ lineFeed :: after → before.getLast? = some carriageReturn

variable {t s source edited : Text} {l : Line} {ls : List Line} {cs : List Text} {span : Span}

theorem hasNoCrlf_iff : HasNoCrlf t ↔ ¬ Terminator.crlf.text <:+: t := by
  constructor
  · rintro h ⟨before, after, rfl⟩
    exact h (before ++ [carriageReturn]) after (by simp [Terminator.text]) (by simp)
  · rintro h before after rfl hlast
    obtain ⟨before, rfl⟩ := List.getLast?_eq_some_iff.mp hlast
    exact h ⟨before, after, by simp [Terminator.text]⟩

instance (t : Text) : Decidable (HasNoCrlf t) :=
  decidable_of_iff (occurs Terminator.crlf.text t = false) (by
    rw [hasNoCrlf_iff, ← occurs_iff, Bool.not_eq_true])

theorem toCrlf_append (s t : Text) : toCrlf (s ++ t) = toCrlf s ++ toCrlf t :=
  List.flatMap_append

theorem toCrlf_of_not_mem (h : lineFeed ∉ t) : toCrlf t = t := by
  induction t with
  | nil => rfl
  | cons b t ih =>
    simp only [List.mem_cons, not_or] at h
    have hb : toCrlf (b :: t) = b :: toCrlf t := by simp [toCrlf, Ne.symm h.1]
    rw [hb, ih h.2]

theorem toCrlf_terminator {k : Terminator} (h : k ≠ .crlf) : toCrlf k.text = k.toCrlf.text := by
  cases k with
  | none => rfl
  | lf => rfl
  | crlf => exact absurd rfl h

theorem toCrlf_line (h : l.Regular) (hk : l.terminator ≠ .crlf) :
    toCrlf l.text = l.toCrlf.text := by
  rw [Line.text, toCrlf_append, toCrlf_of_not_mem h.1, toCrlf_terminator hk]
  rfl

theorem toCrlf_unlines (hreg : ∀ l ∈ ls, l.Regular) (h : ∀ l ∈ ls, l.terminator ≠ .crlf) :
    toCrlf (unlines ls) = unlines (ls.map Line.toCrlf) := by
  induction ls with
  | nil => rfl
  | cons l ls ih =>
    have hu : ∀ m ms, unlines (m :: ms) = m.text ++ unlines ms := by simp [unlines]
    rw [List.map_cons, hu, hu, toCrlf_append, toCrlf_line (hreg l (by simp)) (h l (by simp)),
      ih (fun m hm => hreg m (List.mem_cons_of_mem _ hm))
        (fun m hm => h m (List.mem_cons_of_mem _ hm))]

theorem cut_map_toCrlf (h : Cut ls) : Cut (ls.map Line.toCrlf) := by
  induction ls with
  | nil => exact h
  | cons l ls ih =>
    rcases eq_or_ne ls [] with rfl | hne
    · obtain ⟨hreg, hk⟩ := h
      exact ⟨Line.toCrlf_regular hreg, by simp [Line.toCrlf, hk, Terminator.toCrlf]⟩
    · obtain ⟨⟨hreg, hk⟩, hls⟩ := (cut_cons hne).mp h
      rw [List.map_cons, cut_cons (by simpa using hne)]
      refine ⟨⟨Line.toCrlf_regular hreg, ?_⟩, ih hls⟩
      cases hk' : l.terminator <;> simp_all [Line.toCrlf, Terminator.toCrlf]

theorem terminator_ne_crlf (h : HasNoCrlf t) (hl : l ∈ lines t) : l.terminator ≠ .crlf := by
  intro hk
  obtain ⟨xs, ys, hsplit⟩ := List.append_of_mem hl
  refine h (unlines xs ++ l.content ++ [carriageReturn]) (unlines ys) ?_ (by simp)
  conv_lhs => rw [← unlines_lines t, hsplit, unlines_append]
  simp [unlines, Line.text, hk, Terminator.text]

theorem lines_toCrlf (h : HasNoCrlf t) : lines (toCrlf t) = (lines t).map Line.toCrlf := by
  conv_lhs => rw [← unlines_lines t]
  rw [toCrlf_unlines (regular_of_cut (cut_lines t)) (fun l hl => terminator_ne_crlf h hl),
    lines_unlines (cut_map_toCrlf (cut_lines t))]

theorem splitLines_toCrlf (h : HasNoCrlf t) : splitLines (toCrlf t) = splitLines t := by
  rw [splitLines, lines_toCrlf h, List.map_map]
  rfl

/-! ## The line ending -/

theorem head?_terminator_ne_none (h : lineFeed ∈ t) : ∃ l ls, lines t = l :: ls ∧
    l.terminator ≠ .none := by
  obtain ⟨l, ls, hl⟩ := List.exists_cons_of_ne_nil (lines_ne_nil t)
  refine ⟨l, ls, hl, ?_⟩
  intro hk
  have hcut := cut_lines t
  rw [hl] at hcut
  rcases eq_or_ne ls [] with rfl | hne
  · have htext : t = l.content := by
      conv_lhs => rw [← unlines_lines t, hl]
      simp [unlines, Line.text, hk, Terminator.text]
    rw [htext] at h
    exact hcut.1.1 h
  · exact ((cut_cons hne).mp hcut).1.2 hk

theorem ending_of_hasNoCrlf (h : HasNoCrlf t) : ending t = .lf := by
  obtain ⟨l, ls, hl⟩ := List.exists_cons_of_ne_nil (lines_ne_nil t)
  have hk := terminator_ne_crlf h (l := l) (by simp [hl])
  simp [ending, hl, hk]

theorem ending_toCrlf (h : HasNoCrlf t) (hlf : lineFeed ∈ t) : ending (toCrlf t) = .crlf := by
  obtain ⟨l, ls, hl, hk⟩ := head?_terminator_ne_none hlf
  have hhead : l.toCrlf.terminator = .crlf := by
    cases hk' : l.terminator <;> simp_all [Line.toCrlf, Terminator.toCrlf]
  simp [ending, lines_toCrlf h, hl, hhead]

theorem toCrlf_intercalate (h : ∀ c ∈ cs, lineFeed ∉ c) :
    toCrlf (Terminator.lf.text.intercalate cs) = Terminator.crlf.text.intercalate cs := by
  induction cs with
  | nil => rfl
  | cons c cs ih =>
    have hc := toCrlf_of_not_mem (h c (by simp))
    rcases eq_or_ne cs [] with rfl | hne
    · simpa using hc
    · rw [List.intercalate_cons_of_ne_nil hne, List.intercalate_cons_of_ne_nil hne,
        toCrlf_append, toCrlf_append, hc, ih fun d hd => h d (List.mem_cons_of_mem _ hd)]
      rfl

/-! ## Edits -/

theorem replaceLines_toCrlf (h : HasNoCrlf t) (span : Span) (new : Text) :
    replaceLines (toCrlf t) span (toCrlf new) = (replaceLines t span new).map toCrlf := by
  have hreg := regular_of_cut (cut_lines t)
  have hcrlf := fun l hl => terminator_ne_crlf (l := l) h hl
  unfold replaceLines
  simp only [lines_toCrlf h, List.length_map]
  split_ifs with hfits
  · obtain ⟨l, hl⟩ := exists_line hfits
    have hk := toCrlf_terminator (hcrlf l (List.mem_of_getElem? hl))
    simp only [List.getElem?_map, hl, Option.map_some, Option.getD_some, Except.map,
      toCrlf_append, hk]
    rw [toCrlf_unlines (fun m hm => hreg m (List.mem_of_mem_take hm))
        (fun m hm => hcrlf m (List.mem_of_mem_take hm)),
      toCrlf_unlines (fun m hm => hreg m (List.mem_of_mem_drop hm))
        (fun m hm => hcrlf m (List.mem_of_mem_drop hm)), List.map_take, List.map_drop]
    rfl
  · rfl

/-! ## Texts with carriage returns only -/

theorem hasOnlyCrlf_of_not_mem (h : lineFeed ∉ t) : HasOnlyCrlf t := by
  rintro before after rfl
  exact absurd (by simp) h

theorem HasOnlyCrlf.append (hs : HasOnlyCrlf s) (ht : HasOnlyCrlf t) : HasOnlyCrlf (s ++ t) := by
  intro before after h
  rcases List.append_eq_append_iff.mp h with ⟨mid, hb, hm⟩ | ⟨mid, hb, hm⟩
  · -- The line feed is in the second text, and not in front of it.
    have hmid := ht mid after hm
    rw [hb, List.getLast?_append, hmid]
    rfl
  · cases mid with
    | nil =>
      have := ht [] after (by simpa using hm.symm)
      simp at this
    | cons b mid =>
      obtain ⟨rfl, -⟩ := List.cons.inj hm
      exact hs before mid hb

theorem hasOnlyCrlf_terminator {k : Terminator} (h : k ≠ .lf) : HasOnlyCrlf k.text := by
  cases k with
  | none => exact hasOnlyCrlf_of_not_mem (by simp [Terminator.text])
  | lf => exact absurd rfl h
  | crlf =>
    intro before after hsplit
    rcases before with _ | ⟨b, _ | ⟨c, before⟩⟩
    · exact absurd (List.cons.inj hsplit).1 carriageReturn_ne_lineFeed
    · obtain ⟨rfl, -⟩ := List.cons.inj hsplit
      rfl
    · simp [Terminator.text] at hsplit

theorem hasOnlyCrlf_unlines (hreg : ∀ l ∈ ls, l.Regular) (h : ∀ l ∈ ls, l.terminator ≠ .lf) :
    HasOnlyCrlf (unlines ls) := by
  induction ls with
  | nil => exact hasOnlyCrlf_of_not_mem (by simp [unlines])
  | cons l ls ih =>
    have hu : unlines (l :: ls) = l.content ++ l.terminator.text ++ unlines ls := by
      simp [unlines, Line.text]
    rw [hu]
    exact ((hasOnlyCrlf_of_not_mem (hreg l (by simp)).1).append
      (hasOnlyCrlf_terminator (h l (by simp)))).append
      (ih (fun m hm => hreg m (List.mem_cons_of_mem _ hm))
        (fun m hm => h m (List.mem_cons_of_mem _ hm)))

theorem hasOnlyCrlf_intercalate (h : ∀ c ∈ cs, lineFeed ∉ c) :
    HasOnlyCrlf (Terminator.crlf.text.intercalate cs) := by
  induction cs with
  | nil => exact hasOnlyCrlf_of_not_mem (by simp)
  | cons c cs ih =>
    have hc := hasOnlyCrlf_of_not_mem (h c (by simp))
    rcases eq_or_ne cs [] with rfl | hne
    · simpa using hc
    · rw [List.intercalate_cons_of_ne_nil hne]
      exact (hc.append (hasOnlyCrlf_terminator (by simp))).append
        (ih fun d hd => h d (List.mem_cons_of_mem _ hd))

theorem terminator_ne_lf (h : HasOnlyCrlf t) (hl : l ∈ lines t) : l.terminator ≠ .lf := by
  intro hk
  obtain ⟨xs, ys, hsplit⟩ := List.append_of_mem hl
  have hcut := cut_lines t
  rw [hsplit, cut_append (by simp)] at hcut
  have hreg := regular_of_cut (cut_lines t) l hl
  have hlast := h (unlines xs ++ l.content) (unlines ys) (by
    conv_lhs => rw [← unlines_lines t, hsplit, unlines_append]
    simp [unlines, Line.text, hk, Terminator.text])
  rw [List.getLast?_append] at hlast
  cases hc : l.content.getLast? with
  | some b =>
    rw [hc] at hlast
    exact hreg.2 hk (hc.trans hlast)
  | none =>
    -- The line is empty, so what stands before its line feed is the end of another line.
    rw [hc, Option.none_or] at hlast
    rcases unlines_ends_of_inner hcut.1 with hnil | hlf
    · rw [hnil] at hlast
      simp at hlast
    · rw [hlf] at hlast
      exact carriageReturn_ne_lineFeed (Option.some.inj hlast).symm

theorem hasOnlyCrlf_iff : HasOnlyCrlf t ↔ ∀ l ∈ lines t, l.terminator ≠ .lf := by
  constructor
  · exact fun h l hl => terminator_ne_lf h hl
  · intro h
    rw [← unlines_lines t]
    exact hasOnlyCrlf_unlines (regular_of_cut (cut_lines t)) h

instance (t : Text) : Decidable (HasOnlyCrlf t) := decidable_of_iff _ hasOnlyCrlf_iff.symm

theorem ending_of_hasOnlyCrlf (h : HasOnlyCrlf t) (hlf : lineFeed ∈ t) : ending t = .crlf := by
  obtain ⟨l, ls, hl, hk⟩ := head?_terminator_ne_none hlf
  have hk' := terminator_ne_lf h (l := l) (by simp [hl])
  have hcrlf : l.terminator = .crlf := by
    cases hc : l.terminator <;> simp_all
  simp [ending, hl, hcrlf]

theorem hasOnlyCrlf_of_replaceLines {new : Text} (h : HasOnlyCrlf t) (hnew : HasOnlyCrlf new)
    (he : replaceLines t span new = .ok edited) : HasOnlyCrlf edited := by
  have hreg := regular_of_cut (cut_lines t)
  have hlf := fun l hl => terminator_ne_lf (l := l) h hl
  unfold replaceLines at he
  dsimp only at he
  split_ifs at he with hfits
  obtain ⟨l, hl⟩ := exists_line hfits
  rw [hl] at he
  cases he
  exact (((hasOnlyCrlf_unlines (fun m hm => hreg m (List.mem_of_mem_take hm))
    (fun m hm => hlf m (List.mem_of_mem_take hm))).append hnew).append
    (hasOnlyCrlf_terminator (hlf l (List.mem_of_getElem? hl)))).append
    (hasOnlyCrlf_unlines (fun m hm => hreg m (List.mem_of_mem_drop hm))
      (fun m hm => hlf m (List.mem_of_mem_drop hm)))

end Text

/-! ## Prototypes, definitions and plans -/

theorem Prototype.ofText_toCrlf {header : Text} (h : HasNoCrlf header) :
    Prototype.ofText (toCrlf header) = Prototype.ofText header := by
  rw [Prototype.ofText, splitLines_toCrlf h, ← Prototype.ofText]

theorem Definition.ofText_toCrlf {source : Text} (h : HasNoCrlf source) (names : List Text)
    (file : Text) :
    Definition.ofText names (toCrlf source) file = Definition.ofText names source file := by
  rw [Definition.ofText, splitLines_toCrlf h, ← Definition.ofText]

namespace Plan

variable {prototypes : List Prototype} {definitions : List Definition} {target text edited : Text}
  {p : Plan}

theorem joinBlocks_toCrlf {blocks : List Definition} (h : HasNoCrlf text) (hlf : lineFeed ∈ text)
    (hfits : ∀ d ∈ blocks, d.span.Fits (splitLines text).length) :
    joinBlocks (splitLines text) (lineEnding (toCrlf text)) blocks =
      toCrlf (joinBlocks (splitLines text) (lineEnding text) blocks) := by
  rw [joinBlocks_eq hfits, joinBlocks_eq hfits, lineEnding_eq, lineEnding_eq,
    ending_toCrlf h hlf, ending_of_hasNoCrlf h, toCrlf_intercalate]
  exact fun c hc => lineFeed_not_mem_of_mem_blockLines hc

/-- The plan for a changed text writes the changed text to the same lines. -/
theorem make?_toCrlf (h : HasNoCrlf text) (hlf : lineFeed ∈ text) :
    make? prototypes definitions target (toCrlf text) =
      (make? prototypes definitions target text).map fun p => { p with text := toCrlf p.text } := by
  have hfits : ∀ d ∈ ordered prototypes (fitting definitions target (splitLines text).length),
      d.span.Fits (splitLines text).length :=
    fun d hd => (fits_of_mem_fitting (mem_of_mem_ordered hd)).2
  have hjoin := joinBlocks_toCrlf h hlf hfits
  unfold make?
  simp only [splitLines_toCrlf h, hjoin]
  split
  · rfl
  · split_ifs <;> rfl

theorem hasOnlyCrlf_of_apply (h : HasOnlyCrlf text) (hlf : lineFeed ∈ text)
    (hp : make? prototypes definitions target text = some p)
    (he : replaceLines text p.range p.text = .ok edited) : HasOnlyCrlf edited := by
  refine hasOnlyCrlf_of_replaceLines h ?_ he
  rw [text_eq hp, ending_of_hasOnlyCrlf h hlf]
  exact hasOnlyCrlf_intercalate fun c hc => lineFeed_not_mem_of_mem_blockLines hc

/-- A carriage return in front of each line feed makes no difference. -/
theorem ofHeader?_toCrlf {header source : Text} (file : Text) (hheader : HasNoCrlf header)
    (hsource : HasNoCrlf source) (hlf : lineFeed ∈ source) :
    Prototype.ofText (toCrlf header) = Prototype.ofText header ∧
    declared (toCrlf header) = declared header ∧
    Definition.ofText (declared (toCrlf header)) (toCrlf source) file =
      Definition.ofText (declared header) source file ∧
    ofHeader? (toCrlf header) (toCrlf source) file =
      (ofHeader? header source file).map (fun p => { p with text := toCrlf p.text }) ∧
    (∀ p, ofHeader? header source file = some p → ∃ edited,
      replaceLines source p.range p.text = .ok edited ∧
      replaceLines (toCrlf source) p.range (toCrlf p.text) = .ok (toCrlf edited)) ∧
    ∀ other crlfSource p edited, HasOnlyCrlf crlfSource → lineFeed ∈ crlfSource →
      ofHeader? other crlfSource file = some p →
      replaceLines crlfSource p.range p.text = .ok edited → HasOnlyCrlf edited := by
  have hprototypes := Prototype.ofText_toCrlf hheader
  have hdeclared : declared (toCrlf header) = declared header := by
    rw [declared, hprototypes, ← declared]
  have hdefinitions := Definition.ofText_toCrlf hsource (declared header) file
  refine ⟨hprototypes, hdeclared, ?_, ?_, ?_, ?_⟩
  · rw [hdeclared, hdefinitions]
  · rw [ofHeader?, hprototypes, hdeclared, hdefinitions, make?_toCrlf hsource hlf, ← ofHeader?]
  · intro p hp
    obtain ⟨before, old, after, -, hreplace⟩ := exists_replaceLines (range_fits hp)
    refine ⟨_, hreplace p.text, ?_⟩
    rw [replaceLines_toCrlf hsource, hreplace]
    rfl
  · intro other crlfSource p edited honly hmem hp he
    exact hasOnlyCrlf_of_apply honly hmem hp he

theorem ofHeader?_toCrlf_unterminated :
    let header : Text := "int b();\nint a();\nint b();"
    let source : Text := "int a()\n\x7b\n\x7d\nint b() \x7b \x7d\r"
    let text : Text := "int b() \x7b \x7d\r\n\nint a()\n\x7b\n\x7d\n\nint b() \x7b \x7d\r"
    HasNoCrlf header ∧ HasNoCrlf source ∧ lineFeed ∈ source ∧ HasOnlyCrlf (toCrlf source) ∧
    ofHeader? header source "f" = some ⟨"f", ⟨0, 3⟩, text, ["b", "a", "b"]⟩ ∧
    ofHeader? (toCrlf header) (toCrlf source) "f" =
      some ⟨"f", ⟨0, 3⟩, toCrlf text, ["b", "a", "b"]⟩ ∧
    ∃ edited, replaceLines source ⟨0, 3⟩ text = .ok edited ∧
      replaceLines (toCrlf source) ⟨0, 3⟩ (toCrlf text) = .ok (toCrlf edited) ∧
      HasOnlyCrlf (toCrlf edited) := by
  intro header source text
  have hheader : HasNoCrlf header := by decide +kernel
  have hsource : HasNoCrlf source := by decide +kernel
  have hplan : ofHeader? header source "f" = some ⟨"f", ⟨0, 3⟩, text, ["b", "a", "b"]⟩ := by
    decide +kernel
  obtain ⟨-, -, -, hcrlf, hedit, honly⟩ := ofHeader?_toCrlf "f" hheader hsource (by decide)
  obtain ⟨edited, hlf, he⟩ := hedit _ hplan
  rw [hplan, Option.map_some] at hcrlf
  have hfull : HasOnlyCrlf (toCrlf source) := by decide +kernel
  refine ⟨hheader, hsource, by decide, hfull, hplan, hcrlf, edited, hlf, he, ?_⟩
  -- The changed source is one whose line feeds all have carriage returns.
  have hagain : ofHeader? header (toCrlf source) "f" =
      some ⟨"f", ⟨0, 3⟩, toCrlf text, ["b", "a", "b"]⟩ := by decide +kernel
  exact honly header _ _ _ hfull (by decide) hagain he

end Plan

end HeaderOrder

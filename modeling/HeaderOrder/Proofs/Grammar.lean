import HeaderOrder.Proofs.Manifest
import Mathlib.Data.List.DropRight
import Mathlib.Data.Nat.Digits.Defs

/-!
# The language of manifests

The settings are told by the directives alone.
-/

namespace HeaderOrder.Manifest

open Byte Text

variable {line word value text : Text} {lines front rest : List Text} {base : Settings}
  {es es' : List (Text × Text)} {fault : Fault} {d : Draft}

/-! ## The language -/

def core (line : Text) : Text := (line.dropWhile isBlank).rdropWhile isBlank

/-- Nothing is left of the line, or it starts with a hash sign. -/
def IsSilent (line : Text) : Prop := core line = [] ∨ (core line).head? = some hash

/-- The line is a word, a run of blanks and a value. -/
structure IsDirective (line word value : Text) : Prop where
  loud : ¬ IsSilent line
  parts : ∃ gap, core line = word ++ (gap ++ value) ∧ gap ≠ [] ∧ IsBare gap
  word : word ≠ [] ∧ ∀ b ∈ word, isBlank b = false
  value : ∃ b rest, value = b :: rest ∧ isBlank b = false

/-- The lines that say something are these directives, in this order. -/
inductive Reads : List Text → List (Text × Text) → Prop where
  | nil : Reads [] []
  | silent {line : Text} {lines : List Text} {es : List (Text × Text)} (h : IsSilent line)
      (hrest : Reads lines es) : Reads (line :: lines) es
  | directive {line word value : Text} {lines : List Text} {es : List (Text × Text)}
      (h : IsDirective line word value) (hrest : Reads lines es) :
      Reads (line :: lines) ((word, value) :: es)

def singleWords : List Text := ["include", "exclude", "limit"]

def directiveWords : List Text := singleWords ++ [ofString "header-ext"]

def digitsValue (value : Text) : Nat :=
  Nat.ofDigits 10 (value.map fun b => b.toNat - 48).reverse

structure IsLimit (value : Text) : Prop where
  ne_nil : value ≠ []
  digits : ∀ b ∈ value, isDigit b = true
  pos : 0 < digitsValue value
  lt_wordSize : digitsValue value < wordSize

/-- The directives can stand together. -/
structure IsValid (es : List (Text × Text)) : Prop where
  known : ∀ e ∈ es, e.1 ∈ directiveWords
  single : ∀ word ∈ singleWords, (es.map Prod.fst).count word ≤ 1
  limit : ∀ e ∈ es, e.1 = ofString "limit" → IsLimit e.2

/-- The lines are in the language, and these are their directives. -/
def Accepts (lines : List Text) (es : List (Text × Text)) : Prop := Reads lines es ∧ IsValid es

def dotted (value : Text) : Text :=
  if (lowercase value).head? = some dot then lowercase value else dot :: lowercase value

def valueOf? (es : List (Text × Text)) (word : Text) : Option Text := es.lookup word

def extensions (es : List (Text × Text)) : List Text :=
  (es.filter fun e => e.1 = ofString "header-ext").map fun e => dotted e.2

/-- What is given takes the place of what was there. -/
def settingsOf (es : List (Text × Text)) (base : Settings) : Settings :=
  { base with
    query := {
      included := (valueOf? es "include").getD base.query.included
      excluded := (valueOf? es "exclude").getD base.query.excluded
      limit := ((valueOf? es "limit").map digitsValue).getD base.query.limit }
    headerExtensions := if extensions es = [] then base.headerExtensions else extensions es }

/-- Why a line cannot come after these directives. -/
inductive Offends (es : List (Text × Text)) (line : Text) : Fault → Prop where
  | missingValue (hloud : ¬ IsSilent line) (h : ∀ word value, ¬ IsDirective line word value) :
      Offends es line (.missingValue (core line))
  | unknown {word value : Text} (h : IsDirective line word value) (hword : word ∉ directiveWords) :
      Offends es line (.unknown word)
  | duplicate {word value : Text} (h : IsDirective line word value) (hword : word ∈ singleWords)
      (hagain : word ∈ es.map Prod.fst) : Offends es line (.duplicate word)
  | invalidLimit {value : Text} (h : IsDirective line "limit" value)
      (hfirst : ofString "limit" ∉ es.map Prod.fst) (hvalue : ¬ IsLimit value) :
      Offends es line (.invalidLimit value)

/-! ## One line -/

/-- The line can be one of a text without carriage returns. -/
def IsPlain (line : Text) : Prop := carriageReturn ∉ line ∧ lineFeed ∉ line

theorem dropWhile_congr {p q : Byte → Bool} {t : Text} (h : ∀ b ∈ t, p b = q b) :
    t.dropWhile p = t.dropWhile q := by
  induction t with
  | nil => rfl
  | cons b t ih =>
    rw [List.dropWhile_cons, List.dropWhile_cons, h b (by simp),
      ih fun c hc => h c (List.mem_cons_of_mem _ hc)]

theorem strip_eq_core (h : IsPlain line) : strip line = core line := by
  have htrailing : ∀ b ∈ (line.dropWhile isBlank).reverse, isTrailing b = isBlank b := by
    intro b hb
    have hmem := (List.dropWhile_sublist isBlank).subset (List.mem_reverse.mp hb)
    have hcr : b ≠ carriageReturn := ne_of_mem_of_not_mem hmem h.1
    have hlf : b ≠ lineFeed := ne_of_mem_of_not_mem hmem h.2
    rw [isTrailing, beq_eq_false_iff_ne.mpr hcr, beq_eq_false_iff_ne.mpr hlf, Bool.or_false,
      Bool.or_false]
  by_cases hbare : IsBare line
  · have hnil : line.dropWhile isBlank = [] := List.dropWhile_eq_nil_iff.mpr hbare
    simp [strip, core, hnil]
  · obtain ⟨b, hb, hkept⟩ := exists_kept h.1 h.2 hbare
    unfold strip core List.rdropWhile
    dsimp only
    rw [if_neg, dropWhile_congr htrailing]
    intro hall
    rw [List.all_eq_true.mp hall b hb] at hkept
    cases hkept

theorem entry?_of_silent (hplain : IsPlain line) (h : IsSilent line) :
    entry? line = .ok none := by
  unfold entry?
  rw [strip_eq_core hplain]
  exact if_pos h

theorem entry?_of_directive (hplain : IsPlain line) (h : IsDirective line word value) :
    entry? line = .ok (some (word, value)) := by
  obtain ⟨gap, hcore, hgap, hbare⟩ := h.parts
  obtain ⟨b, rest, hvalue, hb⟩ := h.value
  obtain ⟨c, gap, rfl⟩ := List.exists_cons_of_ne_nil hgap
  have hword : ∀ b ∈ word, (!isBlank b) = true := by simpa using h.word.2
  have hc : isBlank c = true := hbare c (by simp)
  have hdrop : (core line).dropWhile (!isBlank ·) = c :: gap ++ value := by
    rw [hcore, List.dropWhile_append_of_pos hword, List.cons_append,
      List.dropWhile_cons_of_neg (by simp [hc])]
  have htake : (core line).takeWhile (!isBlank ·) = word := by
    rw [hcore, List.takeWhile_append_of_pos hword, List.cons_append,
      List.takeWhile_cons_of_neg (by simp [hc]), List.append_nil]
  have hrest : (c :: gap ++ value).dropWhile isBlank = value := by
    rw [List.dropWhile_append_of_pos hbare, hvalue, List.dropWhile_cons_of_neg (by simp [hb])]
  unfold entry?
  rw [strip_eq_core hplain]
  dsimp only
  rw [if_neg (show ¬ (core line = [] ∨ (core line).head? = some hash) from h.loud), hdrop, htake]
  dsimp only [List.cons_append] at hrest ⊢
  rw [hrest, hvalue]

theorem exists_value {gap : Text} (hne : gap ≠ []) (h : core line = word ++ gap) :
    gap.dropWhile isBlank ≠ [] := by
  intro hnil
  have hcore : core line ≠ [] := by
    rw [h]
    exact List.append_ne_nil_of_right_ne_nil word hne
  have hlast := List.rdropWhile_last_not isBlank (line.dropWhile isBlank) hcore
  have hgap : (core line).getLast hcore = gap.getLast hne := by
    simp only [h]
    exact List.getLast_append_of_ne_nil _ hne
  exact hlast (hgap ▸ List.dropWhile_eq_nil_iff.mp hnil _ (List.getLast_mem hne))

theorem not_isBlank_of_core {b : Byte} (h : core line = b :: word) : isBlank b = false := by
  obtain ⟨back, hback⟩ := List.rdropWhile_prefix isBlank (line.dropWhile isBlank)
  have hdrop : line.dropWhile isBlank = b :: (word ++ back) := by
    rw [← hback, ← core, h, List.cons_append]
  have hhead := List.head_dropWhile_not isBlank (hdrop ▸ List.cons_ne_nil b _)
  simpa only [hdrop, List.head_cons] using hhead

theorem exists_directive (hloud : ¬ IsSilent line)
    (h : (core line).dropWhile (!isBlank ·) ≠ []) :
    ∃ word value, IsDirective line word value := by
  obtain ⟨word, tail, hword, htail⟩ : ∃ word tail, (core line).takeWhile (!isBlank ·) = word ∧
      (core line).dropWhile (!isBlank ·) = tail := ⟨_, _, rfl, rfl⟩
  have hcore : core line = word ++ tail := by
    rw [← hword, ← htail, List.takeWhile_append_dropWhile]
  have hblank := List.head_dropWhile_not (!isBlank ·) h
  simp only [htail] at h hblank
  have hvalue := exists_value h hcore
  refine ⟨word, tail.dropWhile isBlank, hloud, ⟨tail.takeWhile isBlank, ?_, ?_,
    fun b hb => List.mem_takeWhile_imp hb⟩, ⟨?_, ?_⟩, ?_⟩
  · rw [List.takeWhile_append_dropWhile, hcore]
  · obtain ⟨b, gap, rfl⟩ := List.exists_cons_of_ne_nil h
    rw [List.takeWhile_cons_of_pos (by simpa using hblank)]
    exact List.cons_ne_nil _ _
  · -- The line starts with its word, and with no blank.
    obtain ⟨b, t, hb⟩ := List.exists_cons_of_ne_nil fun hnil => hloud (Or.inl hnil)
    rw [← hword, hb, List.takeWhile_cons_of_pos (by simp [not_isBlank_of_core hb])]
    exact List.cons_ne_nil _ _
  · intro b hb
    have hmem : b ∈ (core line).takeWhile (!isBlank ·) := hword ▸ hb
    simpa using List.mem_takeWhile_imp hmem
  · obtain ⟨b, rest, hb⟩ := List.exists_cons_of_ne_nil hvalue
    have hfirst := List.head_dropWhile_not isBlank hvalue
    simp only [hb, List.head_cons] at hfirst
    exact ⟨b, rest, hb, hfirst⟩

theorem entry?_of_missing (hplain : IsPlain line) (hloud : ¬ IsSilent line)
    (h : ∀ word value, ¬ IsDirective line word value) :
    entry? line = .error (.missingValue (core line)) := by
  have hnone : (core line).dropWhile (!isBlank ·) = [] := by
    by_contra hne
    obtain ⟨word, value, hd⟩ := exists_directive hloud hne
    exact h word value hd
  unfold entry?
  rw [strip_eq_core hplain]
  dsimp only
  rw [if_neg (show ¬ (core line = [] ∨ (core line).head? = some hash) from hloud), hnone]

/-! ## Values -/

theorem natural?_eq_some_iff {n : Nat} :
    natural? value = some n ↔
      value ≠ [] ∧ (∀ b ∈ value, isDigit b = true) ∧ n = digitsValue value := by
  have hvalue : value.foldl (fun n b => 10 * n + (b.toNat - 48)) 0 = digitsValue value := by
    unfold digitsValue
    induction value using List.reverseRecOn with
    | nil => rfl
    | append_singleton t b ih =>
      rw [List.foldl_append, ih, List.map_append, List.reverse_append]
      simp [Nat.ofDigits_cons, Nat.add_comm]
  unfold natural?
  rw [hvalue]
  split_ifs with h
  · rw [List.all_eq_true] at h
    rw [Option.some.injEq, eq_comm]
    exact ⟨fun heq => ⟨h.1, h.2, heq⟩, fun heq => heq.2.2⟩
  · rw [List.all_eq_true] at h
    exact iff_of_false (by simp) fun heq => h ⟨heq.1, heq.2.1⟩

theorem positive?_of_isLimit (h : IsLimit value) : positive? value = some (digitsValue value) := by
  rw [positive?, natural?_eq_some_iff.mpr ⟨h.ne_nil, h.digits, rfl⟩, Option.filter_some, if_pos]
  simp [h.pos, h.lt_wordSize]

theorem positive?_of_not_isLimit (h : ¬ IsLimit value) : positive? value = none := by
  rw [Option.eq_none_iff_forall_ne_some]
  intro n hn
  obtain ⟨hnat, hbounds⟩ := Option.filter_eq_some_iff.mp hn
  obtain ⟨hne, hdigits, rfl⟩ := natural?_eq_some_iff.mp hnat
  simp only [Bool.and_eq_true, decide_eq_true_eq] at hbounds
  exact h ⟨hne, hdigits, hbounds.1, hbounds.2⟩

theorem normalExtension_eq (hne : value ≠ []) : normalExtension value = dotted value := by
  have hlower : lowercase value ≠ [] := by simpa [lowercase] using hne
  simp [normalExtension, dotted, hlower]

/-! ## Directives one after another -/

def draftOf (es : List (Text × Text)) : Draft where
  included := valueOf? es "include"
  excluded := valueOf? es "exclude"
  limit := (valueOf? es "limit").map digitsValue
  headerExtensions := if extensions es = [] then none else some (extensions es)

theorem settings_draftOf (es : List (Text × Text)) (base : Settings) :
    (draftOf es).settings base = settingsOf es base := by
  unfold Draft.settings draftOf settingsOf
  dsimp only
  split_ifs <;> rfl

theorem isSome_valueOf? : (valueOf? es word).isSome = true ↔ word ∈ es.map Prod.fst := by
  rw [valueOf?, List.lookup_isSome_iff, List.mem_map]
  constructor
  · rintro ⟨e, he, heq⟩
    exact ⟨e, he, (beq_iff_eq.mp heq).symm⟩
  · rintro ⟨e, he, heq⟩
    exact ⟨e, he, beq_iff_eq.mpr heq.symm⟩

theorem valueOf?_concat (k : Text) : valueOf? (es ++ [(word, value)]) k =
    (valueOf? es k).or (if k = word then some value else none) := by
  rw [valueOf?, valueOf?, List.lookup_append, List.lookup_cons]
  split_ifs with hk
  · simp [hk]
  · rw [beq_eq_false_iff_ne.mpr hk]
    rfl

theorem extensions_concat : extensions (es ++ [(word, value)]) =
    extensions es ++ if word = ofString "header-ext" then [dotted value] else [] := by
  unfold extensions
  rw [List.filter_append, List.map_append]
  split_ifs with hword <;> simp [hword]

theorem IsValid.of_append (h : IsValid (es ++ es')) : IsValid es where
  known e he := h.known e (List.mem_append_left _ he)
  single word hword := by
    refine le_trans ?_ (h.single word hword)
    rw [List.map_append, List.count_append]
    exact Nat.le_add_right _ _
  limit e he := h.limit e (List.mem_append_left _ he)

/-- A directive can stand with valid ones when its word is known and not taken. -/
theorem isValid_concat : IsValid (es ++ [(word, value)]) ↔ IsValid es ∧ word ∈ directiveWords ∧
    (word ∈ singleWords → word ∉ es.map Prod.fst) ∧ (word = ofString "limit" → IsLimit value) := by
  have hcount (w : Text) : ((es ++ [(word, value)]).map Prod.fst).count w =
      (es.map Prod.fst).count w + if word = w then 1 else 0 := by
    rw [List.map_append, List.count_append, List.map_singleton, List.count_singleton]
    simp
  constructor
  · intro h
    refine ⟨h.of_append, h.known (word, value) (by simp), fun hw hmem => ?_,
      h.limit (word, value) (by simp)⟩
    have hpos := List.count_pos_iff.mpr hmem
    have hle := h.single word hw
    rw [hcount, if_pos rfl] at hle
    omega
  · rintro ⟨h, hknown, hfree, hlimit⟩
    refine ⟨?_, fun w hw => ?_, ?_⟩
    · exact List.forall_mem_append.mpr ⟨h.known, by simpa using hknown⟩
    · rw [hcount]
      split_ifs with heq
      · subst heq
        rw [List.count_eq_zero.mpr (hfree hw)]
      · exact h.single w hw
    · exact List.forall_mem_append.mpr ⟨h.limit, by simpa using hlimit⟩

theorem valueOf?_eq_none (h : word ∉ es.map Prod.fst) : valueOf? es word = none := by
  rwa [← Option.not_isSome_iff_eq_none, isSome_valueOf?]

theorem mem_directiveWords_iff : word ∈ directiveWords ↔ word = ofString "include" ∨
    word = ofString "exclude" ∨ word = ofString "limit" ∨ word = ofString "header-ext" := by
  simp [directiveWords, singleWords]

theorem add_of_isValid (h : IsValid (es ++ [(word, value)])) (hne : value ≠ []) :
    (draftOf es).add word value = .ok (draftOf (es ++ [(word, value)])) := by
  obtain ⟨-, hknown, hfree, hlimit⟩ := isValid_concat.mp h
  have hnone (hword : word ∈ singleWords) : valueOf? es word = none :=
    valueOf?_eq_none (hfree hword)
  rcases mem_directiveWords_iff.mp hknown with rfl | rfl | rfl | rfl
  · have hfirst := hnone (by decide)
    simp +decide [Draft.add, draftOf, valueOf?_concat, extensions_concat, hfirst]
  · have hfirst := hnone (by decide)
    simp +decide [Draft.add, draftOf, valueOf?_concat, extensions_concat, hfirst]
  · have hfirst := hnone (by decide)
    have hpositive := positive?_of_isLimit (hlimit rfl)
    simp +decide [Draft.add, draftOf, valueOf?_concat, extensions_concat, hfirst, hpositive]
  · have hkept : (if extensions es = [] then none else some (extensions es)).getD [] =
        extensions es := by
      split_ifs with hnil
      · exact hnil.symm
      · rfl
    simp +decide [Draft.add, draftOf, valueOf?_concat, extensions_concat, normalExtension_eq hne,
      hkept]

theorem add_of_duplicate (hword : word ∈ singleWords) (hagain : word ∈ es.map Prod.fst) :
    (draftOf es).add word value = .error (.duplicate word) := by
  have htaken := isSome_valueOf?.mpr hagain
  have hwords : word = ofString "include" ∨ word = ofString "exclude" ∨
      word = ofString "limit" := by
    simpa [singleWords] using hword
  rcases hwords with rfl | rfl | rfl
  · simp [Draft.add, draftOf, htaken]
  · simp +decide [Draft.add, draftOf, htaken]
  · simp +decide [Draft.add, draftOf, htaken]

theorem add_of_unknown (hword : word ∉ directiveWords) :
    d.add word value = .error (.unknown word) := by
  rw [mem_directiveWords_iff, not_or, not_or, not_or] at hword
  obtain ⟨hincluded, hexcluded, hlimit, hextension⟩ := hword
  rw [Draft.add, if_neg hincluded, if_neg hexcluded, if_neg hlimit, if_neg hextension]

theorem add_of_not_isLimit (hfirst : ofString "limit" ∉ es.map Prod.fst)
    (hvalue : ¬ IsLimit value) :
    (draftOf es).add "limit" value = .error (.invalidLimit value) := by
  simp +decide [Draft.add, draftOf, valueOf?_eq_none hfirst, positive?_of_not_isLimit hvalue]

/-! ## Lines one after another -/

theorem addLine_of_silent (hplain : IsPlain line) (h : IsSilent line) : d.addLine line = .ok d := by
  unfold Draft.addLine
  rw [entry?_of_silent hplain h]
  rfl

theorem addLine_of_directive (hplain : IsPlain line) (h : IsDirective line word value) :
    d.addLine line = d.add word value := by
  unfold Draft.addLine
  rw [entry?_of_directive hplain h]
  rfl

theorem addLine_of_offends (hplain : IsPlain line) (h : Offends es line fault) :
    (draftOf es).addLine line = .error fault := by
  cases h with
  | missingValue hloud h =>
    unfold Draft.addLine
    rw [entry?_of_missing hplain hloud h]
    rfl
  | unknown h hword => rw [addLine_of_directive hplain h, add_of_unknown hword]
  | duplicate h hword hagain => rw [addLine_of_directive hplain h, add_of_duplicate hword hagain]
  | invalidLimit h hfirst hvalue =>
    rw [addLine_of_directive hplain h, add_of_not_isLimit hfirst hvalue]

theorem line_cases (h : IsValid es) (line : Text) : IsSilent line ∨
    (∃ word value, IsDirective line word value ∧ IsValid (es ++ [(word, value)])) ∨
    ∃ fault, Offends es line fault := by
  by_cases hloud : IsSilent line
  · exact Or.inl hloud
  refine Or.inr ?_
  by_cases hmissing : ∀ word value, ¬ IsDirective line word value
  · exact Or.inr ⟨_, .missingValue hloud hmissing⟩
  push Not at hmissing
  obtain ⟨word, value, hd⟩ := hmissing
  by_cases hknown : word ∈ directiveWords
  · by_cases hagain : word ∈ singleWords ∧ word ∈ es.map Prod.fst
    · exact Or.inr ⟨_, .duplicate hd hagain.1 hagain.2⟩
    · rw [not_and] at hagain
      by_cases hlimit : word = ofString "limit" → IsLimit value
      · exact Or.inl ⟨word, value, hd, isValid_concat.mpr ⟨h, hknown, hagain, hlimit⟩⟩
      · rw [Classical.not_imp] at hlimit
        obtain ⟨rfl, hvalue⟩ := hlimit
        exact Or.inr ⟨_, .invalidLimit hd (hagain (by decide)) hvalue⟩
  · exact Or.inr ⟨_, .unknown hd hknown⟩

theorem addLines_of_reads (hplain : ∀ line ∈ lines, IsPlain line) (h : Reads lines es')
    (hvalid : IsValid (es ++ es')) (n : Nat) :
    (draftOf es).addLines n lines = .ok (draftOf (es ++ es')) := by
  induction h generalizing es n with
  | nil => rw [List.append_nil]; rfl
  | silent h hrest ih =>
    rw [Draft.addLines, addLine_of_silent (hplain _ (by simp)) h]
    exact ih (fun l hl => hplain l (List.mem_cons_of_mem _ hl)) hvalid _
  | @directive line word value lines es' h hrest ih =>
    rw [List.append_cons] at hvalid ⊢
    have hfirst : IsValid (es ++ [(word, value)]) := hvalid.of_append
    obtain ⟨b, rest, hvalue, -⟩ := h.value
    have hne : value ≠ [] := by rw [hvalue]; exact List.cons_ne_nil b rest
    rw [Draft.addLines, addLine_of_directive (hplain _ (by simp)) h, add_of_isValid hfirst hne]
    exact ih (fun l hl => hplain l (List.mem_cons_of_mem _ hl)) hvalid _

theorem Reads.append (h : Reads front es) (h' : Reads rest es') :
    Reads (front ++ rest) (es ++ es') := by
  induction h with
  | nil => exact h'
  | silent h hrest ih => exact .silent h ih
  | directive h hrest ih => exact .directive h ih

theorem isValid_nil : IsValid [] := ⟨by simp, by simp, by simp⟩

theorem Accepts.silent (h : Accepts front es) (hline : IsSilent line) :
    Accepts (front ++ [line]) es := by
  refine ⟨?_, h.2⟩
  simpa using h.1.append (.silent hline .nil)

theorem Accepts.directive (h : Accepts front es) (hline : IsDirective line word value)
    (hvalid : IsValid (es ++ [(word, value)])) :
    Accepts (front ++ [line]) (es ++ [(word, value)]) :=
  ⟨h.1.append (.directive hline .nil), hvalid⟩

theorem lines_cases (lines : List Text) : (∃ es, Accepts lines es) ∨
    ∃ front line rest es fault, lines = front ++ line :: rest ∧ Accepts front es ∧
      Offends es line fault := by
  induction lines using List.reverseRecOn with
  | nil => exact Or.inl ⟨[], .nil, isValid_nil⟩
  | append_singleton lines line ih =>
    rcases ih with ⟨es, h⟩ | ⟨front, bad, rest, es, fault, rfl, h⟩
    · rcases line_cases h.2 line with hline | ⟨word, value, hline, hvalid⟩ | ⟨fault, hline⟩
      · exact Or.inl ⟨es, h.silent hline⟩
      · exact Or.inl ⟨_, h.directive hline hvalid⟩
      · exact Or.inr ⟨lines, line, [], es, fault, rfl, h, hline⟩
    · exact Or.inr ⟨front, bad, rest ++ [line], es, fault, by simp, h⟩

theorem addLines_of_accepts (hplain : ∀ line ∈ lines, IsPlain line) (h : Accepts lines es)
    (n : Nat) : Draft.addLines {} n lines = .ok (draftOf es) := by
  have hvalid : IsValid ([] ++ es) := h.2
  exact addLines_of_reads hplain h.1 hvalid n

theorem addLines_of_offends (hplain : ∀ l ∈ front ++ line :: rest, IsPlain l)
    (h : Accepts front es) (hline : Offends es line fault) (n : Nat) :
    Draft.addLines {} n (front ++ line :: rest) = .error (n + front.length, fault) := by
  have hfront := addLines_of_accepts (fun l hl => hplain l (List.mem_append_left _ hl)) h n
  rw [addLines_append, hfront, Except.bind, Draft.addLines,
    addLine_of_offends (hplain line (by simp)) hline]

theorem not_accepts_of_offends (hplain : ∀ l ∈ front ++ [line], IsPlain l)
    (h : Accepts front es) (hline : Offends es line fault) : ¬ Accepts (front ++ [line]) es' := by
  intro haccepts
  have hok := addLines_of_accepts hplain haccepts 1
  rw [addLines_of_offends hplain h hline] at hok
  cases hok

/-! ## Manifests -/

theorem isPlain_of_mem_splitOn (h : carriageReturn ∉ text) (hline : line ∈ text.splitOn lineFeed) :
    IsPlain line :=
  ⟨fun hb => h (mem_of_mem_splitOn hline hb), lineFeed_not_mem_of_mem_splitOn hline⟩

theorem parse_of_accepts (path : Text) (hcr : carriageReturn ∉ text)
    (h : Accepts (text.splitOn lineFeed) es) :
    parse path text base = .ok (settingsOf es { base with manifest := Path.normalize path }) := by
  rw [parse_eq, addLines_of_accepts (fun l hl => isPlain_of_mem_splitOn hcr hl) h]
  exact congrArg Except.ok (settings_draftOf es _)

theorem parse_of_offends (path : Text) (hcr : carriageReturn ∉ text)
    (hsplit : text.splitOn lineFeed = front ++ line :: rest) (h : Accepts front es)
    (hline : Offends es line fault) :
    parse path text base = .error (.line path (front.length + 1) fault) := by
  have hplain : ∀ l ∈ front ++ line :: rest, IsPlain l :=
    fun l hl => isPlain_of_mem_splitOn hcr (hsplit ▸ hl)
  rw [parse_eq, hsplit, addLines_of_offends hplain h hline, Nat.add_comm 1]

theorem parse_ok_iff {path : Text} {settings : Settings} (hcr : carriageReturn ∉ text) :
    parse path text base = .ok settings ↔ ∃ es, Accepts (text.splitOn lineFeed) es ∧
      settings = settingsOf es { base with manifest := Path.normalize path } := by
  constructor
  · intro hok
    rcases lines_cases (text.splitOn lineFeed) with
      ⟨es, h⟩ | ⟨front, line, rest, es, fault, hsplit, h, hline⟩
    · rw [parse_of_accepts path hcr h] at hok
      exact ⟨es, h, (Except.ok.inj hok).symm⟩
    · rw [parse_of_offends path hcr hsplit h hline] at hok
      cases hok
  · rintro ⟨es, h, rfl⟩
    exact parse_of_accepts path hcr h

theorem parse_error_iff {path : Text} {e : Error} (hcr : carriageReturn ∉ text) :
    parse path text base = .error e ↔ ∃ front line rest es fault,
      text.splitOn lineFeed = front ++ line :: rest ∧ Accepts front es ∧ Offends es line fault ∧
        e = .line path (front.length + 1) fault := by
  constructor
  · intro he
    rcases lines_cases (text.splitOn lineFeed) with
      ⟨es, h⟩ | ⟨front, line, rest, es, fault, hsplit, h, hline⟩
    · rw [parse_of_accepts path hcr h] at he
      cases he
    · rw [parse_of_offends path hcr hsplit h hline] at he
      exact ⟨front, line, rest, es, fault, hsplit, h, hline, (Except.error.inj he).symm⟩
  · rintro ⟨front, line, rest, es, fault, hsplit, h, hline, rfl⟩
    exact parse_of_offends path hcr hsplit h hline

/-- The error is at the line at which the lines read so far are no longer in the language. -/
theorem parse_error_at_iff {path : Text} (hcr : carriageReturn ∉ text)
    (hsplit : text.splitOn lineFeed = front ++ line :: rest) :
    (∃ fault, parse path text base = .error (.line path (front.length + 1) fault)) ↔
      (∃ es, Accepts front es) ∧ ¬ ∃ es, Accepts (front ++ [line]) es := by
  constructor
  · rintro ⟨fault, hfault⟩
    obtain ⟨front', line', rest', es, fault', hsplit', h, hline, heq⟩ :=
      (parse_error_iff hcr).mp hfault
    have hlength : front.length = front'.length := by
      injection heq with _ hnumber _
      exact Nat.succ.inj hnumber
    obtain ⟨rfl, htail⟩ := List.append_inj (hsplit.symm.trans hsplit') hlength
    obtain ⟨rfl, rfl⟩ := List.cons.inj htail
    have hplain : ∀ l ∈ front ++ [line], IsPlain l := by
      intro l hl
      refine isPlain_of_mem_splitOn hcr ?_
      rw [hsplit]
      simp only [List.mem_append, List.mem_cons] at hl ⊢
      tauto
    exact ⟨⟨es, h⟩, fun ⟨es', h'⟩ => not_accepts_of_offends hplain h hline h'⟩
  · rintro ⟨⟨es, h⟩, hnot⟩
    rcases line_cases h.2 line with hline | ⟨word, value, hline, hvalid⟩ | ⟨fault, hline⟩
    · exact absurd ⟨es, h.silent hline⟩ hnot
    · exact absurd ⟨_, h.directive hline hvalid⟩ hnot
    · exact ⟨fault, parse_of_offends path hcr hsplit h hline⟩

theorem parse_ne_blankValue {path path' : Text} {number : Nat} (hcr : carriageReturn ∉ text) :
    parse path text base ≠ .error (.line path' number .blankValue) := by
  intro hblank
  obtain ⟨front, line, rest, es, fault, -, -, hline, heq⟩ := (parse_error_iff hcr).mp hblank
  injection heq with _ _ hfault
  rw [← hfault] at hline
  cases hline

/-- A manifest is read when its lines are in the language, and else the first other one is told. -/
theorem parse_iff_accepts (path text : Text) (base : Settings) (hcr : carriageReturn ∉ text) :
    (∀ s, parse path text base = .ok s ↔ ∃ es, Accepts (text.splitOn lineFeed) es ∧
      s = settingsOf es { base with manifest := Path.normalize path }) ∧
    (∀ e, parse path text base = .error e ↔ ∃ front line rest es fault,
      text.splitOn lineFeed = front ++ line :: rest ∧ Accepts front es ∧ Offends es line fault ∧
        e = .line path (front.length + 1) fault) ∧
    (∀ front line rest, text.splitOn lineFeed = front ++ line :: rest →
      ((∃ fault, parse path text base = .error (.line path (front.length + 1) fault)) ↔
        (∃ es, Accepts front es) ∧ ¬ ∃ es, Accepts (front ++ [line]) es)) ∧
    ∀ number, parse path text base ≠ .error (.line path number .blankValue) :=
  ⟨fun _ => parse_ok_iff hcr, fun _ => parse_error_iff hcr,
    fun _ _ _ hsplit => parse_error_at_iff hcr hsplit, fun _ => parse_ne_blankValue hcr⟩

theorem parse_iff_accepts_limit :
    let text : Text := "limit 12\n\n \tHEADER\n"
    carriageReturn ∉ text ∧
      parse "horder.project" text {} = .error (.line "horder.project" 3 (.missingValue "HEADER")) ∧
      (∃ front line rest es fault, text.splitOn lineFeed = front ++ line :: rest ∧
        Accepts front es ∧ Offends es line fault ∧
          Error.line "horder.project" 3 (.missingValue "HEADER") =
            .line "horder.project" (front.length + 1) fault) ∧
      ∃ es, Accepts ((ofString "limit 12\nheader-ext TPP").splitOn lineFeed) es ∧
        ({ manifest := "horder.project", query := { limit := 12 }
           headerExtensions := [".tpp"] } : Settings) =
          settingsOf es { manifest := Path.normalize "horder.project" } := by
  intro text
  have hcr : carriageReturn ∉ text := by decide
  have herror : parse "horder.project" text {} =
      .error (.line "horder.project" 3 (.missingValue "HEADER")) := rfl
  exact ⟨hcr, herror, ((parse_iff_accepts _ text {} hcr).2.1 _).mp herror,
    ((parse_iff_accepts "horder.project" "limit 12\nheader-ext TPP" {} (by decide)).1 _).mp rfl⟩

end HeaderOrder.Manifest

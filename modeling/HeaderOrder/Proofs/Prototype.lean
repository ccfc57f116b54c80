import HeaderOrder.Proofs.Calls
import HeaderOrder.Proofs.Statement

/-! # The prototypes of a header -/

namespace HeaderOrder

open Byte Text Code

/-! ## First words -/

namespace Text

variable {t word rest : Text}

/-- The text starts with the word, and no identifier goes on after it. -/
def HasFirstWord (word t : Text) : Prop :=
  ∃ rest, t = word ++ rest ∧ ∀ b, rest.head? = some b → isIdentChar b = false

theorem startsWithWord_iff : startsWithWord t word = true ↔ HasFirstWord word t := by
  unfold startsWithWord HasFirstWord
  cases hp : word.isPrefixOf? t with
  | none =>
    have hno : ∀ rest, t ≠ word ++ rest :=
      fun rest hsplit => isPrefixOf?_eq_none_iff.mp hp ⟨rest, hsplit.symm⟩
    simp [hno]
  | some rest =>
    have hsplit : t = word ++ rest := (List.isPrefixOf?_eq_some_iff_append_eq.mp hp).symm
    constructor
    · intro h
      refine ⟨rest, hsplit, ?_⟩
      intro b hb
      cases rest with
      | nil => simp at hb
      | cons c rest =>
        cases hb
        simpa using h
    · rintro ⟨rest', hsplit', hb⟩
      have hrest : rest = rest' := List.append_cancel_left (hsplit.symm.trans hsplit')
      cases rest with
      | nil => rfl
      | cons c rest =>
        have := hb c (by simp [← hrest])
        simpa using this

end Text

namespace Prototype

variable {lines pending statement : List Text} {i : Nat} {p : Prototype}

/-! ## Prototypes -/

/-- The bytes of the lines of a span, without white space at either end. -/
def statementText (lines : List Text) (s : Span) : Text :=
  trim (joinLines lines s Terminator.lf.text)

/-- The text has both parentheses, and starts no typedef and no using declaration. -/
structure IsCandidate (t : Text) : Prop where
  openParen_mem : openParen ∈ t
  closeParen_mem : closeParen ∈ t
  not_typedef : ¬ HasFirstWord "typedef" t
  not_using : ¬ HasFirstWord "using" t

theorem isDeclaration_iff {t : Text} : isDeclaration t = true ↔ IsCandidate t := by
  have htypedef := not_congr (@startsWithWord_iff t "typedef")
  have husing := not_congr (@startsWithWord_iff t "using")
  simp only [Bool.not_eq_true] at htypedef husing
  simp only [isDeclaration, Bool.and_eq_true, List.contains_iff_mem, Bool.not_eq_true', htypedef,
    husing]
  constructor
  · rintro ⟨⟨⟨ho, hc⟩, ht⟩, hu⟩
    exact ⟨ho, hc, ht, hu⟩
  · rintro ⟨ho, hc, ht, hu⟩
    exact ⟨⟨⟨ho, hc⟩, ht⟩, hu⟩

theorem ofStatement?_eq_some_iff {last : Nat} : ofStatement? statement last = some p ↔
    IsCandidate (trim (Terminator.lf.text.intercalate statement)) ∧
      lastCall? (trim (Terminator.lf.text.intercalate statement)) = some p.name ∧
        p.signature = trim (Terminator.lf.text.intercalate statement) ∧
          p.span = ⟨last + 1 - statement.length, last⟩ := by
  unfold ofStatement?
  simp only [← isDeclaration_iff]
  split_ifs with hdecl
  · rw [Option.map_eq_some_iff]
    constructor
    · rintro ⟨name, hname, rfl⟩
      exact ⟨hdecl, hname, rfl, rfl⟩
    · rintro ⟨-, hname, hsig, hspan⟩
      refine ⟨p.name, hname, ?_⟩
      obtain ⟨name, signature, span⟩ := p
      simp only at hsig hspan ⊢
      rw [hsig, hspan]
  · simp [hdecl]

theorem mem_ofText_iff {text : Text} : p ∈ ofText text ↔
    IsStatement (splitLines text) p.span ∧ IsCandidate (statementText (splitLines text) p.span) ∧
      lastCall? (statementText (splitLines text) p.span) = some p.name ∧
        p.signature = statementText (splitLines text) p.span := by
  rw [ofText, mem_ofLines_iff]
  simp only [Nat.zero_add]
  constructor
  · rintro ⟨k, line, statement, hl, hf, hp⟩
    obtain ⟨first, hstmt, rfl⟩ := (finish?_carried hl).mp hf
    obtain ⟨hcand, hname, hsig, hspan⟩ := ofStatement?_eq_some_iff.mp hp
    have hle := hstmt.fits.1
    have hfirst : k + 1 - (Span.slice ⟨first, k⟩ (splitLines text)).length = first := by
      rw [Span.length_slice hstmt.fits]
      simp only at hle ⊢
      omega
    rw [hfirst] at hspan
    rw [hspan]
    exact ⟨hstmt, hcand, hname, hsig⟩
  · rintro ⟨hstmt, hcand, hname, hsig⟩
    obtain ⟨hle, hlt⟩ := hstmt.fits
    obtain ⟨line, hl⟩ : ∃ line, (splitLines text)[p.span.last]? = some line :=
      ⟨_, List.getElem?_eq_getElem hlt⟩
    refine ⟨p.span.last, line, p.span.slice (splitLines text), hl,
      (finish?_carried hl).mpr ⟨p.span.first, hstmt, rfl⟩, ?_⟩
    refine ofStatement?_eq_some_iff.mpr ⟨hcand, hname, hsig, ?_⟩
    rw [Span.length_slice hstmt.fits, show p.span.last + 1 - (p.span.last + 1 - p.span.first) =
      p.span.first by omega]

theorem IsStatement.exists_prototype_iff {text : Text} {s : Span}
    (h : IsStatement (splitLines text) s) : (∃ p ∈ ofText text, p.span.last = s.last) ↔
      IsCandidate (statementText (splitLines text) s) ∧
        ∃ name, lastCall? (statementText (splitLines text) s) = some name := by
  constructor
  · rintro ⟨p, hp, hlast⟩
    obtain ⟨hstmt, hcand, hname, -⟩ := mem_ofText_iff.mp hp
    rw [hstmt.eq_of_last h hlast] at hcand hname
    exact ⟨hcand, p.name, hname⟩
  · rintro ⟨hcand, name, hname⟩
    exact ⟨⟨name, statementText (splitLines text) s, s⟩,
      mem_ofText_iff.mpr ⟨h, hcand, hname, rfl⟩, rfl⟩

theorem length_carry (pending : List Text) (line : Text) :
    (carry pending line).length ≤ pending.length + 1 := by
  unfold carry
  split_ifs <;> simp

theorem first_of_mem_ofLines (h : p ∈ ofLines i pending lines) :
    i ≤ p.span.first + pending.length := by
  induction lines generalizing i pending with
  | nil => simp [ofLines] at h
  | cons line rest ih =>
    rw [ofLines_cons, List.mem_append, Option.mem_toList, Option.bind_eq_some_iff] at h
    rcases h with ⟨statement, hf, hp⟩ | h
    · unfold finish? at hf
      split_ifs at hf
      cases hf
      rw [(ofStatement?_eq_some_iff.mp hp).2.2.2, List.length_append]
      simp only [List.length_singleton]
      omega
    · have := ih h
      have := length_carry pending line
      omega

theorem pairwise_ofLines (i : Nat) (pending lines : List Text) :
    (ofLines i pending lines).Pairwise fun p q => p.span.last < q.span.first := by
  induction lines generalizing i pending with
  | nil => simp [ofLines]
  | cons line rest ih =>
    rw [ofLines_cons, List.pairwise_append]
    refine ⟨?_, ih _ _, ?_⟩
    · cases (finish? pending line).bind (ofStatement? · i) <;> simp
    · intro p hp q hq
      rw [Option.mem_toList, Option.bind_eq_some_iff] at hp
      obtain ⟨statement, hf, hp⟩ := hp
      -- The line ends a statement, so nothing is pending after it.
      have hcarry : carry pending line = [] := by
        unfold finish? at hf
        split_ifs at hf with hskip
        simp only [not_or, Bool.not_eq_false] at hskip
        simp [carry, hskip.2.1]
      have hfirst := first_of_mem_ofLines hq
      rw [hcarry] at hfirst
      rw [(ofStatement?_eq_some_iff.mp hp).2.2.2]
      exact hfirst

/-- A text has a prototype on a span just when its lines are a statement that declares one. -/
theorem ofText_segments (text : Text) :
    (∀ s, (∃ p ∈ ofText text, p.span = s) ↔ IsStatement (splitLines text) s ∧
      IsCandidate (statementText (splitLines text) s) ∧
        ∃ name, lastCall? (statementText (splitLines text) s) = some name) ∧
    (∀ p ∈ ofText text, p.signature = statementText (splitLines text) p.span ∧
      lastCall? p.signature = some p.name ∧ IsIdentifier p.name) ∧
    (∀ p ∈ ofText text, p.span.first ≤ p.span.last) ∧
    (ofText text).Pairwise fun p q => p.span.last < q.span.first := by
  refine ⟨?_, ?_, ?_, pairwise_ofLines 0 [] _⟩
  · intro s
    constructor
    · rintro ⟨p, hp, rfl⟩
      obtain ⟨hstmt, hcand, hname, -⟩ := mem_ofText_iff.mp hp
      exact ⟨hstmt, hcand, p.name, hname⟩
    · rintro ⟨hstmt, hcand, name, hname⟩
      exact ⟨⟨name, statementText (splitLines text) s, s⟩,
        mem_ofText_iff.mpr ⟨hstmt, hcand, hname, rfl⟩, rfl⟩
  · intro p hp
    obtain ⟨-, -, hname, hsig⟩ := mem_ofText_iff.mp hp
    rw [hsig]
    exact ⟨rfl, hname, isIdentifier_of_lastCall? hname⟩
  · intro p hp
    exact (mem_ofText_iff.mp hp).1.fits.1

end Prototype

end HeaderOrder

import HeaderOrder.Glob
import Mathlib.Data.List.Forall2

/-!
# The language of a pattern

A path is accepted when it is one piece for each token, put together.
-/

namespace HeaderOrder.Glob

open Byte

namespace Token

variable {k : Token} {ks : List Token} {p t r : Text}

/-! ## Reading -/

/-- The tokens of a pattern, read from left to right: two stars are taken together, and so is a
slash after them. -/
inductive Reads : Text → List Token → Prop where
  | nil : Reads [] []
  | directories {t : Text} {ks : List Token} (h : Reads t ks) :
      Reads (star :: star :: slash :: t) (directories :: ks)
  | anything {t : Text} {ks : List Token} (hslash : t.head? ≠ some slash) (h : Reads t ks) :
      Reads (star :: star :: t) (anything :: ks)
  | name {t : Text} {ks : List Token} (hstar : t.head? ≠ some star) (h : Reads t ks) :
      Reads (star :: t) (name :: ks)
  | one {t : Text} {ks : List Token} (h : Reads t ks) : Reads (question :: t) (one :: ks)
  | byte {b : Byte} {t : Text} {ks : List Token} (hstar : b ≠ star) (hquestion : b ≠ question)
      (h : Reads t ks) : Reads (b :: t) (byte b :: ks)

theorem reads_scan (p : Text) : Reads p (scan p) := by
  induction p using scan.induct with
  | case1 t ih =>
    rw [scan]
    exact .directories ih
  | case2 t hslash ih =>
    rw [scan.eq_2 t hslash]
    refine .anything ?_ ih
    cases t with
    | nil => simp
    | cons b t => simpa using fun h : b = slash => hslash t (by rw [h])
  | case3 t hdirectories hstar ih =>
    rw [scan.eq_3 t hdirectories hstar]
    refine .name ?_ ih
    cases t with
    | nil => simp
    | cons b t => simpa using fun h : b = star => hstar t (by rw [h])
  | case4 t ih =>
    rw [scan]
    exact .one ih
  | case5 b t hdirectories hstars hstar hquestion ih =>
    rw [scan.eq_5 b t hdirectories hstars hstar hquestion]
    exact .byte hstar hquestion ih
  | case6 => exact .nil

theorem Reads.eq_scan (h : Reads p ks) : ks = scan p := by
  induction h with
  | nil => rfl
  | directories _ ih => rw [scan, ih]
  | @anything t _ hslash _ ih => rw [scan.eq_2 t fun r hr => hslash (by rw [hr]; rfl), ih]
  | @name t _ hstar _ ih =>
    rw [scan.eq_3 t (fun r hr => hstar (by rw [hr]; rfl)) (fun r hr => hstar (by rw [hr]; rfl)), ih]
  | one _ ih => rw [scan, ih]
  | @byte b t _ hstar hquestion _ ih =>
    rw [scan.eq_5 b t (fun r hb _ => hstar hb) (fun r hb _ => hstar hb) hstar hquestion, ih]

/-! ## Pieces -/

/-- The texts that a token stands for. -/
def IsPiece : Token → Text → Prop
  | directories, p => p = [] ∨ ∃ front, p = front ++ [slash]
  | anything, _ => True
  | name, p => slash ∉ p
  | one, p => ∃ b, b ≠ slash ∧ p = [b]
  | byte b, p => p = [b]

theorem mem_suffixes_iff : r ∈ suffixes t ↔ ∃ p, p ++ r = t := by
  induction t with
  | nil => simp [suffixes]
  | cons b t ih =>
    rw [suffixes, List.mem_cons, ih]
    constructor
    · rintro (rfl | ⟨p, rfl⟩)
      · exact ⟨[], rfl⟩
      · exact ⟨b :: p, rfl⟩
    · rintro ⟨_ | ⟨a, p⟩, h⟩
      · exact Or.inl h
      · exact Or.inr ⟨p, (List.cons.inj h).2⟩

theorem mem_afterSlashes_iff : r ∈ afterSlashes t ↔ ∃ front, front ++ [slash] ++ r = t := by
  induction t with
  | nil => simp [afterSlashes]
  | cons b t ih =>
    have hlater : r ∈ afterSlashes t ↔ ∃ front, b :: front ++ [slash] ++ r = b :: t := by
      simp [ih]
    rw [afterSlashes]
    constructor
    · intro h
      split_ifs at h with hb
      · rcases List.mem_cons.mp h with rfl | h
        · exact ⟨[], by simp [hb]⟩
        · obtain ⟨front, hfront⟩ := hlater.mp h
          exact ⟨b :: front, hfront⟩
      · obtain ⟨front, hfront⟩ := hlater.mp h
        exact ⟨b :: front, hfront⟩
    · rintro ⟨_ | ⟨a, front⟩, h⟩
      · obtain ⟨rfl, rfl⟩ := List.cons.inj h
        simp
      · obtain ⟨rfl, -⟩ := List.cons.inj h
        have hmem := hlater.mpr ⟨front, h⟩
        split_ifs
        · exact List.mem_cons_of_mem _ hmem
        · exact hmem

theorem mem_nameSuffixes_iff : r ∈ nameSuffixes t ↔ ∃ p, slash ∉ p ∧ p ++ r = t := by
  induction t with
  | nil => simp [nameSuffixes]
  | cons b t ih =>
    rw [nameSuffixes, List.mem_cons]
    constructor
    · rintro (rfl | h)
      · exact ⟨[], by simp, rfl⟩
      · split_ifs at h with hb
        · simp at h
        · obtain ⟨p, hp, rfl⟩ := ih.mp h
          exact ⟨b :: p, by simp [hp, Ne.symm hb], rfl⟩
    · rintro ⟨_ | ⟨a, p⟩, hp, h⟩
      · exact Or.inl h
      · obtain ⟨rfl, rfl⟩ := List.cons.inj h
        simp only [List.mem_cons, not_or] at hp
        right
        rw [if_neg (Ne.symm hp.1), ih]
        exact ⟨p, hp.2, rfl⟩

/-- What a token leaves of a text is what follows a piece of it. -/
theorem mem_rests_iff : r ∈ k.rests t ↔ ∃ p, k.IsPiece p ∧ p ++ r = t := by
  cases k with
  | directories =>
    simp only [rests, List.mem_cons, mem_afterSlashes_iff, IsPiece]
    constructor
    · rintro (rfl | ⟨front, h⟩)
      · exact ⟨[], Or.inl rfl, rfl⟩
      · exact ⟨front ++ [slash], Or.inr ⟨front, rfl⟩, h⟩
    · rintro ⟨p, rfl | ⟨front, rfl⟩, h⟩
      · exact Or.inl h
      · exact Or.inr ⟨front, h⟩
  | anything => simp [rests, IsPiece, mem_suffixes_iff]
  | name => simp [rests, IsPiece, mem_nameSuffixes_iff]
  | one =>
    cases t with
    | nil => simp [rests, IsPiece]
    | cons b t =>
      simp only [rests, IsPiece]
      constructor
      · intro h
        split_ifs at h with hb
        · simp at h
        · rw [List.mem_singleton.mp h]
          exact ⟨[b], ⟨b, hb, rfl⟩, rfl⟩
      · rintro ⟨_, ⟨a, ha, rfl⟩, h⟩
        obtain ⟨rfl, rfl⟩ := List.cons.inj h
        simp [ha]
  | byte a =>
    cases t with
    | nil => simp [rests, IsPiece]
    | cons b t =>
      by_cases hb : a = b
      · simp [rests, IsPiece, hb]
      · simp [rests, IsPiece, hb]

theorem accepts_cons_iff : accepts (k :: ks) t = true ↔ ∃ r ∈ k.rests t, accepts ks r = true := by
  rw [accepts, List.any_eq_true]

theorem accepts_iff : accepts ks t = true ↔
    ∃ pieces, List.Forall₂ IsPiece ks pieces ∧ pieces.flatten = t := by
  induction ks generalizing t with
  | nil =>
    rw [accepts, List.isEmpty_iff]
    constructor
    · rintro rfl
      exact ⟨[], .nil, rfl⟩
    · rintro ⟨pieces, hall, rfl⟩
      cases hall
      rfl
  | cons k ks ih =>
    rw [accepts_cons_iff]
    constructor
    · rintro ⟨r, hr, hks⟩
      obtain ⟨p, hp, rfl⟩ := mem_rests_iff.mp hr
      obtain ⟨pieces, hpieces, rfl⟩ := ih.mp hks
      exact ⟨p :: pieces, .cons hp hpieces, rfl⟩
    · rintro ⟨_ | ⟨p, pieces⟩, hall, rfl⟩
      · cases hall
      · obtain ⟨hp, hpieces⟩ := List.forall₂_cons.mp hall
        exact ⟨pieces.flatten, mem_rests_iff.mpr ⟨p, hp, rfl⟩, ih.mpr ⟨pieces, hpieces, rfl⟩⟩

end Token

open Token

/-- A pattern accepts the paths that are one piece for each token of it, put together. -/
theorem acceptsPlain_iff (pattern path : Text) :
    (∃! ks, Reads pattern ks) ∧
    (acceptsPlain pattern path = true ↔ ∃ ks pieces, Reads pattern ks ∧
      List.Forall₂ IsPiece ks pieces ∧ pieces.flatten = path) := by
  have hscan := reads_scan pattern
  constructor
  · exact ⟨scan pattern, hscan, fun ks h => h.eq_scan⟩
  · unfold acceptsPlain
    rw [accepts_iff]
    constructor
    · rintro ⟨pieces, hpieces, hflat⟩
      exact ⟨scan pattern, pieces, hscan, hpieces, hflat⟩
    · rintro ⟨ks, pieces, hks, hpieces, hflat⟩
      rw [hks.eq_scan] at hpieces
      exact ⟨pieces, hpieces, hflat⟩

/-- Three stars are two and one. -/
example : acceptsPlain "***.c" "src/a.c" = true ∧ acceptsPlain "**/*.c" "a.c" = true ∧
    acceptsPlain "**/b/*.c" "ab/x.c" = false := by decide

end HeaderOrder.Glob

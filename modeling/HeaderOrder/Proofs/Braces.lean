import HeaderOrder.Code
import HeaderOrder.Glob.Braces
import Mathlib.Data.List.Infix
import Mathlib.Data.List.TakeWhile

/-!
# The expansions of a pattern

A balanced front of a pattern is expanded by itself, and so is what follows it.
-/

namespace HeaderOrder.Braces

open Byte Code

variable {d e : Nat} {b : Byte} {s t u v head body tail : Text}

/-! ## Depth -/

/-- With `d` groups open in front of it, the text closes no more groups than are open. -/
def Stays (d : Nat) (t : Text) : Prop := ∀ p, p <+: t → 0 ≤ (d : Int) + balance p

/-- The text closes no group that it does not open, and leaves none open. -/
structure Balanced (t : Text) : Prop where
  nonneg : ∀ p, p <+: t → 0 ≤ balance p
  closed : balance t = 0

theorem balance_cons (b : Byte) (t : Text) : balance (b :: t) = balance [b] + balance t :=
  balance_append [b] t

theorem balance_openBrace : balance [openBrace] = 1 := rfl

theorem balance_closeBrace : balance [closeBrace] = -1 := rfl

theorem balance_of_ne (ho : b ≠ openBrace) (hc : b ≠ closeBrace) : balance [b] = 0 := by
  simp [balance, ho, hc]

instance : Decidable (Balanced t) :=
  decidable_of_iff ((∀ p ∈ t.inits, 0 ≤ balance p) ∧ balance t = 0) (by
    simp only [List.mem_inits]
    exact ⟨fun ⟨h, h'⟩ => ⟨h, h'⟩, fun ⟨h, h'⟩ => ⟨h, h'⟩⟩)

theorem balanced_iff : Balanced t ↔ Stays 0 t ∧ balance t = 0 := by
  constructor
  · rintro ⟨hnonneg, hclosed⟩
    exact ⟨fun p hp => by simpa using hnonneg p hp, hclosed⟩
  · rintro ⟨hstays, hclosed⟩
    exact ⟨fun p hp => by simpa using hstays p hp, hclosed⟩

theorem stays_nil : Stays d [] := by
  intro p hp
  rw [List.prefix_nil.mp hp]
  simp

theorem stays_cons_iff (h : (d : Int) + balance [b] = e) : Stays d (b :: t) ↔ Stays e t := by
  constructor
  · intro ht p hp
    have := ht (b :: p) (List.cons_prefix_cons.mpr ⟨rfl, hp⟩)
    rw [balance_cons] at this
    omega
  · intro ht p hp
    cases p with
    | nil => simp
    | cons c p =>
      obtain ⟨rfl, htail⟩ := List.cons_prefix_cons.mp hp
      have := ht p htail
      rw [balance_cons]
      omega

theorem stays_append_iff (h : (d : Int) + balance s = e) :
    Stays d (s ++ t) ↔ Stays d s ∧ Stays e t := by
  constructor
  · intro hst
    refine ⟨fun p hp => hst p (hp.trans (List.prefix_append s t)), ?_⟩
    intro p hp
    have := hst (s ++ p) ((List.prefix_append_right_inj s).mpr hp)
    rw [balance_append] at this
    omega
  · rintro ⟨hs, ht⟩ p hp
    rcases List.prefix_or_prefix_of_prefix hp (List.prefix_append s t) with hps | ⟨q, rfl⟩
    · exact hs p hps
    · have := ht q ((List.prefix_append_right_inj s).mp hp)
      rw [balance_append]
      omega

theorem balance_of_not_mem (ho : openBrace ∉ t) (hc : closeBrace ∉ t) : balance t = 0 := by
  simp [balance, List.count_eq_zero.mpr ho, List.count_eq_zero.mpr hc]

theorem not_mem_of_stays (h : Stays 0 t) (ho : openBrace ∉ t) : closeBrace ∉ t := by
  have := h t (List.prefix_refl t)
  simp only [balance, List.count_eq_zero.mpr ho] at this
  exact List.count_eq_zero.mp (by omega)

theorem balanced_nil : Balanced [] := by decide

theorem Balanced.append (hs : Balanced s) (ht : Balanced t) : Balanced (s ++ t) := by
  rw [balanced_iff] at hs ht ⊢
  rw [stays_append_iff (e := 0) (by simp [hs.2]), balance_append, hs.2, ht.2]
  exact ⟨⟨hs.1, ht.1⟩, rfl⟩

/-! ## The brace that closes a group -/

/-- A byte either leaves a depth behind it or closes the outer group. -/
theorem depth_or_close (d : Nat) (b : Byte) :
    (∃ e : Nat, (d : Int) + balance [b] = e) ∨ d = 0 ∧ b = closeBrace := by
  by_cases hclose : d = 0 ∧ b = closeBrace
  · exact Or.inr hclose
  · left
    have hnonneg : 0 ≤ (d : Int) + balance [b] := by
      by_cases ho : b = openBrace
      · rw [ho, balance_openBrace]
        omega
      by_cases hc : b = closeBrace
      · have hd : d ≠ 0 := fun hd => hclose ⟨hd, hc⟩
        rw [hc, balance_closeBrace]
        omega
      · rw [balance_of_ne ho hc]
        omega
    exact Int.eq_ofNat_of_zero_le hnonneg

theorem Stays.exists_depth (h : Stays d (b :: t)) : ∃ e : Nat, (d : Int) + balance [b] = e :=
  Int.eq_ofNat_of_zero_le (h [b] (by simp))

theorem closing_cons (he : (d : Int) + balance [b] = e) (t : Text) :
    closing d (b :: t) = (closing e t).map fun p => (b :: p.1, p.2) := by
  conv => lhs; unfold closing
  split_ifs with ho hc
  · rw [ho, balance_openBrace] at he
    rw [show d + 1 = e by omega]
  · rw [hc, balance_closeBrace] at he
    obtain rfl : d = e + 1 := by omega
    rfl
  · rw [balance_of_ne ho hc] at he
    rw [show d = e by omega]

theorem closing_zero_cons (t : Text) : closing 0 (closeBrace :: t) = some ([], t) := rfl

theorem closing_eq_none_iff : closing d t = none ↔ Stays d t := by
  induction t generalizing d with
  | nil => simp [closing, stays_nil]
  | cons b t ih =>
    rcases depth_or_close d b with ⟨e, he⟩ | ⟨rfl, rfl⟩
    · rw [closing_cons he, Option.map_eq_none_iff, ih, stays_cons_iff he]
    · rw [closing_zero_cons]
      simp only [reduceCtorEq, false_iff]
      intro h
      have := h [closeBrace] (by simp)
      rw [balance_closeBrace] at this
      omega

theorem closing_append (h : Stays d u) (he : (d : Int) + balance u = e) (v : Text) :
    closing d (u ++ v) = (closing e v).map fun p => (u ++ p.1, p.2) := by
  induction u generalizing d with
  | nil =>
    rw [balance_nil] at he
    obtain rfl : d = e := by omega
    simp
  | cons b u ih =>
    obtain ⟨c, hc⟩ := h.exists_depth
    rw [balance_cons] at he
    rw [List.cons_append, closing_cons hc, ih ((stays_cons_iff hc).mp h) (by omega),
      Option.map_map]
    rfl

theorem closing_of_balanced (hbody : Balanced body) (tail : Text) :
    closing 0 (body ++ closeBrace :: tail) = some (body, tail) := by
  rw [balanced_iff] at hbody
  rw [closing_append (e := 0) hbody.1 (by simp [hbody.2]), closing_zero_cons]
  simp

theorem of_closing (h : closing d t = some (body, tail)) :
    t = body ++ closeBrace :: tail ∧ Stays d body ∧ (d : Int) + balance body = 0 := by
  induction t generalizing d body with
  | nil => simp [closing] at h
  | cons b t ih =>
    rcases depth_or_close d b with ⟨e, he⟩ | ⟨rfl, rfl⟩
    · rw [closing_cons he] at h
      obtain ⟨⟨inner, rest⟩, hclosing, heq⟩ := Option.map_eq_some_iff.mp h
      obtain ⟨rfl, rfl⟩ := Prod.mk.inj heq
      obtain ⟨rfl, hstays, hzero⟩ := ih hclosing
      refine ⟨rfl, (stays_cons_iff he).mpr hstays, ?_⟩
      simp only [balance_cons b inner]
      omega
    · rw [closing_zero_cons] at h
      cases h
      exact ⟨rfl, stays_nil, rfl⟩

/-! ## Alternatives -/

/-- No comma of the text is outside its groups, when `d` groups are open in front of it. -/
def Uncut (d : Nat) (t : Text) : Prop := ∀ p, p ++ [comma] <+: t → (d : Int) + balance p ≠ 0

instance : Decidable (Uncut d t) :=
  decidable_of_iff (∀ p ∈ t.inits, p.getLast? = some comma → (d : Int) + balance p.dropLast ≠ 0) (by
    simp only [List.mem_inits]
    constructor
    · intro h p hp
      simpa using h (p ++ [comma]) hp (by simp)
    · intro h p hp hlast
      apply h
      rwa [List.dropLast_append_getLast? comma hlast])

theorem sublist_of_mem_alternatives {a : Text} (h : a ∈ alternatives d t) : a.Sublist t := by
  induction t generalizing d a with
  | nil => simp_all [alternatives]
  | cons b t ih =>
    rw [alternatives] at h
    split_ifs at h
    · rcases List.mem_cons.mp h with rfl | h
      · exact List.nil_sublist _
      · exact (ih h).cons b
    · cases hs : alternatives (depthAfter d b) t with
      | nil => simp [hs] at h
      | cons x xs =>
        rw [hs, List.modifyHead_cons, List.mem_cons] at h
        rcases h with rfl | h
        · exact (ih (hs ▸ List.mem_cons_self)).cons_cons b
        · exact (ih (hs ▸ List.mem_cons_of_mem x h)).cons b

theorem cast_depthAfter (h : Stays d (b :: t)) :
    ((depthAfter d b : Nat) : Int) = d + balance [b] := by
  have := h [b] (by simp)
  unfold depthAfter
  split_ifs with ho hc
  · simp [ho, balance_openBrace]
  · rw [hc, balance_closeBrace] at this ⊢
    omega
  · simp [balance_of_ne ho hc]

theorem depthAfter_comma (d : Nat) : depthAfter d comma = d := rfl

theorem exists_alternatives (h : Stays d t) (hclosed : (d : Int) + balance t = 0) :
    ∃ a rest, alternatives d t = a :: rest ∧ (Stays d a ∧ (d : Int) + balance a = 0) ∧
      ∀ x ∈ rest, Balanced x := by
  induction t generalizing d with
  | nil => exact ⟨[], [], rfl, ⟨h, hclosed⟩, by simp⟩
  | cons b t ih =>
    have hdepth := cast_depthAfter h
    rw [balance_cons] at hclosed
    obtain ⟨a, rest, heq, ⟨hstays, hzero⟩, hrest⟩ :=
      ih ((stays_cons_iff hdepth.symm).mp h) (by omega)
    rw [alternatives]
    split_ifs with hcomma
    · obtain ⟨rfl, rfl⟩ := hcomma
      rw [depthAfter_comma] at heq hstays hzero
      have hfirst : Balanced a := balanced_iff.mpr ⟨hstays, by simpa using hzero⟩
      refine ⟨[], alternatives 0 t, rfl, ⟨stays_nil, by simp⟩, ?_⟩
      intro x hx
      rw [heq] at hx
      rcases List.mem_cons.mp hx with rfl | hx
      · exact hfirst
      · exact hrest x hx
    · refine ⟨b :: a, rest, by rw [heq]; rfl, ⟨(stays_cons_iff hdepth.symm).mpr hstays, ?_⟩, hrest⟩
      rw [balance_cons]
      omega

theorem balanced_of_mem_alternatives {a : Text} (h : Balanced t) (ha : a ∈ alternatives 0 t) :
    Balanced a := by
  rw [balanced_iff] at h
  obtain ⟨first, rest, heq, ⟨hstays, hzero⟩, hrest⟩ := exists_alternatives h.1 (by simpa using h.2)
  rw [heq] at ha
  rcases List.mem_cons.mp ha with rfl | ha
  · exact balanced_iff.mpr ⟨hstays, by simpa using hzero⟩
  · exact hrest a ha

theorem alternatives_append (h : Stays d u) (huncut : Uncut d u)
    (he : (d : Int) + balance u = e) (v : Text) :
    alternatives d (u ++ v) = (alternatives e v).modifyHead (u ++ ·) := by
  induction u generalizing d with
  | nil =>
    rw [balance_nil] at he
    obtain rfl : d = e := by omega
    rw [List.nil_append]
    cases alternatives d v <;> rfl
  | cons b u ih =>
    have hdepth := cast_depthAfter h
    have hcomma : ¬ (b = comma ∧ d = 0) := by
      rintro ⟨rfl, rfl⟩
      exact huncut [] (by simp) (by simp)
    have huncut' : Uncut (depthAfter d b) u := by
      intro p hp
      have := huncut (b :: p) (by simpa using hp)
      rw [balance_cons] at this
      omega
    rw [balance_cons] at he
    rw [List.cons_append, alternatives, if_neg hcomma,
      ih ((stays_cons_iff hdepth.symm).mp h) huncut' (by omega), List.modifyHead_modifyHead]
    rfl

theorem alternatives_intercalate {parts : List Text} (hne : parts ≠ [])
    (h : ∀ a ∈ parts, Balanced a ∧ Uncut 0 a) :
    alternatives 0 ([comma].intercalate parts) = parts := by
  have hfirst {a : Text} (ha : Balanced a ∧ Uncut 0 a) (v : Text) :
      alternatives 0 (a ++ v) = (alternatives 0 v).modifyHead (a ++ ·) :=
    alternatives_append (balanced_iff.mp ha.1).1 ha.2 (by simp [ha.1.closed]) v
  induction parts with
  | nil => exact absurd rfl hne
  | cons a parts ih =>
    have ha := hfirst (h a (by simp))
    rcases eq_or_ne parts [] with rfl | hparts
    · have := ha []
      simpa [alternatives] using this
    · rw [List.intercalate_cons_of_ne_nil hparts, List.append_assoc, ha, List.singleton_append,
        alternatives, if_pos ⟨rfl, rfl⟩, ih hparts fun x hx => h x (List.mem_cons_of_mem _ hx)]
      simp

theorem balanced_intercalate {parts : List Text} (h : ∀ a ∈ parts, Balanced a) :
    Balanced ([comma].intercalate parts) := by
  induction parts with
  | nil => exact balanced_nil
  | cons a parts ih =>
    have ha := h a (by simp)
    have ih := ih fun x hx => h x (List.mem_cons_of_mem _ hx)
    have hcomma : Balanced [comma] := by decide
    rcases eq_or_ne parts [] with rfl | hparts
    · simpa using ha
    · rw [List.intercalate_cons_of_ne_nil hparts]
      exact (ha.append hcomma).append ih

/-! ## The first group -/

theorem group?_of_not_mem (h : openBrace ∉ t) : group? t = none := by
  have hnil : t.dropWhile (· ≠ openBrace) = [] := by
    simpa [List.dropWhile_eq_nil_iff] using fun c hc (heq : c = openBrace) => h (heq ▸ hc)
  simp only [group?, hnil]

theorem group?_append (h : openBrace ∉ head) (t : Text) : group? (head ++ openBrace :: t) =
    (closing 0 t).map fun p => ⟨head, alternatives 0 p.1, p.2⟩ := by
  have hall : ∀ c ∈ head, (decide (c ≠ openBrace)) = true := by
    intro c hc
    simpa using fun heq : c = openBrace => h (heq ▸ hc)
  have hdrop : (head ++ openBrace :: t).dropWhile (· ≠ openBrace) = openBrace :: t := by
    rw [List.dropWhile_append_of_pos hall, List.dropWhile_cons_of_neg (by simp)]
  have htake : (head ++ openBrace :: t).takeWhile (· ≠ openBrace) = head := by
    rw [List.takeWhile_append_of_pos hall, List.takeWhile_cons_of_neg (by simp), List.append_nil]
  simp only [group?, hdrop, htake]

theorem of_group? {g : Group} (h : group? t = some g) : ∃ body,
    t = g.head ++ openBrace :: (body ++ closeBrace :: g.tail) ∧ openBrace ∉ g.head ∧
      Balanced body ∧ g.choices = alternatives 0 body := by
  have hmem : openBrace ∈ t := by
    by_contra hno
    rw [group?_of_not_mem hno] at h
    cases h
  obtain ⟨head, rest, rfl, hhead⟩ := List.eq_append_cons_of_mem hmem
  rw [group?_append hhead] at h
  obtain ⟨⟨body, tail⟩, hclosing, rfl⟩ := Option.map_eq_some_iff.mp h
  obtain ⟨rfl, hstays, hzero⟩ := of_closing hclosing
  exact ⟨body, rfl, hhead, balanced_iff.mpr ⟨hstays, by simpa using hzero⟩, rfl⟩

/-! ## Expansions -/

theorem expand_of_group?_none (h : group? t = none) : expand t = [t] := by
  unfold expand
  split
  · rfl
  · next g hg =>
    rw [h] at hg
    cases hg

theorem expand_of_group? {g : Group} (h : group? t = some g) :
    expand t = (g.choices.flatMap expand).flatMap fun choice =>
      (expand g.tail).map fun rest => g.head ++ choice ++ rest := by
  conv => lhs; unfold expand
  split
  · next hnone =>
    rw [h] at hnone
    cases hnone
  · next g' hg =>
    rw [h] at hg
    cases hg
    simp

theorem expand_of_not_mem (h : openBrace ∉ t) : expand t = [t] :=
  expand_of_group?_none (group?_of_not_mem h)

theorem expand_of_stays (hhead : openBrace ∉ head) (h : Stays 0 t) :
    expand (head ++ openBrace :: t) = [head ++ openBrace :: t] := by
  apply expand_of_group?_none
  rw [group?_append hhead, closing_eq_none_iff.mpr h]
  rfl

theorem expand_group (hhead : openBrace ∉ head) (hbody : Balanced body) (tail : Text) :
    expand (head ++ openBrace :: (body ++ closeBrace :: tail)) =
      ((alternatives 0 body).flatMap expand).flatMap fun choice =>
        (expand tail).map fun rest => head ++ choice ++ rest := by
  apply expand_of_group? (g := ⟨head, alternatives 0 body, tail⟩)
  rw [group?_append hhead, closing_of_balanced hbody]
  rfl

/-- A pattern has no opening brace, or one that is never closed, or a first group. -/
theorem cases_group (t : Text) : openBrace ∉ t ∨
    (∃ head rest, t = head ++ openBrace :: rest ∧ openBrace ∉ head ∧ Stays 0 rest) ∨
    ∃ head body tail, t = head ++ openBrace :: (body ++ closeBrace :: tail) ∧ openBrace ∉ head ∧
      Balanced body := by
  by_cases hmem : openBrace ∈ t
  · right
    obtain ⟨head, rest, rfl, hhead⟩ := List.eq_append_cons_of_mem hmem
    cases hclosing : closing 0 rest with
    | none => exact Or.inl ⟨head, rest, rfl, hhead, closing_eq_none_iff.mp hclosing⟩
    | some p =>
      obtain ⟨body, tail⟩ := p
      obtain ⟨rfl, hstays, hzero⟩ := of_closing hclosing
      exact Or.inr ⟨head, body, tail, rfl, hhead, balanced_iff.mpr ⟨hstays, by simpa using hzero⟩⟩
  · exact Or.inl hmem

theorem expand_append_of_not_mem (hs : openBrace ∉ s) (v : Text) :
    expand (s ++ v) = (expand v).map (s ++ ·) := by
  have hfront {head : Text} (hhead : openBrace ∉ head) : openBrace ∉ s ++ head := by
    simp [hs, hhead]
  rcases cases_group v with h | ⟨head, rest, rfl, hhead, hstays⟩ |
    ⟨head, body, tail, rfl, hhead, hbody⟩
  · rw [expand_of_not_mem h, expand_of_not_mem (hfront h)]
    rfl
  · rw [← List.append_assoc, expand_of_stays (hfront hhead) hstays, expand_of_stays hhead hstays]
    simp
  · rw [← List.append_assoc, expand_group (hfront hhead) hbody, expand_group hhead hbody]
    simp [List.map_flatMap, Function.comp_def]

theorem Balanced.cases (h : Balanced u) : (openBrace ∉ u ∧ closeBrace ∉ u) ∨
    ∃ head body tail, u = head ++ openBrace :: (body ++ closeBrace :: tail) ∧
      openBrace ∉ head ∧ closeBrace ∉ head ∧ Balanced body ∧ Balanced tail := by
  rw [balanced_iff] at h
  rcases cases_group u with hno | ⟨head, rest, rfl, hhead, hstays⟩ |
    ⟨head, body, tail, rfl, hhead, hbody⟩
  · exact Or.inl ⟨hno, not_mem_of_stays h.1 hno⟩
  · have hclose : closeBrace ∉ head :=
      not_mem_of_stays (fun p hp => h.1 p (hp.trans (List.prefix_append _ _))) hhead
    have := hstays rest (List.prefix_refl rest)
    have hzero := h.2
    rw [balance_append, balance_cons, balance_of_not_mem hhead hclose, balance_openBrace] at hzero
    omega
  · right
    have hclose : closeBrace ∉ head :=
      not_mem_of_stays (fun p hp => h.1 p (hp.trans (List.prefix_append _ _))) hhead
    have hgroup : balance (head ++ openBrace :: (body ++ [closeBrace])) = 0 := by
      rw [balance_append, balance_cons, balance_append, balance_of_not_mem hhead hclose,
        hbody.closed]
      rfl
    have hsplit : head ++ openBrace :: (body ++ closeBrace :: tail) =
        head ++ openBrace :: (body ++ [closeBrace]) ++ tail := by simp
    rw [hsplit, stays_append_iff (e := 0) (by simp [hgroup]), balance_append, hgroup] at h
    refine ⟨head, body, tail, rfl, hhead, hclose, hbody, balanced_iff.mpr ⟨h.1.2, ?_⟩⟩
    simpa using h.2

theorem expand_append (h : Balanced u) (v : Text) :
    expand (u ++ v) = (expand u).flatMap fun x => (expand v).map fun y => x ++ y := by
  induction hn : u.length using Nat.strongRecOn generalizing u with
  | _ n ih =>
    rcases h.cases with ⟨hno, -⟩ | ⟨head, body, tail, rfl, hhead, -, hbody, htail⟩
    · rw [expand_append_of_not_mem hno, expand_of_not_mem hno]
      simp
    · have ih := ih tail.length (by rw [← hn]; simp; omega) htail rfl
      rw [List.append_assoc, List.cons_append, List.append_assoc, List.cons_append,
        expand_group hhead hbody, expand_group hhead hbody, ih]
      simp [List.map_flatMap, List.flatMap_map, List.flatMap_assoc, Function.comp_def]

theorem not_mem_of_mem_expand {x : Text} (h : Balanced u) (hx : x ∈ expand u) :
    openBrace ∉ x ∧ closeBrace ∉ x := by
  induction hn : u.length using Nat.strongRecOn generalizing u x with
  | _ n ih =>
    rcases h.cases with hno | ⟨head, body, tail, rfl, hhead, hclose, hbody, htail⟩
    · rw [expand_of_not_mem hno.1, List.mem_singleton] at hx
      rw [hx]
      exact hno
    · simp only [List.length_append, List.length_cons] at hn
      rw [expand_group hhead hbody] at hx
      obtain ⟨choice, hchoice, hx⟩ := List.mem_flatMap.mp hx
      obtain ⟨a, ha, hchoice⟩ := List.mem_flatMap.mp hchoice
      obtain ⟨rest, hrest, rfl⟩ := List.mem_map.mp hx
      have hlen := (sublist_of_mem_alternatives ha).length_le
      have hc := ih a.length (by omega) (balanced_of_mem_alternatives hbody ha) hchoice rfl
      have hr := ih tail.length (by omega) htail hrest rfl
      simp [hhead, hclose, hc, hr]

/-- A pattern is expanded by putting each alternative of the first group in its place. -/
theorem expand_substitute {g : Group} (h : group? t = some g) :
    expand t = (g.choices.flatMap fun a => expand (g.head ++ a ++ g.tail)) ∧
      ∀ a ∈ g.choices, (g.head ++ a ++ g.tail).count openBrace < t.count openBrace := by
  obtain ⟨body, ht, hhead, hbody, hchoices⟩ := of_group? h
  constructor
  · rw [expand_of_group? h, List.flatMap_assoc]
    apply List.flatMap_congr
    intro a ha
    rw [hchoices] at ha
    rw [List.append_assoc, expand_append_of_not_mem hhead,
      expand_append (balanced_of_mem_alternatives hbody ha)]
    simp [List.map_flatMap, Function.comp_def]
  · intro a ha
    rw [hchoices] at ha
    have := (sublist_of_mem_alternatives ha).count_le openBrace
    rw [ht]
    have hclose : (closeBrace :: g.tail).count openBrace = g.tail.count openBrace :=
      List.count_cons_of_ne (by decide)
    simp only [List.count_append, List.count_cons_self, hclose]
    omega

/-- A balanced front is expanded by itself, and a group into its alternatives. -/
theorem expand_homomorphism :
    (∀ u v, Balanced u →
      expand (u ++ v) = (expand u).flatMap fun x => (expand v).map fun y => x ++ y) ∧
    (∀ parts : List Text, parts ≠ [] → (∀ a ∈ parts, Balanced a ∧ Uncut 0 a) →
      expand (openBrace :: ([comma].intercalate parts ++ [closeBrace])) = parts.flatMap expand) ∧
    (∀ t, openBrace ∉ t → expand t = [t]) ∧
    (∀ head rest, openBrace ∉ head → (∀ p, p <+: rest → 0 ≤ balance p) →
      expand (head ++ openBrace :: rest) = [head ++ openBrace :: rest]) ∧
    (∀ u, Balanced u → ∀ x ∈ expand u, openBrace ∉ x ∧ closeBrace ∉ x) ∧
    (∀ t g, group? t = some g →
      expand t = (g.choices.flatMap fun a => expand (g.head ++ a ++ g.tail)) ∧
        ∀ a ∈ g.choices, (g.head ++ a ++ g.tail).count openBrace < t.count openBrace) := by
  refine ⟨fun u v hu => expand_append hu v, ?_, fun t ht => expand_of_not_mem ht, ?_,
    fun u hu x hx => not_mem_of_mem_expand hu hx, fun t g hg => expand_substitute hg⟩
  · intro parts hne hparts
    have hbody : Balanced ([comma].intercalate parts) :=
      balanced_intercalate fun a ha => (hparts a ha).1
    have hempty : expand [] = [[]] := expand_of_not_mem (by simp)
    have := expand_group (show openBrace ∉ ([] : Text) by simp) hbody []
    simpa [alternatives_intercalate hne hparts, hempty] using this
  · intro head rest hhead hrest
    exact expand_of_stays hhead fun p hp => by simpa using hrest p hp

theorem expand_homomorphism_nested :
    expand "\x7ba,b\x7b1,2\x7d\x7d\x7bc,d" =
      ([("a\x7bc,d" : Text), ("b1\x7bc,d" : Text), ("b2\x7bc,d" : Text)] : List Text) := by
  obtain ⟨happend, hgroup, hplain, hopen, -, -⟩ := expand_homomorphism
  have hinner : expand "\x7b1,2\x7d" = ["1", "2"] := by
    refine (hgroup ["1", "2"] (by simp) (by decide)).trans ?_
    simp only [List.flatMap_cons, List.flatMap_nil, hplain "1" (by decide), hplain "2" (by decide)]
    rfl
  have hsecond : expand "b\x7b1,2\x7d" = ["b1", "b2"] := by
    refine (happend "b" "\x7b1,2\x7d" (by decide)).trans ?_
    rw [hplain "b" (by decide), hinner]
    rfl
  have houter : expand "\x7ba,b\x7b1,2\x7d\x7d" = ["a", "b1", "b2"] := by
    refine (hgroup ["a", "b\x7b1,2\x7d"] (by simp) (by decide)).trans ?_
    simp only [List.flatMap_cons, List.flatMap_nil, hplain "a" (by decide), hsecond]
    rfl
  have htail : expand "\x7bc,d" = ["\x7bc,d"] := hopen [] "c,d" (by simp) (by
    intro p hp
    exact (show ∀ p ∈ (Text.ofString "c,d").inits, 0 ≤ balance p by decide) p
      ((List.mem_inits _ _).mpr hp))
  refine (happend "\x7ba,b\x7b1,2\x7d\x7d" "\x7bc,d" (by decide)).trans ?_
  rw [houter, htail]
  rfl

end HeaderOrder.Braces

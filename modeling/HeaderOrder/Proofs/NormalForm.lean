import HeaderOrder.Proofs.Path

/-!
# The normal form of a pathname

Names are taken out of a pathname until nothing is left to cancel.
-/

namespace HeaderOrder

open Byte

/-! ## Pathnames -/

/-- A pathname in which slashes alone are separators. -/
structure Pathname where
  rooted : Bool
  names : List Text
  /-- A separator follows the last name. -/
  ended : Bool

namespace Pathname

open HeaderOrder.Path

variable {p q : Pathname} {name : Text} {stack : List Text} {rooted : Bool}

/-- Any number of slashes is one separator, and one root in front. -/
def ofText (t : Text) : Pathname :=
  ⟨isAbsolute t, (t.splitOn slash).filter (· ≠ []), t.getLast? == some slash⟩

def text (p : Pathname) : Text :=
  (if p.rooted then [slash] else []) ++ [slash].intercalate p.names ++
    (if p.names ≠ [] ∧ p.ended then [slash] else [])

/-- Takes out all names like this one, each with the separator after it. -/
def without (p : Pathname) (name : Text) : Pathname :=
  { p with
    names := p.names.filter (· ≠ name)
    ended := p.ended || p.names.getLast? == some name }

/-- No name is followed by a double dot, other than a double dot. -/
def Settled (p : Pathname) : Prop :=
  ∀ front name rest, p.names = front ++ name :: above :: rest → name = above

/-- Takes out a name and the double dot that follows it, with the separator after them, as long as
there are such names. Which of them goes first is left open. -/
inductive Cancels : Pathname → Pathname → Prop where
  | done {p : Pathname} (h : p.Settled) : Cancels p p
  | step {p q : Pathname} {front rest : List Text} {name : Text}
      (hnames : p.names = front ++ name :: above :: rest) (hname : name ≠ above)
      (h : Cancels { p with names := front ++ rest, ended := p.ended || rest.isEmpty } q) :
      Cancels p q

def belowRoot (p : Pathname) : Pathname := if p.rooted then p.without above else p

def plainEnd (p : Pathname) : Pathname :=
  if p.names.getLast? = some above then { p with ended := false } else p

/-- The normal form of a pathname that is not empty. A dot stands for nothing. -/
def IsNormalForm (t normal : Text) : Prop :=
  ∃ p, ((ofText t).without here).Cancels p ∧
    normal = if p.belowRoot.plainEnd.text = [] then here else p.belowRoot.plainEnd.text

/-! ## Taking names out -/

theorem foldl_enter_filter (hskip : name = [] ∨ name = here) (names : List Text) :
    (names.filter (· ≠ name)).foldl (enter rooted) stack = names.foldl (enter rooted) stack := by
  rw [List.foldl_filter]
  congr 1
  funext stack part
  split_ifs with hpart
  · rfl
  · obtain rfl : part = name := by simpa using hpart
    exact (enter_skip hskip).symm

theorem Cancels.rooted_eq (h : p.Cancels q) : q.rooted = p.rooted := by
  induction h with
  | done h => rfl
  | step hnames hname h ih => exact ih

theorem Cancels.settled (h : p.Cancels q) : q.Settled := by
  induction h with
  | done h => exact h
  | step hnames hname h ih => exact ih

theorem Cancels.subset (h : p.Cancels q) : q.names ⊆ p.names := by
  induction h with
  | done h => exact List.Subset.refl _
  | step hnames hname h ih =>
    intro n hn
    have hmem := ih hn
    rw [hnames]
    simp only [List.mem_append, List.mem_cons] at hmem ⊢
    tauto

/-- A name and the double dot after it lead back to where they start. -/
theorem Cancels.foldl_enter (h : p.Cancels q) (hnames : ∀ n ∈ p.names, n ≠ [] ∧ n ≠ here ∧
    ∀ b ∈ n, isSeparator b = false) (rooted : Bool) :
    q.names.foldl (enter rooted) [] = p.names.foldl (enter rooted) [] := by
  induction h with
  | done h => rfl
  | @step p q front rest name hsplit hname h ih =>
    rw [hsplit] at hnames
    obtain ⟨hne, hhere, hplain⟩ := hnames name (by simp)
    have hback : ∀ stack, enter rooted (enter rooted stack name) above = stack := by
      intro stack
      have hdown : IsName name := ⟨hne, hhere, hname, hplain⟩
      rw [enter_name hdown, enter_above_name hdown]
    rw [ih fun n hn => hnames n (by
        simp only [List.mem_append, List.mem_cons] at hn ⊢
        tauto),
      hsplit, List.foldl_append, List.foldl_append, List.foldl_cons, List.foldl_cons, hback]

theorem exists_cancels (p : Pathname) : ∃ q, p.Cancels q := by
  obtain ⟨n, hn⟩ : ∃ n, p.names.length = n := ⟨_, rfl⟩
  induction n using Nat.strong_induction_on generalizing p with
  | _ n ih =>
    by_cases hsettled : p.Settled
    · exact ⟨p, .done hsettled⟩
    · unfold Settled at hsettled
      push Not at hsettled
      obtain ⟨front, name, rest, hnames, hname⟩ := hsettled
      have hlt : (front ++ rest).length < n := by
        rw [← hn, hnames, List.length_append, List.length_append, List.length_cons,
          List.length_cons]
        omega
      obtain ⟨q, hq⟩ := ih _ hlt
        { p with names := front ++ rest, ended := p.ended || rest.isEmpty } rfl
      exact ⟨q, .step hnames hname hq⟩

/-- Once nothing is left to cancel, double dots stand in front of all names. -/
theorem Settled.exists_replicate (h : p.Settled) :
    ∃ k names, p.names = List.replicate k above ++ names ∧ above ∉ names := by
  obtain ⟨rooted, parts, ended⟩ := p
  dsimp only
  induction parts with
  | nil => exact ⟨0, [], rfl, by simp⟩
  | cons part parts ih =>
    obtain ⟨k, names, hparts, hnames⟩ := ih fun front name rest hsplit =>
      h (part :: front) name rest (by rw [List.cons_append, ← hsplit])
    by_cases hpart : part = above
    · exact ⟨k + 1, names, by rw [hparts, hpart, List.replicate_succ, List.cons_append], hnames⟩
    · obtain rfl : k = 0 := by
        by_contra hk
        obtain ⟨k, rfl⟩ := Nat.exists_eq_succ_of_ne_zero hk
        refine hpart (h [] part (List.replicate k above ++ names) ?_)
        rw [hparts, List.replicate_succ]
        rfl
      exact ⟨0, part :: names, by rw [hparts]; rfl, by simp [hnames, Ne.symm hpart]⟩

theorem foldl_enter_above (k : Nat) : (List.replicate k above).foldl (enter true) [] = [] := by
  induction k with
  | zero => rfl
  | succ k ih => exact ih

theorem Settled.foldl_enter (h : p.Settled) (hnames : ∀ n ∈ p.names, n ≠ [] ∧ n ≠ here ∧
      ∀ b ∈ n, isSeparator b = false) :
    (p.names.foldl (enter p.rooted) []).reverse = p.belowRoot.names := by
  obtain ⟨k, names, hparts, habove⟩ := h.exists_replicate
  have hall : ∀ n ∈ names, IsName n := by
    intro n hn
    obtain ⟨hne, hhere, hplain⟩ := hnames n (by rw [hparts]; exact List.mem_append_right _ hn)
    exact ⟨hne, hhere, fun heq => habove (heq ▸ hn), hplain⟩
  unfold belowRoot
  rw [hparts, List.foldl_append, foldl_enter_names hall]
  cases hr : p.rooted with
  | true =>
    have hkept : names.filter (· ≠ above) = names :=
      List.filter_eq_self.mpr fun n hn => by simpa using (hall n hn).ne_above
    rw [foldl_enter_above, if_pos rfl, without, hparts, List.filter_append, hkept]
    simp
  | false =>
    rw [foldl_enter_replicate, if_neg (by simp), hparts]
    simp

end Pathname

/-! ## From a path to its normal form -/

namespace Path

variable {t : Text} {p : Path}

def slashed (t : Text) : Text := t.map fun b => if b = backslash then slash else b

def withoutEnd (t : Text) : Text :=
  if 1 < t.length ∧ t.getLast? = some slash then t.dropLast else t

/-- The steps that lead from a path to its normal text: slashes for backslashes, the normal form of
the pathname, what stands for an empty one, and no slash at the end. -/
def Normalizes (t out : Text) : Prop :=
  if t = [] then out = here
  else ∃ normal, Pathname.IsNormalForm (slashed t) normal ∧
    out = withoutEnd (if normal = [] then (if isAbsolute (slashed t) then [slash] else here)
      else normal)

theorem isAbsolute_slashed (t : Text) : isAbsolute (slashed t) = isRooted t := by
  cases t with
  | nil => rfl
  | cons b t =>
    by_cases hb : b = backslash
    · simp [slashed, isAbsolute, isRooted, isSeparator, hb]
    · simp [slashed, isAbsolute, isRooted, isSeparator, hb]

theorem splitOn_slashed (t : Text) : (slashed t).splitOn slash = t.splitOnP isSeparator := by
  rw [List.splitOn_eq_splitOnP]
  induction t with
  | nil => rfl
  | cons b t ih =>
    have hcons : slashed (b :: t) = (if b = backslash then slash else b) :: slashed t := rfl
    rw [hcons, List.splitOnP_cons_eq_if_modifyHead, List.splitOnP_cons_eq_if_modifyHead, ih]
    by_cases hb : b = backslash
    · simp [hb, isSeparator]
    · simp [hb, isSeparator]

theorem names_ofText_slashed (t : Text) :
    (Pathname.ofText (slashed t)).names = (t.splitOnP isSeparator).filter (· ≠ []) := by
  rw [← splitOn_slashed]
  rfl

theorem ofText_of_cancels {q : Pathname}
    (h : ((Pathname.ofText (slashed t)).without here).Cancels q) :
    ofText t = ⟨isRooted t, q.belowRoot.names⟩ ∧ q.rooted = isRooted t := by
  have hnames : ∀ n ∈ ((Pathname.ofText (slashed t)).without here).names,
      n ≠ [] ∧ n ≠ here ∧ ∀ b ∈ n, isSeparator b = false := by
    intro n hn
    rw [Pathname.without, List.mem_filter, names_ofText_slashed, List.mem_filter] at hn
    obtain ⟨⟨hmem, hne⟩, hhere⟩ := hn
    exact ⟨by simpa using hne, by simpa using hhere, Text.plain_of_mem_splitOnP hmem⟩
  have hrooted : q.rooted = isRooted t := h.rooted_eq.trans (isAbsolute_slashed t)
  have hread : q.names.foldl (enter q.rooted) [] =
      (t.splitOnP isSeparator).foldl (enter (isRooted t)) [] := by
    rw [h.foldl_enter hnames, hrooted,
      Pathname.without, Pathname.foldl_enter_filter (Or.inr rfl), names_ofText_slashed,
      Pathname.foldl_enter_filter (Or.inl rfl)]
  refine ⟨?_, hrooted⟩
  rw [ofText, ← hread, h.settled.foldl_enter fun n hn => hnames n (h.subset hn)]

theorem toText_ne_nil (hplain : ∀ part ∈ p.parts, part ≠ []) : p.toText ≠ [] := by
  obtain ⟨rooted, parts⟩ := p
  cases rooted with
  | true => simp [toText]
  | false =>
    cases parts with
    | nil => decide
    | cons part parts =>
      have hpart := hplain part (by simp)
      rcases eq_or_ne parts [] with rfl | hne
      · simpa [toText] using hpart
      · simp [toText, List.intercalate_cons_of_ne_nil hne, hpart]

theorem withoutEnd_text {p : Pathname}
    (hplain : ∀ n ∈ p.names, n ≠ [] ∧ ∀ b ∈ n, isSeparator b = false) :
    withoutEnd (if p.text = [] then here else p.text) = toText ⟨p.rooted, p.names⟩ := by
  obtain ⟨rooted, names, ended⟩ := p
  rcases eq_or_ne names [] with rfl | hne
  · cases rooted with
    | true => cases ended <;> rfl
    | false => cases ended <;> rfl
  have hlast := getLast?_toText (p := ⟨rooted, names⟩) hne hplain
  have hnil := toText_ne_nil (p := ⟨rooted, names⟩) fun n hn => (hplain n hn).1
  have htext : Pathname.text ⟨rooted, names, ended⟩ =
      toText ⟨rooted, names⟩ ++ if ended then [slash] else [] := by
    unfold Pathname.text toText
    cases rooted <;> simp [hne]
  rw [htext, if_neg (by simp [hnil])]
  unfold withoutEnd
  cases ended with
  | true =>
    have hlength : 1 < (toText ⟨rooted, names⟩ ++ [slash]).length := by
      have := List.length_pos_iff.mpr hnil
      simp
      omega
    rw [if_pos rfl, if_pos ⟨hlength, List.getLast?_concat⟩, List.dropLast_concat]
  | false =>
    have hfalse : ¬ (false = true) := by simp
    rw [if_neg hfalse, List.append_nil, if_neg (fun h => hlast h.2)]

/-- The steps to a normal form come to an end, and the normal text is where they lead. -/
theorem normalizes_iff {out : Text} : Normalizes t out ↔ out = normalize t := by
  unfold Normalizes
  by_cases hnil : t = []
  · rw [if_pos hnil, hnil]
    rfl
  · rw [if_neg hnil]
    have hnormal {q : Pathname} (h : ((Pathname.ofText (slashed t)).without here).Cancels q) :
        withoutEnd (if q.belowRoot.plainEnd.text = [] then here else q.belowRoot.plainEnd.text) =
          normalize t := by
      obtain ⟨hread, hrooted⟩ := ofText_of_cancels h
      have hsame : q.belowRoot.plainEnd.names = q.belowRoot.names := by
        unfold Pathname.plainEnd
        split_ifs <;> rfl
      have hroot : q.belowRoot.plainEnd.rooted = q.rooted := by
        unfold Pathname.plainEnd Pathname.belowRoot
        split_ifs <;> rfl
      have hplain := (normal_ofText t).plain
      rw [hread] at hplain
      rw [withoutEnd_text (by rw [hsame]; exact hplain), hsame, hroot, hrooted, normalize, hread]
    have hkept (s root : Text) : (if (if s = [] then here else s) = [] then root
        else if s = [] then here else s) = if s = [] then here else s := by
      rw [if_neg]
      split_ifs with hs
      · decide
      · exact hs
    constructor
    · rintro ⟨normal, ⟨q, hq, rfl⟩, rfl⟩
      rw [hkept]
      exact hnormal hq
    · rintro rfl
      obtain ⟨q, hq⟩ := Pathname.exists_cancels ((Pathname.ofText (slashed t)).without here)
      refine ⟨_, ⟨q, hq, rfl⟩, ?_⟩
      rw [hkept, hnormal hq]

/-! ## Normal texts -/

/-- What normal texts look like: the root, a dot, or names that slashes join, which come after
double dots where no root is in front. -/
structure IsCanonical (t : Text) : Prop where
  no_backslash : backslash ∉ t
  last_ne_slash : t.getLast? = some slash → t = [slash]
  components : t = [slash] ∨ t = here ∨ ∃ k names, (∀ n ∈ names, IsName n) ∧
    (isAbsolute t = true → k = 0) ∧
      t.splitOn slash = (if isAbsolute t then [[]] else []) ++ (List.replicate k above ++ names)

theorem splitOn_toText (h : p.Normal) (hne : p.parts ≠ []) :
    p.toText.splitOn slash = (if p.rooted then [[]] else []) ++ p.parts := by
  have hslash : ∀ part ∈ p.parts, slash ∉ part := by
    intro part hpart hmem
    exact absurd ((h.plain part hpart).2 slash hmem) (by decide)
  have hsplit := List.splitOn_intercalate slash hslash hne
  unfold toText
  cases p.rooted with
  | true =>
    rw [if_pos rfl, if_pos rfl]
    have hcons : (slash :: [slash].intercalate p.parts).splitOn slash =
        [] :: ([slash].intercalate p.parts).splitOn slash :=
      List.splitOn_append_cons_self_of_not_mem List.not_mem_nil _
    rw [hcons, hsplit]
    rfl
  | false =>
    rw [if_neg (by simp), if_neg hne, hsplit]
    rfl

theorem mem_toText {b : Byte} (h : b ∈ p.toText) :
    b = slash ∨ b = dot ∨ ∃ part ∈ p.parts, b ∈ part := by
  have hjoined (h : b ∈ [slash].intercalate p.parts) : b = slash ∨ ∃ part ∈ p.parts, b ∈ part :=
    (Text.mem_intercalate h).imp_left List.mem_singleton.mp
  unfold toText at h
  split_ifs at h
  · rcases List.mem_cons.mp h with h | h
    · exact Or.inl h
    · exact (hjoined h).imp_right Or.inr
  · exact Or.inr (Or.inl (List.mem_singleton.mp h))
  · exact (hjoined h).imp_right Or.inr

theorem isCanonical_toText (h : p.Normal) : IsCanonical p.toText := by
  constructor
  · intro hmem
    rcases mem_toText hmem with heq | heq | ⟨part, hpart, hb⟩
    · exact absurd heq (by decide)
    · exact absurd heq (by decide)
    · exact absurd ((h.plain part hpart).2 backslash hb) (by decide)
  · intro hlast
    by_cases hne : p.parts = []
    · unfold toText at hlast ⊢
      cases hr : p.rooted with
      | true => simp [hne]
      | false => exact absurd (by simpa [hr, hne, here] using hlast) (by decide : dot ≠ slash)
    · exact absurd hlast (getLast?_toText hne h.plain)
  · by_cases hne : p.parts = []
    · unfold toText
      cases p.rooted with
      | true => left; simp [hne]
      | false => right; left; simp [hne]
    · obtain ⟨k, names, hparts, hnames, hk⟩ := id h
      refine Or.inr (Or.inr ⟨k, names, hnames, ?_, ?_⟩)
      · rwa [isAbsolute_toText h]
      · rw [isAbsolute_toText h, splitOn_toText h hne, hparts]

theorem IsCanonical.normalize_eq (h : IsCanonical t) : normalize t = t := by
  rcases h.components with rfl | rfl | ⟨k, names, hnames, hk, hsplit⟩
  · rfl
  · rfl
  have hjoined : [slash].intercalate (t.splitOn slash) = t := List.intercalate_splitOn slash
  rw [hsplit] at hjoined
  have htext : t = toText ⟨isAbsolute t, List.replicate k above ++ names⟩ := by
    cases habs : isAbsolute t with
    | true =>
      rw [habs, if_pos rfl, List.singleton_append] at hjoined
      rcases eq_or_ne (List.replicate k above ++ names) [] with hnil | hne
      · -- A text with one empty component is empty.
        rw [hnil] at hjoined
        rw [← hjoined] at habs
        cases habs
      · rw [List.intercalate_cons_of_ne_nil hne] at hjoined
        exact hjoined.symm
    | false =>
      rw [habs, if_neg (by simp), List.nil_append] at hjoined
      have hne : List.replicate k above ++ names ≠ [] := by
        rw [habs, if_neg (by simp), List.nil_append] at hsplit
        rw [← hsplit]
        exact List.splitOn_ne_nil slash t
      unfold toText
      rw [if_neg (by simp), if_neg hne, hjoined]
  have hnormal : (⟨isAbsolute t, List.replicate k above ++ names⟩ : Path).Normal :=
    ⟨k, names, rfl, hnames, hk⟩
  conv_lhs => rw [htext]
  rw [normalize, ofText_toText hnormal, ← htext]

/-- The steps to a normal form lead to the text of the path that is read part by part. -/
theorem normalize_canonical (t : Text) :
    (∀ out, Normalizes t out ↔ out = normalize t) ∧
    normalize t = (if isRooted t then slash :: [slash].intercalate (ofText t).parts
      else if (ofText t).parts = [] then here else [slash].intercalate (ofText t).parts) ∧
    normalize (normalize t) = normalize t ∧
    (IsCanonical t ↔ normalize t = t) ∧ IsCanonical (normalize t) ∧
    ∀ u, normalize t = normalize u ↔ ofText t = ofText u := by
  have hcanonical := isCanonical_toText (normal_ofText t)
  refine ⟨fun out => normalizes_iff, rfl, normalize_normalize t, ⟨IsCanonical.normalize_eq, ?_⟩,
    hcanonical, fun u => ⟨?_, ?_⟩⟩
  · intro hsame
    exact hsame ▸ hcanonical
  · intro hsame
    rw [← ofText_toText (normal_ofText t), ← ofText_toText (normal_ofText u)]
    exact congrArg ofText hsame
  · intro hsame
    exact congrArg toText hsame

end Path

end HeaderOrder

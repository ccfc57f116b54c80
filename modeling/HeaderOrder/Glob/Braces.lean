import HeaderOrder.Text

/-!
# Brace groups

A brace that is never closed is an ordinary byte, and so is everything after it.
-/

namespace HeaderOrder.Braces

open Byte

/-- What stands before the brace that closes `depth` inner groups and the outer one, and what
stands after it. -/
def closing : Nat → Text → Option (Text × Text)
  | _, [] => none
  | depth, b :: t =>
    if b = openBrace then
      (closing (depth + 1) t).map fun p => (b :: p.1, p.2)
    else if b = closeBrace then
      match depth with
      | 0 => some ([], t)
      | inner + 1 => (closing inner t).map fun p => (b :: p.1, p.2)
    else
      (closing depth t).map fun p => (b :: p.1, p.2)

def depthAfter (depth : Nat) (b : Byte) : Nat :=
  if b = openBrace then depth + 1 else if b = closeBrace then depth - 1 else depth

/-- The parts between the commas that no inner group holds. -/
def alternatives : Nat → Text → List Text
  | _, [] => [[]]
  | depth, b :: t =>
    if b = comma ∧ depth = 0 then [] :: alternatives 0 t
    else (alternatives (depthAfter depth b) t).modifyHead (b :: ·)

/-- The first group of a pattern, with what stands before and after it. -/
structure Group where
  head : Text
  choices : List Text
  tail : Text

/-- The group that the first opening brace starts, when it is closed. -/
def group? (t : Text) : Option Group :=
  match t.dropWhile (· ≠ openBrace) with
  | [] => none
  | _ :: rest =>
    (closing 0 rest).map fun p => ⟨t.takeWhile (· ≠ openBrace), alternatives 0 p.1, p.2⟩

/-! ## The parts of a group are shorter than the pattern -/

theorem length_of_closing {depth : Nat} {t body tail : Text}
    (h : closing depth t = some (body, tail)) : body.length + tail.length < t.length := by
  induction t generalizing depth body with
  | nil => simp [closing] at h
  | cons b t ih =>
    have step {d : Nat} (h : (closing d t).map (fun p => (b :: p.1, p.2)) = some (body, tail)) :
        body.length + tail.length < (b :: t).length := by
      obtain ⟨⟨body', tail'⟩, hc, he⟩ := Option.map_eq_some_iff.1 h
      simp only [Prod.mk.injEq] at he
      have := ih (he.2 ▸ hc)
      simp only [← he.1, List.length_cons]
      omega
    unfold closing at h
    split at h
    · exact step h
    · split at h
      · split at h
        · simp only [Option.some.injEq, Prod.mk.injEq] at h
          simp [← h.1, ← h.2]
        · exact step h
      · exact step h

theorem length_of_mem_alternatives {depth : Nat} {t a : Text} (h : a ∈ alternatives depth t) :
    a.length ≤ t.length := by
  induction t generalizing depth a with
  | nil => simp_all [alternatives]
  | cons b t ih =>
    rw [alternatives] at h
    split at h
    · rcases List.mem_cons.1 h with rfl | h
      · simp
      · have := ih h
        simp only [List.length_cons]
        omega
    · cases hs : alternatives (depthAfter depth b) t with
      | nil => simp [hs] at h
      | cons x xs =>
        rw [hs, List.modifyHead_cons, List.mem_cons] at h
        rcases h with rfl | h
        · have := ih (hs ▸ List.mem_cons_self)
          simp only [List.length_cons]
          omega
        · have := ih (hs ▸ List.mem_cons_of_mem x h)
          simp only [List.length_cons]
          omega

theorem length_of_group? {t : Text} {g : Group} (h : group? t = some g) :
    (∀ a ∈ g.choices, a.length < t.length) ∧ g.tail.length < t.length := by
  unfold group? at h
  split at h
  · simp at h
  · next b rest heq =>
    obtain ⟨⟨body, tail⟩, hc, rfl⟩ := Option.map_eq_some_iff.1 h
    have hlen := length_of_closing hc
    have hdrop : (b :: rest).length ≤ t.length :=
      heq ▸ (List.dropWhile_sublist (p := (· ≠ openBrace))).length_le
    simp only [List.length_cons] at hdrop
    refine ⟨fun a ha => ?_, ?_⟩
    · have := length_of_mem_alternatives ha
      simp only at this
      omega
    · simp only
      omega

/-! ## Expansion -/

/-- The patterns that `t` stands for. The choice in the first group varies slowest. -/
def expand (t : Text) : List Text :=
  match h : group? t with
  | none => [t]
  | some g =>
    have shorter := length_of_group? h
    let tails := expand g.tail
    (g.choices.attach.flatMap fun a =>
      have := shorter.1 a.1 a.2
      expand a.1).flatMap fun choice => tails.map fun tail => g.head ++ choice ++ tail
  termination_by t.length
  decreasing_by
    · exact shorter.2
    · exact this

end HeaderOrder.Braces

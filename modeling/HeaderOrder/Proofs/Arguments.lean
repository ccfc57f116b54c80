import HeaderOrder.Command.Arguments
import Mathlib.Data.List.Basic

/-! # Options and words -/

namespace HeaderOrder

open Byte Text

structure Text.IsWord (w : Text) : Prop where
  ne_nil : w ≠ []
  plain : ∀ b ∈ w, isSpace b = false

/-- A word that is not taken for an option. -/
structure Text.IsArgument (w : Text) : Prop extends Text.IsWord w where
  head : w.head? ≠ some dash

theorem Text.isWord_iff {w : Text} : IsWord w ↔ w ≠ [] ∧ w.all (!isSpace ·) = true := by
  constructor
  · rintro ⟨hne, hplain⟩
    exact ⟨hne, by simpa using hplain⟩
  · rintro ⟨hne, hall⟩
    exact ⟨hne, by simpa using hall⟩

theorem Text.isArgument_iff {w : Text} : IsArgument w ↔ IsWord w ∧ w.head? ≠ some dash :=
  ⟨fun h => ⟨h.toIsWord, h.head⟩, fun h => ⟨h.1, h.2⟩⟩

instance (w : Text) : Decidable (IsWord w) := decidable_of_iff _ isWord_iff.symm

instance (w : Text) : Decidable (IsArgument w) := decidable_of_iff _ isArgument_iff.symm

namespace Argument

variable {allowDryRun : Bool} {g words texts rest : List Text} {text word : Text}
  {x : Argument} {r : Except Error Argument} {options : List (Except Error Argument)}

/-! ## One option -/

theorem name_of_valued {make : Text → Except Error Argument} (h : valued? text = some make) :
    text = "--root" ∨ text = "--config" ∨ text = "--include" ∨ text = "--exclude" ∨
      text = "--limit" := by
  by_contra hother
  simp only [not_or] at hother
  simp [valued?, hother] at h

theorem single?_of_valued {make : Text → Except Error Argument} (h : valued? text = some make) :
    single? allowDryRun text = none := by
  rcases name_of_valued h with rfl | rfl | rfl | rfl | rfl <;>
  · cases allowDryRun <;> decide

theorem read_valued {d : Bool} {make : Text → Except Error Argument} (h : valued? text = some make)
    (value : Text) (rest : List Text) :
    read d (text :: value :: rest) = match make value with
      | .error e => ([], some e)
      | .ok x => (x :: (read d rest).1, (read d rest).2) := by
  have hsingle : single? d text = none := single?_of_valued h
  rw [read]
  cases hmake : make value with
  | error e => simp only [hsingle, h, hmake]
  | ok x => simp only [hsingle, h, hmake]

end Argument

namespace Arguments

open Argument

variable {allowDryRun : Bool} {g words texts rest : List Text} {text word : Text}
  {x : Argument} {r : Except Error Argument} {options : List (Except Error Argument)}

/-- What the texts make of the arguments, or why they cannot be read. -/
def readFrom (allowDryRun : Bool) (a : Arguments) (texts : List Text) :
    Except Argument.Error Arguments :=
  match Argument.read allowDryRun texts with
  | (_, some e) => .error e
  | (groups, none) => .ok (groups.foldl add a)

end Arguments

end HeaderOrder

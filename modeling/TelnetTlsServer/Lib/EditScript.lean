-- SUMMARY: Edit scripts over characters, and what is left of them in an editor that rubs out one unit of an encoding.
import Mathlib.Data.List.Induction
import Mathlib.Data.List.Basic

/-!
# Edit scripts

A script types characters and rubs the last one out. An editor that keeps the
encoded line has two ways to rub out: a whole character, which keeps the line the
encoding of the text, or a single unit. The second leaves a part of every character
that is encoded in more than one unit. Its line is the encoding of the text exactly
if it has the length of the encoding: the surplus units go away only by rubbing out
at an empty text, which empties the line.
-/

namespace EditScript

/-- `κ` is the kind of keys that rub out. -/
inductive Edit (γ κ : Type) where
  | type (ch : γ)
  | erase (key : κ)

variable {γ κ β : Type}

/-! ## The text -/

def Edit.onText (text : List γ) : Edit γ κ → List γ
  | .type ch => text ++ [ch]
  | .erase _ => text.dropLast

/-- The characters that are left. -/
def text (script : List (Edit γ κ)) : List γ := script.foldl Edit.onText []

theorem text_concat (script : List (Edit γ κ)) (edit : Edit γ κ) :
    text (script ++ [edit]) = Edit.onText (text script) edit := by
  simp [text]

/-! ## Units -/

section Units

variable (encode : γ → List β)

def Edit.onUnits (line : List β) : Edit γ κ → List β
  | .type ch => line ++ encode ch
  | .erase _ => line.dropLast

/-- The line of an editor that rubs out single units. -/
def units (script : List (Edit γ κ)) : List β := script.foldl (Edit.onUnits encode) []

def Edit.onCount (count : Nat) : Edit γ κ → Nat
  | .type ch => count + (encode ch).length
  | .erase _ => count - 1

/-- The units typed, less one for each time something was rubbed out. -/
def count (script : List (Edit γ κ)) : Nat := script.foldl (Edit.onCount encode) 0

theorem units_concat (script : List (Edit γ κ)) (edit : Edit γ κ) :
    units encode (script ++ [edit]) = Edit.onUnits encode (units encode script) edit := by
  simp [units]

theorem count_concat (script : List (Edit γ κ)) (edit : Edit γ κ) :
    count encode (script ++ [edit]) = Edit.onCount encode (count encode script) edit := by
  simp [count]

theorem length_units (script : List (Edit γ κ)) :
    (units encode script).length = count encode script := by
  induction script using List.reverseRecOn with
  | nil => rfl
  | append_singleton script edit ih =>
    rw [units_concat, count_concat]
    cases edit <;> simp [Edit.onUnits, Edit.onCount, ih]

variable {encode}

/-- The line is never shorter than the encoding, and it is the encoding if it is not
longer. -/
theorem units_of_text (hencode : ∀ ch, encode ch ≠ []) (script : List (Edit γ κ)) :
    ((text script).flatMap encode).length ≤ count encode script ∧
      (count encode script = ((text script).flatMap encode).length →
        units encode script = (text script).flatMap encode) := by
  induction script using List.reverseRecOn with
  | nil => exact ⟨Nat.le_refl _, fun _ => rfl⟩
  | append_singleton script edit ih =>
    obtain ⟨hle, heq⟩ := ih
    rw [text_concat, units_concat, count_concat]
    cases edit with
    | type ch =>
      simp only [Edit.onText, Edit.onUnits, Edit.onCount, List.flatMap_append, List.flatMap_singleton,
        List.length_append]
      exact ⟨by omega, fun hcount => by rw [heq (by omega)]⟩
    | erase key =>
      simp only [Edit.onText, Edit.onUnits, Edit.onCount]
      rcases List.eq_nil_or_concat' (text script) with hnil | ⟨kept, last, hlast⟩
      · -- Nothing is left to rub out: the line loses a surplus unit.
        rw [hnil]
        refine ⟨Nat.zero_le _, fun hcount => ?_⟩
        have hlength := length_units encode script
        have hempty : (units encode script).dropLast.length = 0 := by
          simp only [List.length_dropLast, hlength]
          exact hcount
        exact List.eq_nil_of_length_eq_zero hempty
      · have hpos : 0 < (encode last).length := List.length_pos_iff.mpr (hencode last)
        rw [hlast] at hle heq ⊢
        simp only [List.flatMap_append, List.flatMap_singleton, List.length_append,
          List.dropLast_concat] at hle heq ⊢
        refine ⟨by omega, fun hcount => ?_⟩
        -- Only a character of one unit was rubbed out.
        have hone : (encode last).length = 1 := by omega
        obtain ⟨unit, hunit⟩ := List.length_eq_one_iff.mp hone
        rw [heq (by omega), hunit, List.dropLast_concat]

theorem units_eq_iff (hencode : ∀ ch, encode ch ≠ []) (script : List (Edit γ κ)) :
    units encode script = (text script).flatMap encode ↔
      count encode script = ((text script).flatMap encode).length :=
  ⟨fun h => by rw [← h, length_units], (units_of_text hencode script).2⟩

end Units

end EditScript

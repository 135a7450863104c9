-- SUMMARY: Telnet wire codes: bytes, commands and options.
import Mathlib.Data.UInt

/-!
# Wire codes

The command and option numbers of `telnet_internal.h`, and text as the bytes it
is on the wire.
-/

abbrev Bytes := List UInt8

/-- The bytes of a server-authored ASCII text. -/
def ascii (text : String) : Bytes := text.toList.map fun c => UInt8.ofNat c.toNat

/-- `PATH_MAX` of Linux. -/
def pathMax : Nat := 4096

/-- A fact about bytes from the 256 of them. -/
@[elab_as_elim]
theorem forall_byte {P : UInt8 → Prop} (h : ∀ n : Fin 256, P (.ofNat n.val)) (b : UInt8) : P b := by
  have hb := h ⟨b.toNat, b.toNat_lt⟩
  rwa [UInt8.ofNat_toNat] at hb

/-- The bytes of decimal digits. -/
def AsciiDigit (b : UInt8) : Prop := 48 ≤ b.toNat ∧ b.toNat ≤ 57

theorem asciiDigit_iff (b : UInt8) : ¬ (b < 48 || b > 57) = true ↔ AsciiDigit b := by
  rw [AsciiDigit, Bool.or_eq_true, decide_eq_true_eq, decide_eq_true_eq, not_or, UInt8.not_lt, gt_iff_lt,
    UInt8.not_lt, UInt8.le_iff_toNat_le, UInt8.le_iff_toNat_le]
  rfl

theorem not_asciiDigit_iff (b : UInt8) : (b < 48 || b > 57) = true ↔ ¬ AsciiDigit b := by
  rw [← asciiDigit_iff, not_not]

def asciiLower (ch : UInt8) : UInt8 := if 65 ≤ ch ∧ ch ≤ 90 then ch + 32 else ch

/-- `ascii_equal_ignore_case`, which several files of the source each define. -/
def asciiEqualIgnoreCase : Bytes → Bytes → Bool
  | l :: left, r :: right => asciiLower l = asciiLower r && asciiEqualIgnoreCase left right
  | [], [] => true
  | _, _ => false

theorem asciiEqualIgnoreCase_iff {left right : Bytes} :
    asciiEqualIgnoreCase left right = true ↔ left.map asciiLower = right.map asciiLower := by
  fun_induction asciiEqualIgnoreCase left right with
  | case1 l left r right ih => simp [ih]
  | case2 => simp
  | case3 left right hcons hnil =>
    cases left with
    | nil =>
      cases right with
      | nil => exact absurd rfl (hnil rfl)
      | cons r right => simp
    | cons l left =>
      cases right with
      | nil => simp
      | cons r right => exact absurd rfl (hcons l left r right rfl)

namespace Telnet

abbrev eor : UInt8 := 239
abbrev se : UInt8 := 240
abbrev nop : UInt8 := 241
abbrev dm : UInt8 := 242
abbrev brk : UInt8 := 243
abbrev ip : UInt8 := 244
abbrev ao : UInt8 := 245
abbrev ayt : UInt8 := 246
abbrev ec : UInt8 := 247
abbrev el : UInt8 := 248
abbrev ga : UInt8 := 249
abbrev sb : UInt8 := 250
abbrev will : UInt8 := 251
abbrev wont : UInt8 := 252
abbrev do_ : UInt8 := 253
abbrev dont : UInt8 := 254
abbrev iac : UInt8 := 255

namespace Opt

abbrev binary : UInt8 := 0
abbrev echo : UInt8 := 1
abbrev suppressGoAhead : UInt8 := 3
abbrev terminalType : UInt8 := 24
abbrev endOfRecord : UInt8 := 25
abbrev naws : UInt8 := 31
abbrev newEnviron : UInt8 := 39
abbrev charset : UInt8 := 42
abbrev mssp : UInt8 := 70
abbrev gmcp : UInt8 := 201

end Opt

end Telnet

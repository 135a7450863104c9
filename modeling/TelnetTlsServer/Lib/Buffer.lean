-- SUMMARY: Byte buffers of a fixed size, and the C string at the start of one.
import Mathlib.Data.List.Basic
import Mathlib.Data.UInt

/-!
# Buffers

A C array of bytes keeps its size whatever is written to it. What string
functions see of it ends at the first zero byte; the bytes after that stay what
they were, which matters where a buffer is overwritten in part.
-/

/-- The part of a byte sequence that string functions see. -/
def cString (bytes : List UInt8) : List UInt8 := bytes.takeWhile (· ≠ 0)

theorem cString_append_zero {text rest : List UInt8} (h : ∀ b ∈ text, b ≠ 0) :
    cString (text ++ 0 :: rest) = text := by
  rw [cString, List.takeWhile_append_of_pos (by simpa using h)]
  simp

/-- A text without zeros is at the start of a byte sequence if and only if it is at
the start of what string functions see of it. -/
theorem prefix_cString_iff {text bytes : List UInt8} (h : ∀ b ∈ text, b ≠ 0) :
    text <+: cString bytes ↔ text <+: bytes := by
  constructor
  · exact fun hprefix => hprefix.trans (List.takeWhile_prefix _)
  · rintro ⟨rest, rfl⟩
    rw [cString, List.takeWhile_append_of_pos (by simpa using h)]
    exact List.prefix_append _ _

/-- An array of `n` bytes. -/
structure Buffer (n : Nat) where
  bytes : List UInt8
  size : bytes.length = n
deriving DecidableEq, Repr

namespace Buffer

variable {n : Nat}

def zero (n : Nat) : Buffer n := ⟨List.replicate n 0, by simp⟩

def set (b : Buffer n) (i : Nat) (value : UInt8) : Buffer n :=
  ⟨b.bytes.set i value, by simp [b.size]⟩

/-- Copy `data`, which has to fit, to the start of the buffer. -/
def copy (b : Buffer n) (data : List UInt8) : Buffer n :=
  ⟨(data ++ b.bytes.drop data.length).take n, by
    have h := b.size
    simp only [List.length_take, List.length_append, List.length_drop]
    omega⟩

/-- Copy a string and its terminator. -/
def copyString (b : Buffer n) (text : List UInt8) : Buffer n := b.copy (text ++ [0])

def string (b : Buffer n) : List UInt8 := cString b.bytes

theorem copy_bytes {b : Buffer n} {data : List UInt8} (h : data.length ≤ n) :
    (b.copy data).bytes = data ++ b.bytes.drop data.length := by
  have hsize := b.size
  apply List.take_of_length_le
  simp only [List.length_append, List.length_drop]
  omega

/-- Only what is at the start already can be copied there without a change. -/
theorem copy_eq_self_iff {b : Buffer n} {data : List UInt8} (h : data.length ≤ n) :
    b.copy data = b ↔ data <+: b.bytes := by
  have heq : b.copy data = b ↔ (b.copy data).bytes = b.bytes := by
    cases b
    exact Buffer.mk.injEq .. ▸ Iff.rfl
  rw [heq, copy_bytes h]
  constructor
  · intro hsame
    exact ⟨b.bytes.drop data.length, hsame⟩
  · rintro ⟨rest, hrest⟩
    rw [← hrest, List.drop_left]

theorem head_copy {b : Buffer n} {first : UInt8} {data : List UInt8}
    (h : (first :: data).length ≤ n) : (b.copy (first :: data)).bytes.head? = some first := by
  rw [copy_bytes h]
  rfl

theorem copyString_bytes {b : Buffer n} {text : List UInt8} (h : text.length < n) :
    (b.copyString text).bytes = text ++ 0 :: b.bytes.drop (text.length + 1) := by
  rw [copyString, copy_bytes (by rw [List.length_append, List.length_singleton]; exact h)]
  simp

theorem string_copyString {b : Buffer n} {text : List UInt8} (h : text.length < n)
    (htext : ∀ x ∈ text, x ≠ 0) : (b.copyString text).string = text := by
  rw [string, copyString_bytes h, cString_append_zero htext]

/-! ## Text followed by zeros -/

/-- The buffer holds `text`, and zeros from there to its end. -/
def Padded (b : Buffer n) (text : List UInt8) : Prop :=
  b.bytes = text ++ List.replicate (n - text.length) 0

theorem padded_zero : (zero n).Padded [] := rfl

private theorem replicate_room {text : List UInt8} (h : text.length < n) :
    List.replicate (n - text.length) (0 : UInt8) =
      0 :: List.replicate (n - (text.length + 1)) 0 := by
  rw [← List.replicate_succ]
  congr 1
  omega

namespace Padded

variable {b : Buffer n} {text : List UInt8}

/-- Write behind the text. -/
theorem push (h : b.Padded text) (hroom : text.length < n) (value : UInt8) :
    (b.set text.length value).Padded (text ++ [value]) := by
  simp only [Padded, set] at h ⊢
  rw [h, replicate_room hroom, List.set_append_right _ _ (Nat.le_refl _)]
  simp

/-- Overwrite the last byte of the text by a zero. -/
theorem pop {value : UInt8} (h : b.Padded (text ++ [value])) :
    (b.set text.length 0).Padded text := by
  have hsize : text.length < n := by
    have hlen := congrArg List.length h
    rw [b.size] at hlen
    simp only [List.length_append, List.length_singleton, List.length_replicate] at hlen
    omega
  simp only [Padded, set] at h ⊢
  rw [h, replicate_room hsize, List.append_assoc, List.set_append_right _ _ (Nat.le_refl _)]
  simp

/-- The terminator behind the text is there already. -/
theorem terminated (h : b.Padded text) (hroom : text.length < n) : b.set text.length 0 = b := by
  have hpush := h.push hroom 0
  simp only [Padded] at h hpush
  rw [Buffer.mk.injEq, hpush, h, replicate_room hroom]
  simp

theorem string_eq (h : b.Padded text) (hroom : text.length < n) (htext : ∀ x ∈ text, x ≠ 0) :
    b.string = text := by
  rw [string, h, replicate_room hroom]
  exact cString_append_zero htext

end Padded

end Buffer

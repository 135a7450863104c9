-- SUMMARY: The UTF-8 encoding of a character as arithmetic on its code point, and that bytes determine the characters they encode.
import Mathlib.Data.List.Basic
import Mathlib.Data.UInt

/-!
# UTF-8

`Char` is the type of Unicode scalar values and `String.utf8EncodeChar` their standard
encoding. A character takes one to four bytes; the lemmas here say for each length which
bytes encode which code point.
-/

namespace Utf8

theorem toNat_ofNat {n : Nat} (h : n < 256) : (UInt8.ofNat n).toNat = n := by
  rw [UInt8.toNat_ofNat', Nat.mod_eq_of_lt h]

theorem ofNat_eq_iff {n : Nat} (h : n < 256) (b : UInt8) : UInt8.ofNat n = b ↔ b.toNat = n := by
  rw [← UInt8.toNat_inj, toNat_ofNat h]
  exact eq_comm

theorem toNat_lt (ch : Char) : ch.toNat < 0x110000 := by
  rcases ch.valid with hlow | ⟨-, hhigh⟩
  · exact Nat.lt_trans hlow (by decide)
  · exact hhigh

theorem not_surrogate (ch : Char) : ch.toNat < 0xd800 ∨ 0xdfff < ch.toNat :=
  ch.valid.imp id And.left

/-- A code point is a scalar value unless it is a surrogate. -/
theorem exists_char {n : Nat} (hlt : n < 0x110000) (hnot : n < 0xd800 ∨ 0xdfff < n) :
    ∃ ch : Char, ch.toNat = n :=
  ⟨Char.ofNatAux n (hnot.imp id fun hhigh => ⟨hhigh, hlt⟩), rfl⟩

variable {ch : Char} {a b c d : UInt8}

theorem encode_eq_one_iff :
    String.utf8EncodeChar ch = [a] ↔ ch.toNat ≤ 0x7f ∧ a.toNat = ch.toNat := by
  have hval : ch.val.toNat = ch.toNat := rfl
  unfold String.utf8EncodeChar
  simp only [hval]
  split_ifs with h1 h2 h3
  · simp [h1, ofNat_eq_iff (show ch.toNat < 256 by omega)]
  all_goals simp [h1]

theorem encode_eq_two_iff : String.utf8EncodeChar ch = [a, b] ↔
    (0x7f < ch.toNat ∧ ch.toNat ≤ 0x7ff) ∧
      a.toNat = ch.toNat / 64 + 192 ∧ b.toNat = ch.toNat % 64 + 128 := by
  have hval : ch.val.toNat = ch.toNat := rfl
  unfold String.utf8EncodeChar
  simp only [hval]
  split_ifs with h1 h2 h3
  · simp [h1]
  · have hlead : ch.toNat / 64 % 32 = ch.toNat / 64 := Nat.mod_eq_of_lt (by omega)
    simp only [List.cons.injEq, and_true, true_and, h2, Nat.lt_of_not_le h1, hlead,
      ofNat_eq_iff (show ch.toNat / 64 + 192 < 256 by omega),
      ofNat_eq_iff (show ch.toNat % 64 + 128 < 256 by omega)]
  all_goals simp [h2]

theorem encode_eq_three_iff : String.utf8EncodeChar ch = [a, b, c] ↔
    (0x7ff < ch.toNat ∧ ch.toNat ≤ 0xffff) ∧ a.toNat = ch.toNat / 4096 + 224 ∧
      b.toNat = ch.toNat / 64 % 64 + 128 ∧ c.toNat = ch.toNat % 64 + 128 := by
  have hval : ch.val.toNat = ch.toNat := rfl
  unfold String.utf8EncodeChar
  simp only [hval]
  split_ifs with h1 h2 h3
  · simp [show ¬ 0x7ff < ch.toNat by omega]
  · simp [show ¬ 0x7ff < ch.toNat by omega]
  · have hlead : ch.toNat / 4096 % 16 = ch.toNat / 4096 := Nat.mod_eq_of_lt (by omega)
    simp only [List.cons.injEq, and_true, true_and, h3, Nat.lt_of_not_le h2, hlead,
      ofNat_eq_iff (show ch.toNat / 4096 + 224 < 256 by omega),
      ofNat_eq_iff (show ch.toNat / 64 % 64 + 128 < 256 by omega),
      ofNat_eq_iff (show ch.toNat % 64 + 128 < 256 by omega)]
  · simp [h3]

theorem encode_eq_four_iff : String.utf8EncodeChar ch = [a, b, c, d] ↔
    0xffff < ch.toNat ∧ a.toNat = ch.toNat / 262144 + 240 ∧
      b.toNat = ch.toNat / 4096 % 64 + 128 ∧ c.toNat = ch.toNat / 64 % 64 + 128 ∧
      d.toNat = ch.toNat % 64 + 128 := by
  have hval : ch.val.toNat = ch.toNat := rfl
  have hlt := toNat_lt ch
  unfold String.utf8EncodeChar
  simp only [hval]
  split_ifs with h1 h2 h3
  · simp [show ¬ 0xffff < ch.toNat by omega]
  · simp [show ¬ 0xffff < ch.toNat by omega]
  · simp [h3]
  · have hlead : ch.toNat / 262144 % 8 = ch.toNat / 262144 := Nat.mod_eq_of_lt (by omega)
    simp only [List.cons.injEq, and_true, true_and, Nat.lt_of_not_le h3, hlead,
      ofNat_eq_iff (show ch.toNat / 262144 + 240 < 256 by omega),
      ofNat_eq_iff (show ch.toNat / 4096 % 64 + 128 < 256 by omega),
      ofNat_eq_iff (show ch.toNat / 64 % 64 + 128 < 256 by omega),
      ofNat_eq_iff (show ch.toNat % 64 + 128 < 256 by omega)]

theorem encode_cases (ch : Char) : (∃ a, String.utf8EncodeChar ch = [a]) ∨
    (∃ a b, String.utf8EncodeChar ch = [a, b]) ∨ (∃ a b c, String.utf8EncodeChar ch = [a, b, c]) ∨
    ∃ a b c d, String.utf8EncodeChar ch = [a, b, c, d] := by
  unfold String.utf8EncodeChar
  dsimp only
  split_ifs
  · exact .inl ⟨_, rfl⟩
  · exact .inr (.inl ⟨_, _, rfl⟩)
  · exact .inr (.inr (.inl ⟨_, _, _, rfl⟩))
  · exact .inr (.inr (.inr ⟨_, _, _, _, rfl⟩))

theorem encode_ne_nil (ch : Char) : String.utf8EncodeChar ch ≠ [] := by
  obtain ⟨a, h⟩ | ⟨a, b, h⟩ | ⟨a, b, c, h⟩ | ⟨a, b, c, d, h⟩ := encode_cases ch <;> simp [h]

/-- The bytes behind the first one of a character are continuation bytes. -/
theorem encode_tail {tail : List UInt8} (h : String.utf8EncodeChar ch = a :: tail) :
    ∀ x ∈ tail, 128 ≤ x.toNat ∧ x.toNat < 192 := by
  have hmark : ∀ {x : UInt8} {n : Nat}, x.toNat = n % 64 + 128 →
      128 ≤ x.toNat ∧ x.toNat < 192 := by
    intro x n hx
    have hlt := Nat.mod_lt n (show 0 < 64 by decide)
    omega
  obtain ⟨a', he⟩ | ⟨a', b, he⟩ | ⟨a', b, c, he⟩ | ⟨a', b, c, d, he⟩ := encode_cases ch <;>
    obtain ⟨rfl, rfl⟩ := List.cons.inj (h.symm.trans he)
  · simp
  · obtain ⟨-, -, hb⟩ := encode_eq_two_iff.mp he
    simpa using hmark hb
  · obtain ⟨-, -, hb, hc⟩ := encode_eq_three_iff.mp he
    simpa using ⟨hmark hb, hmark hc⟩
  · obtain ⟨-, -, hb, hc, hd⟩ := encode_eq_four_iff.mp he
    simpa using ⟨hmark hb, hmark hc, hmark hd⟩

/-- No byte above F4 stands in an encoded character. -/
theorem encode_le (ch : Char) : ∀ x ∈ String.utf8EncodeChar ch, x.toNat ≤ 0xf4 := by
  have hlt := toNat_lt ch
  obtain ⟨a, he⟩ | ⟨a, b, he⟩ | ⟨a, b, c, he⟩ | ⟨a, b, c, d, he⟩ := encode_cases ch <;>
    rw [he] <;> refine List.forall_mem_cons.mpr ⟨?_, fun x hx => ?_⟩
  · have := encode_eq_one_iff.mp he
    omega
  · simp at hx
  · have := encode_eq_two_iff.mp he
    omega
  · have := encode_tail he x hx
    omega
  · have := encode_eq_three_iff.mp he
    omega
  · have := encode_tail he x hx
    omega
  · have := encode_eq_four_iff.mp he
    omega
  · have := encode_tail he x hx
    omega

/-- An ASCII byte stands only for the character of its own code. -/
theorem toNat_eq_of_mem_encode (h : a ∈ String.utf8EncodeChar ch) (hlow : a.toNat < 128) :
    ch.toNat = a.toNat := by
  cases he : String.utf8EncodeChar ch with
  | nil => exact absurd he (encode_ne_nil ch)
  | cons lead tail =>
    rw [he] at h
    rcases List.mem_cons.mp h with rfl | htail
    · obtain ⟨x, h'⟩ | ⟨x, b, h'⟩ | ⟨x, b, c, h'⟩ | ⟨x, b, c, d, h'⟩ := encode_cases ch <;>
        obtain rfl := (List.cons.inj (he.symm.trans h')).1
      · exact (encode_eq_one_iff.mp h').2.symm
      · have := encode_eq_two_iff.mp h'
        omega
      · have := encode_eq_three_iff.mp h'
        omega
      · have := encode_eq_four_iff.mp h'
        omega
    · have := encode_tail he a htail
      omega

/-! ## Whole characters in a bounded room -/

/-- The characters that are written as long as each still fits. -/
def fitting : Nat → List Char → List Char
  | _, [] => []
  | room, ch :: text =>
      if (String.utf8EncodeChar ch).length ≤ room then
        ch :: fitting (room - (String.utf8EncodeChar ch).length) text
      else []

theorem length_fitting_le (room : Nat) (text : List Char) :
    ((fitting room text).flatMap String.utf8EncodeChar).length ≤ room := by
  fun_induction fitting room text with
  | case1 => exact Nat.zero_le _
  | case2 room ch text hfits ih =>
    rw [List.flatMap_cons, List.length_append]
    omega
  | case3 => exact Nat.zero_le _

theorem fitting_prefix (room : Nat) (text : List Char) : fitting room text <+: text := by
  fun_induction fitting room text with
  | case1 => exact List.prefix_rfl
  | case2 room ch text hfits ih => exact (List.prefix_cons_inj ch).mpr ih
  | case3 => exact List.nil_prefix

theorem fitting_eq_self {room : Nat} {text : List Char}
    (h : (text.flatMap String.utf8EncodeChar).length ≤ room) : fitting room text = text := by
  fun_induction fitting room text with
  | case1 => rfl
  | case2 room ch text hfits ih =>
    rw [List.flatMap_cons, List.length_append] at h
    rw [ih (by omega)]
  | case3 room ch text hfits =>
    rw [List.flatMap_cons, List.length_append] at h
    omega

/-- More room takes the same characters first. -/
theorem fitting_mono {room room' : Nat} (h : room ≤ room') (text : List Char) :
    fitting room text <+: fitting room' text := by
  fun_induction fitting room text generalizing room' with
  | case1 => exact List.nil_prefix
  | case2 room ch text hfits ih =>
    rw [fitting, if_pos (by omega)]
    exact (List.prefix_cons_inj ch).mpr (ih (by omega))
  | case3 => exact List.nil_prefix

end Utf8

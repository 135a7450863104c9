-- SUMMARY: The UTF-8 sanitiser writes whole safe characters, keeps safe text, and is stable and monotone in the room it has.
import TelnetTlsServer.Text.Utf8

/-!
# Sanitised UTF-8

The sanitiser reads its input as a sequence of characters, with a question mark for every
unsafe character and for every byte that begins none. Which ones they are does not depend
on the output buffer: that only says how many of them are written.
-/

/-! ## Safe text -/

def SafeText (text : List Char) : Prop := ∀ ch ∈ text, codepointSafe ch.toNat = true

theorem SafeText.sublist {text text' : List Char} (h : SafeText text') (hsub : text.Sublist text') :
    SafeText text :=
  fun ch hch => h ch (hsub.subset hch)

/-- Safe characters have no zero, escape, delete or interpret-as-command byte. -/
theorem SafeText.bytes {text : List Char} (h : SafeText text) :
    ∀ b ∈ text.flatMap String.utf8EncodeChar, b ≠ 0 ∧ b ≠ 27 ∧ b ≠ 127 ∧ b ≠ 255 := by
  intro b hb
  obtain ⟨ch, hch, hmem⟩ := List.mem_flatMap.mp hb
  have hother : ∀ n : UInt8, n.toNat < 128 → codepointSafe n.toNat = false → b ≠ n := by
    rintro n hsmall hunsafe rfl
    rw [← Utf8.toNat_eq_of_mem_encode hmem hsmall, h ch hch] at hunsafe
    cases hunsafe
  refine ⟨hother 0 (by decide) (by decide), hother 27 (by decide) (by decide),
    hother 127 (by decide) (by decide), ?_⟩
  rintro rfl
  exact absurd (Utf8.encode_le ch 255 hmem) (by decide)

/-! ## What the loop reads -/

def safeChar (codepoint : Nat) : Char :=
  if codepointSafe codepoint then Char.ofNat codepoint else '?'

/-- The characters of an input, as far as `rounds` go. -/
def safeText : Nat → Bytes → List Char
  | _, [] => []
  | 0, _ => []
  | rounds + 1, input =>
      match decodeUtf8 input with
      | none => '?' :: safeText rounds (input.drop 1)
      | some (consumed, codepoint) => safeChar codepoint :: safeText rounds (input.drop consumed)

theorem safeText_malformed {input : Bytes} (hinput : input ≠ []) (h : decodeUtf8 input = none)
    (rounds : Nat) : safeText (rounds + 1) input = '?' :: safeText rounds (input.drop 1) := by
  rw [safeText, h]
  exact hinput

theorem safeText_decoded {input : Bytes} {consumed codepoint : Nat}
    (h : decodeUtf8 input = some (consumed, codepoint)) (rounds : Nat) :
    safeText (rounds + 1) input = safeChar codepoint :: safeText rounds (input.drop consumed) := by
  rw [safeText, h]
  rintro rfl
  cases h

theorem encode_question : String.utf8EncodeChar '?' = [63] := by decide

theorem safeChar_toNat {ch : Char} (h : codepointSafe ch.toNat = true) : safeChar ch.toNat = ch := by
  rw [safeChar, if_pos h, Char.ofNat_toNat]

theorem codepointSafe_safeChar (ch : Char) : codepointSafe (safeChar ch.toNat).toNat = true := by
  by_cases h : codepointSafe ch.toNat = true
  · rw [safeChar_toNat h, h]
  · rw [safeChar, if_neg h]
    decide

theorem safeText_safe (rounds : Nat) (input : Bytes) : SafeText (safeText rounds input) := by
  fun_induction safeText rounds input with
  | case1 => exact fun ch hch => absurd hch (by simp)
  | case2 => exact fun ch hch => absurd hch (by simp)
  | case3 rounds input hinput hdecode ih =>
    exact List.forall_mem_cons.mpr ⟨by decide, ih⟩
  | case4 rounds input hinput consumed codepoint hdecode ih =>
    obtain ⟨ch, rfl, -, -⟩ := decodeUtf8_eq_some_iff.mp hdecode
    exact List.forall_mem_cons.mpr ⟨codepointSafe_safeChar ch, ih⟩

/-- Safe text is read as it is. -/
theorem safeText_encode {text : List Char} (h : SafeText text) {rounds : Nat}
    (hrounds : (text.flatMap String.utf8EncodeChar).length ≤ rounds) :
    safeText rounds (text.flatMap String.utf8EncodeChar) = text := by
  induction text generalizing rounds with
  | nil => rw [List.flatMap_nil, safeText]
  | cons ch text ih =>
    obtain ⟨hch, htext⟩ := List.forall_mem_cons.mp h
    have hpos := List.length_pos_of_ne_nil (Utf8.encode_ne_nil ch)
    rw [List.flatMap_cons, List.length_append] at hrounds
    cases rounds with
    | zero => omega
    | succ rounds =>
      rw [List.flatMap_cons, safeText_decoded (decodeUtf8_encode ch _), List.drop_left,
        safeChar_toNat hch, ih htext (by omega)]

/-! ## What the loop writes -/

/-- A question mark takes the one byte that the loop condition leaves. -/
theorem fitting_question {room : Nat} (hroom : 0 < room) (text : List Char) :
    (Utf8.fitting room ('?' :: text)).flatMap String.utf8EncodeChar =
      63 :: (Utf8.fitting (room - 1) text).flatMap String.utf8EncodeChar := by
  rw [Utf8.fitting, if_pos (by rw [encode_question]; exact hroom), List.flatMap_cons,
    encode_question]
  rfl

theorem fitting_zero (ch : Char) (text : List Char) : Utf8.fitting 0 (ch :: text) = [] :=
  if_neg fun hle => Utf8.encode_ne_nil ch (List.eq_nil_of_length_eq_zero (Nat.le_zero.mp hle))

theorem exists_safeText_cons (rounds : Nat) {input : Bytes} (hinput : input ≠ []) :
    ∃ ch text, safeText (rounds + 1) input = ch :: text := by
  cases hdecode : decodeUtf8 input with
  | none => exact ⟨_, _, safeText_malformed hinput hdecode rounds⟩
  | some result => exact ⟨_, _, safeText_decoded hdecode rounds⟩

theorem sanitizeUtf8From_eq (outputSize : Nat) (rounds : Nat) (written input : Bytes)
    (hroom : written.length < outputSize) :
    sanitizeUtf8From outputSize rounds written input = written ++
      (Utf8.fitting (outputSize - 1 - written.length) (safeText rounds input)).flatMap
        String.utf8EncodeChar := by
  fun_induction sanitizeUtf8From outputSize rounds written input with
  | case1 rounds written => simp [safeText, Utf8.fitting]
  | case2 written input hinput => simp [safeText, Utf8.fitting]
  | case3 rounds written input hinput hfull =>
    have hzero : outputSize - 1 - written.length = 0 := by omega
    obtain ⟨ch, text, htext⟩ := exists_safeText_cons rounds hinput
    rw [hzero, htext, fitting_zero, List.flatMap_nil, List.append_nil]
  | case4 rounds written input hinput hleft hdecode ih =>
    rw [ih (by simp; omega), safeText_malformed hinput hdecode, fitting_question (by omega)]
    simp [Nat.sub_sub, Nat.add_assoc]
  | case5 rounds written input hinput hleft consumed codepoint hdecode hunsafe ih =>
    have hchar : safeChar codepoint = '?' := if_neg (by simpa using hunsafe)
    rw [ih (by simp; omega), safeText_decoded hdecode, hchar, fitting_question (by omega)]
    simp [Nat.sub_sub, Nat.add_assoc]
  | case6 rounds written input hinput hleft consumed codepoint hdecode hsafe hlong =>
    obtain ⟨ch, rfl, rfl, -⟩ := decodeUtf8_eq_some_iff.mp hdecode
    rw [safeText_decoded hdecode, safeChar_toNat (by simpa using hsafe), Utf8.fitting,
      if_neg (by omega)]
    simp
  | case7 rounds written input hinput hleft consumed codepoint hdecode hsafe hfits ih =>
    obtain ⟨ch, rfl, rfl, rest, rfl⟩ := decodeUtf8_eq_some_iff.mp hdecode
    rw [ih (by rw [List.take_left, List.length_append]; omega), safeText_decoded hdecode,
      safeChar_toNat (by simpa using hsafe), Utf8.fitting, if_pos (by omega), List.take_left]
    simp [Nat.sub_sub, Nat.add_assoc]

/-! ## The sanitiser -/

/-- The characters that are left in an output buffer of `outputSize` bytes. -/
def sanitized (input : Bytes) (outputSize : Nat) : List Char :=
  Utf8.fitting (outputSize - 1) (safeText input.length input)

theorem sanitized_safe (input : Bytes) (outputSize : Nat) : SafeText (sanitized input outputSize) :=
  (safeText_safe _ _).sublist (Utf8.fitting_prefix _ _).sublist

theorem length_sanitized_lt {outputSize : Nat} (hsize : 1 ≤ outputSize) (input : Bytes) :
    ((sanitized input outputSize).flatMap String.utf8EncodeChar).length < outputSize := by
  have hle := Utf8.length_fitting_le (outputSize - 1) (safeText input.length input)
  rw [sanitized]
  omega

/-- Safe text that fits is left as it is. -/
theorem sanitized_encode {text : List Char} (h : SafeText text) {outputSize : Nat}
    (hfits : (text.flatMap String.utf8EncodeChar).length < outputSize) :
    sanitized (text.flatMap String.utf8EncodeChar) outputSize = text := by
  rw [sanitized, safeText_encode h (Nat.le_refl _), Utf8.fitting_eq_self (by omega)]

section Output

variable {outputSize : Nat} (hsize : 1 ≤ outputSize) (input : Option Bytes)
  (output : Buffer outputSize)

include hsize

theorem terminalTextSanitizeUtf8_eq : terminalTextSanitizeUtf8 input output =
    (((sanitized (input.getD []) outputSize).flatMap String.utf8EncodeChar).length,
      output.copyString ((sanitized (input.getD []) outputSize).flatMap String.utf8EncodeChar)) := by
  rw [terminalTextSanitizeUtf8.eq_def, if_neg (by omega)]
  cases input with
  | none =>
    have hbytes : (output.set 0 0).bytes = (output.copyString []).bytes := by
      rw [Buffer.copyString, Buffer.copy_bytes hsize]
      obtain ⟨bytes, rfl⟩ := output
      cases bytes with
      | nil => simp at hsize
      | cons first rest => rfl
    exact congrArg (Prod.mk 0) (Buffer.mk.injEq .. ▸ hbytes)
  | some input =>
    dsimp only [Option.getD_some]
    rw [sanitizeUtf8From_eq outputSize _ [] _ hsize, List.nil_append]
    rfl

theorem string_sanitizeUtf8 : (terminalTextSanitizeUtf8 input output).2.string =
    (sanitized (input.getD []) outputSize).flatMap String.utf8EncodeChar := by
  rw [terminalTextSanitizeUtf8_eq hsize]
  exact Buffer.string_copyString (length_sanitized_lt hsize _)
    fun b hb => ((sanitized_safe _ _).bytes b hb).1

end Output

/-- For every input and every buffer of at least one byte: what is written ends with a zero
below the size of the buffer, is UTF-8 of safe characters only, is the input where that is
safe and fits, stays the same when it is sanitised again, and begins with whole characters
the text a smaller buffer is left with. -/
theorem sanitize_utf8_exact {outputSize : Nat} (hsize : 1 ≤ outputSize) (input : Option Bytes)
    (output : Buffer outputSize) :
    (∃ text : List Char,
      let written := text.flatMap String.utf8EncodeChar
      terminalTextSanitizeUtf8 input output = (written.length, output.copyString written) ∧
      (output.copyString written).bytes = written ++ 0 :: output.bytes.drop (written.length + 1) ∧
      written.length < outputSize ∧ terminalTextUtf8Valid written = true ∧
      (∀ ch ∈ text, codepointSafe ch.toNat = true) ∧
      ∀ b ∈ written, b ≠ 0 ∧ b ≠ 27 ∧ b ≠ 127 ∧ b ≠ 255) ∧
    (∀ text : List Char, (∀ ch ∈ text, codepointSafe ch.toNat = true) →
      input = some (text.flatMap String.utf8EncodeChar) →
      (text.flatMap String.utf8EncodeChar).length < outputSize →
      (terminalTextSanitizeUtf8 input output).2.string = text.flatMap String.utf8EncodeChar) ∧
    (∀ output' : Buffer outputSize,
      let once := (terminalTextSanitizeUtf8 input output).2.string
      (terminalTextSanitizeUtf8 (some once) output').2.string = once ∧
      (terminalTextSanitizeUtf8 (some once) output').1 = once.length) ∧
    ∀ (larger : Nat) (output' : Buffer larger), outputSize ≤ larger → ∃ text rest : List Char,
      (terminalTextSanitizeUtf8 input output).2.string = text.flatMap String.utf8EncodeChar ∧
      (terminalTextSanitizeUtf8 input output').2.string =
        (text ++ rest).flatMap String.utf8EncodeChar := by
  refine ⟨⟨_, terminalTextSanitizeUtf8_eq hsize input output, ?_, ?_, ?_, ?_, ?_⟩, ?_, ?_, ?_⟩
  · exact Buffer.copyString_bytes (length_sanitized_lt hsize _)
  · exact length_sanitized_lt hsize _
  · exact (terminalTextUtf8Valid_iff _).mpr ⟨_, rfl⟩
  · exact sanitized_safe _ _
  · exact (sanitized_safe _ _).bytes
  · rintro text hsafe rfl hfits
    rw [string_sanitizeUtf8 hsize, Option.getD_some, sanitized_encode hsafe hfits]
  · intro output'
    have hagain := sanitized_encode (sanitized_safe (input.getD []) outputSize)
      (length_sanitized_lt hsize (input.getD []))
    dsimp only
    rw [string_sanitizeUtf8 hsize, string_sanitizeUtf8 hsize, terminalTextSanitizeUtf8_eq hsize,
      Option.getD_some, hagain]
    exact ⟨rfl, rfl⟩
  · intro larger output' hlarger
    obtain ⟨rest, hrest⟩ := Utf8.fitting_mono (show outputSize - 1 ≤ larger - 1 by omega)
      (safeText (input.getD []).length (input.getD []))
    refine ⟨sanitized (input.getD []) outputSize, rest, string_sanitizeUtf8 hsize .., ?_⟩
    rw [string_sanitizeUtf8 (Nat.le_trans hsize hlarger), sanitized, sanitized, hrest]

/-- A cut sequence, a letter, an override and a euro sign in a buffer of five bytes: nothing
of the euro sign is written. -/
theorem sanitize_utf8_cut :
    (terminalTextSanitizeUtf8 (some [0xe2, 0x82, 0x61, 0xe2, 0x80, 0xae, 0xe2, 0x82, 0xac])
      (Buffer.zero 5)).2.string = [63, 63, 0x61, 63] ∧
    ∃ text rest : List Char,
      (terminalTextSanitizeUtf8 (some [0xe2, 0x82, 0x61, 0xe2, 0x80, 0xae, 0xe2, 0x82, 0xac])
        (Buffer.zero 5)).2.string = text.flatMap String.utf8EncodeChar ∧
      (terminalTextSanitizeUtf8 (some [0xe2, 0x82, 0x61, 0xe2, 0x80, 0xae, 0xe2, 0x82, 0xac])
        (Buffer.zero 9)).2.string = (text ++ rest).flatMap String.utf8EncodeChar :=
  ⟨by decide, (sanitize_utf8_exact (by decide) _ (Buffer.zero 5)).2.2.2 9 (Buffer.zero 9) (by decide)⟩

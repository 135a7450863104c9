-- SUMMARY: The decoder of terminal_text.c takes exactly the encoding of one scalar value, and its validator exactly UTF-8.
import TelnetTlsServer.Lib.Utf8
import TelnetTlsServer.Text.TerminalText

/-!
# UTF-8 as the server reads it

`decode_utf8` tests ranges of the lead byte, one bound of the second byte where the
lead byte is at the end of a range, and the marks of the other bytes, and puts the
code point together from their low bits. `Decodes` says what that comes to in numbers.
-/

/-! ## Bits -/

theorem isContinuation_iff (b : UInt8) :
    isContinuation b = true ↔ 128 ≤ b.toNat ∧ b.toNat < 192 :=
  forall_byte (by decide +kernel) b

theorem toNat_and_ones (b : UInt8) {ones : UInt8} {k : Nat} (h : ones.toNat = 2 ^ k - 1) :
    (b &&& ones).toNat = b.toNat % 2 ^ k := by
  rw [UInt8.toNat_and, h, Nat.and_two_pow_sub_one_eq_mod]

theorem shift_or_two (x : Nat) (b : UInt8) :
    x <<< 6 ||| (b &&& 0x3f).toNat = x * 64 + b.toNat % 64 := by
  have hlow : b.toNat % 2 ^ 6 < 2 ^ 6 := Nat.mod_lt _ (by decide)
  rw [toNat_and_ones b (k := 6) rfl, ← Nat.shiftLeft_add_eq_or_of_lt hlow, Nat.shiftLeft_eq]
  rfl

theorem shift_or_three (x : Nat) (b c : UInt8) :
    x <<< 12 ||| (b &&& 0x3f).toNat <<< 6 ||| (c &&& 0x3f).toNat =
      x * 4096 + b.toNat % 64 * 64 + c.toNat % 64 := by
  have hshift : ∀ y : Nat, x <<< 12 ||| y <<< 6 = (x <<< 6 ||| y) <<< 6 := fun y => by
    rw [Nat.shiftLeft_or_distrib, ← Nat.shiftLeft_add]
  rw [hshift, shift_or_two, shift_or_two]
  omega

theorem shift_or_four (x : Nat) (b c d : UInt8) :
    x <<< 18 ||| (b &&& 0x3f).toNat <<< 12 ||| (c &&& 0x3f).toNat <<< 6 ||| (d &&& 0x3f).toNat =
      x * 262144 + b.toNat % 64 * 4096 + c.toNat % 64 * 64 + d.toNat % 64 := by
  have hshift : ∀ y z : Nat, x <<< 18 ||| y <<< 12 ||| z <<< 6 =
      (x <<< 12 ||| y <<< 6 ||| z) <<< 6 := fun y z => by
    rw [Nat.shiftLeft_or_distrib, Nat.shiftLeft_or_distrib, ← Nat.shiftLeft_add,
      ← Nat.shiftLeft_add]
  rw [hshift, shift_or_two, shift_or_three]
  omega

/-! ## One scalar value -/

/-- The input begins with a character of `consumed` bytes. -/
inductive Decodes : Bytes → Nat → Nat → Prop where
  | one {a : UInt8} {rest : Bytes} (ha : a.toNat ≤ 0x7f) : Decodes (a :: rest) 1 a.toNat
  | two {a b : UInt8} {rest : Bytes} (ha : 0xc2 ≤ a.toNat ∧ a.toNat ≤ 0xdf)
      (hb : 128 ≤ b.toNat ∧ b.toNat < 192) :
      Decodes (a :: b :: rest) 2 (a.toNat % 32 * 64 + b.toNat % 64)
  | three {a b c : UInt8} {rest : Bytes} (ha : 0xe0 ≤ a.toNat ∧ a.toNat ≤ 0xef)
      (hb : 128 ≤ b.toNat ∧ b.toNat < 192) (hc : 128 ≤ c.toNat ∧ c.toNat < 192)
      (hlong : a.toNat = 0xe0 → 0xa0 ≤ b.toNat) (hsurrogate : a.toNat = 0xed → b.toNat < 0xa0) :
      Decodes (a :: b :: c :: rest) 3 (a.toNat % 16 * 4096 + b.toNat % 64 * 64 + c.toNat % 64)
  | four {a b c d : UInt8} {rest : Bytes} (ha : 0xf0 ≤ a.toNat ∧ a.toNat ≤ 0xf4)
      (hb : 128 ≤ b.toNat ∧ b.toNat < 192) (hc : 128 ≤ c.toNat ∧ c.toNat < 192)
      (hd : 128 ≤ d.toNat ∧ d.toNat < 192) (hlong : a.toNat = 0xf0 → 0x90 ≤ b.toNat)
      (hlarge : a.toNat = 0xf4 → b.toNat ≤ 0x8f) :
      Decodes (a :: b :: c :: d :: rest) 4
        (a.toNat % 8 * 262144 + b.toNat % 64 * 4096 + c.toNat % 64 * 64 + d.toNat % 64)

theorem decodes_of_eq {input : Bytes} {consumed codepoint : Nat}
    (h : decodeUtf8 input = some (consumed, codepoint)) : Decodes input consumed codepoint := by
  have hmark : ∀ {b : UInt8}, ¬ (!isContinuation b) = true → 128 ≤ b.toNat ∧ b.toNat < 192 :=
    fun hb => (isContinuation_iff _).mp (by simpa using hb)
  revert h
  fun_cases decodeUtf8 input with
  | case2 a rest ha =>
    rintro ⟨⟩
    exact .one ha
  | case4 a hone ha b rest hb =>
    rintro ⟨⟩
    rw [shift_or_two, toNat_and_ones a (k := 5) rfl]
    exact .two ha (hmark hb)
  | case8 a hone htwo ha b c rest hcont hbound =>
    rintro ⟨⟩
    simp only [Bool.or_eq_true, not_or] at hcont
    simp only [Bool.or_eq_true, Bool.and_eq_true, decide_eq_true_eq, not_or, not_and] at hbound
    rw [shift_or_three, toNat_and_ones a (k := 4) rfl]
    exact .three ha (hmark hcont.1) (hmark hcont.2)
      (fun hlead => Nat.not_lt.mp (hbound.1 (UInt8.toNat_inj.mp hlead)))
      fun hlead => Nat.not_le.mp (hbound.2 (UInt8.toNat_inj.mp hlead))
  | case12 a hone htwo hthree ha b c d rest hcont hbound =>
    rintro ⟨⟩
    simp only [Bool.or_eq_true, not_or] at hcont
    simp only [Bool.or_eq_true, Bool.and_eq_true, decide_eq_true_eq, not_or, not_and] at hbound
    rw [shift_or_four, toNat_and_ones a (k := 3) rfl]
    exact .four ha (hmark hcont.1.1) (hmark hcont.1.2) (hmark hcont.2)
      (fun hlead => Nat.not_lt.mp (hbound.1 (UInt8.toNat_inj.mp hlead)))
      fun hlead => Nat.not_lt.mp (hbound.2 (UInt8.toNat_inj.mp hlead))
  | _ => exact fun h => by cases h

theorem Decodes.eq {input : Bytes} {consumed codepoint : Nat}
    (h : Decodes input consumed codepoint) : decodeUtf8 input = some (consumed, codepoint) := by
  have hmark : ∀ {b : UInt8}, 128 ≤ b.toNat ∧ b.toNat < 192 → isContinuation b = true :=
    fun hb => (isContinuation_iff _).mpr hb
  have habove : ∀ {a low high : UInt8}, high.toNat < a.toNat → ¬ (low ≤ a ∧ a ≤ high) :=
    fun hlt hrange => Nat.not_le.mpr hlt hrange.2
  cases h with
  | one ha => exact if_pos ha
  | @two a b rest ha hb =>
    have hone : ¬ a ≤ 0x7f := Nat.not_le.mpr (Nat.lt_of_lt_of_le (by decide) ha.1)
    have hlead : 0xc2 ≤ a ∧ a ≤ 0xdf := ha
    simp only [decodeUtf8, hone, hlead, hmark hb, if_false, and_self, if_true, Bool.not_true,
      Bool.false_eq_true]
    rw [shift_or_two, toNat_and_ones a (k := 5) rfl]
    rfl
  | @three a b c rest ha hb hc hlong hsurrogate =>
    have hone : ¬ a ≤ 0x7f := Nat.not_le.mpr (Nat.lt_of_lt_of_le (by decide) ha.1)
    have htwo : ¬ (0xc2 ≤ a ∧ a ≤ 0xdf) := habove (Nat.lt_of_lt_of_le (by decide) ha.1)
    have hlead : 0xe0 ≤ a ∧ a ≤ 0xef := ha
    have hbound : ¬ ((a = 0xe0 && b < 0xa0) || (a = 0xed && 0xa0 ≤ b)) = true := by
      simp only [Bool.or_eq_true, Bool.and_eq_true, decide_eq_true_eq, not_or, not_and]
      exact ⟨fun he => Nat.not_lt.mpr (hlong (he ▸ rfl)),
        fun he => Nat.not_le.mpr (hsurrogate (he ▸ rfl))⟩
    simp only [decodeUtf8, hone, htwo, hlead, hmark hb, hmark hc, hbound, if_false, and_self,
      if_true, Bool.not_true, Bool.or_self, Bool.false_eq_true]
    rw [shift_or_three, toNat_and_ones a (k := 4) rfl]
    rfl
  | @four a b c d rest ha hb hc hd hlong hlarge =>
    have hone : ¬ a ≤ 0x7f := Nat.not_le.mpr (Nat.lt_of_lt_of_le (by decide) ha.1)
    have htwo : ¬ (0xc2 ≤ a ∧ a ≤ 0xdf) := habove (Nat.lt_of_lt_of_le (by decide) ha.1)
    have hthree : ¬ (0xe0 ≤ a ∧ a ≤ 0xef) := habove (Nat.lt_of_lt_of_le (by decide) ha.1)
    have hlead : 0xf0 ≤ a ∧ a ≤ 0xf4 := ha
    have hbound : ¬ ((a = 0xf0 && b < 0x90) || (a = 0xf4 && 0x8f < b)) = true := by
      simp only [Bool.or_eq_true, Bool.and_eq_true, decide_eq_true_eq, not_or, not_and]
      exact ⟨fun he => Nat.not_lt.mpr (hlong (he ▸ rfl)),
        fun he => Nat.not_lt.mpr (hlarge (he ▸ rfl))⟩
    simp only [decodeUtf8, hone, htwo, hthree, hlead, hmark hb, hmark hc, hmark hd, hbound,
      if_false, and_self, if_true, Bool.not_true, Bool.or_self, Bool.false_eq_true]
    rw [shift_or_four, toNat_and_ones a (k := 3) rfl]
    rfl

/-- A decoded code point is that of the character the bytes encode. -/
theorem decodes_iff {input : Bytes} {consumed codepoint : Nat} :
    Decodes input consumed codepoint ↔ ∃ ch : Char, ch.toNat = codepoint ∧
      (String.utf8EncodeChar ch).length = consumed ∧ String.utf8EncodeChar ch <+: input := by
  constructor
  · intro h
    cases h with
    | @one a rest ha =>
      obtain ⟨ch, hch⟩ := Utf8.exists_char (n := a.toNat) (by omega) (by omega)
      have hencode : String.utf8EncodeChar ch = [a] :=
        Utf8.encode_eq_one_iff.mpr ⟨by omega, hch.symm⟩
      exact ⟨ch, hch, by rw [hencode]; rfl, hencode ▸ ⟨rest, rfl⟩⟩
    | @two a b rest ha hb =>
      obtain ⟨ch, hch⟩ := Utf8.exists_char (n := a.toNat % 32 * 64 + b.toNat % 64) (by omega)
        (by omega)
      have hencode : String.utf8EncodeChar ch = [a, b] :=
        Utf8.encode_eq_two_iff.mpr ⟨by omega, by omega, by omega⟩
      exact ⟨ch, hch, by rw [hencode]; rfl, hencode ▸ ⟨rest, rfl⟩⟩
    | @three a b c rest ha hb hc hlong hsurrogate =>
      obtain ⟨ch, hch⟩ := Utf8.exists_char
        (n := a.toNat % 16 * 4096 + b.toNat % 64 * 64 + c.toNat % 64) (by omega) (by omega)
      have hencode : String.utf8EncodeChar ch = [a, b, c] :=
        Utf8.encode_eq_three_iff.mpr ⟨by omega, by omega, by omega, by omega⟩
      exact ⟨ch, hch, by rw [hencode]; rfl, hencode ▸ ⟨rest, rfl⟩⟩
    | @four a b c d rest ha hb hc hd hlong hlarge =>
      obtain ⟨ch, hch⟩ := Utf8.exists_char (n := a.toNat % 8 * 262144 + b.toNat % 64 * 4096 +
        c.toNat % 64 * 64 + d.toNat % 64) (by omega) (by omega)
      have hencode : String.utf8EncodeChar ch = [a, b, c, d] :=
        Utf8.encode_eq_four_iff.mpr ⟨by omega, by omega, by omega, by omega, by omega⟩
      exact ⟨ch, hch, by rw [hencode]; rfl, hencode ▸ ⟨rest, rfl⟩⟩
  · rintro ⟨ch, rfl, rfl, rest, rfl⟩
    obtain ⟨a, h⟩ | ⟨a, b, h⟩ | ⟨a, b, c, h⟩ | ⟨a, b, c, d, h⟩ := Utf8.encode_cases ch
    · obtain ⟨hrange, ha⟩ := Utf8.encode_eq_one_iff.mp h
      rw [h, ← ha]
      exact .one (by omega)
    · obtain ⟨hrange, ha, hb⟩ := Utf8.encode_eq_two_iff.mp h
      have hpoint : ch.toNat = a.toNat % 32 * 64 + b.toNat % 64 := by omega
      rw [h, hpoint]
      exact .two (by omega) (by omega)
    · obtain ⟨hrange, ha, hb, hc⟩ := Utf8.encode_eq_three_iff.mp h
      have hpoint : ch.toNat = a.toNat % 16 * 4096 + b.toNat % 64 * 64 + c.toNat % 64 := by omega
      have hscalar := Utf8.not_surrogate ch
      rw [h, hpoint]
      exact .three (by omega) (by omega) (by omega) (by omega) (by omega)
    · obtain ⟨hrange, ha, hb, hc, hd⟩ := Utf8.encode_eq_four_iff.mp h
      have hlt := Utf8.toNat_lt ch
      have hpoint : ch.toNat = a.toNat % 8 * 262144 + b.toNat % 64 * 4096 + c.toNat % 64 * 64 +
          d.toNat % 64 := by omega
      rw [h, hpoint]
      exact .four (by omega) (by omega) (by omega) (by omega) (by omega) (by omega)

theorem decodeUtf8_eq_some_iff {input : Bytes} {consumed codepoint : Nat} :
    decodeUtf8 input = some (consumed, codepoint) ↔ ∃ ch : Char, ch.toNat = codepoint ∧
      (String.utf8EncodeChar ch).length = consumed ∧ String.utf8EncodeChar ch <+: input :=
  Iff.trans ⟨decodes_of_eq, Decodes.eq⟩ decodes_iff

/-! ## Whole texts -/

theorem decodeUtf8_encode (ch : Char) (rest : Bytes) :
    decodeUtf8 (String.utf8EncodeChar ch ++ rest) =
      some ((String.utf8EncodeChar ch).length, ch.toNat) :=
  decodeUtf8_eq_some_iff.mpr ⟨ch, rfl, rfl, List.prefix_append _ _⟩

/-- The loop of the validator, with at least as many rounds as bytes. -/
theorem utf8ValidFrom_iff {rounds : Nat} {input : Bytes} (hrounds : input.length ≤ rounds) :
    utf8ValidFrom rounds input = true ↔
      ∃ text : List Char, input = text.flatMap String.utf8EncodeChar := by
  induction rounds generalizing input with
  | zero =>
    obtain rfl := List.eq_nil_of_length_eq_zero (Nat.le_zero.mp hrounds)
    exact ⟨fun _ => ⟨[], rfl⟩, fun _ => rfl⟩
  | succ rounds ih =>
    cases input with
    | nil => exact ⟨fun _ => ⟨[], rfl⟩, fun _ => rfl⟩
    | cons first rest =>
      -- A round goes on with what is left after one character.
      have hround : ∀ (ch : Char) (left : Bytes), first :: rest = String.utf8EncodeChar ch ++ left →
          utf8ValidFrom (rounds + 1) (first :: rest) = utf8ValidFrom rounds left ∧
            left.length ≤ rounds := by
        intro ch left hinput
        have hlength := congrArg List.length hinput
        have hpos := List.length_pos_of_ne_nil (Utf8.encode_ne_nil ch)
        rw [List.length_append] at hlength
        refine ⟨?_, by omega⟩
        rw [utf8ValidFrom, hinput, decodeUtf8_encode]
        dsimp only
        rw [List.drop_left]
        exact List.cons_ne_nil _ _
      constructor
      · intro hvalid
        cases hdecode : decodeUtf8 (first :: rest) with
        | none =>
          rw [utf8ValidFrom, hdecode] at hvalid
          · cases hvalid
          · exact List.cons_ne_nil _ _
        | some result =>
          obtain ⟨ch, -, -, left, hinput⟩ := decodeUtf8_eq_some_iff.mp hdecode
          obtain ⟨hnext, hleft⟩ := hround ch left hinput.symm
          obtain ⟨text, rfl⟩ := (ih hleft).mp (hnext ▸ hvalid)
          exact ⟨ch :: text, by rw [List.flatMap_cons, hinput]⟩
      · rintro ⟨text, htext⟩
        cases text with
        | nil => cases htext
        | cons ch text =>
          rw [List.flatMap_cons] at htext
          obtain ⟨hnext, hleft⟩ := hround ch _ htext
          rw [hnext]
          exact (ih hleft).mpr ⟨text, rfl⟩

theorem terminalTextUtf8Valid_iff (input : Bytes) : terminalTextUtf8Valid input = true ↔
    ∃ text : List Char, input = text.flatMap String.utf8EncodeChar :=
  utf8ValidFrom_iff (Nat.le_refl _)

/-- A text has one decomposition into characters. -/
theorem flatMap_encode_injective :
    Function.Injective fun text : List Char => text.flatMap String.utf8EncodeChar := by
  intro text text' h
  dsimp only at h
  induction text generalizing text' with
  | nil =>
    cases text' with
    | nil => rfl
    | cons ch rest =>
      exact absurd (List.append_eq_nil_iff.mp h.symm).1 (Utf8.encode_ne_nil ch)
  | cons ch rest ih =>
    cases text' with
    | nil => exact absurd (List.append_eq_nil_iff.mp h).1 (Utf8.encode_ne_nil ch)
    | cons ch' rest' =>
      rw [List.flatMap_cons, List.flatMap_cons] at h
      have hfirst := decodeUtf8_encode ch (rest.flatMap String.utf8EncodeChar)
      rw [h, decodeUtf8_encode] at hfirst
      obtain ⟨-, hpoint⟩ := Prod.mk.inj (Option.some.inj hfirst)
      obtain rfl := Char.toNat_inj.mp hpoint
      rw [ih (List.append_cancel_left h)]

/-- The validator accepts exactly the concatenations of encoded scalar values, and the
decoder takes exactly the encoding of the first one, so that a text is read in one way
only. -/
theorem utf8_exact :
    (∀ input, terminalTextUtf8Valid input = true ↔
      ∃ text : List Char, input = text.flatMap String.utf8EncodeChar) ∧
    (∀ input consumed codepoint, decodeUtf8 input = some (consumed, codepoint) ↔
      ∃ ch : Char, ch.toNat = codepoint ∧ (String.utf8EncodeChar ch).length = consumed ∧
        String.utf8EncodeChar ch <+: input) ∧
    ∀ text text' : List Char,
      text.flatMap String.utf8EncodeChar = text'.flatMap String.utf8EncodeChar → text = text' :=
  ⟨terminalTextUtf8Valid_iff, fun _ _ _ => decodeUtf8_eq_some_iff,
    fun _ _ h => flatMap_encode_injective h⟩

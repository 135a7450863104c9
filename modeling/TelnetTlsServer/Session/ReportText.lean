-- SUMMARY: What the text parsers of a peer's reports accept: decimal numbers of MTTS and lists of character sets.
import Mathlib.Data.Nat.Digits.Defs
import TelnetTlsServer.Session.Capability

/-!
# Text in reports

A peer reports its terminal type bits as a decimal number and asks for a character set with
a list behind a separator of its own choice. Both parsers are one loop over untrusted bytes.
`parse_decimal_u32` tests a bound before each step that is exact, so it takes every number
that fits and no other. `charset_list_contains_utf8` compares and vets as it goes, so a list
counts up to the entry that matches.
-/

/-! ## Decimal numbers -/

/-- The number a string of digits stands for, however large. -/
def decimalValue (bytes : Bytes) : Nat :=
  Nat.ofDigits 10 (bytes.map fun b => b.toNat - 48).reverse

theorem decimalValue_cons (b : UInt8) (rest : Bytes) :
    decimalValue (b :: rest) = (b.toNat - 48) * 10 ^ rest.length + decimalValue rest := by
  rw [decimalValue, List.map_cons, Nat.ofDigits_reverse_cons, List.length_map, Nat.add_comm,
    Nat.mul_comm]
  rfl

section Step

variable {b : UInt8} (hdigit : AsciiDigit b) (parsed : UInt32)

include hdigit

theorem toNat_digit : (b - 48).toUInt32.toNat = b.toNat - 48 := by
  have hle : (48 : UInt8) ≤ b := UInt8.le_iff_toNat_le.mpr hdigit.1
  rw [UInt8.toNat_toUInt32, UInt8.toNat_sub_of_le _ _ hle]
  rfl

/-- The test before a step refuses exactly the numbers that do not fit. -/
theorem decimal_guard_iff : ¬ parsed > (0xFFFFFFFF - (b - 48).toUInt32) / 10 ↔
    parsed.toNat * 10 + (b.toNat - 48) < 2 ^ 32 := by
  have hvalue := toNat_digit hdigit
  have hsmall : (b - 48).toUInt32 ≤ 0xFFFFFFFF := by
    rw [UInt32.le_iff_toNat_le, hvalue]
    have := hdigit.2
    simp only [UInt32.reduceToNat]
    omega
  rw [gt_iff_lt, UInt32.lt_iff_toNat_lt, UInt32.toNat_div, UInt32.toNat_sub_of_le _ _ hsmall, hvalue]
  simp only [UInt32.reduceToNat]
  have := hdigit.2
  omega

theorem toNat_decimal_step (hfits : parsed.toNat * 10 + (b.toNat - 48) < 2 ^ 32) :
    (parsed * 10 + (b - 48).toUInt32).toNat = parsed.toNat * 10 + (b.toNat - 48) := by
  rw [UInt32.toNat_add, UInt32.toNat_mul, toNat_digit hdigit]
  simp only [UInt32.reduceToNat]
  omega

end Step

/-- The loop from any number on. -/
theorem parseDecimalFrom_eq_some_iff {parsed value : UInt32} {bytes : Bytes} :
    parseDecimalFrom parsed bytes = some value ↔ (∀ b ∈ bytes, AsciiDigit b) ∧
      parsed.toNat * 10 ^ bytes.length + decimalValue bytes = value.toNat := by
  induction bytes generalizing parsed with
  | nil =>
    rw [parseDecimalFrom, Option.some.injEq, ← UInt32.toNat_inj]
    simp [decimalValue]
  | cons b rest ih =>
    rw [List.forall_mem_cons, decimalValue_cons, List.length_cons]
    unfold parseDecimalFrom
    by_cases hdigit : AsciiDigit b
    case neg =>
      rw [if_pos ((not_asciiDigit_iff b).mpr hdigit)]
      exact iff_of_false (Option.some_ne_none _).symm fun h => hdigit h.1.1
    rw [if_neg ((asciiDigit_iff b).mpr hdigit)]
    dsimp only
    have hregroup : parsed.toNat * 10 ^ (rest.length + 1) +
        ((b.toNat - 48) * 10 ^ rest.length + decimalValue rest) =
        (parsed.toNat * 10 + (b.toNat - 48)) * 10 ^ rest.length + decimalValue rest := by
      rw [pow_succ, Nat.add_mul]
      ring
    rw [hregroup]
    by_cases hfits : parsed.toNat * 10 + (b.toNat - 48) < 2 ^ 32
    · rw [if_neg ((decimal_guard_iff hdigit parsed).mpr hfits), ih,
        toNat_decimal_step hdigit parsed hfits]
      exact and_congr_left fun _ => (and_iff_right hdigit).symm
    · rw [if_pos (not_not.mp (mt (decimal_guard_iff hdigit parsed).mp hfits))]
      refine iff_of_false (Option.some_ne_none _).symm fun h => ?_
      -- Further digits only make the number larger.
      have hgrows := Nat.le_mul_of_pos_right (parsed.toNat * 10 + (b.toNat - 48))
        (Nat.pow_pos (show 0 < 10 by decide) : 0 < 10 ^ rest.length)
      have hvalue := value.toNat_lt
      omega

/-- For every string: it is taken exactly if it is a non-empty string of digits whose number
fits, then as that number, and no product or sum on the way wraps. -/
theorem parse_decimal_exact (bytes : Bytes) :
    ((parseDecimalU32 bytes).isSome = true ↔
      bytes ≠ [] ∧ (∀ b ∈ bytes, AsciiDigit b) ∧ decimalValue bytes ≤ 2 ^ 32 - 1) ∧
    (∀ value, parseDecimalU32 bytes = some value → value.toNat = decimalValue bytes) ∧
    ∀ before b rest parsed, bytes = before ++ b :: rest →
      parseDecimalFrom 0 before = some parsed → AsciiDigit b →
      ¬ parsed > (0xFFFFFFFF - (b - 48).toUInt32) / 10 →
      (parsed * 10).toNat = parsed.toNat * 10 ∧
        (parsed * 10 + (b - 48).toUInt32).toNat = parsed.toNat * 10 + (b.toNat - 48) := by
  have hsome : ∀ value, parseDecimalU32 bytes = some value ↔
      bytes ≠ [] ∧ (∀ b ∈ bytes, AsciiDigit b) ∧ decimalValue bytes = value.toNat := by
    intro value
    by_cases hempty : bytes = []
    · simp [parseDecimalU32, hempty]
    · rw [parseDecimalU32, if_neg hempty, parseDecimalFrom_eq_some_iff]
      simp [hempty]
  refine ⟨?_, fun value hvalue => ((hsome value).mp hvalue).2.2.symm, ?_⟩
  · rw [Option.isSome_iff_exists]
    constructor
    · rintro ⟨value, hvalue⟩
      obtain ⟨hne, hdigits, heq⟩ := (hsome value).mp hvalue
      exact ⟨hne, hdigits, Nat.le_sub_one_of_lt (heq ▸ value.toNat_lt)⟩
    · rintro ⟨hne, hdigits, hfits⟩
      have hsmall : decimalValue bytes < 2 ^ 32 := by omega
      exact ⟨.ofNat (decimalValue bytes), (hsome _).mpr ⟨hne, hdigits,
        (UInt32.toNat_ofNat_of_lt' hsmall).symm⟩⟩
  · intro before b rest parsed _ _ hdigit hguard
    have hfits := (decimal_guard_iff hdigit parsed).mp hguard
    refine ⟨?_, toNat_decimal_step hdigit parsed hfits⟩
    rw [UInt32.toNat_mul]
    exact Nat.mod_eq_of_lt (show parsed.toNat * 10 < 2 ^ 32 by omega)

/-- The largest number behind two zeros. -/
theorem parse_decimal_exact_padded :
    (parseDecimalU32 (ascii "004294967295")).isSome = true ∧
      parseDecimalU32 (ascii "4294967296") = none ∧
      ((429496729 : UInt32) * 10 + (53 - 48)).toNat = 4294967295 := by
  have hlarge := parse_decimal_exact (ascii "4294967296")
  refine ⟨by decide, ?_, ?_⟩
  · rw [← Option.not_isSome_iff_eq_none, hlarge.1]
    exact fun h => absurd h.2.2 (by decide)
  · exact ((parse_decimal_exact (ascii "4294967295")).2.2 (ascii "429496729") 53 [] 429496729
      (by decide) (by decide) ⟨by decide, by decide⟩ (by decide)).2

/-! ## Lists of character sets -/

/-- The entry that asks for UTF-8. -/
def NamesUtf8 (segment : Bytes) : Prop := segment.map asciiLower = (ascii "UTF-8").map asciiLower

/-- The entries are vetted one after the other, until one matches. -/
def segmentsContainUtf8 : List Bytes → Bool
  | [] => false
  | segment :: rest =>
      segment.all isPrintableAscii &&
        (bytesEqualIgnoreCase segment (ascii "UTF-8") || segmentsContainUtf8 rest)

theorem segmentsContainUtf8_iff (segments : List Bytes) : segmentsContainUtf8 segments = true ↔
    ∃ before segment after, segments = before ++ segment :: after ∧ NamesUtf8 segment ∧
      ∀ part ∈ before ++ [segment], ∀ b ∈ part, 32 ≤ b ∧ b ≤ 126 := by
  have hprintable : ∀ part : Bytes, part.all isPrintableAscii = true ↔
      ∀ b ∈ part, 32 ≤ b ∧ b ≤ 126 := fun part => by simp [isPrintableAscii]
  induction segments with
  | nil => simp [segmentsContainUtf8]
  | cons first rest ih =>
    rw [segmentsContainUtf8, Bool.and_eq_true, Bool.or_eq_true, hprintable,
      bytesEqualIgnoreCase_iff]
    refine (and_congr_right fun _ => or_congr_right ih).trans ⟨?_, ?_⟩
    · rintro ⟨hfirst, hnames | ⟨before, segment, after, rfl, hnames, hparts⟩⟩
      · exact ⟨[], first, rest, rfl, hnames, by simpa using hfirst⟩
      · refine ⟨first :: before, segment, after, rfl, hnames, ?_⟩
        exact List.forall_mem_cons.mpr ⟨hfirst, hparts⟩
    · rintro ⟨before, segment, after, heq, hnames, hparts⟩
      cases before with
      | nil =>
        obtain ⟨rfl, rfl⟩ := List.cons.inj heq
        exact ⟨by simpa using hparts, .inl hnames⟩
      | cons _ before =>
        obtain ⟨rfl, rfl⟩ := List.cons.inj heq
        obtain ⟨hfirst, hrest⟩ := List.forall_mem_cons.mp hparts
        exact ⟨hfirst, .inr ⟨before, segment, after, rfl, hnames, hrest⟩⟩

theorem modifyHead_nil_append (segments : List Bytes) :
    segments.modifyHead (([] : Bytes) ++ ·) = segments :=
  congrFun List.modifyHead_id segments

/-- The loop, with the bytes of the entry it is in. -/
theorem charsetScan_eq (separator : UInt8) {segment : Bytes}
    (hsegment : segment.all isPrintableAscii = true) (list : Bytes) :
    charsetScan separator segment list =
      segmentsContainUtf8 ((list.splitOn separator).modifyHead (segment ++ ·)) := by
  -- An empty entry does not match, so the test for one changes nothing.
  have hempty : ∀ segment : Bytes, (segment ≠ [] && bytesEqualIgnoreCase segment (ascii "UTF-8")) =
      bytesEqualIgnoreCase segment (ascii "UTF-8") := by
    intro segment
    cases segment with
    | nil => decide
    | cons => simp
  induction list generalizing segment with
  | nil =>
    rw [charsetScan, hempty, List.splitOn_nil, List.modifyHead_cons, List.append_nil,
      segmentsContainUtf8, hsegment, segmentsContainUtf8, Bool.or_false, Bool.true_and]
  | cons b rest ih =>
    rw [charsetScan, hempty, List.splitOn_cons_eq_if_modifyHead]
    by_cases hend : b = separator
    · have hrest := ih (show ([] : Bytes).all isPrintableAscii = true from rfl)
      rw [modifyHead_nil_append] at hrest
      rw [if_pos hend, if_pos (beq_iff_eq.mpr hend), List.modifyHead_cons, List.append_nil,
        segmentsContainUtf8, hsegment, hrest, Bool.true_and]
      cases bytesEqualIgnoreCase segment (ascii "UTF-8") <;> rfl
    · obtain ⟨head, tail, hsplit⟩ := List.exists_cons_of_ne_nil (List.splitOn_ne_nil separator rest)
      rw [if_neg hend, if_neg (mt beq_iff_eq.mp hend)]
      by_cases hbad : (b < 32 || b > 126) = true
      · have hfails : isPrintableAscii b = false := by
          simpa [isPrintableAscii, imp_iff_not_or, or_comm] using hbad
        rw [if_pos hbad, hsplit, List.modifyHead_cons, List.modifyHead_cons, segmentsContainUtf8]
        simp [hfails]
      · have hgood : isPrintableAscii b = true := by
          simpa [isPrintableAscii, not_or] using hbad
        rw [if_neg hbad, ih (by simp [hsegment, hgood]), hsplit]
        simp [segmentsContainUtf8]

/-- For every payload: UTF-8 is found exactly if the payload is a request with a separator that
is no control and no IAC, and one of the entries between separators is UTF-8 in any case, with
nothing but printable ASCII in the entries up to it. -/
theorem charset_list_exact (payload : Bytes) :
    charsetListContainsUtf8 payload = true ↔
      3 ≤ payload.length ∧ payload[0]? = some 1 ∧ ∃ separator, payload[1]? = some separator ∧
        32 ≤ separator ∧ separator ≠ 255 ∧
        ∃ before segment after,
          (payload.drop 2).splitOn separator = before ++ segment :: after ∧ NamesUtf8 segment ∧
            ∀ part ∈ before ++ [segment], ∀ b ∈ part, 32 ≤ b ∧ b ≤ 126 := by
  match payload with
  | [] | [_] => simp [charsetListContainsUtf8]
  | kind :: separator :: list =>
    have hscan := charsetScan_eq separator (show ([] : Bytes).all isPrintableAscii = true from rfl) list
    rw [modifyHead_nil_append] at hscan
    have hlist := segmentsContainUtf8_iff (list.splitOn separator)
    rw [← hscan] at hlist
    simp only [List.getElem?_cons_zero, List.getElem?_cons_succ, Option.some.injEq, List.drop_succ_cons,
      List.drop_zero, exists_eq_left', ← hlist]
    unfold charsetListContainsUtf8
    dsimp only
    split_ifs with hshort hbad
    · rw [Bool.or_eq_true, decide_eq_true_eq, decide_eq_true_eq] at hshort
      refine iff_of_false id fun h => ?_
      rcases hshort with hshort | hkind
      · omega
      · exact hkind h.2.1
    · rw [Bool.or_eq_true, decide_eq_true_eq, decide_eq_true_eq] at hbad
      refine iff_of_false id fun h => ?_
      rcases hbad with hiac | hcontrol
      · exact h.2.2.2.1 hiac
      · exact absurd h.2.2.1 (UInt8.not_le.mpr hcontrol)
    · rw [Bool.or_eq_true, decide_eq_true_eq, decide_eq_true_eq, not_or, not_not,
        Nat.not_lt] at hshort
      rw [Bool.or_eq_true, decide_eq_true_eq, decide_eq_true_eq, not_or, UInt8.not_lt] at hbad
      exact ⟨fun h => ⟨hshort.1, hshort.2, hbad.2, hbad.1, h⟩, fun h => h.2.2.2.2⟩

/-- A separator that is a letter of `UTF-8` in the other case, an empty entry, and a match in the
last place. -/
theorem charset_list_exact_letter :
    charsetListContainsUtf8 ([1, 117] ++ ascii "ASCIIuuUTF-8") = true := by
  refine (charset_list_exact _).mpr ⟨by decide, rfl, 117, rfl, by decide, by decide,
    [ascii "ASCII", []], ascii "UTF-8", [], by decide, rfl, ?_⟩
  have hall : ([ascii "ASCII", []] ++ [ascii "UTF-8"]).all (·.all isPrintableAscii) = true := by decide
  simpa [isPrintableAscii] using hall

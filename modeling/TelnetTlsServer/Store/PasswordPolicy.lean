-- SUMMARY: Which passwords a new account may have, as rules on the whole password.
import Mathlib.Data.List.TakeWhile
import TelnetTlsServer.Store.PlayerRules

/-!
# The password policy

`player_store_password_allowed` compares some of its rules on the password as it is typed and
some on the password in small letters. The test for digit runs looks at neighbours, upwards
and downwards at once; what it refuses are the runs that wrap around at nine or at zero.
-/

/-! ## Case -/

theorem asciiLower_asciiLower (ch : UInt8) : asciiLower (asciiLower ch) = asciiLower ch :=
  forall_byte (by decide +kernel) ch

theorem asciiLower_ne_zero {ch : UInt8} : ch ≠ 0 → asciiLower ch ≠ 0 :=
  forall_byte (by decide +kernel) ch

theorem cString_lowered {password : Bytes} (h : 0 ∉ password) :
    cString (password.map asciiLower) = password.map asciiLower := by
  refine List.takeWhile_eq_self_iff.mpr fun b hb => ?_
  obtain ⟨ch, hch, rfl⟩ := List.mem_map.mp hb
  exact decide_eq_true (asciiLower_ne_zero fun hzero => h (hzero ▸ hch))

theorem equalIgnoreCase_lowered (password name : Bytes) :
    asciiEqualIgnoreCase (password.map asciiLower) name = true ↔
      password.map asciiLower = name.map asciiLower := by
  have hlowered : asciiLower ∘ asciiLower = asciiLower := funext asciiLower_asciiLower
  rw [asciiEqualIgnoreCase_iff, List.map_map, hlowered]

/-! ## One byte repeated -/

theorem passwordIsRepeatedCharacter_iff {password : Bytes} (hne : password ≠ []) :
    passwordIsRepeatedCharacter password = true ↔
      ∃ b, password = List.replicate password.length b := by
  cases password with
  | nil => exact absurd rfl hne
  | cons first rest =>
    simp only [passwordIsRepeatedCharacter, List.all_eq_true, decide_eq_true_eq]
    constructor
    · intro hsame
      exact ⟨first, List.eq_replicate_iff.mpr ⟨rfl, List.forall_mem_cons.mpr ⟨rfl, hsame⟩⟩⟩
    · rintro ⟨b, hb⟩
      obtain ⟨hfirst, hrest⟩ := List.forall_mem_cons.mp (List.eq_replicate_iff.mp hb).2
      exact fun ch hch => (hrest ch hch).trans hfirst.symm

/-! ## Digit runs

A run upwards adds 1 from digit to digit and one downwards adds 9, both modulo 10. -/

/-- The digits go on from `previous` in steps of `step`. -/
def DigitsFollow (step previous : Nat) (rest : Bytes) : Prop :=
  ∀ i (hi : i < rest.length), rest[i].toNat = 48 + (previous + step * (i + 1)) % 10

theorem digitsFollow_cons {step previous : Nat} {ch : UInt8} {rest : Bytes} :
    DigitsFollow step previous (ch :: rest) ↔ ch.toNat = 48 + (previous + step) % 10 ∧
      DigitsFollow step ((previous + step) % 10) rest := by
  have hshift : ∀ i, (previous + step * (i + 1 + 1)) % 10 =
      ((previous + step) % 10 + step * (i + 1)) % 10 := by
    intro i
    rw [Nat.mod_add_mod, Nat.mul_succ step (i + 1), Nat.add_assoc, Nat.add_comm (step * (i + 1))]
  constructor
  · intro h
    refine ⟨by simpa using h 0 (Nat.succ_pos _), fun i hi => ?_⟩
    have hnext := h (i + 1) (Nat.succ_lt_succ hi)
    rwa [List.getElem_cons_succ, hshift] at hnext
  · rintro ⟨hfirst, hrest⟩ i hi
    cases i with
    | zero => simpa using hfirst
    | succ i =>
      rw [List.getElem_cons_succ, hshift]
      exact hrest i (Nat.lt_of_succ_lt_succ hi)

/-- The loop behind a digit, with the directions it has not ruled out. -/
theorem digitSequenceFrom_iff (previous : Nat) (ascending descending : Bool) (rest : Bytes) :
    digitSequenceFrom previous ascending descending rest = true ↔
      (ascending = true ∧ DigitsFollow 1 previous rest) ∨
        (descending = true ∧ DigitsFollow 9 previous rest) := by
  induction rest generalizing previous ascending descending with
  | nil => simp [digitSequenceFrom, DigitsFollow]
  | cons ch rest ih =>
    unfold digitSequenceFrom
    rw [digitsFollow_cons, digitsFollow_cons]
    by_cases hdigit : AsciiDigit ch
    · rw [if_neg ((asciiDigit_iff ch).mpr hdigit)]
      dsimp only
      rw [ih]
      simp only [Bool.and_eq_true, decide_eq_true_eq, and_assoc]
      -- A direction that goes on continues from the digit it predicts.
      have hstep : ∀ step, (ch.toNat - 48 = (previous + step) % 10 ∧
          DigitsFollow step (ch.toNat - 48) rest) ↔ (ch.toNat = 48 + (previous + step) % 10 ∧
            DigitsFollow step ((previous + step) % 10) rest) := by
        intro step
        have heq : ch.toNat - 48 = (previous + step) % 10 ↔
            ch.toNat = 48 + (previous + step) % 10 := by
          have := hdigit.1
          omega
        rw [heq]
        refine and_congr_right fun hnext => ?_
        rw [heq.mpr hnext]
      rw [hstep 1, hstep 9]
    · rw [if_pos ((not_asciiDigit_iff ch).mpr hdigit)]
      refine iff_of_false Bool.false_ne_true ?_
      rintro (⟨-, hnext, -⟩ | ⟨-, hnext, -⟩)
      · exact hdigit ⟨by omega, by omega⟩
      · exact hdigit ⟨by omega, by omega⟩

/-- A run of digits from `start` in steps of `step`. -/
def DigitRun (step start : Nat) (digits : Bytes) : Prop :=
  ∀ i (hi : i < digits.length), digits[i].toNat = 48 + (start + step * i) % 10

theorem exists_digitRun_cons {step : Nat} {ch : UInt8} {rest : Bytes} :
    (∃ start < 10, DigitRun step start (ch :: rest)) ↔
      AsciiDigit ch ∧ DigitsFollow step (ch.toNat - 48) rest := by
  constructor
  · rintro ⟨start, hstart, hrun⟩
    have hfirst : ch.toNat = 48 + start := by
      have hzero := hrun 0 (Nat.succ_pos _)
      rwa [List.getElem_cons_zero, Nat.mul_zero, Nat.add_zero, Nat.mod_eq_of_lt hstart] at hzero
    refine ⟨⟨by omega, by omega⟩, fun i hi => ?_⟩
    rw [hfirst, Nat.add_sub_cancel_left]
    exact hrun (i + 1) (Nat.succ_lt_succ hi)
  · rintro ⟨⟨hlow, hhigh⟩, hfollow⟩
    refine ⟨ch.toNat - 48, by omega, fun i hi => ?_⟩
    cases i with
    | zero =>
      rw [List.getElem_cons_zero, Nat.mul_zero]
      omega
    | succ i => exact hfollow i (Nat.lt_of_succ_lt_succ hi)

theorem passwordIsDigitSequence_iff {password : Bytes} (hlong : playerPasswordMin ≤ password.length) :
    passwordIsDigitSequence password = true ↔
      ∃ start < 10, DigitRun 1 start password ∨ DigitRun 9 start password := by
  cases password with
  | nil => exact absurd hlong (by decide)
  | cons ch rest =>
    have hsplit : (∃ start < 10, DigitRun 1 start (ch :: rest) ∨ DigitRun 9 start (ch :: rest)) ↔
        AsciiDigit ch ∧ (DigitsFollow 1 (ch.toNat - 48) rest ∨ DigitsFollow 9 (ch.toNat - 48) rest) := by
      simp only [and_or_left, exists_or, exists_digitRun_cons]
    rw [passwordIsDigitSequence, if_neg (Nat.not_lt.mpr hlong), hsplit]
    by_cases hdigit : AsciiDigit ch
    · rw [if_neg ((asciiDigit_iff ch).mpr hdigit), digitSequenceFrom_iff]
      simp [hdigit]
    · rw [if_pos ((not_asciiDigit_iff ch).mpr hdigit)]
      exact iff_of_false Bool.false_ne_true fun h => hdigit h.1

/-! ## The policy -/

theorem digitRun_up_iff (start : Nat) (digits : Bytes) : (∀ i (hi : i < digits.length),
    (digits[i].toNat : Int) - 48 = ((start : Int) + i) % 10) ↔ DigitRun 1 start digits :=
  forall₂_congr fun i hi => by omega

/-- Nine up is one down. -/
theorem digitRun_down_iff (start : Nat) (digits : Bytes) : (∀ i (hi : i < digits.length),
    (digits[i].toNat : Int) - 48 = ((start : Int) - i) % 10) ↔ DigitRun 9 start digits :=
  forall₂_congr fun i hi => by omega

/-- The rules that are tested before the list of blocked passwords. -/
theorem breaks_rule_iff {name password : Bytes} (hlong : playerPasswordMin ≤ password.length) :
    (asciiEqualIgnoreCase (password.map asciiLower) name ||
      passwordIsRepeatedCharacter password || passwordIsDigitSequence password) = true ↔
      (password.map asciiLower = name.map asciiLower ∨
        ∃ b, password = List.replicate password.length b) ∨
        ∃ start < 10, DigitRun 1 start password ∨ DigitRun 9 start password := by
  have hne : password ≠ [] := by
    rintro rfl
    exact absurd hlong (by decide)
  rw [Bool.or_eq_true, Bool.or_eq_true, equalIgnoreCase_lowered,
    passwordIsRepeatedCharacter_iff hne, passwordIsDigitSequence_iff hlong]

/-- For every name and every password without zeros that fits: it is allowed exactly if it keeps
each rule, and otherwise it is refused. -/
theorem password_allowed_exact (name password : Bytes) (hzero : 0 ∉ password)
    (hmax : password.length ≤ 128) :
    (playerStorePasswordAllowed name password = 1 ↔
      8 ≤ password.length ∧
      password.map asciiLower ≠ name.map asciiLower ∧
      (¬ ∃ b, password = List.replicate password.length b) ∧
      (¬ ∃ start : Nat, start < 10 ∧
        ((∀ i (hi : i < password.length),
            (password[i].toNat : Int) - 48 = ((start : Int) + i) % 10) ∨
          ∀ i (hi : i < password.length),
            (password[i].toNat : Int) - 48 = ((start : Int) - i) % 10)) ∧
      password.map asciiLower ∉ blockedPasswords) ∧
    (playerStorePasswordAllowed name password ≠ 1 → playerStorePasswordAllowed name password = 0) := by
  simp only [digitRun_up_iff, digitRun_down_iff]
  unfold playerStorePasswordAllowed
  rw [if_neg (show ¬ password.length > playerPasswordMax from Nat.not_lt.mpr hmax),
    cString_lowered hzero]
  by_cases hlong : playerPasswordMin ≤ password.length
  case neg =>
    rw [if_pos (Nat.lt_of_not_le hlong)]
    exact ⟨iff_of_false (by decide) fun h => hlong h.1, fun _ => rfl⟩
  rw [if_neg (Nat.not_lt.mpr hlong)]
  dsimp only
  split_ifs with hrule hblocked
  · refine ⟨iff_of_false (by decide) ?_, fun _ => rfl⟩
    rintro ⟨-, hname, hrepeated, hdigits, -⟩
    exact ((breaks_rule_iff hlong).mp hrule).elim (fun h => h.elim hname hrepeated) hdigits
  · have hmem := List.contains_iff_mem.mp hblocked
    exact ⟨iff_of_false (by decide) fun h => h.2.2.2.2 hmem, fun _ => rfl⟩
  · obtain ⟨hfirst, hdigits⟩ := not_or.mp (mt (breaks_rule_iff hlong).mpr hrule)
    obtain ⟨hname, hrepeated⟩ := not_or.mp hfirst
    have hmem := mt List.contains_iff_mem.mpr hblocked
    exact ⟨iff_of_true rfl ⟨hlong, hname, hrepeated, hdigits, hmem⟩, fun h => absurd rfl h⟩

/-- Downwards past zero, and a run that is broken in the last place. -/
theorem password_allowed_exact_run :
    playerStorePasswordAllowed (ascii "ada") (ascii "2109876543") = 0 ∧
      playerStorePasswordAllowed (ascii "ada") (ascii "2109876542") = 1 := by
  have hrun := password_allowed_exact (ascii "ada") (ascii "2109876543") (by decide) (by decide)
  refine ⟨hrun.2 fun hallowed => ?_, by decide⟩
  exact (hrun.1.mp hallowed).2.2.2.1 ⟨2, by decide, .inr (by decide)⟩

-- SUMMARY: The rules player_store.c applies to player names and passwords before any file or hash is touched.
import TelnetTlsServer.Codes
import TelnetTlsServer.Lib.Buffer

/-!
# Player rules

The pure part of the player store: which names are identifiers of an account and
which passwords a new account may have. C strings are byte lists without their
terminator.
-/

def playerNameMin : Nat := 3
def playerNameMax : Nat := 15
def playerPasswordMin : Nat := 8
def playerPasswordMax : Nat := 128

/-! ## Names -/

def nameByteValid (ch : UInt8) : Bool :=
  let letter := (65 ≤ ch && ch ≤ 90) || (97 ≤ ch && ch ≤ 122)
  let digit := 48 ≤ ch && ch ≤ 57
  letter || digit || ch = 95 || ch = 45

def playerStoreNameValid (name : Bytes) : Bool :=
  if name.length < playerNameMin || name.length > playerNameMax then false
  else name.all nameByteValid

/-- A valid player name. -/
def PlayerName : Type := { name : Bytes // playerStoreNameValid name = true }

theorem playerStoreNameValid_iff {name : Bytes} : playerStoreNameValid name = true ↔
    playerNameMin ≤ name.length ∧ name.length ≤ playerNameMax ∧
      ∀ ch ∈ name, nameByteValid ch = true := by
  unfold playerStoreNameValid
  split
  case isTrue h =>
    simp only [Bool.or_eq_true, decide_eq_true_eq] at h
    simp only [Bool.false_eq_true, false_iff]
    omega
  case isFalse h =>
    simp only [Bool.or_eq_true, decide_eq_true_eq, not_or, Nat.not_lt] at h
    simp only [List.all_eq_true]
    exact ⟨fun hall => ⟨h.1, h.2, hall⟩, fun hall => hall.2.2⟩

theorem nameByteValid_asciiLower (ch : UInt8) : nameByteValid (asciiLower ch) = nameByteValid ch := by
  have hall : ∀ n < 256, nameByteValid (asciiLower (UInt8.ofNat n)) = nameByteValid (UInt8.ofNat n) := by
    decide +kernel
  simpa using hall ch.toNat ch.toNat_lt

/-- Whether a name is valid does not depend on the case of its letters. -/
theorem playerStoreNameValid_congr {name other : Bytes}
    (h : asciiEqualIgnoreCase name other = true) :
    playerStoreNameValid name = playerStoreNameValid other := by
  have hlower : ∀ name, playerStoreNameValid (name.map asciiLower) = playerStoreNameValid name := by
    intro name
    have hbyte : nameByteValid ∘ asciiLower = nameByteValid := funext nameByteValid_asciiLower
    simp only [playerStoreNameValid, List.length_map, List.all_map, hbyte]
  rw [← hlower name, asciiEqualIgnoreCase_iff.mp h, hlower other]

/-! ## Passwords -/

def blockedPasswords : List Bytes :=
  ["password", "password1", "12345678", "qwerty123", "letmein123", "changeme"].map ascii

def passwordIsRepeatedCharacter : Bytes → Bool
  | [] => false
  | first :: rest => rest.all (· = first)

/-- The loop of `password_is_digit_sequence` after the digit `previous`. -/
def digitSequenceFrom (previous : Nat) (ascending descending : Bool) : Bytes → Bool
  | [] => ascending || descending
  | ch :: rest =>
      if ch < 48 || ch > 57 then false
      else
        let current := ch.toNat - 48
        digitSequenceFrom current
          (ascending && current = (previous + 1) % 10)
          (descending && current = (previous + 9) % 10) rest

def passwordIsDigitSequence (password : Bytes) : Bool :=
  if password.length < playerPasswordMin then false
  else
    match password with
    | [] => true
    | ch :: rest =>
        if ch < 48 || ch > 57 then false else digitSequenceFrom (ch.toNat - 48) true true rest

def playerStorePasswordAllowed (playerName password : Bytes) : Int :=
  if password.length > playerPasswordMax then -1
  else if password.length < playerPasswordMin then 0
  else
    let lowered := cString (password.map asciiLower)
    if asciiEqualIgnoreCase lowered playerName || passwordIsRepeatedCharacter password ||
        passwordIsDigitSequence password then 0
    else if blockedPasswords.contains lowered then 0
    else 1

-- SUMMARY: The typed line as a list of bytes: the line buffer of a session refines it.
import TelnetTlsServer.Session.Parser

/-!
# Typed lines

What a user has typed since the last completed line is a list of bytes and
whether a byte was lost at the limit. The session keeps it in an array of 513
bytes with a length; `LineInput.Holds` relates the two, and the editing functions
of the array follow those of the list.
-/

/-- What was typed since the last completed line. -/
structure Typing where
  text : Bytes
  overflow : Bool
deriving DecidableEq, Repr

namespace Typing

def empty : Typing := ⟨[], false⟩

def erase (t : Typing) : Typing := { t with text := t.text.dropLast }

/-- Type one byte into a line of at most `limit` bytes. -/
def put (limit : Nat) (t : Typing) (byte : UInt8) : Typing :=
  if byte = 8 || byte = 127 then t.erase
  else if byte < 32 then t
  else if t.text.length ≥ limit then { t with overflow := true }
  else { t with text := t.text ++ [byte] }

theorem text_put_length {limit : Nat} {t : Typing} (h : t.text.length ≤ limit) (byte : UInt8) :
    (t.put limit byte).text.length ≤ limit := by
  unfold put erase
  split_ifs with herase hctl hfull
  · simp only [List.length_dropLast]
    omega
  · exact h
  · exact h
  · simp only [List.length_append, List.length_singleton]
    omega

end Typing

/-! ## The line buffer -/

namespace LineInput

/-- The array holds exactly the typed bytes, and zeros behind them. -/
structure Holds (i : LineInput) (t : Typing) : Prop where
  padded : i.line.Padded t.text
  length : i.lineLength = t.text.length
  fits : t.text.length ≤ applicationLineMax
  typed : ∀ b ∈ t.text, 32 ≤ b ∧ b ≠ 127
  overflow : i.lineOverflow = t.overflow

theorem lineLimit_le (login : LoginState) : lineLimit login ≤ applicationLineMax := by
  cases login <;> decide

theorem holds_wipe (i : LineInput) (overflow : Bool) :
    Holds { i.wipe with lineOverflow := overflow } ⟨[], overflow⟩ where
  padded := Buffer.padded_zero
  length := rfl
  fits := Nat.zero_le _
  typed := by simp
  overflow := rfl

namespace Holds

variable {i : LineInput} {t : Typing}

theorem initial : Holds .initial .empty := holds_wipe .initial false

theorem setPendingCr (h : i.Holds t) (pending : Bool) :
    Holds { i with pendingCr := pending } t :=
  ⟨h.padded, h.length, h.fits, h.typed, h.overflow⟩

theorem clear (i : LineInput) : Holds i.clear .empty :=
  (holds_wipe i false).setPendingCr false

theorem room (h : i.Holds t) : t.text.length < 513 := Nat.lt_succ_of_le h.fits

theorem text_eq (h : i.Holds t) : i.text = t.text := by
  rw [LineInput.text, h.padded, h.length, List.take_left]

/-- No typed byte is zero, so string functions see the whole line. -/
theorem string_eq (h : i.Holds t) : i.line.string = t.text := by
  apply h.padded.string_eq h.room
  intro b hb hzero
  subst hzero
  exact absurd (h.typed 0 hb).1 (by decide)

/-- The terminator written before a line is handed on is already there. -/
theorem terminated (h : i.Holds t) : i.line.set i.lineLength 0 = i.line := by
  rw [h.length]
  exact h.padded.terminated h.room

theorem eraseByte (h : i.Holds t) : i.eraseByte.Holds t.erase := by
  rcases List.eq_nil_or_concat' t.text with hnil | ⟨rest, last, hlast⟩
  · have hempty : i.lineLength = 0 := by simp [h.length, hnil]
    have herase : t.erase = t := by
      cases t
      simp_all [Typing.erase]
    simpa [LineInput.eraseByte, hempty, herase] using h
  · have hlength : i.lineLength = rest.length + 1 := by simp [h.length, hlast]
    have hfits := h.fits
    have htyped := h.typed
    have hpadded := h.padded
    rw [hlast] at hfits htyped hpadded
    simp only [LineInput.eraseByte, hlength, Nat.zero_lt_succ, if_true, Nat.add_sub_cancel]
    refine ⟨?_, ?_, ?_, ?_, h.overflow⟩
    · simpa [Typing.erase, hlast] using hpadded.pop
    · simp [Typing.erase, hlast]
    · simp only [Typing.erase, hlast, List.dropLast_concat]
      simp only [List.length_append, List.length_singleton] at hfits
      omega
    · intro b hb
      simp only [Typing.erase, hlast, List.dropLast_concat] at hb
      exact htyped b (List.mem_append_left _ hb)

theorem appendLineByte (h : i.Holds t) (login : LoginState) (byte : UInt8) :
    (i.appendLineByte login byte).Holds (t.put (lineLimit login) byte) := by
  have hlimit := lineLimit_le login
  unfold LineInput.appendLineByte Typing.put
  rw [h.length]
  split
  case isTrue => exact h.eraseByte
  case isFalse herase =>
  split
  case isTrue => exact h
  case isFalse hctl =>
  split
  case isTrue => exact ⟨h.padded, rfl, h.fits, h.typed, rfl⟩
  case isFalse hroom =>
    simp only [Bool.or_eq_true, decide_eq_true_eq, not_or] at herase
    have hfits : t.text.length + 1 ≤ applicationLineMax := by omega
    refine ⟨h.padded.push h.room byte, ?_, ?_, ?_, h.overflow⟩
    · simp
    · simpa using hfits
    · intro b hb
      rcases List.mem_append.mp hb with hb | hb
      · exact h.typed b hb
      · obtain rfl := List.mem_singleton.mp hb
        exact ⟨UInt8.not_lt.mp hctl, herase.2⟩

end Holds

end LineInput

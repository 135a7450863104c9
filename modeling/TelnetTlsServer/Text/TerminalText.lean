-- SUMMARY: UTF-8 decoding and validation and the two sanitisers of terminal_text.c.
import TelnetTlsServer.Codes
import TelnetTlsServer.Lib.Buffer

/-!
# Terminal text

`terminal_text.c`: the RFC 3629 decoder, validation of a whole text with it, and the
filters for untrusted text, one for ASCII and one for negotiated UTF-8.
-/

/-- A continuation byte, `10xxxxxx`. -/
def isContinuation (b : UInt8) : Bool := b &&& 0xc0 = 0x80

/-- How many bytes the first scalar takes, and its code point. -/
def decodeUtf8 : Bytes → Option (Nat × Nat)
  | [] => none
  | first :: rest =>
      if first ≤ 0x7f then some (1, first.toNat)
      else if 0xc2 ≤ first ∧ first ≤ 0xdf then
        match rest with
        | b1 :: _ =>
            if !isContinuation b1 then none
            else some (2, (first &&& 0x1f).toNat <<< 6 ||| (b1 &&& 0x3f).toNat)
        | _ => none
      else if 0xe0 ≤ first ∧ first ≤ 0xef then
        match rest with
        | b1 :: b2 :: _ =>
            if !isContinuation b1 || !isContinuation b2 then none
            -- Overlong forms and surrogates.
            else if (first = 0xe0 && b1 < 0xa0) || (first = 0xed && 0xa0 ≤ b1) then none
            else some (3, (first &&& 0x0f).toNat <<< 12 ||| (b1 &&& 0x3f).toNat <<< 6 |||
              (b2 &&& 0x3f).toNat)
        | _ => none
      else if 0xf0 ≤ first ∧ first ≤ 0xf4 then
        match rest with
        | b1 :: b2 :: b3 :: _ =>
            if !isContinuation b1 || !isContinuation b2 || !isContinuation b3 then none
            else if (first = 0xf0 && b1 < 0x90) || (first = 0xf4 && 0x8f < b1) then none
            else some (4, (first &&& 0x07).toNat <<< 18 ||| (b1 &&& 0x3f).toNat <<< 12 |||
              (b2 &&& 0x3f).toNat <<< 6 ||| (b3 &&& 0x3f).toNat)
        | _ => none
      else none

/-- The loop of `terminal_text_utf8_valid`. Every round consumes at least one
byte, so the length of the input bounds the rounds. -/
def utf8ValidFrom : Nat → Bytes → Bool
  | _, [] => true
  | 0, _ => false
  | rounds + 1, input =>
      match decodeUtf8 input with
      | none => false
      | some (consumed, _) => utf8ValidFrom rounds (input.drop consumed)

def terminalTextUtf8Valid (input : Bytes) : Bool := utf8ValidFrom input.length input

/-- Bytes `terminal_text_sanitize` keeps: printable ASCII, CR, LF and TAB. -/
def textByteSafe (ch : UInt8) : Bool := (32 ≤ ch && ch ≤ 126) || ch = 13 || ch = 10 || ch = 9

/-- The text left in an output buffer of `outputSize` bytes. -/
def terminalTextSanitize (input : Bytes) (outputSize : Nat) : Bytes :=
  (input.take (outputSize - 1)).map fun ch => if textByteSafe ch then ch else 63

/-- Controls with a use in text stay; other controls, line and paragraph separators and
the bidi embedding, override and isolate controls do not. -/
def codepointSafe (codepoint : Nat) : Bool :=
  if codepoint = 13 ∨ codepoint = 10 ∨ codepoint = 9 then true
  else if codepoint < 0x20 ∨ (0x7f ≤ codepoint ∧ codepoint ≤ 0x9f) then false
  else if codepoint = 0x2028 ∨ codepoint = 0x2029 then false
  else if (0x202a ≤ codepoint ∧ codepoint ≤ 0x202e) ∨ (0x2066 ≤ codepoint ∧ codepoint ≤ 0x2069) then
    false
  else true

/-- The loop of `terminal_text_sanitize_utf8`, with what it has written so far. Every
round consumes at least one byte. -/
def sanitizeUtf8From (outputSize : Nat) : Nat → Bytes → Bytes → Bytes
  | _, written, [] => written
  | 0, written, _ => written
  | rounds + 1, written, input =>
      if ¬ written.length + 1 < outputSize then written
      else
        match decodeUtf8 input with
        -- Go on with the next byte, whatever the malformed sequence was meant to be.
        | none => sanitizeUtf8From outputSize rounds (written ++ [63]) (input.drop 1)
        | some (consumed, codepoint) =>
            if !codepointSafe codepoint then
              sanitizeUtf8From outputSize rounds (written ++ [63]) (input.drop consumed)
            else if outputSize ≤ written.length + consumed then written
            else
              sanitizeUtf8From outputSize rounds (written ++ input.take consumed)
                (input.drop consumed)

/-- What it returns, and the output buffer. The input may be NULL. -/
def terminalTextSanitizeUtf8 {outputSize : Nat} (input : Option Bytes)
    (output : Buffer outputSize) : Nat × Buffer outputSize :=
  if outputSize = 0 then (0, output)
  else
    match input with
    | none => (0, output.set 0 0)
    | some input =>
        let written := sanitizeUtf8From outputSize input.length [] input
        (written.length, output.copyString written)

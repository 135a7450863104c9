-- SUMMARY: The Telnet byte grammar: tokens, their encoding, the incremental parser, and that parsing undoes encoding.
import Mathlib.Data.List.Basic
import Mathlib.Data.UInt

/-!
# The Telnet grammar

A Telnet stream is a sequence of data bytes, two-byte commands, option commands
and subnegotiations. Byte 255 (IAC) introduces a command and stands for itself
when doubled. The parser takes one byte at a time and has no size limit.
-/

namespace TelnetGrammar

abbrev iac : UInt8 := 255
abbrev sb : UInt8 := 250
abbrev se : UInt8 := 240

/-- WILL, WONT, DO, DONT. -/
inductive Verb where
  | will
  | wont
  | do_
  | dont
deriving DecidableEq, Repr

def Verb.code : Verb → UInt8
  | will => 251
  | wont => 252
  | do_ => 253
  | dont => 254

def verb? (b : UInt8) : Option Verb :=
  if b = 251 then some .will
  else if b = 252 then some .wont
  else if b = 253 then some .do_
  else if b = 254 then some .dont
  else none

theorem verb?_code (v : Verb) : verb? v.code = some v := by
  cases v <;> decide

inductive Token where
  | data (b : UInt8)
  | command (c : UInt8)
  | option (v : Verb) (o : UInt8)
  | subnegotiation (o : UInt8) (payload : List UInt8)
deriving DecidableEq, Repr

/-- A command byte that is complete on its own. -/
def plainCommand (c : UInt8) : Bool := c ≠ iac && c ≠ sb && (verb? c).isNone

def Token.WellFormed : Token → Prop
  | command c => plainCommand c = true
  | _ => True

/-- A byte of data or of a payload on the wire. -/
def quote (b : UInt8) : List UInt8 := if b = iac then [iac, iac] else [b]

def Token.encode : Token → List UInt8
  | data b => quote b
  | command c => [iac, c]
  | option v o => [iac, v.code, o]
  | subnegotiation o payload => [iac, sb, o] ++ payload.flatMap quote ++ [iac, se]

/-! ## The parser -/

inductive State where
  | data
  | iac
  | option (v : Verb)
  | sbOption
  | sbData (o : UInt8) (payload : List UInt8)
  | sbIac (o : UInt8) (payload : List UInt8)
deriving DecidableEq, Repr

/-- One byte: the next state and the token it completes. A byte that is neither
IAC nor SE after an IAC in a subnegotiation is dropped with that IAC. -/
def step : State → UInt8 → State × Option Token
  | .data, b => if b = iac then (.iac, none) else (.data, some (.data b))
  | .iac, b =>
      if b = iac then (.data, some (.data iac))
      else match verb? b with
        | some v => (.option v, none)
        | none => if b = sb then (.sbOption, none) else (.data, some (.command b))
  | .option v, b => (.data, some (.option v b))
  | .sbOption, b => (.sbData b [], none)
  | .sbData o payload, b =>
      if b = iac then (.sbIac o payload, none) else (.sbData o (payload ++ [b]), none)
  | .sbIac o payload, b =>
      if b = se then (.data, some (.subnegotiation o payload))
      else if b = iac then (.sbData o (payload ++ [iac]), none)
      else (.sbData o payload, none)

def parse : State → List UInt8 → State × List Token
  | s, [] => (s, [])
  | s, b :: rest =>
      let (s', token) := step s b
      let (s'', tokens) := parse s' rest
      (s'', token.toList ++ tokens)

@[simp] theorem parse_nil (s : State) : parse s [] = (s, []) := rfl

theorem parse_cons (s : State) (b : UInt8) (rest : List UInt8) :
    parse s (b :: rest) = ((parse (step s b).1 rest).1,
      (step s b).2.toList ++ (parse (step s b).1 rest).2) := rfl

theorem parse_append (s : State) (a b : List UInt8) :
    parse s (a ++ b) = ((parse (parse s a).1 b).1, (parse s a).2 ++ (parse (parse s a).1 b).2) := by
  induction a generalizing s with
  | nil => simp
  | cons x a ih => simp [parse_cons, ih]

theorem parse_quote_payload (o : UInt8) (payload rest : List UInt8) :
    parse (.sbData o payload) (rest.flatMap quote) = (.sbData o (payload ++ rest), []) := by
  induction rest generalizing payload with
  | nil => simp
  | cons b rest ih =>
    by_cases hb : b = iac
    · subst hb
      simp [quote, parse_cons, step, ih, show iac ≠ se by decide]
    · simp [quote, hb, parse_cons, step, ih]

theorem parse_encode {t : Token} (h : t.WellFormed) : parse .data t.encode = (.data, [t]) := by
  cases t with
  | data b =>
    by_cases hb : b = iac
    · subst hb
      rfl
    · simp [Token.encode, quote, hb, parse_cons, step]
  | command c =>
    have hplain : plainCommand c = true := h
    simp only [plainCommand, Bool.and_eq_true, decide_eq_true_eq, Option.isNone_iff_eq_none]
      at hplain
    obtain ⟨⟨hiac, hsb⟩, hverb⟩ := hplain
    simp [Token.encode, parse_cons, step, hiac, hsb, hverb]
  | option v o =>
    have hiac : v.code ≠ iac := by cases v <;> decide
    simp [Token.encode, parse_cons, step, verb?_code, hiac]
  | subnegotiation o payload =>
    have hopen : parse .data [iac, sb, o] = (.sbData o [], []) := by
      simp [parse_cons, step, show sb ≠ iac by decide, show verb? sb = none by decide]
    have hclose : parse (.sbData o payload) [iac, se] =
        (.data, [.subnegotiation o payload]) := by
      simp [parse_cons, step]
    simp only [Token.encode, parse_append, hopen, parse_quote_payload, List.nil_append, hclose]

/-- Parsing undoes encoding, and ends outside any frame. -/
theorem parse_encodes {tokens : List Token} (h : ∀ t ∈ tokens, t.WellFormed) :
    parse .data (tokens.flatMap Token.encode) = (.data, tokens) := by
  induction tokens with
  | nil => rfl
  | cons t tokens ih =>
    have ht := parse_encode (h t (by simp))
    have hrest := ih fun t ht => h t (by simp [ht])
    simp [parse_append, ht, hrest]

end TelnetGrammar

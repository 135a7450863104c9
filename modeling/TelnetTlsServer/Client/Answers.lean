-- SUMMARY: What the development client sends over a whole run: the typed text, unchanged, and a bounded number of answers to what the server asks.
import TelnetTlsServer.Client.Pairing

/-!
# What the client sends

The server is arbitrary here. Whatever it sends, the text that the client sends is the
text that was typed: an answer is never text, so that no server can make the client type,
and no typed byte is lost or taken for a command. How many answers there are is bounded by
what they answer.
-/

open TelnetGrammar (Token ahead)

namespace ClientState

variable {σ : Type} {host : ClientHost σ} {c m c' : ClientState σ} {s : TelnetGrammar.State}

/-- How many commands and subnegotiations a token is answered with at most. -/
def answersTo (t : Token) : Nat := if t.negotiation?.isSome then 3 else provoked t

/-- The plain tokens that are sent are `text`, and at most `n` others are. -/
def Sends (text : Bytes) (n : Nat) (c c' : ClientState σ) : Prop :=
  ∃ tokens : List Token, (∀ t ∈ tokens, t.WellFormed) ∧
    c'.sent = c.sent ++ tokens.flatMap Token.encode ∧
    tokens.filter Token.isPlain = text.map .data ∧
    tokens.countP (fun t => !t.isPlain) ≤ n

namespace Sends

variable {text text' : Bytes} {n n' : Nat}

theorem refl (c : ClientState σ) : Sends [] 0 c c := ⟨[], by simp, by simp, rfl, le_rfl⟩

theorem trans (h : Sends text n c m) (h' : Sends text' n' m c') :
    Sends (text ++ text') (n + n') c c' := by
  obtain ⟨tokens, hwell, hsent, htext, hcount⟩ := h
  obtain ⟨tokens', hwell', hsent', htext', hcount'⟩ := h'
  refine ⟨tokens ++ tokens', fun t ht => ?_, ?_, ?_, ?_⟩
  · exact (List.mem_append.mp ht).elim (hwell t) (hwell' t)
  · rw [hsent', hsent, List.append_assoc, List.flatMap_append]
  · rw [List.filter_append, htext, htext', List.map_append]
  · rw [List.countP_append]
    exact Nat.add_le_add hcount hcount'

/-- Tokens none of which is text. -/
theorem answers {tokens : List Token} (hplain : ∀ t ∈ tokens, t.isPlain = false)
    (hcount : tokens.length ≤ n) (hsent : c'.sent = c.sent ++ tokens.flatMap Token.encode) :
    Sends [] n c c' := by
  refine ⟨tokens, fun t ht => Token.wellFormed_of_isPlain (hplain t ht), hsent, ?_,
    List.countP_le_length.trans hcount⟩
  exact List.filter_eq_nil_iff.mpr fun t ht => by simp [hplain t ht]

theorem ofReplies (h : c.Replies host n c') : Sends [] n c c' := by
  obtain ⟨tokens, hkind, hcount, hsent⟩ := h.tokens
  exact answers (fun t ht => Token.isPlain_of_isSubnegotiation (hkind t ht)) hcount hsent

/-- One command at most answers a command, with two reports. -/
theorem ofHears {direction : TelnetQDirection} {sign : Bool} {option : UInt8}
    (h : Hears host (signCommand direction sign) option c c') : Sends [] 3 c c' := by
  obtain ⟨answered, reports, hanswered, hcommands, hreports, htwo, hsent⟩ := h.tokens
  have hone : answered.length ≤ 1 := by
    have hlength := congrArg List.length hcommands
    rw [TelnetGrammar.negotiations, List.length_filterMap_eq_countP,
      List.countP_eq_length.mpr hanswered,
      (telnetQReceive_actsAs c.options direction sign option qAcceptCallback).sent,
      List.length_map] at hlength
    rw [hlength]
    exact Option.length_toList_le
  refine answers (fun t ht => ?_) ?_ hsent
  · exact (List.mem_append.mp ht).elim (fun ht => Token.isPlain_of_negotiation? (hanswered t ht))
      fun ht => Token.isPlain_of_isSubnegotiation (hreports t ht)
  · rw [List.length_append]
    omega

theorem ofText (h : c'.sent = c.sent ++ (text.map Token.data).flatMap Token.encode) :
    Sends text 0 c c' := by
  have hplain : ∀ t ∈ text.map Token.data, t.isPlain = true := by
    intro t ht
    obtain ⟨b, -, rfl⟩ := List.mem_map.mp ht
    rfl
  refine ⟨text.map .data, wellFormed_data, h, List.filter_eq_self.mpr hplain, ?_⟩
  exact (List.countP_eq_zero.mpr fun t ht => by simp [hplain t ht]).le

theorem mono (h : Sends text n c c') (hle : n ≤ n') : Sends text n' c c' := by
  obtain ⟨tokens, hwell, hsent, htext, hcount⟩ := h
  exact ⟨tokens, hwell, hsent, htext, hcount.trans hle⟩

end Sends

/-! ## What the server sends -/

theorem provoked_le (t : Token) : provoked t ≤ answersTo t := by
  unfold answersTo
  split
  · unfold provoked
    split <;> decide
  · exact le_rfl

theorem sends_processServerBytes (hat : c.At s) (hlive : c.writeFailed = false) {bytes : Bytes}
    (hok : (c.processServerBytes host bytes).1 = true) :
    (c.processServerBytes host bytes).2.At (TelnetGrammar.parse s bytes).1 ∧
      (c.processServerBytes host bytes).2.writeFailed = false ∧
      Sends [] ((ahead s bytes).map answersTo).sum c (c.processServerBytes host bytes).2 := by
  induction bytes generalizing c s with
  | nil => exact ⟨hat, hlive, .refl c⟩
  | cons byte rest ih =>
    rw [processServerBytes, andThen] at hok ⊢
    split at hok
    case isFalse hfailed => exact absurd hok hfailed
    case isTrue hfirst =>
      obtain ⟨hat', hlive', hcases⟩ := (reads_processServerByte host hat hlive byte).went hfirst
      have hsends : Sends [] ((TelnetGrammar.step s byte).2.toList.map answersTo).sum c
          (c.processServerByte host byte).2 := by
        rcases hcases with ⟨direction, sign, hstep, hhears⟩ | ⟨-, hreplies⟩
        · rw [hstep]
          exact .ofHears hhears
        · refine (Sends.ofReplies hreplies).mono ?_
          cases (TelnetGrammar.step s byte).2 with
          | none => exact le_rfl
          | some t => exact provoked_le t
      obtain ⟨hatLast, hliveLast, hrest⟩ := ih hat' hlive' hok
      rw [if_pos hfirst, TelnetGrammar.ahead_cons, List.map_append, List.sum_append]
      exact ⟨hatLast, hliveLast, hsends.trans hrest⟩

/-! ## The loop -/

/-- The loop up to its end, and whether no call ended it. -/
def handleInputs (host : ClientHost σ) (c : ClientState σ) : List Input → Bool × ClientState σ
  | [] => (true, c)
  | input :: rest => andThen (c.handleInput host input) fun c => handleInputs host c rest

theorem sent_finish (c : ClientState σ) : (c.finish host).sent = c.sent := by
  obtain ⟨world, echo, heq⟩ := finish_eq host c
  rw [heq]

theorem run_eq (c : ClientState σ) (inputs : List Input) :
    c.run host inputs = (c.handleInputs host inputs).2.finish host := by
  induction inputs generalizing c with
  | nil => rfl
  | cons input rest ih =>
    rw [run, handleInputs, andThen]
    cases hok : (c.handleInput host input).1 with
    | false => simp [hok]
    | true => simp [hok, ih]

def Input.text : Input → Bytes
  | typed input => typedText input
  | windowChanged | received _ => []

def Input.bytes : Input → Bytes
  | received data => data
  | windowChanged | typed _ => []

theorem sends_handleInput (hat : c.At s) (hlive : c.writeFailed = false) {input : Input}
    (hshort : ∀ typed, input = .typed typed → typed.length ≤ Pairing.terminalReadMax)
    (hok : (c.handleInput host input).1 = true) :
    (c.handleInput host input).2.At (TelnetGrammar.parse s input.bytes).1 ∧
      (c.handleInput host input).2.writeFailed = false ∧
      Sends input.text ([input].count .windowChanged + ((ahead s input.bytes).map answersTo).sum) c
        (c.handleInput host input).2 := by
  have hkept : ∀ {result : Bool × ClientState σ}, result.2.voice = c.voice →
      result.2.At s ∧ result.2.writeFailed = false := fun hvoice =>
    ⟨at_of_voice hvoice hat, (congrArg Voice.writeFailed hvoice).trans hlive⟩
  cases input with
  | windowChanged =>
    have hremarks : Remarks host 1 c (c.sendWindowSize host) := remarks_sendWindowSize c
    obtain ⟨hat', hlive'⟩ := hkept (hremarks.utters.voice hok)
    exact ⟨hat', hlive', .ofReplies (hremarks.replies hok)⟩
  | typed input =>
    obtain ⟨hvoice, hsent⟩ := (posts_sendTerminalInput c (hshort input rfl)).went hok
    obtain ⟨hat', hlive'⟩ := hkept hvoice
    exact ⟨hat', hlive', .ofText hsent⟩
  | received data =>
    obtain ⟨hat', hlive', hsends⟩ := sends_processServerBytes hat hlive hok
    exact ⟨hat', hlive', hsends.mono (Nat.le_add_left _ _)⟩

theorem sends_handleInputs (hat : c.At s) (hlive : c.writeFailed = false) {inputs : List Input}
    (hshort : ∀ typed, .typed typed ∈ inputs → typed.length ≤ Pairing.terminalReadMax)
    (hok : (c.handleInputs host inputs).1 = true) :
    Sends (inputs.flatMap Input.text) (inputs.count .windowChanged +
      ((ahead s (inputs.flatMap Input.bytes)).map answersTo).sum) c
      (c.handleInputs host inputs).2 := by
  induction inputs generalizing c s with
  | nil => exact .refl c
  | cons input rest ih =>
    rw [handleInputs, andThen] at hok ⊢
    split at hok
    case isFalse hfailed => exact absurd hok hfailed
    case isTrue hfirst =>
      obtain ⟨hat', hlive', hsends⟩ := sends_handleInput hat hlive
        (fun typed htyped => hshort typed (htyped ▸ List.mem_cons_self)) hfirst
      have hrest := ih hat' hlive'
        (fun typed htyped => hshort typed (List.mem_cons_of_mem _ htyped)) hok
      have hahead : ahead s (input.bytes ++ rest.flatMap Input.bytes) = ahead s input.bytes ++
          ahead (TelnetGrammar.parse s input.bytes).1 (rest.flatMap Input.bytes) :=
        congrArg Prod.snd (TelnetGrammar.parse_append _ _ _)
      rw [if_pos hfirst, List.flatMap_cons, List.flatMap_cons, hahead, List.map_append,
        List.sum_append]
      refine (hsends.trans hrest).mono (le_of_eq ?_)
      rw [show input :: rest = [input] ++ rest from rfl, List.count_append]
      omega

/-- Whatever a server sends, as long as the client goes on: the text it has sent is the
text that was typed, each line ended by CR LF, and nothing else; and what it has sent
besides is bounded by the window changes and the option commands and probes it has read. -/
theorem typed_text_intact (host : ClientHost σ) (world : σ) (savedTerminal : Option Termios)
    {inputs : List Input}
    (hshort : ∀ typed, .typed typed ∈ inputs → typed.length ≤ Pairing.terminalReadMax)
    (hran : ((initial world savedTerminal).handleInputs host inputs).1 = true) :
    ∃ tokens, TelnetGrammar.parse .data ((initial world savedTerminal).run host inputs).sent =
        (.data, tokens) ∧
      tokens.filter Token.isPlain = (inputs.flatMap Input.text).map .data ∧
      tokens.countP (fun t => !t.isPlain) ≤ inputs.count .windowChanged +
        ((ahead .data (inputs.flatMap Input.bytes)).map answersTo).sum := by
  have hat : (initial world savedTerminal).At .data := rfl
  obtain ⟨tokens, hwell, hsent, htext, hcount⟩ := sends_handleInputs hat rfl hshort hran
  refine ⟨tokens, ?_, htext, hcount⟩
  rw [run_eq, sent_finish, hsent]
  exact TelnetGrammar.parse_encodes hwell

/-- A terminal type is asked for, a line is typed and the window is resized. -/
theorem typed_text_intact_asked : ∃ tokens, TelnetGrammar.parse .data
      ((initial Pairing.echoing none).run Pairing.plainHost
        [.received [255, 253, 24, 255, 250, 24, 1, 255, 240], .typed (ascii "look\n"),
          .windowChanged]).sent = (.data, tokens) ∧
    tokens.filter Token.isPlain = (ascii "look\r\n").map .data ∧
    tokens.countP (fun t => !t.isPlain) ≤ 5 := by
  refine typed_text_intact Pairing.plainHost Pairing.echoing none (fun typed htyped => ?_)
    (by decide +kernel)
  obtain rfl : typed = ascii "look\n" := by simpa using htyped
  decide

end ClientState

-- SUMMARY: Everything one action can do to the link and the account of a session, by the handler that does it.
import TelnetTlsServer.Session.Conduct
import TelnetTlsServer.Session.Invariant

/-!
# Steps

`StepTo` lists what an action of a session is: which handler it runs, and the
link and the account fields that handler leaves. The parser and the line editor
are behind it; a result about links and accounts goes by the cases of `StepTo`
and uses one lemma for each handler.
-/

namespace Conn

variable {β α : Type}

/-- The action ends a subnegotiation, whose payload then goes to a handler. -/
def finishes (c : Conn β α) : Action → Bool
  | .byte byte _ => !c.closed && decide (c.parsing.parser = .sbIac) && byte == Telnet.se
  | _ => false

/-- The link and the account after an action. -/
inductive StepTo (host : Host β α) (c : Conn β α) : Action → Link α → Dialogue β → Prop where
  /-- The action only edits the line or moves the parser. -/
  | still {action : Action} (hpayload : c.finishes action = false) :
      StepTo host c action c.link c.dialogue
  | start (hstarted : c.started = false) : StepTo host c .start (c.start host).link c.dialogue
  | poll : StepTo host c .poll (c.poll host).2.link c.dialogue
  | byteFlood : StepTo host c .byteFlood
      (c.link.requestClose "byte_flood" (some (ascii "Input rate limit exceeded.\r\n"))) c.dialogue
  | areYouThere {byte : UInt8} {nowMs : UInt64} (hpayload : c.finishes (.byte byte nowMs) = false) :
      StepTo host c (.byte byte nowMs)
        (c.say "\r\n[Server is here]\r\n").writeCurrentPrompt.link c.dialogue
  | interrupt {byte : UInt8} {nowMs : UInt64} (hpayload : c.finishes (.byte byte nowMs) = false) :
      StepTo host c (.byte byte nowMs) c.interruptCurrentInput.link c.dialogue.interrupt
  | violation {byte : UInt8} {nowMs : UInt64} (hpayload : c.finishes (.byte byte nowMs) = false) {detail : String}
      (hdetail : ascii detail ≠ Event.closing) :
      StepTo host c (.byte byte nowMs) (c.link.noteProtocolViolation detail) c.dialogue
  | payloadFull {byte : UInt8} {nowMs : UInt64} (hpayload : c.finishes (.byte byte nowMs) = false) :
      StepTo host c (.byte byte nowMs) (c.link.requestClose "telnet_subnegotiation_overflow"
        (some (ascii "Protocol error.\r\n"))) c.dialogue
  | option (byte : UInt8) (nowMs : UInt64) (hopen : c.closed = false)
      (hparser : c.parsing.parser = .option) :
      StepTo host c (.byte byte nowMs) (c.link.receiveTelnetOption host.application
        c.parsing.pendingTelnetCommand byte) c.dialogue
  | subnegotiation (nowMs : UInt64) (hopen : c.closed = false)
      (hparser : c.parsing.parser = .sbIac) :
      StepTo host c (.byte Telnet.se nowMs) (c.link.finishSubnegotiation host.application
        c.parsing.subnegotiationOption c.parsing.subnegotiation) c.dialogue
  | line (nowMs : UInt64) (hopen : c.closed = false) (hparser : c.parsing.parser = .data) :
      StepTo host c (.byte 10 nowMs)
        ({ c with input.pendingCr := false }.processCompleteLine host nowMs).link
        ({ c with input.pendingCr := false }.processCompleteLine host nowMs).dialogue

theorem dialogue_writeCurrentPrompt (c : Conn β α) : c.writeCurrentPrompt.dialogue = c.dialogue :=
  congrArg Dialogue.Reply.dialogue (writeCurrentPrompt_account c)

section Bytes

variable (host : Host β α) (c : Conn β α) (byte : UInt8) (nowMs : UInt64)

/-- A byte other than LF is appended to the line or ignored. -/
theorem receiveDataByte_of_ne (hbyte : byte ≠ 10) :
    (c.receiveDataByte host byte nowMs).link = c.link ∧
      (c.receiveDataByte host byte nowMs).dialogue = c.dialogue := by
  have hplain : ∀ c : Conn β α, (c.receivePlainByte host byte nowMs).link = c.link ∧
      (c.receivePlainByte host byte nowMs).dialogue = c.dialogue := by
    intro c
    unfold receivePlainByte
    split_ifs
    · exact ⟨rfl, rfl⟩
    · exact ⟨rfl, rfl⟩
    · exact ⟨rfl, rfl⟩
  unfold receiveDataByte
  dsimp only
  split_ifs
  · exact ⟨rfl, rfl⟩
  · exact hplain _
  · exact hplain c

theorem not_finishes_of_state {c : Conn β α} {byte : UInt8} {nowMs : UInt64}
    (h : c.parsing.parser ≠ .sbIac) : c.finishes (.byte byte nowMs) = false := by
  simp [finishes, h]

theorem not_finishes_of_byte {c : Conn β α} {byte : UInt8} {nowMs : UInt64} (h : byte ≠ Telnet.se) :
    c.finishes (.byte byte nowMs) = false := by
  simp [finishes, h]

section Payload

variable (hpayload : c.finishes (.byte byte nowMs) = false)
include hpayload

theorem stepTo_handleControlCommand (command : UInt8) :
    StepTo host c (.byte byte nowMs) (c.handleControlCommand command).link
      (c.handleControlCommand command).dialogue := by
  unfold handleControlCommand
  split_ifs
  · rw [dialogue_writeCurrentPrompt]
    exact .areYouThere hpayload
  · rw [show c.interruptCurrentInput.dialogue = c.dialogue.interrupt from
      congrArg Dialogue.Reply.dialogue (interruptCurrentInput_account c)]
    exact .interrupt hpayload
  · exact .still hpayload
  · exact .still hpayload
  · exact .violation hpayload (by decide)
  · exact .still hpayload

theorem stepTo_pushPayload (b : UInt8) (parser : ParserState) :
    StepTo host c (.byte byte nowMs) (c.pushPayload b parser).link
      (c.pushPayload b parser).dialogue := by
  unfold pushPayload
  split
  · exact .payloadFull hpayload
  · exact .still hpayload

end Payload

theorem stepTo_feedByte (hopen : c.closed = false) :
    StepTo host c (.byte byte nowMs) (c.feedByte host byte nowMs).link
      (c.feedByte host byte nowMs).dialogue := by
  unfold feedByte
  split
  case h_1 hparser =>
    have hpayload : c.finishes (.byte byte nowMs) = false :=
      not_finishes_of_state (by rw [hparser]; decide)
    split_ifs
    · exact .still hpayload
    · by_cases hlf : byte = 10
      · subst hlf
        rw [receiveDataByte_lf]
        exact .line nowMs hopen hparser
      · obtain ⟨hlink, hdialogue⟩ := receiveDataByte_of_ne host c byte nowMs hlf
        rw [hlink, hdialogue]
        exact .still hpayload
  case h_2 hparser =>
    have hpayload : c.finishes (.byte byte nowMs) = false :=
      not_finishes_of_state (by rw [hparser]; decide)
    split_ifs
    · obtain ⟨hlink, hdialogue⟩ := receiveDataByte_of_ne host c Telnet.iac nowMs (by decide)
      change StepTo host c _ (c.receiveDataByte host Telnet.iac nowMs).link
        (c.receiveDataByte host Telnet.iac nowMs).dialogue
      rw [hlink, hdialogue]
      exact .still hpayload
    · exact .still hpayload
    · exact .still hpayload
    · exact stepTo_handleControlCommand host c byte nowMs hpayload byte
  case h_3 hparser => exact .option byte nowMs hopen hparser
  case h_4 hparser => exact .still (not_finishes_of_state (by rw [hparser]; decide))
  case h_5 hparser =>
    have hpayload : c.finishes (.byte byte nowMs) = false :=
      not_finishes_of_state (by rw [hparser]; decide)
    split_ifs
    · exact .still hpayload
    · exact stepTo_pushPayload host c byte nowMs hpayload byte .sbData
  case h_6 hparser =>
    split_ifs with hse
    · subst hse
      exact .subnegotiation nowMs hopen hparser
    · exact stepTo_pushPayload host c byte nowMs (not_finishes_of_byte hse) Telnet.iac .sbData
    · exact .violation (not_finishes_of_byte hse) (by decide)

end Bytes

theorem stepTo_act (host : Host β α) (c : Conn β α) (action : Action) :
    StepTo host c action (c.act host action).link (c.act host action).dialogue := by
  cases action with
  | start =>
    simp only [act]
    have hdialogue : (c.start host).dialogue = c.dialogue :=
      congrArg Dialogue.Reply.dialogue (start_account host c)
    rw [hdialogue]
    by_cases hstarted : c.started = true
    · rw [show (c.start host) = c from if_pos hstarted]
      exact .still rfl
    · exact .start (Bool.not_eq_true _ ▸ hstarted)
  | poll =>
    have hdialogue : (c.poll host).2.dialogue = c.dialogue :=
      congrArg Dialogue.Reply.dialogue (poll_account host c)
    simp only [act]
    rw [hdialogue]
    exact .poll
  | byteFlood => exact .byteFlood
  | byte byte nowMs =>
    simp only [act]
    split
    case isTrue hclosed => exact .still (by simp [finishes, hclosed])
    case isFalse hclosed =>
      exact stepTo_feedByte host c byte nowMs (Bool.not_eq_true _ ▸ hclosed)

theorem exists_stepTo (host : Host β α) (c : Conn β α) (action : Action) :
    ∃ link dialogue, StepTo host c action link dialogue ∧
      (c.act host action).link = link ∧ (c.act host action).dialogue = dialogue :=
  ⟨_, _, stepTo_act host c action, rfl, rfl⟩

theorem closed_of_finishes {c : Conn β α} {action : Action} (h : c.finishes action = true) :
    c.closed = false := by
  cases action with
  | byte byte nowMs =>
    simp only [finishes, Bool.and_eq_true, Bool.not_eq_true'] at h
    exact h.1.1
  | start | poll | byteFlood => cases h

theorem link_act_of_finishes (host : Host β α) {c : Conn β α} {action : Action}
    (h : c.finishes action = true) :
    (c.act host action).link = c.link.finishSubnegotiation host.application
      c.parsing.subnegotiationOption c.parsing.subnegotiation := by
  cases action with
  | byte byte nowMs =>
    simp only [finishes, Bool.and_eq_true, decide_eq_true_eq, beq_iff_eq, Bool.not_eq_true'] at h
    obtain ⟨⟨hopen, hparser⟩, rfl⟩ := h
    simp [act, hopen, feedByte, hparser, onLink]
  | start | poll | byteFlood => cases h

/-! ## What a step does to the account -/

/-- The action completes a line, not too fast, with the given text. -/
structure Reads (c : Conn β α) (action : Action) (nowMs : UInt64) (t : Typing) : Prop where
  action_eq : action = .byte 10 nowMs
  isOpen : c.closed = false
  parser : c.parsing.parser = .data
  accepted : (rateConsume c.lineWindow 1 inputLinesPerWindow inputLinesWindowMs nowMs).1 = true
  holds : c.input.Holds t

/-- What an action does to the account, with the calls it makes. -/
inductive Handles (host : Host β α) (c : Conn β α) (action : Action) :
    List GatedCall → Dialogue β → Prop where
  | idle : Handles host c action [] c.dialogue
  | interrupted : Handles host c action [] c.dialogue.interrupt
  | read {nowMs : UInt64} {t : Typing} (h : c.Reads action nowMs t) :
      Handles host c action (c.dialogue.complete host t nowMs).calls
        (c.dialogue.complete host t nowMs).dialogue

theorem exists_handles (host : Host β α) {c : Conn β α} (h : c.Good) (action : Action) :
    ∃ made dialogue, Handles host c action made dialogue ∧
      (c.act host action).calls = c.calls ++ made ∧ (c.act host action).dialogue = dialogue := by
  obtain ⟨link, dialogue, hstep, hlink, hdialogue⟩ := exists_stepTo host c action
  have hcalls : (c.act host action).calls = link.wire.calls := congrArg (·.wire.calls) hlink
  rw [hcalls]
  have hnone : link.wire.calls = c.calls → link.wire.calls = c.calls ++ [] := fun h =>
    h.trans (List.append_nil _).symm
  cases hstep with
  | still => exact ⟨_, _, .idle, hnone rfl, hdialogue⟩
  | start =>
    exact ⟨_, _, .idle, hnone (congrArg Dialogue.Reply.calls (start_account host c)), hdialogue⟩
  | poll =>
    exact ⟨_, _, .idle, hnone (congrArg Dialogue.Reply.calls (poll_account host c)), hdialogue⟩
  | byteFlood =>
    exact ⟨_, _, .idle, (Link.Quiet.requestClose (.refl _) _ _).calls_eq, hdialogue⟩
  | areYouThere =>
    refine ⟨_, _, .idle, hnone ?_, hdialogue⟩
    exact (congrArg Dialogue.Reply.calls (writeCurrentPrompt_account _)).trans (calls_say c _)
  | interrupt =>
    exact ⟨_, _, .interrupted,
      hnone (congrArg Dialogue.Reply.calls (interruptCurrentInput_account c)), hdialogue⟩
  | violation _ hdetail =>
    exact ⟨_, _, .idle, hnone (Link.Noted.violation (.refl _) hdetail).calls, hdialogue⟩
  | payloadFull =>
    exact ⟨_, _, .idle, (Link.Quiet.requestClose (.refl _) _ _).calls_eq, hdialogue⟩
  | option =>
    exact ⟨_, _, .idle, (Link.quiet_receiveTelnetOption _ _ _ _).calls_eq, hdialogue⟩
  | subnegotiation =>
    refine ⟨_, _, .idle, ?_, hdialogue⟩
    rcases Link.finishSubnegotiation_cases host.application c.link _ _ with hnoted | hquiet
    · exact hnone hnoted.calls
    · exact hquiet.calls_eq
  | line nowMs hopen hparser =>
    obtain ⟨t, ht, -⟩ := h.line
    cases haccepted :
      (rateConsume c.lineWindow 1 inputLinesPerWindow inputLinesWindowMs nowMs).1 with
    | false =>
      have haccount := (processCompleteLine_of_refused host { c with input.pendingCr := false }
        haccepted).2
      exact ⟨_, _, .idle, hnone (congrArg Dialogue.Reply.calls haccount),
        hdialogue.trans (congrArg Dialogue.Reply.dialogue haccount)⟩
    | true =>
      have haccount := processCompleteLine_account_of_accepted host
        { c with input.pendingCr := false } (ht.setPendingCr false) haccepted
      exact ⟨_, _, .read ⟨rfl, hopen, hparser, haccepted, ht⟩,
        congrArg Dialogue.Reply.calls haccount,
        hdialogue.trans (congrArg Dialogue.Reply.dialogue haccount)⟩

theorem Reads.account {host : Host β α} {c : Conn β α} {action : Action} {nowMs : UInt64}
    {t : Typing} (h : c.Reads action nowMs t) :
    (c.act host action).account = c.answered (c.dialogue.complete host t nowMs) := by
  obtain ⟨rfl, hopen, hparser, haccepted, ht⟩ := h
  have hact : c.act host (.byte 10 nowMs) =
      { c with input.pendingCr := false }.processCompleteLine host nowMs := by
    rw [← receiveDataByte_lf]
    simp only [act, hopen, feedByte, hparser, Bool.false_eq_true, if_false]
    exact if_neg (by decide)
  rw [hact]
  exact processCompleteLine_account_of_accepted host _ (ht.setPendingCr false) haccepted

end Conn

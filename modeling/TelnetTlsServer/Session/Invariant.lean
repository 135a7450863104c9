-- SUMMARY: The bounds every reachable state of a Telnet session keeps: line buffer, payload, counters, terminal size and names.
import TelnetTlsServer.Session.Refinement

/-!
# Session bounds

`Conn.Good` is the invariant of the byte-by-byte system. A byte is only read
while no close was requested, so fewer violations than the limit were counted
before it, and every handler notes at most one.
-/

/-! ## The link -/

namespace Link

variable {α : Type}

structure Good (l : Link α) : Prop where
  caps : l.caps.Bounded
  violations : l.caps.protocolViolations ≤ protocolViolationLimit
  abuse : l.caps.protocolViolations = protocolViolationLimit → l.wire.closeRequested = true

theorem Good.effect {calls : List GatedCall} {l l' : Link α} (h : l.Good)
    (heffect : Effect calls l l') : l'.Good where
  caps := heffect.keeps.bounded h.caps
  violations := heffect.keeps.violations ▸ h.violations
  abuse hlimit := heffect.closed (h.abuse (heffect.keeps.violations ▸ hlimit))

/-- The last violation that fits the limit closes the session. -/
theorem Good.noteProtocolViolation {l : Link α} (h : l.Good)
    (hroom : l.caps.protocolViolations < protocolViolationLimit) (detail : String) :
    (l.noteProtocolViolation detail).Good := by
  have hcaps : { l.caps with protocolViolations := l.caps.protocolViolations + 1 }.Bounded :=
    { h.caps with }
  unfold Link.noteProtocolViolation
  dsimp only
  split
  case isTrue => exact ⟨hcaps, hroom, fun _ => by simp [Link.requestClose]⟩
  case isFalse hlimit => exact ⟨hcaps, hroom, fun heq => absurd (Nat.le_of_eq heq.symm) hlimit⟩

theorem Good.noted {l l' : Link α} (h : l.Good) (hopen : l.wire.closeRequested = false)
    (hnoted : l.Noted l') : l'.Good := by
  have hroom : l.caps.protocolViolations < protocolViolationLimit := by
    refine Nat.lt_of_le_of_ne h.violations fun heq => ?_
    simp [h.abuse heq] at hopen
  cases hnoted with
  | serves hserves => exact h.effect hserves.quiet
  | violation hserves hdetail =>
    exact (h.effect hserves.quiet).noteProtocolViolation (hserves.keeps.violations ▸ hroom) _

end Link

/-! ## The session -/

namespace Conn

variable {β α : Type}

/-- The buffer holds a line that fits the phase's limit. -/
def LineGood (c : Conn β α) : Prop :=
  ∃ t, c.input.Holds t ∧ t.text.length ≤ LineInput.lineLimit c.dialogue.login

structure Good (c : Conn β α) : Prop where
  line : c.LineGood
  payload : c.parsing.subnegotiation.length ≤ Wire.subnegotiationMaxBytes
  link : c.link.Good

theorem lineGood_of_empty {c : Conn β α} {overflow : Bool} (h : c.input.Holds ⟨[], overflow⟩) :
    c.LineGood :=
  ⟨_, h, Nat.zero_le _⟩

theorem LineGood.of_eq {c c' : Conn β α} (h : c.LineGood) (hinput : c'.input = c.input)
    (haccount : c'.account = c.account) : c'.LineGood := by
  obtain ⟨t, ht, hlimit⟩ := h
  have hdialogue : c'.dialogue = c.dialogue := congrArg Dialogue.Reply.dialogue haccount
  exact ⟨t, hinput ▸ ht, hdialogue ▸ hlimit⟩

theorem Steady.good {c c' : Conn β α} (hsteady : c.Steady c') (h : c.Good) (hline : c'.LineGood) :
    c'.Good := by
  obtain ⟨calls, hlink⟩ := hsteady.link
  exact ⟨hline, hsteady.parsing ▸ h.payload, h.link.effect hlink⟩

namespace Good

variable {c : Conn β α}

theorem setParser (h : c.Good) (parser : ParserState) : (c.setParser parser).Good :=
  ⟨h.line, h.payload, h.link⟩

theorem setPendingCr (h : c.Good) (pending : Bool) :
    Good { c with input.pendingCr := pending } := by
  obtain ⟨t, ht, hlimit⟩ := h.line
  exact ⟨⟨t, ht.setPendingCr pending, hlimit⟩, h.payload, h.link⟩

theorem appendLineByte (h : c.Good) (byte : UInt8) : (c.appendLineByte byte).Good := by
  obtain ⟨t, ht, hlimit⟩ := h.line
  exact ⟨⟨_, ht.appendLineByte c.dialogue.login byte, Typing.text_put_length hlimit byte⟩,
    h.payload, h.link⟩

theorem eraseByte (h : c.Good) : Good { c with input := c.input.eraseByte } := by
  obtain ⟨t, ht, hlimit⟩ := h.line
  refine ⟨⟨_, ht.eraseByte, ?_⟩, h.payload, h.link⟩
  simp only [Typing.erase, List.length_dropLast]
  omega

theorem clear (h : c.Good) : Good { c with input := c.input.clear } :=
  ⟨lineGood_of_empty (.clear c.input), h.payload, h.link⟩

theorem processCompleteLine (h : c.Good) (host : Host β α) (nowMs : UInt64) :
    (c.processCompleteLine host nowMs).Good := by
  refine (Steady.processCompleteLine host c nowMs).good h ?_
  rcases processCompleteLine_holds host c nowMs with hempty | ⟨-, hempty⟩
  · exact lineGood_of_empty hempty
  · exact lineGood_of_empty hempty

theorem receivePlainByte (h : c.Good) (host : Host β α) (byte : UInt8) (nowMs : UInt64) :
    (c.receivePlainByte host byte nowMs).Good := by
  unfold Conn.receivePlainByte
  split_ifs
  · exact h.setPendingCr true
  · exact h.processCompleteLine host nowMs
  · exact h
  · exact h.appendLineByte byte

theorem receiveDataByte (h : c.Good) (host : Host β α) (byte : UInt8) (nowMs : UInt64) :
    (c.receiveDataByte host byte nowMs).Good := by
  have hcr := h.setPendingCr false
  unfold Conn.receiveDataByte
  dsimp only
  split_ifs
  · exact hcr.processCompleteLine host nowMs
  · exact hcr.appendLineByte 13
  · exact (hcr.appendLineByte 13).receivePlainByte host byte nowMs
  · exact h.receivePlainByte host byte nowMs

theorem handleControlCommand (h : c.Good) (hopen : c.closed = false) (host : Host β α)
    (command : UInt8) : (c.handleControlCommand command).Good := by
  unfold Conn.handleControlCommand
  split_ifs
  case pos =>
    have hsteady : c.Steady (c.say "\r\n[Server is here]\r\n").writeCurrentPrompt :=
      (Steady.frame host).writeCurrentPrompt ((Steady.frame host).say (.ofEq rfl rfl) _)
    refine hsteady.good h (h.line.of_eq ?_ ?_)
    · simp [input_writeCurrentPrompt]
    · rw [writeCurrentPrompt_account]
      simp [account]
  · have hempty : c.interruptCurrentInput.input.Holds .empty :=
      input_interruptCurrentInput c ▸ .clear c.input
    exact ((Steady.frame host).interruptCurrentInput c).good h (lineGood_of_empty hempty)
  · exact h.eraseByte
  · exact h.clear
  · exact ⟨h.line, h.payload, h.link.noted hopen (.violation (.refl _) (by decide))⟩
  · exact h

theorem pushPayload (h : c.Good) (byte : UInt8) (parser : ParserState) :
    (c.pushPayload byte parser).Good := by
  unfold Conn.pushPayload
  split
  case isTrue => exact (Steady.requestClose c _ _).good h h.line
  case isFalse hroom =>
    refine ⟨h.line, ?_, h.link⟩
    simp only [List.length_append, List.length_singleton]
    omega

theorem feedByte (h : c.Good) (hopen : c.closed = false) (host : Host β α) (byte : UInt8)
    (nowMs : UInt64) : (c.feedByte host byte nowMs).Good := by
  unfold Conn.feedByte
  split
  case h_1 =>
    split_ifs
    · exact h.setParser .iac
    · exact h.receiveDataByte host byte nowMs
  case h_2 =>
    split_ifs
    · exact (h.receiveDataByte host Telnet.iac nowMs).setParser .data
    · exact ⟨h.line, h.payload, h.link⟩
    · exact h.setParser .sbOption
    · exact (h.handleControlCommand hopen host byte).setParser .data
  case h_3 =>
    exact ⟨h.line, h.payload, h.link.effect (Link.quiet_receiveTelnetOption _ _ _ _)⟩
  case h_4 => exact ⟨h.line, Nat.zero_le _, h.link⟩
  case h_5 =>
    split_ifs
    · exact h.setParser .sbIac
    · exact h.pushPayload byte .sbData
  case h_6 =>
    split_ifs
    · refine ⟨h.line, Nat.zero_le _, ?_⟩
      rcases Link.finishSubnegotiation_cases host.application c.link _ _ with hnoted | hquiet
      · exact h.link.noted hopen hnoted
      · exact h.link.effect hquiet
    · exact h.pushPayload Telnet.iac .sbData
    · exact ⟨h.line, h.payload, h.link.noted hopen (.violation (.refl _) (by decide))⟩

theorem act (h : c.Good) (host : Host β α) (action : Action) : (c.act host action).Good := by
  cases action with
  | start =>
    exact ((Steady.frame host).start c).good h (h.line.of_eq (input_start host c) (start_account host c))
  | poll =>
    exact ((Steady.frame host).poll c).good h (h.line.of_eq (input_poll host c) (poll_account host c))
  | byteFlood => exact (Steady.requestClose c _ _).good h h.line
  | byte byte nowMs =>
    simp only [Conn.act]
    split
    case isTrue => exact h
    case isFalse hopen => exact h.feedByte (Bool.not_eq_true _ ▸ hopen) host byte nowMs

theorem initial (host : Host β α) (backend : β) (app : α) : (Conn.initial host backend app).Good where
  line := lineGood_of_empty .initial
  payload := Nat.zero_le _
  link := ⟨Capability.initial_bounded _, Nat.zero_le _, fun h => by cases h⟩

end Good

theorem good_of_reachable {host : Host β α} {c : Conn β α} (hc : (system host).Reachable c) :
    c.Good := by
  refine hc.invariant (I := Good) ?_ ?_
  · rintro c ⟨backend, app, rfl⟩
    exact .initial host backend app
  · rintro action c c' - h rfl
    exact h.act host action

/-! ## The bounds -/

/-- What the arrays, counters and sizes of a session stay within. -/
structure Bounds (c : Conn β α) : Prop where
  lineLength : c.input.lineLength ≤ 512
  passwordLength : c.dialogue.login.isPassword = true → c.input.lineLength ≤ 128
  typed : ∀ b ∈ c.input.text, 32 ≤ b ∧ b ≠ 127
  strlen : c.input.line.string.length = c.input.lineLength
  /-- Nothing of an earlier line, such as a password, is left behind the text. -/
  zeros : ∀ i, c.input.lineLength ≤ i → i < 513 → c.input.line.bytes[i]? = some 0
  subnegotiation : c.parsing.subnegotiation.length ≤ 4096
  pendingGmcpCore : c.link.caps.pendingGmcpCore.length ≤ 4
  violations : c.link.caps.protocolViolations ≤ 8
  abuse : c.link.caps.protocolViolations = 8 → c.closed = true
  terminalTypeRequests : c.link.caps.terminalTypeRequestsSent ≤ 4
  width : 20 ≤ c.terminal.width ∧ c.terminal.width ≤ 500
  height : 5 ≤ c.terminal.height ∧ c.terminal.height ≤ 200
  names : ∀ name ∈ [c.terminal.terminalType, c.terminal.clientName, c.terminal.clientVersion],
    0 ∈ name.bytes ∧ ∀ b ∈ name.string, 32 ≤ b ∧ b ≤ 126

theorem Good.bounds {c : Conn β α} (h : c.Good) : c.Bounds := by
  obtain ⟨t, ht, hlimit⟩ := h.line
  have hname : ∀ {b : NameBuffer}, PrintableName b →
      0 ∈ b.bytes ∧ ∀ x ∈ b.string, 32 ≤ x ∧ x ≤ 126 := fun hb =>
    ⟨hb.zero_mem, fun x hx => by simpa [isPrintableAscii] using hb.string_printable x hx⟩
  have hcaps := h.link.caps
  refine ⟨?_, ?_, ?_, ?_, ?_, h.payload, hcaps.pendingGmcpCore, h.link.violations, h.link.abuse,
    hcaps.terminalTypeRequests, hcaps.width, hcaps.height, ?_⟩
  · exact ht.length ▸ ht.fits
  · intro hpassword
    rw [LineInput.lineLimit, if_pos hpassword] at hlimit
    exact ht.length ▸ hlimit
  · exact ht.text_eq ▸ ht.typed
  · rw [ht.string_eq, ht.length]
  · intro i hi hsize
    rw [ht.length] at hi
    rw [ht.padded, List.getElem?_append_right hi, List.getElem?_replicate]
    simp only [ite_eq_left_iff, reduceCtorEq, imp_false, not_not]
    omega
  · intro name hmem
    simp only [List.mem_cons, List.not_mem_nil, or_false] at hmem
    rcases hmem with rfl | rfl | rfl
    · exact hname hcaps.terminalType
    · exact hname hcaps.clientName
    · exact hname hcaps.clientVersion

/-- Any bytes, any timestamps, any store, policy and application: the bounds hold
between any two bytes, and so after every public call. -/
theorem session_bounds (host : Host β α) :
    (∀ c, (system host).Reachable c → c.Bounds) ∧
      ∀ s, (TelnetSession.system host).Reachable s → s.conn.Bounds :=
  ⟨fun _ hc => (good_of_reachable hc).bounds,
    fun _ hs => (good_of_reachable (TelnetSession.reachable_conn hs)).bounds⟩

/-- A session in the middle of a line. -/
def midLine : Conn Unit Unit :=
  (Conn.initial .granting () ()).feedBytes .granting 1 (ascii "ab")

theorem session_bounds_midLine : midLine.input.lineLength = 2 ∧ midLine.Bounds :=
  ⟨by decide, (session_bounds .granting).1 midLine
    (reachable_feedBytes (.init ⟨(), (), rfl⟩) 1 (ascii "ab"))⟩

end Conn

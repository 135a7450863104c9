-- SUMMARY: The capability probes a peer reads in the output of a session, and that only the capability handlers send any.
import TelnetTlsServer.Session.Steps

/-!
# Probes

A session asks its peer for the terminal type, for UTF-8 and for its environment,
and sends a snapshot of the server's status. Each of these is a subnegotiation.
What was sent is read off the bytes as the peer reads them: the output parses as
Telnet, and a probe is a token of it.

`Wire.Reads read found w w'` says that the bytes written between two states of the wire
are whole tokens, and what a peer that looks for something finds in them; `Wire.Asks asked`
is this for the probes.
-/

inductive Probe where
  | terminalType
  | charset
  | newEnviron
  | mssp
deriving DecidableEq, Repr

def terminalTypeSendCode : UInt8 := 1

namespace Probe

def option : Probe → UInt8
  | terminalType => Telnet.Opt.terminalType
  | charset => Telnet.Opt.charset
  | newEnviron => Telnet.Opt.newEnviron
  | mssp => Telnet.Opt.mssp

/-- The side of the option that has to be on. -/
def direction : Probe → TelnetQDirection
  | terminalType | newEnviron => .remote
  | charset | mssp => .local_

/-- TERMINAL-TYPE SEND, CHARSET REQUEST, NEW-ENVIRON SEND, or any MSSP message. -/
def ofToken? : TelnetGrammar.Token → Option Probe
  | .subnegotiation option payload =>
      if option = Telnet.Opt.terminalType && payload.head? == some terminalTypeSendCode then
        some .terminalType
      else if option = Telnet.Opt.charset && payload.head? == some charsetRequestCode then
        some .charset
      else if option = Telnet.Opt.newEnviron && payload.head? == some newEnvironSend then
        some .newEnviron
      else if option = Telnet.Opt.mssp then some .mssp
      else none
  | _ => none

end Probe

namespace Wire

variable {α : Type}

/-- The probes a peer has read so far. -/
def asked (w : Wire α) : List Probe :=
  (TelnetGrammar.parse .data w.written).2.filterMap Probe.ofToken?

/-- The output ends outside any frame. -/
def Framed (w : Wire α) : Prop := (TelnetGrammar.parse .data w.written).1 = .data

/-- The tokens written in between, of which a peer looks for some, give it `found`. -/
structure Reads {τ : Type} (read : TelnetGrammar.Token → Option τ) (found : List τ)
    (w w' : Wire α) : Prop where
  tokens : ∃ tokens : List TelnetGrammar.Token, (∀ t ∈ tokens, t.WellFormed) ∧
    w'.written = w.written ++ tokens.flatMap TelnetGrammar.Token.encode ∧
    tokens.filterMap read = found

namespace Reads

variable {τ : Type} {read : TelnetGrammar.Token → Option τ} {found found' : List τ}
  {w w' w'' : Wire α}

/-- Nothing is written that it looks for. -/
theorem ofWrites {P : TelnetGrammar.Token → Prop} (h : w.Writes P w')
    (hread : ∀ t, P t → read t = none) : Reads read [] w w' := by
  obtain ⟨-, tokens, hwell, hwritten, htokens⟩ := h
  exact ⟨tokens, hwell, hwritten,
    List.filterMap_eq_nil_iff.mpr fun t ht => hread t (htokens t ht)⟩

theorem refl (w : Wire α) : Reads read [] w w := ⟨[], by simp, by simp, rfl⟩

theorem trans (h : Reads read found w w') (h' : Reads read found' w' w'') :
    Reads read (found ++ found') w w'' := by
  obtain ⟨tokens, hwell, hwritten, rfl⟩ := h
  obtain ⟨tokens', hwell', hwritten', rfl⟩ := h'
  refine ⟨tokens ++ tokens', fun t ht => ?_, ?_, List.filterMap_append⟩
  · exact (List.mem_append.mp ht).elim (hwell t) (hwell' t)
  · rw [hwritten', hwritten, List.append_assoc, List.flatMap_append]

theorem emit (w : Wire α) (app : α) (e : Event) (he : e.bytes = []) :
    Reads read [] w ({ w with app := app }.emit e) :=
  ofWrites (.emit (P := fun _ => False) w app e he) fun _ => False.elim

theorem sendSubnegotiation (w : Wire α) (option : UInt8) (payload : Bytes) :
    Reads read (if w.closeRequested then [] else (read (.subnegotiation option payload)).toList) w
      (w.sendSubnegotiation option payload) := by
  by_cases hclosed : w.closeRequested = true
  · have hsame := (OutputOp.subnegotiation option payload).apply_closed hclosed
    rw [OutputOp.apply] at hsame
    rw [if_pos hclosed, hsame]
    exact refl w
  · have hopen : w.closeRequested = false := Bool.not_eq_true _ ▸ hclosed
    rw [if_neg hclosed]
    refine ⟨[.subnegotiation option payload], List.forall_mem_singleton.mpr trivial,
      ((OutputOp.subnegotiation option payload).apply_written hopen).2, ?_⟩
    cases h : read (.subnegotiation option payload) <;> simp [h]

end Reads

/-- The probes among the tokens. -/
abbrev Asks (asked : List Probe) : Wire α → Wire α → Prop := Reads Probe.ofToken? asked

namespace Asks

variable {asked : List Probe} {w w' : Wire α}

/-- A peer reads what was asked before, and then what was asked since. -/
theorem asked_eq (h : Asks asked w w') (hframed : w.Framed) :
    w'.Framed ∧ w'.asked = w.asked ++ asked := by
  obtain ⟨tokens, hwell, hwritten, rfl⟩ := h
  have hparse := TelnetGrammar.parse_append .data w.written
    (tokens.flatMap TelnetGrammar.Token.encode)
  rw [hframed, TelnetGrammar.parse_encodes hwell, ← hwritten] at hparse
  exact ⟨congrArg Prod.fst hparse, by simp [Wire.asked, hparse]⟩

/-- An application cannot ask for anything. -/
theorem ofPlain {gmcp : Bool} (h : w.Writes (Plain gmcp) w') : Asks [] w w' :=
  .ofWrites h fun t ht => by cases ht <;> rfl

end Asks

end Wire

/-! ## Outside the capability handlers -/

/-- What a session has asked for and what it has learnt. -/
structure Findings where
  terminalTypeRequestsSent : Nat
  terminalTypeWaiting : Bool
  lastTerminalType : Bytes
  charsetRequestSent : Bool
  charsetUtf8 : Bool
  newEnvironRequested : Bool
  mnesObserved : Bool
  msspSent : Bool
  terminal : TelnetTerminalInfo

def Capability.findings (c : Capability) : Findings :=
  ⟨c.terminalTypeRequestsSent, c.terminalTypeWaiting, c.lastTerminalType, c.charsetRequestSent,
    c.charsetUtf8, c.newEnvironRequested, c.mnesObserved, c.msspSent, c.terminal⟩

/-- Asking for an option does not turn it on. -/
theorem telnetQEnabled_request (q : TelnetQ) (direction : TelnetQDirection) (option : UInt8) :
    telnetQEnabled (telnetQRequest q direction option true).1 direction option =
      telnetQEnabled q direction option := by
  have hset : ∀ side : TelnetQSide,
      telnetQEnabled (q.setSide direction option side) direction option =
        decide (side.state = .yes) := fun side => by simp [telnetQEnabled]
  unfold telnetQRequest
  rcases hside : selectSide q direction option with ⟨state, queued⟩
  have hbefore : telnetQEnabled q direction option = decide (state = .yes) := by
    simp [telnetQEnabled, hside]
  rw [hbefore]
  cases state with
  | no => exact hset _
  | yes => exact hbefore
  | wantNo => cases queued with
    | false => exact hset _
    | true => exact hbefore
  | wantYes => cases queued with
    | false => exact hbefore
    | true => exact hset _

namespace Link

variable {α : Type}

/-- No probe is sent, nothing is learnt and no option goes on or off but the
server's own echo. -/
structure Aside (l l' : Link α) : Prop where
  findings : l'.caps.findings = l.caps.findings
  enabled : ∀ direction option, ¬ (direction = .local_ ∧ option = Telnet.Opt.echo) →
    l'.caps.enabled direction option = l.caps.enabled direction option
  wire : l.wire.Asks [] l'.wire

namespace Aside

variable {l m l' : Link α}

theorem trans (h : l.Aside m) (h' : m.Aside l') : l.Aside l' where
  findings := h'.findings.trans h.findings
  enabled direction option hecho :=
    (h'.enabled direction option hecho).trans (h.enabled direction option hecho)
  wire := h.wire.trans h'.wire

theorem ofWire (l : Link α) {wire : Wire α} (h : l.wire.Asks [] wire) :
    l.Aside { l with wire := wire } :=
  ⟨rfl, fun _ _ _ => rfl, h⟩

theorem refl (l : Link α) : l.Aside l := ofWire l (.refl _)

/-- Fields that are neither options nor findings. -/
theorem ofCaps (l : Link α) {caps : Capability} (hfindings : caps.findings = l.caps.findings)
    (hoptions : caps.options = l.caps.options) : l.Aside { l with caps := caps } :=
  ⟨hfindings, fun _ _ _ => by simp only [Capability.enabled, hoptions], .refl _⟩

theorem ite {a b : Link α} {p : Prop} [Decidable p] (ha : l.Aside a) (hb : l.Aside b) :
    l.Aside (if p then a else b) := by
  split
  · exact ha
  · exact hb

theorem audit (l : Link α) (event detail : String) : l.Aside (l.audit event detail) :=
  ofWire l (.emit l.wire l.wire.app _ rfl)

/-- What an application can write. -/
theorem ofPlain (l : Link α) {wire : Wire α}
    (h : l.wire.Writes (Wire.Plain l.caps.terminal.gmcp) wire) : l.Aside { l with wire := wire } :=
  ofWire l (.ofPlain h)

theorem requestClose (l : Link α) (event : String) (message : Option Bytes) :
    l.Aside (l.requestClose event message) :=
  ofPlain l (Wire.Utters.requestClose l.wire event message).writes

theorem callHook {ρ : Type} (l : Link α) (call : ApplicationCall)
    (hook : α → Wire.HookProgram (ρ × α)) : l.Aside (l.callHook call hook).2 :=
  ofPlain l (.callHook l.wire l.caps.terminal call hook)

theorem noteProtocolViolation (l : Link α) (detail : String) :
    l.Aside (l.noteProtocolViolation detail) := by
  have hcounted : l.Aside { l with caps.protocolViolations := l.caps.protocolViolations + 1 } :=
    ofCaps l rfl rfl
  have hnoted := hcounted.trans (audit _ "telnet_protocol_violation" detail)
  exact ite (hnoted.trans (requestClose _ _ _)) hnoted

end Aside

/-! ### Option requests -/

theorem asks_sendOptionCommands (l : Link α) (direction : TelnetQDirection) (option : UInt8)
    {result : TelnetQ × List OptionCommand} {side : QMethod.Side × Option Bool}
    (h : ActsAs l.caps.options direction option result side) :
    l.wire.Asks [] (l.sendOptionCommands result).wire := by
  have hverb : ∀ (w : Wire α) (verb : TelnetGrammar.Verb),
      w.Asks [] (w.writeTelnetOptionRaw verb.code option) := fun w verb =>
    .ofWrites (.ofOp (P := fun t => Probe.ofToken? t = none) w (.option verb option)
      (List.forall_mem_singleton.mpr rfl)) fun _ => id
  have hcommand : ∀ (w : Wire α) (sign : Bool),
      w.Asks [] (w.writeTelnetOptionRaw (signCommand direction sign) option) := by
    intro w sign
    cases direction <;> cases sign
    · exact hverb w .wont
    · exact hverb w .will
    · exact hverb w .dont
    · exact hverb w .do_
  simp only [sendOptionCommands, h.sent]
  cases side.2 with
  | none => exact .refl _
  | some sign => exact hcommand l.wire sign

theorem aside_qRequest (l : Link α) (direction : TelnetQDirection) (option : UInt8)
    {enable : Bool} (h : enable = true ∨ (direction = .local_ ∧ option = Telnet.Opt.echo)) :
    l.Aside (l.qRequest direction option enable) := by
  have hacts := telnetQRequest_actsAs l.caps.options direction option enable
  refine ⟨rfl, fun d o hecho => ?_, asks_sendOptionCommands l direction option hacts⟩
  by_cases hsame : d = direction ∧ o = option
  · obtain ⟨rfl, rfl⟩ := hsame
    obtain rfl := h.resolve_right hecho
    exact telnetQEnabled_request l.caps.options d o
  · exact congrArg (fun side : TelnetQSide => decide (side.state = .yes)) (hacts.frame d o hsame)

theorem aside_echo (l : Link α) (wish : Bool) :
    l.Aside ({ l with caps.echoDesired := wish }.qRequest .local_ Telnet.Opt.echo wish) := by
  have hwish : l.Aside { l with caps.echoDesired := wish } := .ofCaps l rfl rfl
  exact hwish.trans (aside_qRequest _ _ _ (.inr ⟨rfl, rfl⟩))

theorem aside_negotiateOperationalOptions (hooks : Application α) (l : Link α) :
    l.Aside (l.negotiateOperationalOptions hooks) := by
  have hrequest : ∀ {m : Link α} (direction : TelnetQDirection) (option : UInt8), l.Aside m →
      l.Aside (m.qRequest direction option true) :=
    fun direction option h => h.trans (aside_qRequest _ direction option (.inl rfl))
  unfold negotiateOperationalOptions
  dsimp only
  refine hrequest _ _ (.ite (hrequest _ _ ?_) ?_)
  all_goals
    iterate 10 refine hrequest _ _ ?_
    exact .refl l

theorem aside_replayPreAuthGmcpCore (hooks : Application α) (l : Link α) :
    l.Aside (l.replayPreAuthGmcpCore hooks) :=
  replayPreAuthGmcpCore_keeps (R := Aside) .refl .trans (fun l _ _ _ => .callHook l _ _)
    (fun l => .ofCaps l rfl rfl) hooks l

end Link

namespace Conn

variable {β α : Type}

/-- The dialogue, prompts, `start` and `poll` are all aside. -/
theorem aside_frame (host : Host β α) : Frame host False fun c c' => c.link.Aside c'.link where
  trans := Link.Aside.trans
  fields {c _} hlink _ _ := hlink ▸ .refl c.link
  text c data := .ofPlain c.link (Wire.Utters.writeTelnetData c.link.wire data).writes
  marker c := .ofPlain c.link (Wire.Utters.writeMarker c.link.wire c.terminal).writes
  audit c _ _ := .ofWire c.link (.emit c.link.wire c.link.wire.app _ rfl)
  requestClose c event message := .requestClose c.link event (message.map ascii)
  record c _ _ := .ofWire c.link (.emit c.link.wire c.link.wire.app _ rfl)
  passwordEchoOff c := Link.aside_echo c.link true
  passwordEchoOn c := Link.aside_echo c.link false
  negotiate c := Link.aside_negotiateOperationalOptions host.application c.link
  hook c call _ hook := .callHook c.link call hook
  attach c _ := .ofCaps c.link rfl rfl
  replay c := Link.aside_replayPreAuthGmcpCore host.application c.link

/-- The option byte that completes an option command. -/
def hears (c : Conn β α) : Action → Option UInt8
  | .byte byte _ => if !c.closed && decide (c.parsing.parser = .option) then some byte else none
  | _ => none

theorem link_act_of_hears (host : Host β α) {c : Conn β α} {action : Action} {option : UInt8}
    (h : c.hears action = some option) :
    c.closed = false ∧ (c.act host action).link =
      c.link.receiveTelnetOption host.application c.parsing.pendingTelnetCommand option := by
  cases action with
  | byte byte nowMs =>
    simp only [hears, Option.ite_none_right_eq_some, Bool.and_eq_true, Bool.not_eq_true',
      decide_eq_true_eq, Option.some.injEq] at h
    obtain ⟨⟨hopen, hparser⟩, rfl⟩ := h
    refine ⟨hopen, ?_⟩
    simp [act, hopen, feedByte, hparser, onLink, setParser]
  | start | poll | byteFlood => cases h

/-- What the functions of the dialogue keep, an action keeps that completes no option
command. -/
theorem Frame.act {host : Host β α} {R : Link α → Link α → Prop}
    (F : Frame host False fun c c' => R c.link c'.link)
    (hviolation : ∀ (l : Link α) (detail : String), ascii detail ≠ Event.closing →
      R l (l.noteProtocolViolation detail))
    {c : Conn β α} {action : Action} (hhears : c.hears action = none)
    (hpayload : c.finishes action = true → R c.link (c.link.finishSubnegotiation host.application
      c.parsing.subnegotiationOption c.parsing.subnegotiation)) :
    R c.link (c.act host action).link := by
  obtain ⟨link, dialogue, hstep, hlink, -⟩ := exists_stepTo host c action
  rw [hlink]
  cases hstep with
  | still => exact F.refl c
  | start => exact F.start c
  | poll => exact F.poll c
  | byteFlood => exact F.requestClose c _ (some "Input rate limit exceeded.\r\n")
  | areYouThere => exact F.writeCurrentPrompt (F.say (F.refl c) _)
  | interrupt => exact F.interruptCurrentInput c
  | violation _ hdetail => exact hviolation c.link _ hdetail
  | payloadFull => exact F.requestClose c _ (some "Protocol error.\r\n")
  | option byte nowMs hopen hparser => simp [hears, hopen, hparser] at hhears
  | subnegotiation nowMs hopen hparser => exact hpayload (by simp [finishes, hopen, hparser])
  | line nowMs => exact F.processCompleteLine { c with input.pendingCr := false } nowMs

/-- An action that completes neither an option command nor a subnegotiation. -/
theorem aside_act (host : Host β α) {c : Conn β α} {action : Action}
    (hhears : c.hears action = none) (hfinishes : c.finishes action = false) :
    c.link.Aside (c.act host action).link := by
  refine (aside_frame host).act (fun l detail _ => .noteProtocolViolation l detail) hhears
    fun hpayload => ?_
  rw [hfinishes] at hpayload
  cases hpayload

/-- Everything an action can do to findings, options and probes. -/
inductive Turn (host : Host β α) (c : Conn β α) (action : Action) : Link α → Prop where
  | aside {link : Link α} (hhears : c.hears action = none) (hfinishes : c.finishes action = false)
      (h : c.link.Aside link) : Turn host c action link
  | option {option : UInt8} (hhears : c.hears action = some option)
      (hfinishes : c.finishes action = false) (hopen : c.closed = false) :
      Turn host c action
        (c.link.receiveTelnetOption host.application c.parsing.pendingTelnetCommand option)
  | subnegotiation (hhears : c.hears action = none) (hfinishes : c.finishes action = true)
      (hopen : c.closed = false) :
      Turn host c action (c.link.finishSubnegotiation host.application
        c.parsing.subnegotiationOption c.parsing.subnegotiation)

theorem hears_of_finishes {c : Conn β α} {action : Action} (h : c.finishes action = true) :
    c.hears action = none := by
  cases action with
  | byte byte nowMs =>
    simp only [finishes, Bool.and_eq_true, decide_eq_true_eq] at h
    simp [hears, h.1.2]
  | start | poll | byteFlood => rfl

theorem turn_act (host : Host β α) (c : Conn β α) (action : Action) :
    Turn host c action (c.act host action).link := by
  cases hfinishes : c.finishes action with
  | true =>
    rw [link_act_of_finishes host hfinishes]
    exact .subnegotiation (hears_of_finishes hfinishes) hfinishes (closed_of_finishes hfinishes)
  | false =>
    cases hhears : c.hears action with
    | none => exact .aside hhears hfinishes (aside_act host hhears hfinishes)
    | some option =>
      obtain ⟨hopen, hlink⟩ := link_act_of_hears host hhears
      rw [hlink]
      exact .option hhears hfinishes hopen

end Conn

-- SUMMARY: Everything one action can do to the life of a session: option state, echo, application session, early messages, phase and application calls.
import TelnetTlsServer.Session.Lines
import TelnetTlsServer.Session.Reports

/-!
# Deeds

A session's life is its `Core`, its phase and the calls it makes to the
application. `Deed` lists what one action can do to them. Each result about
whole runs (the echo, the application's calls, the messages it receives, its
view of the terminal) is an induction with one case for each deed.
-/

namespace Link

variable {α : Type}

/-- Option requests that leave the server's own echo alone. -/
structure Requests (l l' : Link α) : Prop where
  core : l'.caps.core = { l.caps.core with options := l'.caps.options }
  terminal : l'.caps.terminal = l.caps.terminal
  echo : selectSide l'.caps.options .local_ Telnet.Opt.echo =
    selectSide l.caps.options .local_ Telnet.Opt.echo
  wire : l.wire.Does [] l'.wire

namespace Requests

variable {l m : Link α}

theorem refl (l : Link α) : l.Requests l := ⟨rfl, rfl, rfl, .refl _⟩

theorem qRequest (h : l.Requests m) {direction : TelnetQDirection} {option : UInt8} (enable : Bool)
    (hecho : ¬ (TelnetQDirection.local_ = direction ∧ Telnet.Opt.echo = option)) :
    l.Requests (m.qRequest direction option enable) := by
  have hacts := telnetQRequest_actsAs m.caps.options direction option enable
  refine ⟨?_, h.terminal, (hacts.frame _ _ hecho).trans h.echo,
    h.wire.trans (does_sendOptionCommands m _)⟩
  have hcore : (m.qRequest direction option enable).caps.core =
      { m.caps.core with options := (m.qRequest direction option enable).caps.options } := rfl
  rw [hcore, h.core]

theorem negotiateOperationalOptions (hooks : Application α) (l : Link α) :
    l.Requests (l.negotiateOperationalOptions hooks) := by
  unfold Link.negotiateOperationalOptions
  dsimp only
  refine qRequest ?_ _ (by decide)
  split
  · iterate 11 refine qRequest ?_ _ (by decide)
    exact refl l
  · iterate 10 refine qRequest ?_ _ (by decide)
    exact refl l

end Requests

/-- An option request for the server's echo, which is then wished for or not. -/
def echoed (wish : Bool) (c : Core) : Core :=
  { c with
    options := (telnetQRequest c.options .local_ Telnet.Opt.echo wish).1
    echoDesired := wish }

/-- The calls that hand the early messages to a new session. -/
def replayed (hooks : Application α) (session : Option Nat)
    (queue : List PendingGmcpCoreMessage) : List ApplicationCall :=
  match session with
  | some session => if hooks.gmcp.isSome then queue.map (gmcpCall session) else []
  | none => []

end Link

namespace Conn

variable {β α : Type}

open Link

/-- The message that an action brings and `handle_gmcp` accepts. -/
def accepts (c : Conn β α) (action : Action) : Option PendingGmcpCoreMessage :=
  if c.finishes action && c.parsing.subnegotiationOption == Telnet.Opt.gmcp then
    acceptedGmcp c.link.caps c.parsing.subnegotiation
  else none

/-- The link, the phase and the application calls after an action. -/
inductive Deed (host : Host β α) (c : Conn β α) (action : Action) (link : Link α) :
    LoginState → List ApplicationCall → Prop where
  /-- Text, records, a close, calls of store and policy. -/
  | talk {login : LoginState} (hmessage : c.accepts action = none)
      (hcore : link.caps.core = c.link.caps.core) (hterminal : link.caps.terminal = c.terminal)
      (hpassword : login.isPassword = c.dialogue.login.isPassword)
      (hgame : login = .inGame ↔ c.dialogue.login = .inGame) : Deed host c action link login []
  | started (hmessage : c.accepts action = none)
      (hcore : link.caps.core = { c.link.caps.core with options := link.caps.options })
      (hterminal : link.caps.terminal = c.terminal)
      (hecho : selectSide link.caps.options .local_ Telnet.Opt.echo =
        selectSide c.link.caps.options .local_ Telnet.Opt.echo) :
      Deed host c action link c.dialogue.login []
  | option (command byte : UInt8) (hmessage : c.accepts action = none)
      (hcore : link.caps.core = { c.link.caps.core with
        options := (telnetQReceive c.link.caps.options command byte
          (qAccept host.application c.link.caps)).1 }) :
      Deed host c action link c.dialogue.login (notices host.application link.caps)
  /-- A report that the application is told of. -/
  | environ (hmessage : c.accepts action = none) (hcore : link.caps.core = c.link.caps.core) :
      Deed host c action link c.dialogue.login (notices host.application link.caps)
  /-- A report that the application is not told of. -/
  | report (hmessage : c.accepts action = none) (hfinishes : c.finishes action = true)
      (hcore : link.caps.core = c.link.caps.core)
      (hterminal : link.caps.terminal = (c.link.caps.untold c.parsing.subnegotiationOption
        c.parsing.subnegotiation).getD c.terminal) : Deed host c action link c.dialogue.login []
  | message {message : PendingGmcpCoreMessage} (hmessage : c.accepts action = some message)
      (hcaps : link.caps = c.link.caps) {session : Nat}
      (hsession : c.link.caps.applicationSession = some session)
      (hgmcp : host.application.gmcp.isSome = true) :
      Deed host c action link c.dialogue.login [gmcpCall session message]
  | early {message : PendingGmcpCoreMessage} (hmessage : c.accepts action = some message)
      (hno : c.link.caps.applicationSession = none ∨ host.application.gmcp = none)
      (hcaps : link.caps = { c.link.caps with
        pendingGmcpCore := queued host.application c.link.caps.pendingGmcpCore message }) :
      Deed host c action link c.dialogue.login []
  | polled (hmessage : c.accepts action = none) (hcaps : link.caps = c.link.caps) {session : Nat}
      (hsession : c.link.caps.applicationSession = some session) :
      Deed host c action link c.dialogue.login [.poll session]
  | command (hmessage : c.accepts action = none) (hcaps : link.caps = c.link.caps) {session : Nat}
      (hsession : c.link.caps.applicationSession = some session) {line : Bytes}
      (hlogin : c.dialogue.login = .inGame) :
      Deed host c action link .inGame [.line session line]
  /-- The echo is taken before a password is read, or given back. -/
  | echo {login : LoginState} (wish : Bool) (hmessage : c.accepts action = none)
      (hcore : link.caps.core = echoed wish c.link.caps.core)
      (hterminal : link.caps.terminal = c.terminal) (hlogin : c.dialogue.login ≠ .inGame)
      (hlogin' : login ≠ .inGame) (hpassword : login.isPassword = wish) :
      Deed host c action link login []
  | welcome (hmessage : c.accepts action = none)
      (hcore : link.caps.core = echoed false c.link.caps.core)
      (hterminal : link.caps.terminal = c.terminal)
      (hlogin : c.dialogue.login.isPassword = true)
      (hopen : host.application.open_ = none) : Deed host c action link .inGame []
  | opened (hmessage : c.accepts action = none) (hlogin : c.dialogue.login.isPassword = true)
      {hook : Bytes → TerminalCapabilities → α → Wire.HookProgram (Option Nat × α)}
      (hopen : host.application.open_ = some hook)
      {l l' : Link α} {name : Bytes} {session : Option Nat}
      (hbefore : c.link.wire.Does [] l.wire)
      (hcall : l.callHook (.open_ name (copyTerminalCapabilities link.caps.terminal))
        (hook name (copyTerminalCapabilities link.caps.terminal)) = (session, l'))
      (hafter : l'.wire.Does (replayed host.application session c.link.caps.pendingGmcpCore)
        link.wire)
      (hcore : link.caps.core = { echoed false c.link.caps.core with
        applicationSession := session
        pendingGmcpCore := if session.isSome then [] else c.link.caps.pendingGmcpCore }) :
      Deed host c action link .inGame
        (.open_ name (copyTerminalCapabilities link.caps.terminal) ::
          replayed host.application session c.link.caps.pendingGmcpCore)

/-! ## Lines -/

/-- Text, then a request for the echo or against it, then text. -/
theorem echo_conduct {c m c' : Conn β α} (wish : Bool) {request : Link α → Link α}
    (hrequest : ∀ l, request l =
      { l with caps.echoDesired := wish }.qRequest .local_ Telnet.Opt.echo wish)
    (h : c.Talks m) (h' : (m.onLink request).Talks c') :
    c'.link.caps.core = echoed wish c.link.caps.core ∧ c'.terminal = c.terminal ∧
      c.link.wire.Does [] c'.link.wire := by
  have hcaps : c'.link.caps =
      ({ m.link with caps.echoDesired := wish }.qRequest .local_ Telnet.Opt.echo wish).caps :=
    h'.caps.trans (congrArg Link.caps (hrequest m.link))
  have hwire : m.link.wire.Does [] (request m.link).wire := by
    rw [hrequest]
    exact does_sendOptionCommands { m.link with caps.echoDesired := wish } _
  refine ⟨?_, ?_, (h.wire.trans hwire).trans h'.wire⟩
  · rw [hcaps, ← h.caps]
    rfl
  · have hterminal : m.terminal = c.terminal := congrArg Capability.terminal h.caps
    rw [terminal, hcaps]
    exact hterminal

/-- The hook's answer is the application's session; with none the session closes. -/
theorem openApplication_conduct (host : Host β α) {c : Conn β α}
    {hook : Bytes → TerminalCapabilities → α → Wire.HookProgram (Option Nat × α)}
    {session : Option Nat} {l : Link α}
    (hcall : c.link.callHook
      (.open_ c.dialogue.playerName (copyTerminalCapabilities c.terminal))
      (hook c.dialogue.playerName (copyTerminalCapabilities c.terminal)) = (session, l)) :
    (c.openApplication host hook).link.caps = { c.link.caps with
        applicationSession := session
        pendingGmcpCore := if session.isSome then [] else c.link.caps.pendingGmcpCore } ∧
      l.wire.Does (replayed host.application session c.link.caps.pendingGmcpCore)
        (c.openApplication host hook).link.wire := by
  obtain ⟨hcaps, -⟩ := callHook_conduct hcall (fun h => by cases h)
  simp only [openApplication, hcall, ← hcaps]
  cases session with
  | none =>
    have hclosed := Talks.requestClose (.refl { c with
      link := { l with caps.applicationSession := none } }) "application_open_rejected" none
    exact ⟨rfl, hclosed.wire⟩
  | some session =>
    have hsession : ({ l with caps.applicationSession := some session } :
      Link α).caps.applicationSession = some session := rfl
    exact replayPreAuthGmcpCore_conduct host.application hsession

theorem ne_inGame_of_isPassword {login : LoginState} (h : login.isPassword = true) :
    login ≠ .inGame := by
  rintro rfl
  cases h

theorem exists_deed_of_lined {host : Host β α} {c : Conn β α} {action : Action} {link : Link α}
    {dialogue : Dialogue β} (hopen : c.closed = false) (hmessage : c.accepts action = none)
    (h : Lined host c link dialogue) :
    ∃ made, Deed host c action link dialogue.login made ∧ c.link.wire.Does made link.wire := by
  cases h with
  | talk h hpassword hgame =>
    exact ⟨[], .talk hmessage (congrArg _ h.caps) (congrArg _ h.caps) hpassword hgame, h.wire⟩
  | hide hlogin h h' hlogin' =>
    obtain ⟨hcore, hterminal, hwire⟩ := echo_conduct true (fun _ => rfl) h h'
    exact ⟨[], .echo true hmessage hcore hterminal (by rw [hlogin]; decide)
      (ne_inGame_of_isPassword hlogin') hlogin', hwire⟩
  | restart hlogin h h' hlogin' =>
    obtain ⟨hcore, hterminal, hwire⟩ := echo_conduct false (fun _ => rfl) h h'
    exact ⟨[], .echo false hmessage hcore hterminal (ne_inGame_of_isPassword hlogin)
      (by rw [hlogin']; decide) (by rw [hlogin']; rfl), hwire⟩
  | welcome hlogin h h' hlogin' hnone =>
    obtain ⟨hcore, hterminal, hwire⟩ := echo_conduct false (fun _ => rfl) h h'
    exact ⟨[], hlogin' ▸ .welcome hmessage hcore hterminal hlogin hnone, hwire⟩
  | @opened m c' hlogin h h' hlogin' hook hsome =>
    obtain ⟨hcore, -, hwire⟩ := echo_conduct false (fun _ => rfl) h h'
    rcases hcall : c'.link.callHook
      (.open_ c'.dialogue.playerName (copyTerminalCapabilities c'.terminal))
      (hook c'.dialogue.playerName (copyTerminalCapabilities c'.terminal)) with ⟨session, l⟩
    obtain ⟨hcaps, hopened⟩ := openApplication_conduct host hcall
    have hpending : c'.link.caps.pendingGmcpCore = c.link.caps.pendingGmcpCore :=
      congrArg Core.pendingGmcpCore hcore
    have hterminal : (c'.openApplication host hook).link.caps.terminal = c'.terminal :=
      by rw [hcaps]; rfl
    obtain ⟨-, hcalled⟩ := callHook_conduct hcall (fun h => by cases h)
    rw [hpending] at hopened
    rw [← hterminal] at hcall hcalled
    refine ⟨_, ?_, (hwire.trans hcalled).trans hopened⟩
    rw [hlogin']
    refine .opened hmessage hlogin hsome hwire hcall hopened ?_
    rw [hcaps, ← hcore, ← hpending]
    rfl
  | command hlogin hsession h hlogin' =>
    refine ⟨_, ?_, (acts_callHook c.link (fun _ => hopen) _).wire.andThen h.wire⟩
    rw [hlogin']
    exact .command hmessage h.caps hsession hlogin

/-! ## Subnegotiations and polls -/

theorem accepts_of_not_finishes {c : Conn β α} {action : Action} (h : c.finishes action = false) :
    c.accepts action = none := by
  simp [accepts, h]

theorem accepts_of_option {c : Conn β α} {action : Action}
    (h : c.parsing.subnegotiationOption ≠ Telnet.Opt.gmcp) : c.accepts action = none := by
  simp [accepts, h]

section Steps

variable {host : Host β α} {c : Conn β α} {action : Action}

theorem exists_deed_of_gmcp (hfinishes : c.finishes action = true)
    (hgmcp : c.parsing.subnegotiationOption = Telnet.Opt.gmcp) :
    let l' := c.link.handleGmcp host.application c.parsing.subnegotiation
    ∃ made, Deed host c action l' c.dialogue.login made ∧ c.link.wire.Does made l'.wire := by
  have haccepts : c.accepts action = acceptedGmcp c.link.caps c.parsing.subnegotiation := by
    simp [accepts, hfinishes, hgmcp]
  dsimp only
  cases hmessage : acceptedGmcp c.link.caps c.parsing.subnegotiation with
  | none =>
    obtain ⟨hcaps, hserves⟩ := handleGmcp_ignored host.application hmessage
    exact ⟨[], .talk (haccepts.trans hmessage) (congrArg _ hcaps) (congrArg _ hcaps) rfl .rfl,
      hserves.wire⟩
  | some message =>
    have hearly : c.link.caps.applicationSession = none ∨ host.application.gmcp = none →
        ∃ made, Deed host c action
          (c.link.handleGmcp host.application c.parsing.subnegotiation)
          c.dialogue.login made ∧ c.link.wire.Does made
            (c.link.handleGmcp host.application c.parsing.subnegotiation).wire := by
      intro hno
      obtain ⟨hcaps, hwire⟩ := handleGmcp_waiting host.application hmessage hno
      exact ⟨[], .early (haccepts.trans hmessage) hno hcaps, hwire⟩
    cases hsession : c.link.caps.applicationSession with
    | none => exact hearly (.inl hsession)
    | some session =>
      cases hhook : host.application.gmcp with
      | none => exact hearly (.inr hhook)
      | some hook =>
        have hsome : host.application.gmcp.isSome = true := by rw [hhook]; rfl
        obtain ⟨hcaps, hwire⟩ := handleGmcp_attached host.application hmessage hsession hsome
        exact ⟨_, .message (haccepts.trans hmessage) hcaps hsession hsome, hwire⟩

/-- A payload goes to the handler of its option. -/
theorem exists_deed_of_finishes (hfinishes : c.finishes action = true) :
    let l' := c.link.finishSubnegotiation host.application c.parsing.subnegotiationOption
      c.parsing.subnegotiation
    ∃ made, Deed host c action l' c.dialogue.login made ∧ c.link.wire.Does made l'.wire := by
  dsimp only
  by_cases hgmcp : c.parsing.subnegotiationOption = Telnet.Opt.gmcp
  · have hhandled : c.link.finishSubnegotiation host.application c.parsing.subnegotiationOption
        c.parsing.subnegotiation = c.link.handleGmcp host.application c.parsing.subnegotiation := by
      rw [hgmcp]
      rfl
    rw [hhandled]
    exact exists_deed_of_gmcp hfinishes hgmcp
  · rcases finishSubnegotiation_conduct host.application c.link hgmcp c.parsing.subnegotiation with
      ⟨-, htold⟩ | ⟨hstill, hterminal⟩
    · exact ⟨_, .environ (accepts_of_option hgmcp) htold.core, htold.wire⟩
    · exact ⟨[], .report (accepts_of_option hgmcp) hfinishes hstill.core hterminal, hstill.wire⟩

theorem exists_deed_of_poll (hmessage : c.accepts action = none) :
    ∃ made, Deed host c action (c.poll host).2.link c.dialogue.login made ∧
      c.link.wire.Does made (c.poll host).2.link.wire := by
  have hnothing : ∃ made, Deed host c action c.link c.dialogue.login made ∧
      c.link.wire.Does made c.link.wire :=
    ⟨[], .talk hmessage rfl rfl rfl .rfl, .refl _⟩
  unfold poll
  split
  case isTrue => exact hnothing
  case isFalse hopen =>
    split
    case h_1 session hook hsession _ =>
      have hpolled := Wire.Does.callHook c.link.wire c.terminal (.poll session)
        (fun _ => Bool.not_eq_true _ ▸ hopen) (hook session)
      have hclosed := Talks.requestClose (.refl { c with
        link := (c.link.callHook (.poll session) (hook session)).2 }) "application_poll_close" none
      dsimp only
      split
      · exact ⟨_, .polled hmessage hclosed.caps hsession, hpolled.andThen hclosed.wire⟩
      · exact ⟨_, .polled hmessage (by rfl) hsession, hpolled⟩
    case h_2 => exact hnothing

end Steps

/-! ## Every action -/

theorem isPassword_interrupt (d : Dialogue β) :
    d.interrupt.login.isPassword = d.login.isPassword := by
  unfold Dialogue.interrupt
  split
  case h_1 hlogin => rw [hlogin]; rfl
  all_goals rfl

theorem inGame_interrupt (d : Dialogue β) : d.interrupt.login = .inGame ↔ d.login = .inGame := by
  unfold Dialogue.interrupt
  split
  case h_1 hlogin => simp [hlogin]
  all_goals exact .rfl

theorem exists_deed (host : Host β α) (c : Conn β α) (action : Action) :
    ∃ made, Deed host c action (c.act host action).link
        (c.act host action).dialogue.login made ∧
      c.link.wire.Does made (c.act host action).link.wire := by
  obtain ⟨link, dialogue, hstep, hlink, hdialogue⟩ := exists_stepTo host c action
  rw [hlink, hdialogue]
  have htalk : ∀ {c' : Conn β α}, c.finishes action = false → c.Talks c' →
      ∃ made, Deed host c action c'.link c.dialogue.login made ∧
        c.link.wire.Does made c'.link.wire :=
    fun hpayload h => ⟨[], .talk (accepts_of_not_finishes hpayload) (congrArg _ h.caps)
      (congrArg _ h.caps) rfl .rfl, h.wire⟩
  have hclose : ∀ {event : String} {message : Option Bytes}, c.finishes action = false →
      ∃ made, Deed host c action (c.link.requestClose event message) c.dialogue.login made ∧
        c.link.wire.Does made (c.link.requestClose event message).wire :=
    fun hpayload => ⟨[], .talk (accepts_of_not_finishes hpayload) rfl rfl rfl .rfl,
      .requestClose _ _ _⟩
  cases hstep with
  | still hpayload => exact htalk hpayload (.refl c)
  | start hstarted =>
    have hrequests := Requests.negotiateOperationalOptions host.application c.link
    have htext : ((onLink { c with started := true }
        (Link.negotiateOperationalOptions host.application))).Talks (c.start host) := by
      rw [start, if_neg (by rw [hstarted]; decide)]
      exact .prompt (.say (.refl _) _) _
    refine ⟨[], .started rfl ?_ ?_ ?_, hrequests.wire.trans htext.wire⟩
    · rw [htext.caps]
      exact hrequests.core
    · rw [htext.caps]
      exact hrequests.terminal
    · rw [htext.caps]
      exact hrequests.echo
  | poll => exact exists_deed_of_poll rfl
  | byteFlood => exact hclose rfl
  | areYouThere hpayload => exact htalk hpayload (.writeCurrentPrompt (.say (.refl c) _))
  | interrupt hpayload =>
    have hcleared : c.Talks { c with input := c.input.clear } := .ofLink (.refl c) rfl
    have htalks : c.Talks c.interruptCurrentInput :=
      .writeCurrentPrompt (.say (.ite (.setLogin (.clearPendingPassword hcleared) _) hcleared) _)
    exact ⟨[], .talk (accepts_of_not_finishes hpayload) (congrArg _ htalks.caps)
      (congrArg _ htalks.caps) (isPassword_interrupt _) (inGame_interrupt _),
      htalks.wire⟩
  | violation hpayload hdetail =>
    have hnoted := still_noteProtocolViolation (.refl c.link) hdetail
    exact ⟨[], .talk (accepts_of_not_finishes hpayload) hnoted.core
      (congrArg Known.terminal (known_noteProtocolViolation c.link _)) rfl .rfl, hnoted.wire⟩
  | payloadFull hpayload => exact hclose hpayload
  | option byte nowMs hopen hparser =>
    have hpayload : c.finishes (.byte byte nowMs) = false :=
      not_finishes_of_state (by rw [hparser]; decide)
    obtain ⟨hcore, hwire⟩ := receiveTelnetOption_conduct host.application c.link
      c.parsing.pendingTelnetCommand byte
    exact ⟨_, .option _ byte (accepts_of_not_finishes hpayload) hcore, hwire⟩
  | subnegotiation nowMs hopen hparser =>
    exact exists_deed_of_finishes (by simp [finishes, hopen, hparser])
  | line nowMs hopen hparser =>
    have hpayload : c.finishes (.byte 10 nowMs) = false :=
      not_finishes_of_state (by rw [hparser]; decide)
    have hlined : LinedAs host c _ :=
      (LinedAs.processCompleteLine { c with input.pendingCr := false } nowMs).ofStart rfl rfl
    exact exists_deed_of_lined hopen (accepts_of_not_finishes hpayload) hlined

end Conn

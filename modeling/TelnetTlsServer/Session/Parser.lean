-- SUMMARY: A Telnet session from bytes to lines: line editing, control commands, the byte parser, and the public session calls.
import TelnetTlsServer.Lib.Transition
import TelnetTlsServer.Session.Login

/-!
# The session

`telnet_session_feed_at` runs the byte parser over a chunk. The parser hands data
bytes to the line editor, option commands and subnegotiations to the capability
handlers, and a completed line to the account dialogue or the application.

A run of a session is a sequence of public calls. `Conn.system` is finer: it
takes the bytes of a call one at a time, so that its reachable states include
those between two bytes.
-/

def applicationLineMax : Nat := 512
def inputBytesPerWindow : Nat := 65536
def inputBytesWindowMs : UInt64 := 5000

namespace LineInput

def eraseByte (i : LineInput) : LineInput :=
  if i.lineLength > 0 then
    { i with line := i.line.set (i.lineLength - 1) 0, lineLength := i.lineLength - 1 }
  else i

def lineLimit (login : LoginState) : Nat :=
  if login.isPassword then playerPasswordMax else applicationLineMax

def appendLineByte (login : LoginState) (i : LineInput) (byte : UInt8) : LineInput :=
  if byte = 8 || byte = 127 then i.eraseByte
  else if byte < 32 then i
  else if i.lineLength ≥ lineLimit login then { i with lineOverflow := true }
  else { i with line := i.line.set i.lineLength byte, lineLength := i.lineLength + 1 }

/-- `clear_current_input`. -/
def clear (i : LineInput) : LineInput := { i.wipe with lineOverflow := false, pendingCr := false }

end LineInput

namespace Conn

variable {β α : Type}

/-! ## Data bytes -/

def appendLineByte (c : Conn β α) (byte : UInt8) : Conn β α :=
  { c with input := c.input.appendLineByte c.dialogue.login byte }

/-- A data byte when no CR is pending. -/
def receivePlainByte (host : Host β α) (c : Conn β α) (byte : UInt8) (nowMs : UInt64) :
    Conn β α :=
  if byte = 13 then { c with input.pendingCr := true }
  else if byte = 10 then c.processCompleteLine host nowMs
  else if byte = 0 then c
  else c.appendLineByte byte

def receiveDataByte (host : Host β α) (c : Conn β α) (byte : UInt8) (nowMs : UInt64) :
    Conn β α :=
  if c.input.pendingCr then
    let c := { c with input.pendingCr := false }
    if byte = 10 then c.processCompleteLine host nowMs
    else
      let c := c.appendLineByte 13
      if byte = 0 || c.closed then c else c.receivePlainByte host byte nowMs
  else c.receivePlainByte host byte nowMs

/-! ## Control commands -/

def writeCurrentPrompt (c : Conn β α) : Conn β α :=
  match c.dialogue.login with
  | .name => c.prompt "Player name: "
  | .password => c.prompt "Password: "
  | .newPassword => c.prompt "Create password: "
  | .confirmPassword => c.prompt "Confirm password: "
  | .inGame => c.prompt "> "

def interruptCurrentInput (c : Conn β α) : Conn β α :=
  let c := { c with input := c.input.clear }
  let c :=
    if c.dialogue.login = .confirmPassword then c.clearPendingPassword.setLogin .newPassword
    else c
  let c := c.say "\r\n"
  c.writeCurrentPrompt

def handleControlCommand (c : Conn β α) (command : UInt8) : Conn β α :=
  if command = Telnet.ayt then
    let c := c.say "\r\n[Server is here]\r\n"
    c.writeCurrentPrompt
  else if command = Telnet.ip || command = Telnet.brk then c.interruptCurrentInput
  else if command = Telnet.ec then { c with input := c.input.eraseByte }
  else if command = Telnet.el then { c with input := c.input.clear }
  else if command = Telnet.se then
    c.onLink (·.noteProtocolViolation "SE received outside subnegotiation")
  else c

/-! ## The byte parser -/

def setParser (c : Conn β α) (parser : ParserState) : Conn β α :=
  { c with parsing.parser := parser }

/-- A payload byte, or the close when the payload is full. The parser state
afterwards is the given one unless the payload was full. -/
def pushPayload (c : Conn β α) (byte : UInt8) (parser : ParserState) : Conn β α :=
  if c.parsing.subnegotiation.length ≥ Wire.subnegotiationMaxBytes then
    c.requestClose "telnet_subnegotiation_overflow" (some "Protocol error.\r\n")
  else
    { c with
      parsing.subnegotiation := c.parsing.subnegotiation ++ [byte]
      parsing.parser := parser }

def isOptionVerb (byte : UInt8) : Bool :=
  byte = Telnet.will || byte = Telnet.wont || byte = Telnet.do_ || byte = Telnet.dont

/-- One round of the loop of `telnet_session_feed_at`. -/
def feedByte (host : Host β α) (c : Conn β α) (byte : UInt8) (nowMs : UInt64) : Conn β α :=
  match c.parsing.parser with
  | .data =>
      if byte = Telnet.iac then c.setParser .iac else c.receiveDataByte host byte nowMs
  | .iac =>
      if byte = Telnet.iac then (c.receiveDataByte host Telnet.iac nowMs).setParser .data
      else if isOptionVerb byte then
        { c with parsing.pendingTelnetCommand := byte, parsing.parser := .option }
      else if byte = Telnet.sb then c.setParser .sbOption
      else (c.handleControlCommand byte).setParser .data
  | .option =>
      (c.onLink fun l => l.receiveTelnetOption host.application
        c.parsing.pendingTelnetCommand byte).setParser .data
  | .sbOption =>
      { c with
        parsing.subnegotiationOption := byte
        parsing.subnegotiation := []
        parsing.parser := .sbData }
  | .sbData =>
      if byte = Telnet.iac then c.setParser .sbIac else c.pushPayload byte .sbData
  | .sbIac =>
      if byte = Telnet.se then
        let c := c.onLink fun l => l.finishSubnegotiation host.application
          c.parsing.subnegotiationOption c.parsing.subnegotiation
        { c with parsing.subnegotiation := [], parsing.parser := .data }
      else if byte = Telnet.iac then c.pushPayload Telnet.iac .sbData
      else
        (c.onLink (·.noteProtocolViolation "malformed subnegotiation")).setParser .sbData

/-- The loop: it ends at the first byte after a close was requested. -/
def feedBytes (host : Host β α) (nowMs : UInt64) : Conn β α → Bytes → Conn β α
  | c, [] => c
  | c, byte :: rest => if c.closed then c else feedBytes host nowMs (c.feedByte host byte nowMs) rest

/-! ## Creation, start, poll and destruction -/

def initial (host : Host β α) (backend : β) (app : α) : Conn β α where
  link := ⟨.initial host.transportSecure, ⟨false, app, []⟩⟩
  dialogue := ⟨.name, [], Buffer.zero 256, backend⟩
  input := .initial
  parsing := ⟨.data, 0, 0, []⟩
  insecureWarningShown := false
  started := false
  lineWindow := ⟨0, 0⟩
  commandWindow := ⟨0, 0⟩

def start (host : Host β α) (c : Conn β α) : Conn β α :=
  if c.started then c
  else
    let c := { c with started := true }
    let c := c.onLink (Link.negotiateOperationalOptions host.application)
    let c := c.say ("\r\n========================================\r\n" ++
      "        Welcome, traveler.\r\n" ++
      "========================================\r\n\r\n")
    c.prompt "Player name: "

def poll (host : Host β α) (c : Conn β α) : Int × Conn β α :=
  if c.closed then (-1, c)
  else
    match c.link.caps.applicationSession, host.application.poll with
    | some session, some hook =>
        let (result, link) := c.link.callHook (.poll session) (hook session)
        let c := { c with link := link }
        if result ≠ 0 then (-1, c.requestClose "application_poll_close" none)
        else (if c.closed then -1 else 0, c)
    | _, _ => (0, c)

/-- What happens to the outside when the session is destroyed. -/
def destroy (host : Host β α) (c : Conn β α) : Wire α :=
  match c.link.caps.applicationSession, host.application.close with
  | some session, some hook => (c.link.callHook (.close session) (hook session)).2.wire
  | _, _ => c.link.wire

end Conn

/-! ## Sessions -/

structure TelnetSession (β α : Type) where
  conn : Conn β α
  byteWindow : RateWindow

namespace TelnetSession

variable {β α : Type}

/-- The session of `telnet_session_create`, over given states of the store and
policy and of the application. A peer name that does not fit is refused. -/
def create (host : Host β α) (backend : β) (app : α) : Option (TelnetSession β α) :=
  if host.remoteId.length ≥ 96 then none else some ⟨.initial host backend app, ⟨0, 0⟩⟩

def start (host : Host β α) (s : TelnetSession β α) : TelnetSession β α :=
  { s with conn := s.conn.start host }

def feedAt (host : Host β α) (s : TelnetSession β α) (data : Bytes) (nowMs : UInt64) :
    Int × TelnetSession β α :=
  if s.conn.closed then (-1, s)
  else
    let (accepted, window) :=
      rateConsume s.byteWindow data.length inputBytesPerWindow inputBytesWindowMs nowMs
    let s := { s with byteWindow := window }
    if !accepted then
      (-1, { s with
        conn := s.conn.requestClose "byte_flood" (some "Input rate limit exceeded.\r\n") })
    else
      let s := { s with conn := s.conn.feedBytes host nowMs data }
      (if s.conn.closed then -1 else 0, s)

def poll (host : Host β α) (s : TelnetSession β α) : Int × TelnetSession β α :=
  ((s.conn.poll host).1, { s with conn := (s.conn.poll host).2 })

/-- A public call. -/
inductive Call where
  | start
  | feedAt (data : Bytes) (nowMs : UInt64)
  | poll

def call (host : Host β α) (s : TelnetSession β α) : Call → TelnetSession β α
  | .start => s.start host
  | .feedAt data nowMs => (s.feedAt host data nowMs).2
  | .poll => (s.poll host).2

def system (host : Host β α) : Transition.System (TelnetSession β α) Call where
  init s := ∃ backend app, create host backend app = some s
  step l s s' := s' = s.call host l

end TelnetSession

/-! ## The same run byte by byte -/

namespace Conn

variable {β α : Type}

/-- What a session does at a time: a public call other than feed, one byte of a
feed, or the refusal of a feed. -/
inductive Action where
  | start
  | poll
  | byte (byte : UInt8) (nowMs : UInt64)
  | byteFlood

def act (host : Host β α) (c : Conn β α) : Action → Conn β α
  | .start => c.start host
  | .poll => (c.poll host).2
  | .byte byte nowMs => if c.closed then c else c.feedByte host byte nowMs
  | .byteFlood => c.requestClose "byte_flood" (some "Input rate limit exceeded.\r\n")

def system (host : Host β α) : Transition.System (Conn β α) Action where
  init c := ∃ backend app, c = .initial host backend app
  step l c c' := c' = c.act host l

theorem feedBytes_cons (host : Host β α) (nowMs : UInt64) (c : Conn β α) (byte : UInt8)
    (rest : Bytes) :
    feedBytes host nowMs c (byte :: rest) =
      feedBytes host nowMs (c.act host (.byte byte nowMs)) rest := by
  by_cases hclosed : c.closed
  · cases rest <;> simp [feedBytes, act, hclosed]
  · simp [feedBytes, act, hclosed]

theorem reachable_act {host : Host β α} {c : Conn β α} (hc : (system host).Reachable c)
    (action : Action) : (system host).Reachable (c.act host action) :=
  .step hc (show (system host).step action c (c.act host action) from rfl)

def acts (host : Host β α) (c : Conn β α) (actions : List Action) : Conn β α :=
  actions.foldl (act host) c

theorem acts_concat (host : Host β α) (c : Conn β α) (actions : List Action) (action : Action) :
    c.acts host (actions ++ [action]) = (c.acts host actions).act host action :=
  List.foldl_append

theorem reachable_acts {host : Host β α} {c : Conn β α} (hc : (system host).Reachable c)
    (actions : List Action) : (system host).Reachable (c.acts host actions) := by
  induction actions generalizing c with
  | nil => exact hc
  | cons action rest ih => exact ih (reachable_act hc action)

theorem reachable_feedBytes {host : Host β α} {c : Conn β α} (hc : (system host).Reachable c)
    (nowMs : UInt64) (data : Bytes) : (system host).Reachable (c.feedBytes host nowMs data) := by
  induction data generalizing c with
  | nil => exact hc
  | cons byte rest ih =>
    rw [feedBytes_cons]
    exact ih (reachable_act hc (.byte byte nowMs))

end Conn

/-- Every state a session reaches by public calls is one it reaches byte by byte. -/
theorem TelnetSession.reachable_conn {β α : Type} {host : Host β α} {s : TelnetSession β α}
    (hs : (system host).Reachable s) : (Conn.system host).Reachable s.conn := by
  induction hs with
  | init h =>
    obtain ⟨backend, app, h⟩ := h
    simp only [create] at h
    split at h
    · cases h
    · obtain rfl := Option.some.inj h
      exact .init ⟨backend, app, rfl⟩
  | @step l s _ _ hstep ih =>
    obtain rfl := hstep
    cases l with
    | start => exact Conn.reachable_act ih .start
    | poll => exact Conn.reachable_act ih .poll
    | feedAt data nowMs =>
      simp only [call, feedAt]
      split
      · exact ih
      · split
        · exact Conn.reachable_act ih .byteFlood
        · exact Conn.reachable_feedBytes ih nowMs data

/-! ## A host to run sessions against -/

def Application.absent (α : Type) : Application α := ⟨none, none, none, none, none, none, none⟩

/-- Every name has an account and every call succeeds. -/
def Backend.granting : Backend Unit where
  exists_ _ _ := (1, ())
  verifyPassword _ _ _ := ((1, false), ())
  preparePassword _ _ token := ((0, token), ())
  passwordMatches _ _ _ := (1, ())
  create _ _ _ := (0, ())
  allowAuthAttempt _ _ _ _ := (true, ())
  noteAuthFailure _ _ _ _ := ()
  noteAuthSuccess _ _ _ _ := ()
  allowAccountCreation _ _ _ := (true, ())

def Host.granting : Host Unit Unit := ⟨ascii "192.0.2.1", true, .granting, .absent Unit⟩

/-- A session of that host before its first call. -/
def TelnetSession.granted : TelnetSession Unit Unit := ⟨.initial .granting () (), ⟨0, 0⟩⟩

/-- Every hook is set and answers at once; the session it opens is always the same. -/
def Application.idle : Application Unit where
  open_ := some fun _ _ _ => .ret (some 7, ())
  line := some fun _ _ _ => .ret (0, ())
  capabilitiesChanged := some fun _ _ _ => .ret ((), ())
  gmcp := some fun _ _ _ _ => .ret ((), ())
  poll := some fun _ _ => .ret (0, ())
  close := some fun _ _ => .ret ((), ())
  msspQuery := none

def Host.playing : Host Unit Unit := { Host.granting with application := .idle }

-- SUMMARY: The account dialogue of a Telnet session: names, passwords, confirmation, and handing over to the application.
import TelnetTlsServer.Session.Capability
import TelnetTlsServer.Store.PlayerRules

/-!
# The account dialogue

The five phases of a session and what a completed line does in each of them. The
credential store and the security policy are any functions of a state of their
own; every call of one is recorded with its answer.
-/

inductive LoginState where
  | name
  | password
  | newPassword
  | confirmPassword
  | inGame
deriving DecidableEq, Repr

def LoginState.isPassword : LoginState → Bool
  | password | newPassword | confirmPassword => true
  | name | inGame => false

/-! ## Hosts -/

/-- The store and policy functions a session calls, over a shared state. -/
structure Backend (β : Type) where
  exists_ : β → Bytes → Int × β
  /-- The answer, and whether the record was rehashed. -/
  verifyPassword : β → Bytes → Bytes → (Int × Bool) × β
  /-- The answer, and the token in place of the one before. -/
  preparePassword : β → Bytes → PasswordToken → (Int × PasswordToken) × β
  passwordMatches : β → PasswordToken → Bytes → Int × β
  create : β → Bytes → PasswordToken → Int × β
  allowAuthAttempt : β → Bytes → Bytes → UInt64 → Bool × β
  noteAuthFailure : β → Bytes → Bytes → UInt64 → β
  noteAuthSuccess : β → Bytes → Bytes → UInt64 → β
  allowAccountCreation : β → Bytes → UInt64 → Bool × β

/-- `telnet_session_config`: what a session is created with. -/
structure Host (β α : Type) where
  remoteId : Bytes
  transportSecure : Bool
  backend : Backend β
  application : Application α

/-! ## Session state -/

/-- The account fields, with the state of store and policy. -/
structure Dialogue (β : Type) where
  login : LoginState
  playerName : Bytes
  pendingPassword : PasswordToken
  backend : β

/-- The typed line: `line[513]` and its bookkeeping. -/
structure LineInput where
  line : Buffer 513
  lineLength : Nat
  lineOverflow : Bool
  pendingCr : Bool
deriving DecidableEq, Repr

namespace LineInput

def initial : LineInput := ⟨Buffer.zero 513, 0, false, false⟩

/-- `sodium_memzero(line)` and `line_length = 0`. -/
def wipe (i : LineInput) : LineInput := { i with line := Buffer.zero 513, lineLength := 0 }

/-- The bytes typed so far, `line[0..line_length)`. -/
def text (i : LineInput) : Bytes := i.line.bytes.take i.lineLength

end LineInput

structure RateWindow where
  startedMs : UInt64
  used : Nat
deriving DecidableEq, Repr

/-- The window `rate_consume` counts in: a new one when the old one is over. -/
def RateWindow.roll (window : RateWindow) (windowMs nowMs : UInt64) : RateWindow :=
  if window.startedMs = 0 || nowMs < window.startedMs ||
      nowMs - window.startedMs ≥ windowMs then ⟨nowMs, 0⟩
  else window

def rateConsume (window : RateWindow) (amount limit : Nat) (windowMs nowMs : UInt64) :
    Bool × RateWindow :=
  let window := window.roll windowMs nowMs
  if amount > limit || window.used > limit - amount then (false, window)
  else (true, { window with used := window.used + amount })

inductive ParserState where
  | data
  | iac
  | option
  | sbOption
  | sbData
  | sbIac
deriving DecidableEq, Repr

/-- The fields of the byte parser. -/
structure ParserFields where
  parser : ParserState
  pendingTelnetCommand : UInt8
  subnegotiationOption : UInt8
  subnegotiation : Bytes
deriving DecidableEq, Repr

/-- `struct telnet_session` but for `byte_window`, which only
`telnet_session_feed_at` itself touches. -/
structure Conn (β α : Type) where
  link : Link α
  dialogue : Dialogue β
  input : LineInput
  parsing : ParserFields
  insecureWarningShown : Bool
  started : Bool
  lineWindow : RateWindow
  commandWindow : RateWindow

namespace Conn

variable {β α : Type}

def closed (c : Conn β α) : Bool := c.link.wire.closeRequested

def terminal (c : Conn β α) : TelnetTerminalInfo := c.link.caps.terminal

def onWire (c : Conn β α) (f : Wire α → Wire α) : Conn β α :=
  { c with link.wire := f c.link.wire }

def onLink (c : Conn β α) (f : Link α → Link α) : Conn β α := { c with link := f c.link }

def setLogin (c : Conn β α) (login : LoginState) : Conn β α := { c with dialogue.login := login }

def setPlayerName (c : Conn β α) (name : Bytes) : Conn β α :=
  { c with dialogue.playerName := name }

def setPendingPassword (c : Conn β α) (token : PasswordToken) : Conn β α :=
  { c with dialogue.pendingPassword := token }

/-- `player_store_password_clear` of the pending token. -/
def clearPendingPassword (c : Conn β α) : Conn β α := c.setPendingPassword (Buffer.zero 256)

def wipeLine (c : Conn β α) : Conn β α := { c with input := c.input.wipe }

def say (c : Conn β α) (text : String) : Conn β α := c.onWire (·.writeText (ascii text))

def prompt (c : Conn β α) (text : String) : Conn β α :=
  c.onWire (·.writePromptText c.terminal (ascii text))

def audit (c : Conn β α) (event : String) (detail : Bytes) : Conn β α :=
  c.onWire (·.audit event detail)

def requestClose (c : Conn β α) (event : String) (message : Option String) : Conn β α :=
  c.onWire (·.requestClose event (message.map ascii))

/-- Record a call of the store or the policy and the state it left. -/
def record (c : Conn β α) (call : BackendCall) (backend : β) : Conn β α :=
  { c with
    dialogue.backend := backend
    link.wire := c.link.wire.emit (.backend call) }

/-! ## Calls of store and policy -/

def playerStoreExists (host : Host β α) (c : Conn β α) : Int × Conn β α :=
  let d := c.dialogue
  let (answer, backend) := host.backend.exists_ d.backend d.playerName
  (answer, c.record (.exists_ d.playerName answer) backend)

def playerStoreVerifyPassword (host : Host β α) (c : Conn β α) (password : Bytes) :
    Int × Bool × Conn β α :=
  let d := c.dialogue
  let ((answer, rehashed), backend) := host.backend.verifyPassword d.backend d.playerName password
  (answer, rehashed, c.record (.verifyPassword d.playerName password answer) backend)

def playerStorePreparePassword (host : Host β α) (c : Conn β α) (password : Bytes) :
    Int × Conn β α :=
  let d := c.dialogue
  let ((answer, token), backend) :=
    host.backend.preparePassword d.backend password d.pendingPassword
  (answer, (c.record (.preparePassword password answer token) backend).setPendingPassword token)

def playerStorePasswordMatches (host : Host β α) (c : Conn β α) (password : Bytes) :
    Int × Conn β α :=
  let d := c.dialogue
  let (answer, backend) := host.backend.passwordMatches d.backend d.pendingPassword password
  (answer, c.record (.passwordMatches d.pendingPassword password answer) backend)

def playerStoreCreate (host : Host β α) (c : Conn β α) : Int × Conn β α :=
  let d := c.dialogue
  let (answer, backend) := host.backend.create d.backend d.playerName d.pendingPassword
  (answer, c.record (.create d.playerName d.pendingPassword answer) backend)

def securityPolicyAllowAuthAttempt (host : Host β α) (c : Conn β α) (nowMs : UInt64) :
    Bool × Conn β α :=
  let d := c.dialogue
  let (allowed, backend) :=
    host.backend.allowAuthAttempt d.backend host.remoteId d.playerName nowMs
  (allowed, c.record (.allowAuthAttempt host.remoteId d.playerName nowMs allowed) backend)

def securityPolicyNoteAuthFailure (host : Host β α) (c : Conn β α) (nowMs : UInt64) :
    Conn β α :=
  let d := c.dialogue
  c.record (.noteAuthFailure host.remoteId d.playerName nowMs)
    (host.backend.noteAuthFailure d.backend host.remoteId d.playerName nowMs)

def securityPolicyNoteAuthSuccess (host : Host β α) (c : Conn β α) (nowMs : UInt64) :
    Conn β α :=
  let d := c.dialogue
  c.record (.noteAuthSuccess host.remoteId d.playerName nowMs)
    (host.backend.noteAuthSuccess d.backend host.remoteId d.playerName nowMs)

def securityPolicyAllowAccountCreation (host : Host β α) (c : Conn β α) (nowMs : UInt64) :
    Bool × Conn β α :=
  let d := c.dialogue
  let (allowed, backend) := host.backend.allowAccountCreation d.backend host.remoteId nowMs
  (allowed, c.record (.allowAccountCreation host.remoteId nowMs allowed) backend)

end Conn

namespace Conn

variable {β α : Type}

/-! ## Phases -/

def auditPlayerEvent (c : Conn β α) (event : String) : Conn β α :=
  let name := if c.dialogue.playerName ≠ [] then c.dialogue.playerName else ascii "-"
  let detail := ascii "player=" ++ name
  c.audit event (if detail.length ≥ 96 then ascii "player=truncated" else detail)

def warnInsecurePasswordOnce (c : Conn β α) : Conn β α :=
  if c.terminal.secureTransport || c.insecureWarningShown then c
  else
    { c with insecureWarningShown := true }.say
      "\r\n[Notice: plain Telnet is not encrypted; use the TLS endpoint when available.]\r\n"

/-- Hand the session to the application, if it has an `open` hook. -/
def openApplication (host : Host β α) (c : Conn β α)
    (hook : Bytes → TerminalCapabilities → α → Wire.HookProgram (Option Nat × α)) : Conn β α :=
  let name := c.dialogue.playerName
  let capabilities := copyTerminalCapabilities c.terminal
  let (session, link) := c.link.callHook (.open_ name capabilities) (hook name capabilities)
  let c := { c with link := { link with caps.applicationSession := session } }
  match session with
  | none => c.requestClose "application_open_rejected" none
  | some _ => c.onLink (Link.replayPreAuthGmcpCore host.application)

def enterGame (host : Host β α) (c : Conn β α) : Conn β α :=
  let c := c.setLogin .inGame
  let c := c.auditPlayerEvent "login_success"
  match host.application.open_ with
  | some hook => c.openApplication host hook
  | none =>
      let c := c.say "\r\nWelcome, "
      let c := c.onWire (·.writeUntrustedText c.dialogue.playerName)
      let c := c.say (". You are now in game.\r\n" ++
        "Type PING to test the session, HELP for commands, or QUIT to disconnect.\r\n")
      c.prompt "> "

def processPlayerName (host : Host β α) (c : Conn β α) : Conn β α :=
  if !playerStoreNameValid c.input.line.string then
    let c := c.say ("\r\nNew player names must be 3-15 characters and use only " ++
      "letters, numbers, '_' or '-'.\r\n")
    c.prompt "Player name: "
  else
    let c := c.setPlayerName c.input.line.string
    let (found, c) := c.playerStoreExists host
    if found < 0 then
      let c := c.auditPlayerEvent "player_record_rejected"
      let c := c.setPlayerName []
      let c := c.say "\r\nThat player record could not be read safely.\r\n"
      c.prompt "Player name: "
    else if found = 1 then
      let c := c.setLogin .password
      let c := c.onLink Link.passwordEchoOff
      let c := c.warnInsecurePasswordOnce
      c.prompt "Password: "
    else
      let c := c.setLogin .newPassword
      let c := c.onLink Link.passwordEchoOff
      let c := c.warnInsecurePasswordOnce
      let c := c.say "New player. "
      c.prompt "Create a password (8-128 characters): "

def processExistingPassword (host : Host β α) (c : Conn β α) (nowMs : UInt64) : Conn β α :=
  let (allowed, c) := c.securityPolicyAllowAuthAttempt host nowMs
  if !allowed then
    let c := c.wipeLine
    let c := c.auditPlayerEvent "login_throttled"
    let c := c.say "\r\nLogin is temporarily locked. Try again later.\r\n"
    c.prompt "Password: "
  else
    let (verified, rehashed, c) := c.playerStoreVerifyPassword host c.input.text
    let c := c.wipeLine
    if verified = 1 then
      let c := c.securityPolicyNoteAuthSuccess host nowMs
      let c := if rehashed then c.auditPlayerEvent "password_hash_upgraded" else c
      let c := c.onLink Link.passwordEchoOn
      c.enterGame host
    else
      let c := c.securityPolicyNoteAuthFailure host nowMs
      let c := c.auditPlayerEvent "login_failure"
      -- The third bad password starts the cooldown immediately.
      let (allowed, c) := c.securityPolicyAllowAuthAttempt host nowMs
      if !allowed then
        c.requestClose "login_lockout" (some ("\r\nIncorrect password.\r\n" ++
          "Too many failed passwords. Try again in 5 minutes.\r\n"))
      else
        let c := c.say "\r\nIncorrect password.\r\n"
        c.prompt "Password: "

def processNewPassword (host : Host β α) (c : Conn β α) : Conn β α :=
  if c.input.lineLength < playerPasswordMin then
    let c := c.wipeLine
    let c := c.say "\r\nPassword must contain at least 8 characters.\r\n"
    c.prompt "Create password: "
  else if playerStorePasswordAllowed c.dialogue.playerName c.input.text ≠ 1 then
    let c := c.wipeLine
    let c := c.auditPlayerEvent "weak_password_rejected"
    let c := c.say "\r\nChoose a less common password.\r\n"
    c.prompt "Create password: "
  else
    let (prepared, c) := c.playerStorePreparePassword host c.input.text
    let c := c.wipeLine
    if prepared ≠ 0 then
      let c := c.onLink Link.passwordEchoOn
      let c := c.setLogin .name
      let c := c.setPlayerName []
      let c := c.say "\r\nUnable to prepare the password securely.\r\n"
      c.prompt "Player name: "
    else
      let c := c.setLogin .confirmPassword
      let c := c.say "\r\n"
      c.prompt "Confirm password: "

def processPasswordConfirmation (host : Host β α) (c : Conn β α) (nowMs : UInt64) : Conn β α :=
  let (matched, c) := c.playerStorePasswordMatches host c.input.text
  let c := c.wipeLine
  if matched ≠ 1 then
    let c := c.clearPendingPassword
    let c := c.setLogin .newPassword
    let c := c.say "\r\nPasswords did not match.\r\n"
    c.prompt "Create password: "
  else
    let (allowed, c) := c.securityPolicyAllowAccountCreation host nowMs
    if !allowed then
      let c := c.clearPendingPassword
      let c := c.onLink Link.passwordEchoOn
      let c := c.setLogin .name
      let c := c.setPlayerName []
      let c := c.audit "account_creation_throttled" (ascii "new account rate limit")
      let c := c.say "\r\nAccount creation is temporarily limited.\r\n"
      c.prompt "Player name: "
    else
      let (created, c) := c.playerStoreCreate host
      let c := c.clearPendingPassword
      if created ≠ 0 then
        let c := c.onLink Link.passwordEchoOn
        let c := c.setLogin .name
        let c := c.auditPlayerEvent "account_creation_failed"
        let c := c.setPlayerName []
        let c := c.say ("\r\nThe player account could not be created. " ++
          "It may already exist.\r\n")
        c.prompt "Player name: "
      else
        let c := c.auditPlayerEvent "account_created"
        let c := c.securityPolicyNoteAuthSuccess host nowMs
        let c := c.onLink Link.passwordEchoOn
        c.enterGame host

def inputLinesPerWindow : Nat := 30
def inputLinesWindowMs : UInt64 := 10000
def commandsPerWindow : Nat := 25
def commandsWindowMs : UInt64 := 5000

/-- The built-in commands of a session without an application. -/
def processBuiltin (c : Conn β α) : Conn β α :=
  let line := c.input.line.string
  if line = [] then c.prompt "> "
  else if asciiEqualIgnoreCase line (ascii "PING") then (c.say "PONG\r\n").prompt "> "
  else if asciiEqualIgnoreCase line (ascii "HELP") then
    (c.say "Commands: HELP, PING, QUIT\r\n").prompt "> "
  else if asciiEqualIgnoreCase line (ascii "QUIT") then
    c.requestClose "client_quit" (some "Goodbye.\r\n")
  else (c.say "Unknown command.\r\n").prompt "> "

def processCommand (host : Host β α) (c : Conn β α) (nowMs : UInt64) : Conn β α :=
  let (accepted, window) := rateConsume c.commandWindow 1 commandsPerWindow commandsWindowMs nowMs
  let c := { c with commandWindow := window }
  if !accepted then c.requestClose "command_flood" (some "Command rate limit exceeded.\r\n")
  else
    match c.link.caps.applicationSession, host.application.line with
    | some session, some hook =>
        let line := c.input.text
        let (result, link) := c.link.callHook (.line session line) (hook session line)
        let c := { c with link := link }
        if result ≠ 0 then c.requestClose "application_line_close" none else c
    | _, _ => c.processBuiltin

/-- A line that was too long is dropped; in the password phases it also drops a
password waiting for its confirmation. -/
def processOverflow (c : Conn β α) : Conn β α :=
  let c := { c with input := { c.input.wipe with lineOverflow := false } }
  if c.dialogue.login.isPassword then
    let c := c.say "\r\nPassword input is too long.\r\n"
    if c.dialogue.login = .password then c.prompt "Password: "
    else
      let c := c.clearPendingPassword
      let c := c.setLogin .newPassword
      c.prompt "Create password: "
  else if c.link.caps.applicationSession.isSome then
    c.requestClose "application_input_overflow" (some "Input is too long.\r\n")
  else
    let c := c.say "Input is too long.\r\n"
    c.prompt "> "

/-- The phase's own function for a line that was not too long. -/
def processLine (host : Host β α) (c : Conn β α) (nowMs : UInt64) : Conn β α :=
  match c.dialogue.login with
  | .name => c.processPlayerName host
  | .password => c.processExistingPassword host nowMs
  | .newPassword => c.processNewPassword host
  | .confirmPassword => c.processPasswordConfirmation host nowMs
  | .inGame => c.processCommand host nowMs

def processCompleteLine (host : Host β α) (c : Conn β α) (nowMs : UInt64) : Conn β α :=
  let (accepted, window) := rateConsume c.lineWindow 1 inputLinesPerWindow inputLinesWindowMs nowMs
  let c := { c with lineWindow := window }
  if !accepted then
    c.wipeLine.requestClose "line_flood" (some "Input rate limit exceeded.\r\n")
  else if c.input.lineOverflow then c.processOverflow
  else
    let c := { c with input.line := c.input.line.set c.input.lineLength 0 }
    let c := c.processLine host nowMs
    { c with input := { c.input.wipe with lineOverflow := false } }

end Conn

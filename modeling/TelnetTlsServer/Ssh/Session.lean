-- SUMMARY: An SSH connection from its first request to its end: authentication, the channel, the shell, the event loop and the cleanup.
import TelnetTlsServer.Ssh.Capabilities

/-!
# SSH sessions

libssh owns the protocol and calls back: to check a password, to open a channel, for a
terminal, a variable, a shell, for data. The worker lets it do so in `ssh_event_dopoll`
and looks at the clock, the application and the channel in between.

The answers of libssh are arguments here, and the order of the callbacks is any order.
-/

def sshAuthTimeoutMs : UInt64 := 120000
def sshIdleTimeoutMs : UInt64 := 900000
def sshSessionMaxMs : UInt64 := 12 * 60 * 60 * 1000

/-- What `ssh_transport_run_connection` is configured with. -/
structure SshHost (χ β α : Type) where
  peer : Bytes
  library : SshLibrary χ
  backend : Backend β
  application : Application α

/-- The `peer` field of a connection. -/
def SshHost.peerName {χ β α : Type} (host : SshHost χ β α) : Bytes :=
  (copyTerminalField (.zero 96) host.peer).string

inductive SshAuthAnswer where
  | denied
  | success
deriving DecidableEq, Repr

/-- `struct ssh_connection`, with the state of store and policy. -/
structure SshSession (χ β α : Type) where
  terminal : SshTerminal χ α
  accountName : Buffer 16
  authenticated : Bool
  connectedMs : UInt64
  authenticatedMs : UInt64
  backend : β

namespace SshSession

variable {χ β α : Type}

/-- A connection once its key exchange is done. -/
def initial (clientBanner : Option Bytes) (nowMs : UInt64) (backend : β) (app : α) :
    SshSession χ β α where
  terminal :=
    { connection :=
        { wire := ⟨none, false, false, app, []⟩
          applicationSession := none
          line := .zero 513
          lineLength := 0
          pendingCr := false
          escapeState := .ground
          shellStarted := false
          lastActivityMs := nowMs
          byteWindow := ⟨0, 0⟩
          lineWindow := ⟨0, 0⟩ }
      capabilities := initialCapabilities clientBanner }
  accountName := .zero 16
  authenticated := false
  connectedMs := nowMs
  authenticatedMs := 0
  backend := backend

def wire (s : SshSession χ β α) : SshWire χ α := s.terminal.connection.wire

def onConnection (s : SshSession χ β α) (f : SshConnection χ α → SshConnection χ α) :
    SshSession χ β α :=
  { s with terminal.connection := f s.terminal.connection }

def onWire (s : SshSession χ β α) (f : SshWire χ α → SshWire χ α) : SshSession χ β α :=
  s.onConnection (·.onWire f)

def audit (s : SshSession χ β α) (event detail : String) : SshSession χ β α :=
  s.onWire (·.auditConnection event detail)

def tell (host : SshHost χ β α) (s : SshSession χ β α) (text : String) : SshSession χ β α :=
  s.onConnection (·.tell host.library text)

def requestClose (s : SshSession χ β α) : SshSession χ β α := s.onWire .setCloseRequested

/-- Record a call of the store or the policy and the state it left. -/
def record (s : SshSession χ β α) (call : BackendCall) (backend : β) : SshSession χ β α :=
  { s.onWire (·.emit (.backend call)) with backend := backend }

/-! ## Authentication -/

/-- The end of `password_auth_callback`, once the policy has let the attempt through. -/
def checkPassword (host : SshHost χ β α) (s : SshSession χ β α) (user password : Bytes)
    (nowMs : UInt64) : SshAuthAnswer × SshSession χ β α :=
  let ((verified, rehashed), backend) := host.backend.verifyPassword s.backend user password
  let s := s.record (.verifyPassword user password verified) backend
  if verified ≠ 1 then
    let s := s.record (.noteAuthFailure host.peerName user nowMs)
      (host.backend.noteAuthFailure s.backend host.peerName user nowMs)
    (.denied, s.audit "ssh_login_failure"
      (if verified < 0 then "credential store error" else "invalid credentials"))
  else
    let s := s.record (.noteAuthSuccess host.peerName user nowMs)
      (host.backend.noteAuthSuccess s.backend host.peerName user nowMs)
    let s :=
      { s with
        accountName := copyTerminalField s.accountName user
        authenticated := true
        authenticatedMs := nowMs
        terminal.connection.lastActivityMs := nowMs }
    (.success, s.audit "ssh_login_success"
      (if rehashed then "password accepted; verifier upgraded" else "password accepted"))

/-- `nowMs` is the clock's answer, 0 if it failed. -/
def passwordAuthCallback (host : SshHost χ β α) (s : SshSession χ β α)
    (user password : Option Bytes) (nowMs : UInt64) : SshAuthAnswer × SshSession χ β α :=
  match user, password with
  | some user, some password =>
      if s.authenticated || !playerStoreNameValid user then (.denied, s)
      else if password.length < playerPasswordMin || password.length > playerPasswordMax then
        (.denied, s.audit "ssh_login_failure" "invalid username or password length")
      else if nowMs = 0 then
        (.denied, s.audit "ssh_login_throttled" "password authentication delayed by shared policy")
      else
        let (allowed, backend) :=
          host.backend.allowAuthAttempt s.backend host.peerName user nowMs
        let s := s.record (.allowAuthAttempt host.peerName user nowMs allowed) backend
        if !allowed then
          (.denied,
            s.audit "ssh_login_throttled" "password authentication delayed by shared policy")
        else s.checkPassword host user password nowMs
  | _, _ => (.denied, s)

/-! ## Channel and shell -/

/-- `channel` is what `ssh_channel_new` returns, and `callbacksSet` whether it takes the
callbacks. The answer is whether there is a channel. -/
def sessionChannelCallback (s : SshSession χ β α) (channel : Option χ) (callbacksSet : Bool) :
    Bool × SshSession χ β α :=
  if !s.authenticated || s.wire.channel.isSome then (false, s)
  else
    match channel with
    | none => (false, s)
    | some channel =>
        if !callbacksSet then (false, s)
        else (true, s.onWire ({ · with channel := some channel }))

def openApplicationSession (host : SshHost χ β α) (s : SshSession χ β α) :
    Int × SshSession χ β α :=
  match host.application.open_ with
  | none => (-1, s.tell host "No terminal application is configured for SSH.\n")
  | some hook =>
      let name := s.accountName.string
      let capabilities := s.terminal.capabilities
      let (session, wire) := s.wire.callHook host.library (.open_ name capabilities)
        (hook name capabilities)
      let s := s.onConnection ({ · with wire := wire, applicationSession := session })
      match session with
      | none =>
          (-1, s.audit "ssh_application_rejected" "authenticated application attachment rejected")
      | some _ => (0, s)

def shellRequestCallback (host : SshHost χ β α) (s : SshSession χ β α) : Int × SshSession χ β α :=
  if !s.authenticated || s.terminal.connection.shellStarted then (1, s)
  else
    let s := s.onConnection ({ · with shellStarted := true })
    let (opened, s) := s.openApplicationSession host
    if opened ≠ 0 then (1, s.requestClose)
    else (0, s.audit "ssh_session_open" "interactive terminal application opened")

def execRequestCallback (s : SshSession χ β α) : Int × SshSession χ β α :=
  (1, s.audit "ssh_exec_denied" "exec requests are not a MUD shell")

def subsystemRequestCallback (s : SshSession χ β α) : Int × SshSession χ β α :=
  (1, s.audit "ssh_subsystem_denied" "subsystems are disabled")

/-! ## The event loop -/

/-- A callback of libssh. -/
inductive Callback (χ : Type) where
  | password (user password : Option Bytes) (nowMs : UInt64)
  | channel (channel : Option χ) (callbacksSet : Bool)
  | hint (request : SshRequest)
  | shell
  | exec
  | subsystem
  | data (data : Bytes) (isStderr : Bool) (nowMs : UInt64)
  | eof
  | close

def onCallback (host : SshHost χ β α) (s : SshSession χ β α) : Callback χ → SshSession χ β α
  | .password user password nowMs => (s.passwordAuthCallback host user password nowMs).2
  | .channel channel callbacksSet => (s.sessionChannelCallback channel callbacksSet).2
  | .hint request =>
      { s with terminal := request.handle host.library host.application s.terminal }
  | .shell => (s.shellRequestCallback host).2
  | .exec => s.execRequestCallback.2
  | .subsystem => s.subsystemRequestCallback.2
  | .data data isStderr nowMs =>
      s.onConnection (·.channelDataCallback host.library host.application data isStderr nowMs)
  | .eof | .close => s.requestClose

/-- `application.poll`, if there is a session to poll and a hook to do it. -/
def pollApplication (host : SshHost χ β α) (s : SshSession χ β α) : Int × SshSession χ β α :=
  match s.terminal.connection.applicationSession, host.application.poll with
  | some session, some hook =>
      if !s.terminal.connection.shellStarted then (0, s)
      else
        let (result, wire) := s.wire.callHook host.library (.poll session) (hook session)
        (result, s.onConnection ({ · with wire := wire }))
  | _, _ => (0, s)

/-- What happens in a round of the loop that is not up to the connection: the callbacks
during `ssh_event_dopoll`, its result, the clock, and the state of the channel. -/
structure Round (χ : Type) where
  connected : Bool
  callbacks : List (Callback χ)
  pollFailed : Bool
  nowMs : UInt64
  channelOpen : Bool
  channelEof : Bool

/-- The checks of a round, and whether the loop goes on. -/
def checks (host : SshHost χ β α) (s : SshSession χ β α) (r : Round χ) :
    Bool × SshSession χ β α :=
  if r.pollFailed then (false, s.audit "ssh_event_failure" "event poll failed")
  else if r.nowMs = 0 then (false, s)
  else if !s.authenticated && r.nowMs - s.connectedMs ≥ sshAuthTimeoutMs then
    (false, s.audit "ssh_auth_timeout" "authentication timed out")
  else if s.authenticated && !s.terminal.connection.shellStarted &&
      r.nowMs - s.authenticatedMs ≥ sshAuthTimeoutMs then
    (false, s.audit "ssh_channel_timeout" "interactive channel timed out")
  else if s.terminal.connection.shellStarted &&
      r.nowMs - s.terminal.connection.lastActivityMs ≥ sshIdleTimeoutMs then
    (false, (s.tell host "Idle timeout.\n").audit "ssh_idle_timeout" "session idle timeout")
  else
    let (polled, s) := s.pollApplication host
    if polled ≠ 0 then (false, s.requestClose)
    else if r.nowMs - s.connectedMs ≥ sshSessionMaxMs then
      (false, (s.tell host "Session time limit reached.\n").audit "ssh_session_timeout"
        "maximum session lifetime reached")
    else (!(s.wire.channel.isSome && (!r.channelOpen || r.channelEof)), s)

/-- The loop over the rounds there are. -/
def eventLoop (host : SshHost χ β α) (s : SshSession χ β α) : List (Round χ) → SshSession χ β α
  | [] => s
  | r :: rest =>
      if s.wire.closeRequested || !r.connected then s
      else
        let s := r.callbacks.foldl (onCallback host) s
        let (goOn, s) := s.checks host r
        if goOn then eventLoop host s rest else s

/-- `cleanup_ssh_connection`, as far as the application and the channel are concerned. -/
def cleanup (host : SshHost χ β α) (s : SshSession χ β α) : SshSession χ β α :=
  let s :=
    match s.terminal.connection.applicationSession, host.application.close with
    | some session, some hook =>
        let (_, wire) := s.wire.callHook host.library (.close session) (hook session)
        s.onConnection ({ · with wire := wire, applicationSession := none })
    | _, _ => s
  s.onWire ({ · with channel := none })

/-- `ssh_transport_run_connection`: its answer and what is left. The clock may fail, and
so may the key exchange or what leads to it. -/
def runConnection (host : SshHost χ β α) (clientBanner : Option Bytes) (nowMs : UInt64)
    (setUp : Bool) (backend : β) (app : α) (rounds : List (Round χ)) :
    Int × SshSession χ β α :=
  let s := initial clientBanner nowMs backend app
  if nowMs = 0 || !setUp then (-1, s.cleanup host)
  else
    let s := s.eventLoop host rounds
    (if s.authenticated && s.terminal.connection.shellStarted then 0 else -1, s.cleanup host)

/-! ## Runs -/

/-- What a connection does at a time: a callback, or the checks at the end of a round. -/
inductive Action (χ : Type) where
  | callback (callback : Callback χ)
  | checks (round : Round χ)

def act (host : SshHost χ β α) (s : SshSession χ β α) : Action χ → SshSession χ β α
  | .callback callback => s.onCallback host callback
  | .checks round => (s.checks host round).2

def acts (host : SshHost χ β α) (s : SshSession χ β α) (actions : List (Action χ)) :
    SshSession χ β α :=
  actions.foldl (act host) s

/-- Runs of callbacks and checks in any order, which those of the event loop are some of. -/
def system (host : SshHost χ β α) : Transition.System (SshSession χ β α) (Action χ) where
  init s := ∃ clientBanner nowMs backend app, s = .initial clientBanner nowMs backend app
  step action s s' := s' = s.act host action

theorem reachable_act {host : SshHost χ β α} {s : SshSession χ β α}
    (hs : (system host).Reachable s) (action : Action χ) :
    (system host).Reachable (s.act host action) :=
  .step hs (show (system host).step action s _ from rfl)

theorem reachable_acts {host : SshHost χ β α} {s : SshSession χ β α}
    (hs : (system host).Reachable s) (actions : List (Action χ)) :
    (system host).Reachable (s.acts host actions) := by
  induction actions generalizing s with
  | nil => exact hs
  | cons action rest ih => exact ih (reachable_act hs action)

theorem reachable_callbacks {host : SshHost χ β α} {s : SshSession χ β α}
    (hs : (system host).Reachable s) (callbacks : List (Callback χ)) :
    (system host).Reachable (callbacks.foldl (onCallback host) s) := by
  induction callbacks generalizing s with
  | nil => exact hs
  | cons callback rest ih => exact ih (reachable_act hs (.callback callback))

theorem reachable_eventLoop {host : SshHost χ β α} {s : SshSession χ β α}
    (hs : (system host).Reachable s) (rounds : List (Round χ)) :
    (system host).Reachable (s.eventLoop host rounds) := by
  induction rounds generalizing s with
  | nil => exact hs
  | cons r rest ih =>
    have hround := reachable_act (reachable_callbacks hs r.callbacks) (.checks r)
    rw [eventLoop]
    dsimp only
    split_ifs
    · exact hs
    · exact ih hround
    · exact hround

end SshSession

/-- A server that lets everybody in. -/
def SshHost.welcoming : SshHost Unit Unit Unit :=
  ⟨ascii "192.0.2.1", .willing, .granting, .idle⟩

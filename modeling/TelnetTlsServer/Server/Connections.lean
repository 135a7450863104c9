-- SUMMARY: The code of the listener and of a worker, from accept to the end of a connection.
import TelnetTlsServer.Server.Runtime
import TelnetTlsServer.Session.Parser

/-!
# The listener and its workers

Loops without a bound of their own take a number of rounds; a run of the server is a
run of the model with enough of them. Socket options, audit records and the freeing of
memory are left out, as is what a session does with the bytes it is fed.
-/

open Interleaving

def tlsHandshakeTimeoutMs : UInt64 := 10000
def loginTimeoutMs : UInt64 := 120000
def idleTimeoutMs : UInt64 := 900000
def sessionMaxMs : UInt64 := 12 * 60 * 60 * 1000

/-! ## Configuration -/

/-- The fields that decide which listeners there are and what workers do; none is
`NULL`. -/
structure SecureServerConfig (α : Type) where
  certificatePath : Option Bytes
  privateKeyPath : Option Bytes
  sshHostKeyPath : Option Bytes
  playerDirectoryPath : Option Bytes
  auditLogPath : Option Bytes
  application : Option (Application α)
  telnetPort : UInt16
  telnetTlsPort : UInt16
  sshPort : UInt16

namespace SecureServerConfig

variable {α : Type}

/-- The first check of `secure_server_run`. -/
def valid (config : SecureServerConfig α) : Bool :=
  !(config.certificatePath.isNone || config.privateKeyPath.isNone ||
    config.playerDirectoryPath.isNone || config.auditLogPath.isNone ||
    config.telnetPort = 0 || config.telnetTlsPort = 0 ||
    config.telnetPort = config.telnetTlsPort ||
    (config.sshPort ≠ 0 && (config.sshHostKeyPath.isNone || config.application.isNone ||
      config.sshPort = config.telnetPort || config.sshPort = config.telnetTlsPort)))

/-- The listening sockets in their order. Those for IPv6 are there if it is. -/
def listenerTransports (config : SecureServerConfig α) (ipv6 : ConnectionTransport → Bool) :
    List ConnectionTransport :=
  let both (transport : ConnectionTransport) :=
    transport :: if ipv6 transport then [transport] else []
  both .telnet ++ both .telnetTls ++ if config.sshPort ≠ 0 then both .ssh else []

theorem ssh_mem_listenerTransports {config : SecureServerConfig α}
    {ipv6 : ConnectionTransport → Bool} :
    .ssh ∈ config.listenerTransports ipv6 ↔ config.sshPort ≠ 0 := by
  simp [listenerTransports]

/-- The hooks as `secure_server_run` copies them. -/
def hooks (config : SecureServerConfig α) : Application α :=
  config.application.getD (.absent α)

/-- What workers hand to a session: the hooks, or `NULL` if there is no `open`. -/
def sessionHooks (config : SecureServerConfig α) : Option (Application α) :=
  if config.hooks.open_.isSome then some config.hooks else none

/-- What `server_main.c` runs the server with if it has no arguments. -/
def harness (application : Application α) : SecureServerConfig α where
  certificatePath := some (ascii "local_tls/server.crt")
  privateKeyPath := some (ascii "local_tls/server.key")
  sshHostKeyPath := some (ascii "local_ssh/ssh_host_ed25519_key")
  playerDirectoryPath := some (ascii "data/players")
  auditLogPath := some (ascii "logs/security.log")
  application := some application
  telnetPort := 3333
  telnetTlsPort := 3334
  sshPort := 3335

end SecureServerConfig

/-! ## The listener -/

/-- Whether the clock works and the policy admits the peer. -/
def connectionAllowed : ServerProg Bool := do
  let nowMs ← exec .clock
  if nowMs = 0 then return false
  ask .allowConnection

def acceptConnection (transport : ConnectionTransport) : ServerProg Int := do
  match ← exec .accept with
  | .again => return 0
  | .failed => return -1
  | .accepted n =>
    if !(← connectionAllowed) then
      exec (.close n)
      return 0
    if !(← exec (.reserve n)) then
      exec (.close n)
      return 0
    if !(← ask .calloc) then
      exec (.close n)
      exec (.release n)
      return 0
    if !(← exec (.pthreadCreate n transport)) then
      exec (.close n)
      exec (.release n)
      return 0
    return 0

/-- The loop over the polled sockets; the result says whether a listener failed. -/
def acceptReady : List (ConnectionTransport × PollEvents) → ServerProg Bool
  | [] => return false
  | (transport, events) :: rest => do
    if events.failed then return true
    if events.readable then
      if (← acceptConnection transport) ≠ 0 then return true
      acceptReady rest
    else acceptReady rest

def listenLoop (listeners : List ConnectionTransport) : Nat → ServerProg Unit
  | 0 => exec .outOfRounds
  | rounds + 1 => do
    if ← ask .stopRequested then return
    match ← exec .poll with
    | .interrupted | .timeout => listenLoop listeners rounds
    | .failed => return
    | .ready events =>
      if ← acceptReady (listeners.zip events) then return
      listenLoop listeners rounds

def runtimeWaitForWorkers : Nat → ServerProg Unit
  | 0 => exec .outOfRounds
  | rounds + 1 => do
    if ← exec .workersLeft then
      exec .conditionWait
      runtimeWaitForWorkers rounds

/-- The part of `secure_server_run` with listeners. -/
def runListeners (listeners : List ConnectionTransport) (rounds : Nat) : ServerProg Unit := do
  listenLoop listeners rounds
  exec .beginShutdown
  runtimeWaitForWorkers rounds

/-! ## Workers -/

/-- Whether the handshake succeeds before the deadline. -/
def tlsAcceptWithDeadline (started : UInt64) : Nat → ServerProg Bool
  | 0 => do
    exec .outOfRounds
    return false
  | rounds + 1 => do
    if ← exec .isStopping then return false
    match ← exec .sslAccept with
    | .done _ => return true
    | answer =>
      let now ← exec .clock
      if now = 0 || started = 0 || now - started ≥ tlsHandshakeTimeoutMs then return false
      match answer with
      | .retry => tlsAcceptWithDeadline started rounds
      | _ => return false

def readConnection (transport : ConnectionTransport) : ServerProg ReadAnswer :=
  if transport = .telnetTls then exec .sslRead else exec .recv

/-- The loop of a Telnet session, which ends with whether TLS has failed. -/
def sessionLoop (transport : ConnectionTransport) (connectedAt : UInt64) :
    Nat → UInt64 → ServerProg Bool
  | 0, _ => do
    exec .outOfRounds
    return false
  | rounds + 1, lastActivity => do
    if ← ask .writerFailed then return false
    if ← ask .sessionShouldClose then return false
    let now ← exec .clock
    if ← exec .isStopping then return false
    if now = 0 || connectedAt = 0 then return false
    if now - connectedAt ≥ sessionMaxMs then return false
    if !(← ask .sessionIsInGame) && now - connectedAt ≥ loginTimeoutMs then return false
    if (← ask .sessionIsInGame) && now - lastActivity ≥ idleTimeoutMs then return false
    if ← ask .sessionPoll then return false
    match ← readConnection transport with
    | .done received =>
      if received > 0 then
        let lastActivity ← exec .clock
        if ← ask .sessionFeed then return false
        sessionLoop transport connectedAt rounds lastActivity
      else sessionLoop transport connectedAt rounds lastActivity
    | .closed => return false
    | .retry => sessionLoop transport connectedAt rounds lastActivity
    | .failed => return transport = .telnetTls

/-- The session of a connection that is ready for one. -/
def runSession (transport : ConnectionTransport) (rounds : Nat) : ServerProg Bool := do
  if !(← ask .sessionCreate) then return false
  let connectedAt ← exec .clock
  sessionLoop transport connectedAt rounds connectedAt

/-- A worker's TLS connection up to its cleanup. -/
def runTls (rounds : Nat) : ServerProg Unit := do
  if !(← ask .sslNew) then return
  if !(← ask .sslSetFd) then return
  let started ← exec .clock
  if !(← tlsAcceptWithDeadline started rounds) then return
  let failed ← runSession .telnetTls rounds
  if !failed && !(← ask .writerFailed) then
    let _ ← ask .sslShutdown

/-- `setup_ssh_session`: whether there is a session object that is to be freed,
whether libssh has taken the descriptor, and whether the session is ready. -/
def setupSshSession (n : Nat) : ServerProg (Bool × Bool × Bool) := do
  let bound ← ask .sshBindNew
  let session ← ask .sshNew
  if !bound || !session then return (session, false, false)
  if !(← ask .sshHostKey) then return (true, false, false)
  if !(← ask .sshServerCallbacks) then return (true, false, false)
  if !(← exec (.sshBindAcceptFd n)) then return (true, false, false)
  if !(← ask .sshKeyExchange) then return (true, true, false)
  if !(← ask .sshEventNew) then return (true, true, false)
  if !(← ask .sshEventAddSession) then return (true, true, false)
  return (true, true, true)

def sshEventLoop : Nat → ServerProg Unit
  | 0 => exec .outOfRounds
  | rounds + 1 => do
    if !(← ask .sshConnected) then return
    if !(← ask .sshEventDopoll) then return
    let now ← exec .clock
    if now = 0 then return
    if ← ask .sshAuthTimeout then return
    if ← ask .sshChannelTimeout then return
    if ← ask .sshIdleTimeout then return
    if ← ask .sshPollCloses then return
    if ← ask .sshSessionTimeout then return
    if ← ask .sshChannelEnded then return
    sshEventLoop rounds

/-- `cleanup_ssh_connection`, as far as the descriptor is concerned. -/
def cleanupSshConnection (n : Nat) (session attached : Bool) : ServerProg Unit := do
  if session then exec (.sshFree n)
  if !attached then exec (.close n)

/-- The store, the policy and the peer of a worker are never `NULL`. -/
def sshTransportRunConnection {α : Type} (hostKeyPath : Option Bytes)
    (application : Option (Application α)) (rounds n : Nat) : ServerProg Unit := do
  if hostKeyPath.isNone || application.isNone then return
  let now ← exec .clock
  if now = 0 then cleanupSshConnection n false false
  else
    let (session, attached, ready) ← setupSshSession n
    if ready then sshEventLoop rounds
    cleanupSshConnection n session attached

def connectionWorker {α : Type} (config : SecureServerConfig α) (rounds n : Nat) :
    ServerProg Unit := do
  let transport ← exec (.beginWorker n)
  match transport with
  | .ssh =>
    sshTransportRunConnection config.sshHostKeyPath config.sessionHooks rounds n
    exec (.release n)
  | .telnetTls =>
    runTls rounds
    exec (.close n)
    exec (.release n)
  | .telnet =>
    let _ ← runSession .telnet rounds
    exec (.close n)
    exec (.release n)

/-! ## The server -/

def serverThreads {α : Type} (config : SecureServerConfig α)
    (ipv6 : ConnectionTransport → Bool) (rounds : Nat) : ServerThread → ServerProg Unit
  | .listener => runListeners (config.listenerTransports ipv6) rounds
  | .worker n => connectionWorker config rounds n

/-- The runs of a server that listens. -/
def serverSystem {α : Type} (config : SecureServerConfig α)
    (ipv6 : ConnectionTransport → Bool) (rounds : Nat) :
    Transition.System (Pool ServerThread ServerState ServerOp ServerOp.Answer Unit) ServerThread :=
  Pool.system serverSem .initial (serverThreads config ipv6 rounds)

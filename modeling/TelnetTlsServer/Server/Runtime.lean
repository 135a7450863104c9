-- SUMMARY: The state that the listener and its workers share, and the operations they perform on it.
import TelnetTlsServer.Codes
import TelnetTlsServer.Lib.Interleaving

/-!
# The runtime of the server

The listener and the workers share `struct server_runtime`. A function that holds the
mutex is one operation, and so is every call of a library whose answer the code
branches on. Connections are numbered by the calls of `accept` that returned them, as
the system may reuse the number of a descriptor once it is closed. The worker of a
connection has its number.

`history` is a record for the proofs; no code reads it. libssh closes a descriptor in
`ssh_free` if `ssh_bind_accept_fd` has succeeded for it, and not otherwise.
-/

open Interleaving

def maxActiveConnections : Nat := 64

inductive ConnectionTransport where
  | telnet
  | telnetTls
  | ssh
deriving DecidableEq, Repr

inductive ServerEvent where
  | granted (n : Nat)
  | released (n : Nat)
  /-- The guard of `runtime_release_connection` found no active connection. -/
  | underflow (n : Nat)
  | closed (n : Nat)
  | shutdown
deriving DecidableEq, Repr

def ServerEvent.connection : ServerEvent → Option Nat
  | .granted n | .released n | .underflow n | .closed n => some n
  | .shutdown => none

/-- `args` are the arguments of the worker threads that were created, and `attached`
says which descriptors libssh owns. -/
structure ServerState where
  activeConnections : Nat
  stopping : Bool
  accepted : Nat
  args : Nat → Option ConnectionTransport
  attached : Nat → Bool
  history : List ServerEvent

namespace ServerState

def initial : ServerState := ⟨0, false, 0, fun _ => none, fun _ => false, []⟩

def emit (s : ServerState) (e : ServerEvent) : ServerState :=
  { s with history := s.history ++ [e] }

def runtimeReserveConnection (s : ServerState) (n : Nat) : Bool × ServerState :=
  if !s.stopping && s.activeConnections < maxActiveConnections then
    (true, { s with activeConnections := s.activeConnections + 1 }.emit (.granted n))
  else (false, s)

def runtimeReleaseConnection (s : ServerState) (n : Nat) : ServerState :=
  if s.activeConnections > 0 then
    { s with activeConnections := s.activeConnections - 1 }.emit (.released n)
  else s.emit (.underflow n)

def runtimeBeginShutdown (s : ServerState) : ServerState :=
  { s with stopping := true }.emit .shutdown

end ServerState

/-! ## Operations -/

/-- A call whose answer is yes or no and that changes nothing here. -/
inductive Question where
  | stopRequested
  | allowConnection
  | calloc
  | sslNew
  | sslSetFd
  | sslShutdown
  | sessionCreate
  | writerFailed
  | sessionShouldClose
  | sessionIsInGame
  | sessionPoll
  | sessionFeed
  | sshBindNew
  | sshNew
  | sshHostKey
  | sshServerCallbacks
  | sshKeyExchange
  | sshEventNew
  | sshEventAddSession
  | sshConnected
  | sshEventDopoll
  | sshAuthTimeout
  | sshChannelTimeout
  | sshIdleTimeout
  | sshPollCloses
  | sshSessionTimeout
  | sshChannelEnded
deriving DecidableEq, Repr

/-- `revents` of a listening socket. -/
structure PollEvents where
  failed : Bool
  readable : Bool

inductive PollAnswer where
  | interrupted
  | failed
  | timeout
  | ready (events : List PollEvents)

inductive AcceptAnswer where
  | again
  | failed
  | accepted (n : Nat)

/-- How `SSL_accept`, `SSL_read_ex` and `recv` end. -/
inductive ReadAnswer where
  | done (received : Nat)
  | closed
  | retry
  | failed

inductive ServerOp where
  | ask (question : Question)
  | clock
  | poll
  | accept
  | reserve (n : Nat)
  | release (n : Nat)
  | isStopping
  | beginShutdown
  /-- The test of `runtime_wait_for_workers`. -/
  | workersLeft
  | conditionWait
  | pthreadCreate (n : Nat) (transport : ConnectionTransport)
  /-- The first step of a thread, once it has been created. -/
  | beginWorker (n : Nat)
  | sslAccept
  | sslRead
  | recv
  | close (n : Nat)
  | sshBindAcceptFd (n : Nat)
  | sshFree (n : Nat)
  /-- The end of a bounded number of rounds: there is no step. -/
  | outOfRounds

abbrev ServerOp.Answer : ServerOp → Type
  | .ask _ | .reserve _ | .isStopping | .workersLeft | .pthreadCreate _ _ | .sshBindAcceptFd _ =>
      Bool
  | .clock => UInt64
  | .poll => PollAnswer
  | .accept => AcceptAnswer
  | .beginWorker _ => ConnectionTransport
  | .sslAccept | .sslRead | .recv => ReadAnswer
  | .release _ | .beginShutdown | .conditionWait | .close _ | .sshFree _ | .outOfRounds => Unit

/-- What an operation may answer and do. -/
def ServerState.Does (s : ServerState) : (op : ServerOp) → op.Answer → ServerState → Prop
  | .accept, .accepted n, s' => n = s.accepted ∧ s' = { s with accepted := s.accepted + 1 }
  | .reserve n, allowed, s' => (allowed, s') = s.runtimeReserveConnection n
  | .release n, _, s' => s' = s.runtimeReleaseConnection n
  | .isStopping, stopping, s' => stopping = s.stopping ∧ s' = s
  | .beginShutdown, _, s' => s' = s.runtimeBeginShutdown
  | .workersLeft, left, s' => left = decide (s.activeConnections > 0) ∧ s' = s
  | .pthreadCreate n transport, true, s' =>
      s' = { s with args := Function.update s.args n (some transport) }
  | .beginWorker n, transport, s' => s.args n = some transport ∧ s' = s
  | .close n, _, s' => s' = s.emit (.closed n)
  | .sshBindAcceptFd n, true, s' => s' = { s with attached := Function.update s.attached n true }
  | .sshFree n, _, s' => s' = if s.attached n then
      { s with attached := Function.update s.attached n false }.emit (.closed n) else s
  | .outOfRounds, _, _ => False
  | _, _, s' => s' = s

/-! ## Threads -/

inductive ServerThread where
  | listener
  | worker (n : Nat)
deriving DecidableEq, Repr

def serverSem : Sem ServerThread ServerState ServerOp ServerOp.Answer :=
  fun _ op s answer s' => s.Does op answer s'

abbrev ServerProg := Prog ServerOp ServerOp.Answer

/-- One operation. -/
abbrev exec (op : ServerOp) : ServerProg op.Answer := .perform op

abbrev ask (question : Question) : ServerProg Bool := exec (.ask question)

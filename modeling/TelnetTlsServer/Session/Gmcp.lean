-- SUMMARY: No GMCP message is lost or handed over twice: the application's GMCP calls are the early handshake messages that were kept and then every later one.
import TelnetTlsServer.Session.Lifecycle

/-!
# GMCP messages

A client may send its GMCP handshake before the player has logged in, when there
is no application session to hand it to. `GmcpLog` runs a session and remembers
every message that was accepted, before and after the application was opened.
The calls that the application receives are then a function of that history.
-/

def ApplicationCall.isGmcp : ApplicationCall → Bool
  | gmcp .. => true
  | open_ .. | line .. | capabilitiesChanged .. | poll .. | close .. => false

/-- The accepted messages, by whether the application had been opened. -/
structure GmcpLog (β α : Type) where
  conn : Conn β α
  early : List PendingGmcpCoreMessage
  late : List PendingGmcpCoreMessage

namespace GmcpLog

variable {β α : Type}

open Link

/-- The application's `open` has been called. -/
def opened (g : GmcpLog β α) : Bool := g.conn.link.wire.applicationCalls.any ApplicationCall.isOpen

def next (host : Host β α) (g : GmcpLog β α) (action : Conn.Action) : GmcpLog β α where
  conn := g.conn.act host action
  early := if g.opened then g.early else g.early ++ (g.conn.accepts action).toList
  late := if g.opened then g.late ++ (g.conn.accepts action).toList else g.late

def system (host : Host β α) : Transition.System (GmcpLog β α) Conn.Action where
  init g := ∃ backend app, g = ⟨.initial host backend app, [], []⟩
  step action g g' := g' = g.next host action

theorem reachable_conn {host : Host β α} {g : GmcpLog β α} (hg : (system host).Reachable g) :
    (Conn.system host).Reachable g.conn := by
  induction hg with
  | init h =>
    obtain ⟨backend, app, rfl⟩ := h
    exact .init ⟨backend, app, rfl⟩
  | step _ h ih =>
    obtain rfl := h
    exact Conn.reachable_act ih _

/-- The calls that handed a message over. -/
def calls (g : GmcpLog β α) : List ApplicationCall :=
  g.conn.link.wire.applicationCalls.filter ApplicationCall.isGmcp

/-- The early messages that are kept: the first few of the handshake. -/
def kept (messages : List PendingGmcpCoreMessage) : List PendingGmcpCoreMessage :=
  (messages.filter fun message => gmcpCoreHandshakePackage message.packageName).take
    pendingGmcpCoreMax

/-- What an application session is to receive: the early messages that were kept,
then all later ones. -/
def deliveries (session : Option Nat) (early late : List PendingGmcpCoreMessage) :
    List ApplicationCall :=
  match session with
  | none => []
  | some session => (kept early ++ late).map (gmcpCall session)

theorem queued_kept {hooks : Application α} (hgmcp : hooks.gmcp.isSome = true)
    (messages : List PendingGmcpCoreMessage) (message : PendingGmcpCoreMessage) :
    queued hooks (kept messages) message = kept (messages ++ [message]) := by
  have hsome : hooks.gmcp.isNone = false := by
    cases h : hooks.gmcp <;> simp_all
  unfold queued kept
  cases hpackage : gmcpCoreHandshakePackage message.packageName with
  | false => simp [hpackage]
  | true =>
    simp only [hsome, hpackage, List.filter_append, List.filter_cons_of_pos, List.filter_nil,
      List.length_take, Bool.not_true, Bool.or_false, Bool.false_eq_true, if_false]
    split
    case isTrue hfull => rw [List.take_append_of_le_length (by omega)]
    case isFalse hroom =>
      have hlength : (messages.filter fun message =>
        gmcpCoreHandshakePackage message.packageName).length < pendingGmcpCoreMax := by omega
      rw [List.take_of_length_le (by omega), List.take_of_length_le (by simp; omega)]

/-- What the calls and the waiting messages are. -/
structure Accounted (g : GmcpLog β α) : Prop where
  waiting : g.opened = false → g.conn.link.caps.pendingGmcpCore = kept g.early ∧ g.late = []
  detached : g.conn.link.caps.applicationSession = none → g.calls = []
  attached : ∀ session, g.conn.link.caps.applicationSession = some session →
    g.calls = (kept g.early ++ g.late).map (gmcpCall session)

section Step

variable {host : Host β α} {g : GmcpLog β α} {action : Conn.Action} {made : List ApplicationCall}

theorem opened_of_session (hlived : Conn.Lived host g.conn.link g.conn.dialogue.login)
    {session : Nat} (h : g.conn.link.caps.applicationSession = some session) :
    g.opened = true := by
  cases hlived with
  | unopened _ hsession => cases hsession.symm.trans h
  | opened _ _ _ _ _ hcalls => simp [opened, hcalls, ApplicationCall.isOpen]

theorem calls_next (hdoes : g.conn.link.wire.Does made (g.conn.act host action).link.wire) :
    (g.next host action).calls = g.calls ++ made.filter ApplicationCall.isGmcp := by
  rw [calls, next, hdoes.applicationCalls, List.filter_append]
  rfl

theorem opened_next (hdoes : g.conn.link.wire.Does made (g.conn.act host action).link.wire) :
    (g.next host action).opened = (g.opened || made.any ApplicationCall.isOpen) := by
  rw [opened, next, hdoes.applicationCalls, List.any_append]
  rfl

theorem next_of_none (host : Host β α) (h : g.conn.accepts action = none) :
    (g.next host action).early = g.early ∧ (g.next host action).late = g.late := by
  simp [next, h]

/-- An action that brings no message, hands none over and does not open. -/
theorem Accounted.goOn (h : Accounted g) (hnone : g.conn.accepts action = none)
    (hsession : (g.conn.act host action).link.caps.applicationSession =
      g.conn.link.caps.applicationSession)
    (hpending : (g.conn.act host action).link.caps.pendingGmcpCore =
      g.conn.link.caps.pendingGmcpCore)
    (hdoes : g.conn.link.wire.Does made (g.conn.act host action).link.wire)
    (hmade : ∀ call ∈ made, call.isGmcp = false ∧ call.isOpen = false) :
    Accounted (g.next host action) := by
  obtain ⟨hearly, hlate⟩ := next_of_none host hnone
  have hcalls : (g.next host action).calls = g.calls := by
    rw [calls_next hdoes, List.filter_eq_nil_iff.mpr fun call hcall => by simp [hmade call hcall],
      List.append_nil]
  have hopened : (g.next host action).opened = g.opened := by
    rw [opened_next hdoes, List.any_eq_false.mpr fun call hcall => by simp [hmade call hcall],
      Bool.or_false]
  constructor
  · rw [hopened, hearly, hlate]
    exact fun hwaiting => ⟨hpending.trans (h.waiting hwaiting).1, (h.waiting hwaiting).2⟩
  · rw [hcalls]
    exact fun hdetached => h.detached (hsession.symm.trans hdetached)
  · rw [hcalls, hearly, hlate]
    exact fun session hattached => h.attached session (hsession.symm.trans hattached)

theorem Accounted.goOn_core (h : Accounted g) (hnone : g.conn.accepts action = none) {core : Core}
    (hcore : (g.conn.act host action).link.caps.core = core)
    (hsession : core.applicationSession = g.conn.link.caps.applicationSession)
    (hpending : core.pendingGmcpCore = g.conn.link.caps.pendingGmcpCore)
    (hdoes : g.conn.link.wire.Does made (g.conn.act host action).link.wire)
    (hmade : ∀ call ∈ made, call.isGmcp = false ∧ call.isOpen = false) :
    Accounted (g.next host action) :=
  h.goOn hnone ((congrArg Core.applicationSession hcore).trans hsession)
    ((congrArg Core.pendingGmcpCore hcore).trans hpending) hdoes hmade

theorem Accounted.message (h : Accounted g)
    (hlived : Conn.Lived host g.conn.link g.conn.dialogue.login)
    {message : PendingGmcpCoreMessage} (hmessage : g.conn.accepts action = some message)
    (hcaps : (g.conn.act host action).link.caps = g.conn.link.caps) {session : Nat}
    (hsession : g.conn.link.caps.applicationSession = some session)
    (hdoes : g.conn.link.wire.Does [gmcpCall session message]
      (g.conn.act host action).link.wire) : Accounted (g.next host action) := by
  have hopened := opened_of_session hlived hsession
  have hsession' : (g.next host action).conn.link.caps.applicationSession = some session :=
    (congrArg _ hcaps).trans hsession
  constructor
  · rw [opened_next hdoes, hopened]
    exact fun h => by cases h
  · exact fun hnone => by cases hnone.symm.trans hsession'
  · intro session' hattached
    obtain rfl := Option.some.inj (hsession'.symm.trans hattached)
    rw [calls_next hdoes, h.attached session hsession]
    simp [next, hopened, hmessage, gmcpCall, ApplicationCall.isGmcp]

theorem Accounted.early (h : Accounted g) (hgmcp : host.application.gmcp.isSome = true)
    {message : PendingGmcpCoreMessage} (hmessage : g.conn.accepts action = some message)
    (hnone : g.conn.link.caps.applicationSession = none)
    (hcaps : (g.conn.act host action).link.caps = { g.conn.link.caps with
      pendingGmcpCore := queued host.application g.conn.link.caps.pendingGmcpCore message })
    (hdoes : g.conn.link.wire.Does [] (g.conn.act host action).link.wire) :
    Accounted (g.next host action) := by
  have hnone' : (g.next host action).conn.link.caps.applicationSession = none := by
    rw [next, hcaps]
    exact hnone
  constructor
  · rw [opened_next hdoes, List.any_nil, Bool.or_false]
    intro hwaiting
    obtain ⟨hpending, hlate⟩ := h.waiting hwaiting
    simp only [next, hwaiting, hmessage, hcaps, hpending, queued_kept hgmcp]
    exact ⟨rfl, hlate⟩
  · intro _
    rw [calls_next hdoes, h.detached hnone]
    rfl
  · exact fun session hattached => by cases hnone'.symm.trans hattached

theorem Accounted.opens (h : Accounted g) (hgmcp : host.application.gmcp.isSome = true)
    (hnone : g.conn.accepts action = none) (hcalls : g.conn.link.wire.applicationCalls = [])
    {session : Option Nat} {name : Bytes} {view : TerminalCapabilities}
    (hsession : (g.conn.act host action).link.caps.applicationSession = session)
    (hdoes : g.conn.link.wire.Does
      (.open_ name view :: replayed host.application session g.conn.link.caps.pendingGmcpCore)
      (g.conn.act host action).link.wire) : Accounted (g.next host action) := by
  obtain ⟨hearly, hlate⟩ := next_of_none host hnone
  obtain ⟨hpending, hempty⟩ := h.waiting (by simp [opened, hcalls])
  have hcalls' : (g.next host action).calls =
      (replayed host.application session (kept g.early)).filter ApplicationCall.isGmcp := by
    rw [calls_next hdoes, calls, hcalls, hpending]
    rfl
  constructor
  · rw [opened_next hdoes]
    exact fun h => by simp [ApplicationCall.isOpen] at h
  · intro hdetached
    obtain rfl : none = session := hdetached.symm.trans hsession
    rw [hcalls']
    rfl
  · intro session' hattached
    obtain rfl : some session' = session := hattached.symm.trans hsession
    rw [hcalls', hearly, hlate, hempty, List.append_nil, replayed, if_pos hgmcp]
    exact List.filter_eq_self.mpr fun call hcall => by
      obtain ⟨message, -, rfl⟩ := List.mem_map.mp hcall
      rfl

theorem Accounted.deed (h : Accounted g) (hgmcp : host.application.gmcp.isSome = true)
    (hlived : Conn.Lived host g.conn.link g.conn.dialogue.login) {login : LoginState}
    (hdeed : Conn.Deed host g.conn action (g.conn.act host action).link login made)
    (hdoes : g.conn.link.wire.Does made (g.conn.act host action).link.wire) :
    Accounted (g.next host action) := by
  have hquiet : ∀ call ∈ ([] : List ApplicationCall), call.isGmcp = false ∧ call.isOpen = false := by
    simp
  have htold : ∀ call ∈ notices host.application (g.conn.act host action).link.caps,
      call.isGmcp = false ∧ call.isOpen = false := by
    intro call hcall
    unfold notices at hcall
    split at hcall
    · rw [List.mem_singleton.mp hcall]
      exact ⟨rfl, rfl⟩
    · cases hcall
  cases hdeed with
  | talk hnone hcore =>
    exact h.goOn_core hnone hcore rfl rfl hdoes hquiet
  | started hnone hcore =>
    exact h.goOn_core hnone hcore rfl rfl hdoes hquiet
  | option _ _ hnone hcore =>
    exact h.goOn_core hnone hcore rfl rfl hdoes htold
  | environ hnone hcore =>
    exact h.goOn_core hnone hcore rfl rfl hdoes htold
  | report hnone _ hcore =>
    exact h.goOn_core hnone hcore rfl rfl hdoes hquiet
  | message hmessage hcaps hsession => exact h.message hlived hmessage hcaps hsession hdoes
  | early hmessage hno hcaps =>
    refine h.early hgmcp hmessage (hno.resolve_right fun hnone => ?_) hcaps hdoes
    rw [hnone] at hgmcp
    cases hgmcp
  | polled hnone hcaps =>
    exact h.goOn hnone (congrArg _ hcaps) (congrArg _ hcaps) hdoes (by simp [ApplicationCall.isGmcp,
      ApplicationCall.isOpen])
  | command hnone hcaps =>
    exact h.goOn hnone (congrArg _ hcaps) (congrArg _ hcaps) hdoes (by simp [ApplicationCall.isGmcp,
      ApplicationCall.isOpen])
  | echo _ hnone hcore =>
    exact h.goOn_core hnone hcore rfl rfl hdoes hquiet
  | welcome hnone hcore =>
    exact h.goOn_core hnone hcore rfl rfl hdoes hquiet
  | opened hnone hlogin _ _ _ _ hcore =>
    obtain ⟨-, hcalls⟩ := hlived.calls_nil (Conn.ne_inGame_of_isPassword hlogin)
    exact h.opens hgmcp hnone hcalls (congrArg Core.applicationSession hcore) hdoes

end Step

theorem accounted_of_reachable {host : Host β α} (hgmcp : host.application.gmcp.isSome = true)
    {g : GmcpLog β α} (hg : (system host).Reachable g) : g.Accounted := by
  refine hg.invariant (I := Accounted) ?_ ?_
  · rintro _ ⟨backend, app, rfl⟩
    exact ⟨fun _ => ⟨rfl, rfl⟩, fun _ => rfl, fun _ h => by cases h⟩
  · rintro action g _ hg h rfl
    obtain ⟨made, hdeed, hdoes⟩ := Conn.exists_deed host g.conn action
    exact h.deed hgmcp (Conn.lived_of_reachable (reachable_conn hg)) hdeed hdoes

/-- With a GMCP hook, the application's GMCP calls are these and no others: none
without an application session; with one, the early handshake messages, at most
four, and then every message accepted since, in the order they came. -/
theorem gmcp_calls_eq {host : Host β α} (hgmcp : host.application.gmcp.isSome = true)
    {g : GmcpLog β α} (hg : (system host).Reachable g) :
    g.calls = deliveries g.conn.link.caps.applicationSession g.early g.late := by
  have haccounted := accounted_of_reachable hgmcp hg
  cases hsession : g.conn.link.caps.applicationSession with
  | none => exact haccounted.detached hsession
  | some session => exact haccounted.attached session hsession

/-! ## Runs -/

def run (host : Host β α) (g : GmcpLog β α) (data : Bytes) : GmcpLog β α :=
  data.foldl (fun g byte => g.next host (.byte byte 0)) g

theorem reachable_run {host : Host β α} {g : GmcpLog β α} (hg : (system host).Reachable g)
    (data : Bytes) : (system host).Reachable (g.run host data) := by
  induction data generalizing g with
  | nil => exact hg
  | cons byte rest ih =>
    exact ih (.step hg (show (system host).step (.byte byte 0) g (g.next host _) from rfl))

/-- DO GMCP and a message. -/
def greeting : Bytes :=
  [255, 253, 201, 255, 250, 201] ++ ascii "Core.Hello \x7b\x7d" ++ [255, 240]

def login : Bytes := ascii "zoe\nsecret\n"

/-- One message before the login and the same once more after it. -/
theorem gmcp_calls_eq_greeted :
    let g := run Host.playing ⟨.initial Host.playing () (), [], []⟩ (greeting ++ login ++ greeting)
    (g.conn.link.caps.applicationSession = some 7 ∧ g.early.length = 1 ∧ g.late.length = 1) ∧
      g.calls = deliveries g.conn.link.caps.applicationSession g.early g.late :=
  ⟨by decide +kernel, gmcp_calls_eq rfl (reachable_run (.init ⟨(), (), rfl⟩) _)⟩

/-- The application opens no session. -/
def refusingHost : Host Unit Unit :=
  { Host.playing with application := { Application.idle with
      open_ := some fun _ _ _ => .ret (none, ()) } }

theorem not_handed_over {g : GmcpLog β α}
    (h : g.calls.length ≠ (kept g.early ++ g.late).length) :
    ¬ ∃ session, g.calls = (kept g.early ++ g.late).map (gmcpCall session) := by
  rintro ⟨session, heq⟩
  exact h (by rw [heq, List.length_map])

/-- The early message waits for a session that `open` refuses, and is not handed over. -/
theorem gmcp_unopened :
    let g := run refusingHost ⟨.initial refusingHost () (), [], []⟩ (greeting ++ login)
    g.opened = true ∧
      ¬ ∃ session, g.calls = (kept g.early ++ g.late).map (gmcpCall session) :=
  ⟨by decide +kernel, not_handed_over (by decide +kernel)⟩

end GmcpLog

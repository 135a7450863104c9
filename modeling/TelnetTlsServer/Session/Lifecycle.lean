-- SUMMARY: The application's life in a session: opened once, called with its own session only, closed once at the end; nothing is written or driven after a close.
import TelnetTlsServer.Session.Deeds

/-!
# The life of the application

Every hook can answer anything and can write and close through the output
interface while it runs. What does not depend on the hooks is the order of the
calls: `open` comes first and once, when the player enters the game; the other
calls follow it and carry the session it returned; `close` comes last. And once
a close has been requested, by whoever it was, nothing is written any more.
-/

namespace ApplicationCall

/-- A call between the opening and the close of this application session. -/
def isFor (session : Nat) : ApplicationCall → Bool
  | line s _ | capabilitiesChanged s _ | gmcp s _ _ | poll s => s == session
  | open_ .. | close _ => false

def isOpen : ApplicationCall → Bool
  | open_ .. => true
  | line .. | capabilitiesChanged .. | gmcp .. | poll .. | close .. => false

end ApplicationCall

/-! ## After a close -/

namespace Event

/-- Writes, lines and polls: what only an open session does. -/
def needsOpen : Event → Bool
  | write _ => true
  | application call => call.driven
  | audit .. | backend _ | msspQuery | closeRequest => false

/-- The record of a close has been made. -/
def isClosing : Event → Bool
  | audit _ detail => detail = closing
  | closeRequest => true
  | write _ | application _ | backend _ | msspQuery => false

/-- Once closed, a session stays so, and needs no open session. -/
theorem after_closed {e : Event} {closed : Bool} (h : e.after true = some closed) :
    closed = true ∧ e.needsOpen = false ∧ e.isClosing = false := by
  cases e with
  | write | closeRequest => cases h
  | audit event detail =>
    by_cases hdetail : detail = closing
    · simp [after, hdetail] at h
    · simp_all [after, needsOpen, isClosing]
  | application call =>
    cases hdriven : call.driven <;> simp_all [after, needsOpen, isClosing]
  | backend | msspQuery => simp_all [after, needsOpen, isClosing]

theorem after_open {e : Event} {closed : Bool} (h : e.after false = some closed) :
    closed = e.isClosing := by
  cases e with
  | audit event detail => by_cases hdetail : detail = closing <;> simp_all [after, isClosing]
  | write | application | backend | msspQuery | closeRequest => simp_all [after, isClosing]

theorem foldlM_after_closed {events : List Event} {closed : Bool}
    (h : events.foldlM after true = some closed) :
    closed = true ∧ ∀ e ∈ events, e.needsOpen = false := by
  induction events with
  | nil => exact ⟨(Option.some.inj h).symm, by simp⟩
  | cons e rest ih =>
    rw [List.foldlM_cons] at h
    obtain ⟨mid, he, hrest⟩ := Option.bind_eq_some_iff.mp h
    obtain ⟨rfl, hopen, -⟩ := after_closed he
    obtain ⟨hclosed, hall⟩ := ih hrest
    exact ⟨hclosed, by simpa using ⟨hopen, hall⟩⟩

/-- A session is closed exactly if a close is on record. -/
theorem foldlM_after_open {events : List Event} {closed : Bool}
    (h : events.foldlM after false = some closed) :
    closed = true ↔ ∃ e ∈ events, e.isClosing = true := by
  induction events with
  | nil => simp [← Option.some.inj h]
  | cons e rest ih =>
    rw [List.foldlM_cons] at h
    obtain ⟨mid, he, hrest⟩ := Option.bind_eq_some_iff.mp h
    have hmid := after_open he
    cases hclosing : e.isClosing with
    | true =>
      rw [hmid, hclosing] at hrest
      simp [(foldlM_after_closed hrest).1, hclosing]
    | false =>
      rw [hmid, hclosing] at hrest
      simpa [hclosing] using ih hrest

/-- What follows a close needs no open session. -/
theorem silent_of_foldlM {events before after' : List Event} {e : Event} {closed : Bool}
    (h : events.foldlM after false = some closed) (hsplit : events = before ++ e :: after')
    (he : e.isClosing = true) : ∀ e' ∈ after', e'.needsOpen = false := by
  rw [hsplit, List.foldlM_append] at h
  obtain ⟨mid, -, h⟩ := Option.bind_eq_some_iff.mp h
  rw [List.foldlM_cons] at h
  obtain ⟨closed', hafter, hrest⟩ := Option.bind_eq_some_iff.mp h
  cases mid with
  | true => simp [(after_closed hafter).2.2] at he
  | false =>
    rw [after_open hafter, he] at hrest
    exact (foldlM_after_closed hrest).2

end Event

/-! ## The calls of a life -/

namespace Wire

variable {α : Type} {made : List ApplicationCall} {w w' : Wire α}

/-- All calls to the application so far. -/
def applicationCalls (w : Wire α) : List ApplicationCall := w.trace.filterMap Event.application?

theorem Does.applicationCalls (h : Does made w w') :
    w'.applicationCalls = w.applicationCalls ++ made := by
  obtain ⟨events, htrace, rfl, -⟩ := h
  rw [Wire.applicationCalls, htrace, List.filterMap_append]
  rfl

theorem Does.extends (h : Does made w w') : w.trace <+: w'.trace := by
  obtain ⟨events, htrace, -⟩ := h
  exact ⟨events, htrace.symm⟩

/-- The events so far keep the discipline of closing. -/
def Orderly (w : Wire α) : Prop :=
  w.trace.foldlM Event.after false = some w.closeRequested

theorem Orderly.does (h : w.Orderly) (h' : Does made w w') : w'.Orderly := by
  obtain ⟨events, htrace, -, hafter⟩ := h'
  rw [Orderly, htrace, List.foldlM_append, h]
  exact hafter

end Wire

namespace Conn

variable {β α : Type}

open Link

/-- How far the application's life has come, with the calls it has received. -/
inductive Lived (host : Host β α) (link : Link α) (login : LoginState) : Prop where
  /-- It was not opened: the player is not in game, or there is no `open` hook. -/
  | unopened (hlogin : login ≠ .inGame ∨ host.application.open_ = none)
      (hsession : link.caps.applicationSession = none) (hcalls : link.wire.applicationCalls = []) :
      Lived host link login
  /-- The first call was `open`, made with the link `l`. Its answer is the
  application session, and every later call is for that session. -/
  | opened (hlogin : login = .inGame)
      {hook : Bytes → TerminalCapabilities → α → Wire.HookProgram (Option Nat × α)}
      (hopen : host.application.open_ = some hook)
      {l l' : Link α} {name : Bytes} {view : TerminalCapabilities}
      (hbefore : l.wire.applicationCalls = [])
      (hcall : l.callHook (.open_ name view) (hook name view) =
        (link.caps.applicationSession, l'))
      (hafter : l'.wire.trace <+: link.wire.trace)
      {rest : List ApplicationCall} (hcalls : link.wire.applicationCalls = .open_ name view :: rest)
      (hrest : ∀ call ∈ rest, ∃ session, link.caps.applicationSession = some session ∧
        call.isFor session = true) :
      Lived host link login

theorem isFor_of_mem_notices {hooks : Application α} {c : Capability} {call : ApplicationCall}
    (h : call ∈ notices hooks c) :
    ∃ session, c.applicationSession = some session ∧ call.isFor session = true := by
  unfold notices at h
  split at h
  case h_1 session _ hsession _ =>
    rw [List.mem_singleton] at h
    subst h
    exact ⟨session, hsession, beq_self_eq_true session⟩
  case h_2 => cases h

theorem isFor_of_mem_replayed {hooks : Application α} {session : Option Nat}
    {queue : List PendingGmcpCoreMessage} {call : ApplicationCall}
    (h : call ∈ replayed hooks session queue) :
    ∃ s, session = some s ∧ call.isFor s = true := by
  cases session with
  | none => cases h
  | some s =>
    simp only [replayed] at h
    split at h
    · obtain ⟨message, -, rfl⟩ := List.mem_map.mp h
      exact ⟨s, rfl, beq_self_eq_true s⟩
    · cases h

namespace Lived

variable {host : Host β α} {c : Conn β α} {action : Action} {link : Link α} {login : LoginState}
  {made : List ApplicationCall}

/-- Calls for the application session, if there is one, go on with its life. -/
theorem goOn (h : Lived host c.link c.dialogue.login)
    (hlogin : login = .inGame ↔ c.dialogue.login = .inGame)
    (hsession : link.caps.applicationSession = c.link.caps.applicationSession)
    (hmade : ∀ call ∈ made, ∃ session, c.link.caps.applicationSession = some session ∧
      call.isFor session = true)
    (hdoes : c.link.wire.Does made link.wire) : Lived host link login := by
  cases h with
  | unopened hbefore hnone hcalls =>
    have hmade : made = [] := by
      refine List.eq_nil_iff_forall_not_mem.mpr fun call hcall => ?_
      obtain ⟨session, hsome, -⟩ := hmade call hcall
      cases hnone.symm.trans hsome
    refine .unopened (hbefore.imp_left (mt hlogin.mp)) (hsession.trans hnone) ?_
    rw [hdoes.applicationCalls, hcalls, hmade]
    rfl
  | opened hgame hopen hbefore hcall hafter hcalls hrest =>
    rw [← hsession] at hcall hrest hmade
    refine .opened (hlogin.mpr hgame) hopen hbefore hcall (hafter.trans hdoes.extends)
      (hdoes.applicationCalls.trans (congrArg (· ++ made) hcalls)) fun call hmem => ?_
    rcases List.mem_append.mp hmem with hmem | hmem
    · exact hrest call hmem
    · exact hmade call hmem

theorem calls_nil (h : Lived host link login) (hlogin : login ≠ .inGame) :
    link.caps.applicationSession = none ∧ link.wire.applicationCalls = [] := by
  cases h with
  | unopened _ hsession hcalls => exact ⟨hsession, hcalls⟩
  | opened hgame => exact absurd hgame hlogin

theorem deed (h : Lived host c.link c.dialogue.login) (hdeed : Deed host c action link login made)
    (hdoes : c.link.wire.Does made link.wire) : Lived host link login := by
  have hnone : ∀ call ∈ ([] : List ApplicationCall), ∃ session,
      c.link.caps.applicationSession = some session ∧ call.isFor session = true := by simp
  have htold : link.caps.applicationSession = c.link.caps.applicationSession →
      ∀ call ∈ notices host.application link.caps, ∃ session,
        c.link.caps.applicationSession = some session ∧ call.isFor session = true :=
    fun hsession _ hcall => hsession ▸ isFor_of_mem_notices hcall
  have hone : ∀ {call : ApplicationCall} {session : Nat},
      c.link.caps.applicationSession = some session → call.isFor session = true →
      ∀ call' ∈ [call], ∃ session, c.link.caps.applicationSession = some session ∧
        call'.isFor session = true :=
    fun hsession hfor _ hmem => ⟨_, hsession, List.mem_singleton.mp hmem ▸ hfor⟩
  cases hdeed with
  | talk _ hcore _ _ hgame =>
    exact h.goOn hgame (congrArg Core.applicationSession hcore) hnone hdoes
  | started _ hcore => exact h.goOn .rfl (congrArg Core.applicationSession hcore) hnone hdoes
  | option _ _ _ hcore =>
    have hsession := congrArg Core.applicationSession hcore
    exact h.goOn .rfl hsession (htold hsession) hdoes
  | environ _ hcore =>
    have hsession := congrArg Core.applicationSession hcore
    exact h.goOn .rfl hsession (htold hsession) hdoes
  | report _ _ hcore => exact h.goOn .rfl (congrArg Core.applicationSession hcore) hnone hdoes
  | message _ hcaps hsession =>
    exact h.goOn .rfl (congrArg _ hcaps) (hone hsession (beq_self_eq_true _)) hdoes
  | early _ _ hcaps =>
    refine h.goOn .rfl ?_ hnone hdoes
    rw [hcaps]
  | polled _ hcaps hsession =>
    exact h.goOn .rfl (congrArg _ hcaps) (hone hsession (beq_self_eq_true _)) hdoes
  | command _ hcaps hsession hlogin =>
    exact h.goOn ⟨fun _ => hlogin, fun _ => rfl⟩ (congrArg _ hcaps)
      (hone hsession (beq_self_eq_true _)) hdoes
  | echo _ _ hcore _ hlogin hlogin' =>
    exact h.goOn ⟨fun h => absurd h hlogin', fun h => absurd h hlogin⟩
      (congrArg Core.applicationSession hcore) hnone hdoes
  | welcome _ hcore _ hlogin hopen =>
    obtain ⟨hsession, hcalls⟩ := h.calls_nil (ne_inGame_of_isPassword hlogin)
    refine .unopened (.inr hopen) ((congrArg Core.applicationSession hcore).trans hsession) ?_
    rw [hdoes.applicationCalls, hcalls]
    rfl
  | @opened _ hlogin hook hopen l l' name session hbefore hcall hafter hcore =>
    obtain ⟨-, hcalls⟩ := h.calls_nil (ne_inGame_of_isPassword hlogin)
    have hsession : link.caps.applicationSession = session :=
      congrArg Core.applicationSession hcore
    rw [← hsession] at hcall
    refine .opened rfl hopen (hbefore.applicationCalls.trans (by simp [hcalls])) hcall
      hafter.extends (hdoes.applicationCalls.trans (by rw [hcalls]; rfl)) fun call hmem => ?_
    obtain ⟨s, hs, hfor⟩ := isFor_of_mem_replayed hmem
    exact ⟨s, hsession.trans hs, hfor⟩

end Lived

theorem lived_of_reachable {host : Host β α} {c : Conn β α} (hc : (system host).Reachable c) :
    Lived host c.link c.dialogue.login := by
  refine hc.invariant (I := fun c => Lived host c.link c.dialogue.login) ?_ ?_
  · rintro _ ⟨backend, app, rfl⟩
    exact .unopened (.inl (by simp [initial])) rfl rfl
  · rintro action c _ - h rfl
    obtain ⟨made, hdeed, hdoes⟩ := exists_deed host c action
    exact h.deed hdeed hdoes

theorem orderly_of_reachable {host : Host β α} {c : Conn β α}
    (hc : (system host).Reachable c) : c.link.wire.Orderly := by
  refine hc.invariant (I := fun c => c.link.wire.Orderly) ?_ ?_
  · rintro _ ⟨backend, app, rfl⟩
    rfl
  · rintro action c _ - h rfl
    obtain ⟨made, -, hdoes⟩ := exists_deed host c action
    exact h.does hdoes

/-- Only an action that takes the player into the game opens the application. -/
theorem login_of_open {host : Host β α} {c : Conn β α} {action : Action} {link : Link α}
    {login : LoginState} {made : List ApplicationCall} (h : Deed host c action link login made)
    {call : ApplicationCall} (hmem : call ∈ made) (hcall : call.isOpen = true) :
    c.dialogue.login ≠ .inGame ∧ login = .inGame := by
  have htold : ∀ c : Capability, call ∉ notices host.application c := by
    intro c hmem
    obtain ⟨session, -, hfor⟩ := isFor_of_mem_notices hmem
    cases call <;> simp_all [ApplicationCall.isOpen, ApplicationCall.isFor]
  cases h with
  | opened _ hlogin => exact ⟨ne_inGame_of_isPassword hlogin, rfl⟩
  | option => exact absurd hmem (htold _)
  | environ => exact absurd hmem (htold _)
  | message | polled | command =>
    rw [List.mem_singleton] at hmem
    subst hmem
    cases hcall
  | talk | started | report | early | echo | welcome => cases hmem

theorem does_destroy (host : Host β α) (c : Conn β α) :
    c.link.wire.Does
      (match c.link.caps.applicationSession, host.application.close with
      | some session, some _ => [.close session]
      | _, _ => []) (c.destroy host) := by
  unfold destroy
  cases c.link.caps.applicationSession with
  | none => exact .refl _
  | some session =>
    cases host.application.close with
    | none => exact .refl _
    | some hook => exact .callHook c.link.wire c.terminal _ (fun h => by cases h) _

theorem poll_result (host : Host β α) (c : Conn β α) :
    (c.poll host).1 = if (c.poll host).2.closed then -1 else 0 := by
  unfold poll
  cases hclosed : c.closed with
  | true => simp [hclosed]
  | false =>
    simp only [Bool.false_eq_true, if_false]
    cases c.link.caps.applicationSession with
    | none => simp [hclosed]
    | some session =>
      cases host.application.poll with
      | none => simp [hclosed]
      | some hook =>
        dsimp only
        split <;> simp

theorem feedAt_result (host : Host β α) (s : TelnetSession β α) (data : Bytes) (nowMs : UInt64) :
    (s.feedAt host data nowMs).1 = if (s.feedAt host data nowMs).2.conn.closed then -1 else 0 := by
  unfold TelnetSession.feedAt
  dsimp only
  split_ifs <;> simp_all

/-- The application's life, in every state that any bytes, calls and hooks lead
to, and at the end. `open` is called once, by the action that takes the player
into the game, and the other calls carry the session it returned (`Lived`). The
session's end calls `close` once if there is a session and a hook for it. After
the record of a close nothing is written and neither a line nor a poll reaches
the application; a session that has it is the closed one, and feeding and
polling it answer -1. -/
theorem application_lifecycle {host : Host β α} {c : Conn β α} (hc : (system host).Reachable c) :
    Lived host c.link c.dialogue.login ∧
    (∀ action made, (c.act host action).link.wire.applicationCalls =
        c.link.wire.applicationCalls ++ made →
      ∀ call ∈ made, call.isOpen = true →
        c.dialogue.login ≠ .inGame ∧ (c.act host action).dialogue.login = .inGame) ∧
    (c.destroy host).applicationCalls = c.link.wire.applicationCalls ++
      (match c.link.caps.applicationSession, host.application.close with
      | some session, some _ => [.close session]
      | _, _ => []) ∧
    c.link.wire.trace <+: (c.destroy host).trace ∧
    (∀ before e after, (c.destroy host).trace = before ++ e :: after → e.isClosing = true →
      ∀ e' ∈ after, e'.needsOpen = false) ∧
    (c.closed = true ↔ ∃ e ∈ c.link.wire.trace, e.isClosing = true) ∧
    (∀ byteWindow data nowMs,
      let fed := (TelnetSession.mk c byteWindow).feedAt host data nowMs
      (c.closed = true → fed = (-1, ⟨c, byteWindow⟩)) ∧
        fed.1 = if fed.2.conn.closed then -1 else 0) ∧
    (c.closed = true → c.poll host = (-1, c)) ∧
    (c.poll host).1 = if (c.poll host).2.closed then -1 else 0 := by
  have horderly := orderly_of_reachable hc
  have hdestroyed := does_destroy host c
  refine ⟨lived_of_reachable hc, fun action made hmade call hmem hcall => ?_,
    hdestroyed.applicationCalls, hdestroyed.extends, fun before e after hsplit he => ?_,
    Event.foldlM_after_open horderly, fun byteWindow data nowMs => ⟨fun hclosed => ?_, ?_⟩,
    fun hclosed => if_pos hclosed, poll_result host c⟩
  · obtain ⟨made', hdeed, hdoes⟩ := exists_deed host c action
    obtain rfl : made = made' :=
      List.append_cancel_left (hmade.symm.trans hdoes.applicationCalls)
    exact login_of_open hdeed hmem hcall
  · exact Event.silent_of_foldlM (horderly.does hdestroyed) hsplit he
  · exact if_pos hclosed
  · exact feedAt_result host ⟨c, byteWindow⟩ data nowMs

/-- A player logs in and types a command. -/
theorem application_lifecycle_played :
    let c := (initial Host.playing () ()).feedBytes Host.playing 0 (ascii "zoe\nsecret\nlook\n")
    (c.dialogue.login = .inGame ∧ c.link.caps.applicationSession = some 7 ∧
      c.link.wire.applicationCalls.getLast? = some (.line 7 (ascii "look"))) ∧
      Lived Host.playing c.link c.dialogue.login :=
  ⟨by decide +kernel, (application_lifecycle (reachable_feedBytes (.init ⟨(), (), rfl⟩) 0
    (ascii "zoe\nsecret\nlook\n"))).1⟩

end Conn

-- SUMMARY: The application's view of the terminal is current as long as no report changes the terminal without telling it.
import TelnetTlsServer.Session.Lifecycle

/-!
# The application's view

The application learns the terminal's capabilities from `open` and from
`capabilities_changed`. The last of these snapshots is its view. Every option
command renews the view; a report renews it only in the cases that `untold`
leaves out. So the view stays current exactly as long as the other reports
bring nothing new.
-/

/-- The snapshot that comes with a call. -/
def ApplicationCall.view? : ApplicationCall → Option TerminalCapabilities
  | open_ _ view | capabilitiesChanged _ view => some view
  | line .. | gmcp .. | poll .. | close .. => none

namespace Wire

variable {α : Type}

def lastView (w : Wire α) : Option TerminalCapabilities :=
  (w.applicationCalls.filterMap ApplicationCall.view?).getLast?

theorem Does.lastView {made : List ApplicationCall} {w w' : Wire α} (h : Does made w w') :
    w'.lastView = (made.filterMap ApplicationCall.view?).getLast?.or w.lastView := by
  rw [Wire.lastView, h.applicationCalls, List.filterMap_append, List.getLast?_append]
  rfl

end Wire

namespace Conn

variable {β α : Type}

open Link

/-- With an application session, the view is the terminal as it is. -/
def ViewCurrent (link : Link α) : Prop :=
  link.caps.applicationSession.isSome = true →
    link.wire.lastView = some (copyTerminalCapabilities link.caps.terminal)

/-- A report that is not told brings no capability the terminal did not have. -/
def BringsNothing (c : Conn β α) (action : Action) : Prop :=
  c.link.caps.applicationSession.isSome = true → c.finishes action = true →
    ∀ t, c.link.caps.untold c.parsing.subnegotiationOption c.parsing.subnegotiation = some t →
      copyTerminalCapabilities t = copyTerminalCapabilities c.terminal

section Step

variable {host : Host β α} {c : Conn β α} {action : Action} {link : Link α} {login : LoginState}
  {made : List ApplicationCall}

theorem ViewCurrent.goOn (h : ViewCurrent c.link)
    (hsession : link.caps.applicationSession = c.link.caps.applicationSession)
    (hterminal : copyTerminalCapabilities link.caps.terminal = copyTerminalCapabilities c.terminal)
    (hmade : made.filterMap ApplicationCall.view? = [])
    (hdoes : c.link.wire.Does made link.wire) : ViewCurrent link := by
  intro hattached
  rw [hsession] at hattached
  rw [hdoes.lastView, hmade, hterminal]
  exact h hattached

theorem viewCurrent_of_notices (hchanged : host.application.capabilitiesChanged.isSome = true)
    (hdoes : c.link.wire.Does (notices host.application link.caps) link.wire) :
    ViewCurrent link := by
  intro hattached
  obtain ⟨session, hsession⟩ := Option.isSome_iff_exists.mp hattached
  obtain ⟨hook, hhook⟩ := Option.isSome_iff_exists.mp hchanged
  rw [hdoes.lastView, notices, hsession, hhook]
  rfl

theorem filterMap_view_replayed (hooks : Application α) (session : Option Nat)
    (queue : List PendingGmcpCoreMessage) :
    (replayed hooks session queue).filterMap ApplicationCall.view? = [] := by
  refine List.filterMap_eq_nil_iff.mpr fun call hcall => ?_
  cases session with
  | none => cases hcall
  | some session =>
    simp only [replayed] at hcall
    split at hcall
    · obtain ⟨message, -, rfl⟩ := List.mem_map.mp hcall
      rfl
    · cases hcall

theorem ViewCurrent.deed (h : ViewCurrent c.link)
    (hchanged : host.application.capabilitiesChanged.isSome = true)
    (hnothing : c.BringsNothing action) (hdeed : Deed host c action link login made)
    (hdoes : c.link.wire.Does made link.wire) : ViewCurrent link := by
  cases hdeed with
  | talk _ hcore hterminal =>
    exact h.goOn (congrArg Core.applicationSession hcore) (congrArg _ hterminal) rfl hdoes
  | started _ hcore hterminal =>
    exact h.goOn (congrArg Core.applicationSession hcore) (congrArg _ hterminal) rfl hdoes
  | option | environ => exact viewCurrent_of_notices hchanged hdoes
  | report _ hfinishes hcore hterminal =>
    have hsession : link.caps.applicationSession = c.link.caps.applicationSession :=
      congrArg Core.applicationSession hcore
    intro hattached
    refine h.goOn hsession ?_ rfl hdoes hattached
    rw [hsession] at hattached
    rw [hterminal]
    cases huntold : c.link.caps.untold c.parsing.subnegotiationOption c.parsing.subnegotiation with
    | none => rfl
    | some t => exact hnothing hattached hfinishes t huntold
  | message _ hcaps => exact h.goOn (congrArg _ hcaps) (congrArg _ (congrArg _ hcaps)) rfl hdoes
  | early _ _ hcaps => exact h.goOn (by rw [hcaps]) (by rw [hcaps]; rfl) rfl hdoes
  | polled _ hcaps => exact h.goOn (congrArg _ hcaps) (congrArg _ (congrArg _ hcaps)) rfl hdoes
  | command _ hcaps => exact h.goOn (congrArg _ hcaps) (congrArg _ (congrArg _ hcaps)) rfl hdoes
  | echo _ _ hcore hterminal =>
    exact h.goOn (congrArg Core.applicationSession hcore) (congrArg _ hterminal) rfl hdoes
  | welcome _ hcore hterminal =>
    exact h.goOn (congrArg Core.applicationSession hcore) (congrArg _ hterminal) rfl hdoes
  | opened =>
    intro _
    simp [hdoes.lastView, ApplicationCall.view?, filterMap_view_replayed]

/-- A report that is not told leaves the view as it was, so the view is current
afterwards only if it brought nothing. -/
theorem bringsNothing_of_current (h : ViewCurrent c.link)
    (h' : ViewCurrent (c.act host action).link) : c.BringsNothing action := by
  intro hattached hfinishes t huntold
  have hoption : c.parsing.subnegotiationOption ≠ Telnet.Opt.gmcp := by
    intro hgmcp
    rw [hgmcp] at huntold
    cases huntold
  rw [link_act_of_finishes host hfinishes] at h'
  rcases finishSubnegotiation_conduct host.application c.link hoption c.parsing.subnegotiation with
    ⟨hnone, -⟩ | ⟨hstill, hterminal⟩
  · cases hnone.symm.trans huntold
  · rw [huntold, Option.getD_some] at hterminal
    have hsession := congrArg Core.applicationSession hstill.core
    have hview' := h' ((congrArg Option.isSome hsession).trans hattached)
    rw [hstill.wire.lastView, hterminal] at hview'
    exact Option.some.inj (hview'.symm.trans (h hattached))

end Step

/-- In a run of any actions from the beginning, the view is current in every state
if and only if every report that is not told brings nothing new. -/
theorem view_current_iff {host : Host β α}
    (hchanged : host.application.capabilitiesChanged.isSome = true) (backend : β) (app : α)
    (actions : List Action) :
    (∀ before, before <+: actions →
      ViewCurrent ((initial host backend app).acts host before).link) ↔
    ∀ before action, before ++ [action] <+: actions →
      ((initial host backend app).acts host before).BringsNothing action := by
  have hstep : ∀ (c : Conn β α) (action : Action), ViewCurrent c.link →
      (ViewCurrent (c.act host action).link ↔ c.BringsNothing action) := by
    intro c action hc
    refine ⟨bringsNothing_of_current hc, fun hnothing => ?_⟩
    obtain ⟨made, hdeed, hdoes⟩ := exists_deed host c action
    exact hc.deed hchanged hnothing hdeed hdoes
  have hnew : ViewCurrent (initial host backend app).link := fun hattached => by cases hattached
  exact Transition.System.along_iff (P := fun c : Conn β α => ViewCurrent c.link) hnew hstep actions

/-- A player logs in and their client turns NAWS on. -/
def sizing : List Action :=
  (ascii "zoe\nsecret\n" ++ [255, 251, 31]).map fun byte => .byte byte 0

theorem view_current_iff_sizing :
    Host.playing.application.capabilitiesChanged.isSome = true ∧
      ((∀ before, before <+: sizing →
        ViewCurrent ((initial Host.playing () ()).acts Host.playing before).link) ↔
      ∀ before action, before ++ [action] <+: sizing →
        ((initial Host.playing () ()).acts Host.playing before).BringsNothing action) :=
  ⟨rfl, view_current_iff rfl () () sizing⟩

/-- Then the client reports 100 columns and 40 rows. The feed answers 0, and the
application still holds the default geometry. -/
theorem view_stale_after_naws :
    let s := ((TelnetSession.mk (initial Host.playing () ()) ⟨0, 0⟩).feedAt Host.playing
      (ascii "zoe\nsecret\n" ++ [255, 251, 31]) 0).2
    let fed := s.feedAt Host.playing [255, 250, 31, 0, 100, 0, 40, 255, 240] 0
    (ViewCurrent s.conn.link ∧ fed.1 = 0) ∧
      fed.2.conn.link.caps.applicationSession = some 7 ∧
      fed.2.conn.terminal.width = 100 ∧
      fed.2.conn.link.wire.lastView.map TerminalCapabilities.width = some 80 ∧
      ¬ ViewCurrent fed.2.conn.link := by
  refine ⟨⟨fun _ => ?_, ?_⟩, ?_, ?_, ?_, fun h => ?_⟩
  · decide +kernel
  · decide +kernel
  · decide +kernel
  · decide +kernel
  · decide +kernel
  · exact absurd (h (by decide +kernel)) (by decide +kernel)

end Conn

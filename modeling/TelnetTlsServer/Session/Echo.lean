-- SUMMARY: The server's echo follows the login phase in every reachable session, whatever the peer sends.
import TelnetTlsServer.Session.Deeds

/-!
# The echo during password entry

While a password is read the server claims the ECHO option, so that the client
stops echoing. Phase changes and the peer's DO and DONT ECHO interleave in any
order, early, late or repeated. The invariant ties the phase to the wish and to
the option's side in the sense of the Q-method: the side leans to "on" in the
password phases and to "off" in the others.
-/

namespace Conn

variable {β α : Type}

/-- The server's own side of the ECHO option. -/
def echoSide (c : Conn β α) : TelnetQSide := selectSide c.link.caps.options .local_ Telnet.Opt.echo

/-- The wish and the side of the echo fit the phase. -/
structure EchoFits (core : Core) (login : LoginState) : Prop where
  desired : core.echoDesired = login.isPassword
  leans : (selectSide core.options .local_ Telnet.Opt.echo).view.leans login.isPassword = true

theorem echoFits_echoed (wish : Bool) (core : Core) {login : LoginState}
    (h : login.isPassword = wish) : EchoFits (Link.echoed wish core) login := by
  have hacts := telnetQRequest_actsAs core.options .local_ Telnet.Opt.echo wish
  subst h
  refine ⟨rfl, ?_⟩
  rw [Link.echoed, hacts.side]
  exact QMethod.Side.leans_ask _ _

/-- An unsolicited DO ECHO is answered by the wish, so hearing it, or anything
else, keeps the side leaning as it did. -/
theorem EchoFits.receive {hooks : Application α} {c : Capability} {login : LoginState}
    (h : EchoFits c.core login) (command option : UInt8) :
    EchoFits { c.core with
      options := (telnetQReceive c.options command option (Link.qAccept hooks c)).1 } login := by
  have haccept : Link.qAccept hooks c .local_ Telnet.Opt.echo = login.isPassword := h.desired
  refine ⟨h.desired, ?_⟩
  rcases telnetQReceive_side c.options command option (Link.qAccept hooks c) .local_
    Telnet.Opt.echo with hside | ⟨message, hside⟩
  · rw [hside]
    exact h.leans
  · rw [hside, haccept]
    exact QMethod.Side.leans_hear h.leans message

theorem EchoFits.deed {host : Host β α} {c : Conn β α} {action : Action} {link : Link α}
    {login : LoginState} {made : List ApplicationCall}
    (h : EchoFits c.link.caps.core c.dialogue.login) (hdeed : Deed host c action link login made) :
    EchoFits link.caps.core login := by
  cases hdeed with
  | talk _ hcore _ hpassword _ =>
    rw [hcore]
    exact ⟨h.desired.trans hpassword.symm, hpassword ▸ h.leans⟩
  | started _ hcore _ hecho =>
    rw [hcore]
    refine ⟨h.desired, ?_⟩
    dsimp only
    rw [hecho]
    exact h.leans
  | option command byte _ hcore => exact hcore ▸ h.receive command byte
  | environ _ hcore => exact hcore ▸ h
  | report _ _ hcore => exact hcore ▸ h
  | message _ hcaps => exact hcaps ▸ h
  | early _ _ hcaps =>
    rw [hcaps]
    exact ⟨h.desired, h.leans⟩
  | polled _ hcaps => exact hcaps ▸ h
  | command _ hcaps _ hlogin => exact hcaps ▸ hlogin ▸ h
  | echo wish _ hcore _ _ _ hpassword => exact hcore ▸ echoFits_echoed wish _ hpassword
  | welcome _ hcore => exact hcore ▸ echoFits_echoed false _ rfl
  | opened _ _ _ _ _ _ hcore =>
    have hechoed : EchoFits (Link.echoed false c.link.caps.core) .inGame :=
      echoFits_echoed false _ rfl
    rw [hcore]
    exact ⟨hechoed.desired, hechoed.leans⟩

theorem echoFits_of_reachable {host : Host β α} {c : Conn β α} (hc : (system host).Reachable c) :
    EchoFits c.link.caps.core c.dialogue.login := by
  refine hc.invariant (I := fun c => EchoFits c.link.caps.core c.dialogue.login) ?_ ?_
  · rintro _ ⟨backend, app, rfl⟩
    exact ⟨rfl, rfl⟩
  · rintro action c _ - h rfl
    obtain ⟨made, hdeed, -⟩ := exists_deed host c action
    exact h.deed hdeed

/-- While passwords are read no action begins to ask for the echo to be off. -/
theorem wantNo_of_deed {host : Host β α} {c : Conn β α} {action : Action} {link : Link α}
    {login : LoginState} {made : List ApplicationCall}
    (h : EchoFits c.link.caps.core c.dialogue.login) (hdeed : Deed host c action link login made)
    (hpassword : c.dialogue.login.isPassword = true) (hpassword' : login.isPassword = true)
    (hno : (selectSide link.caps.options .local_ Telnet.Opt.echo).view.phase = .wantNo) :
    c.echoSide.view.phase = .wantNo := by
  have hleans := h.leans
  rw [hpassword] at hleans
  have hsame : link.caps.core = c.link.caps.core → c.echoSide.view.phase = .wantNo := by
    intro hcore
    rwa [show link.caps.options = _ from congrArg Core.options hcore] at hno
  cases hdeed with
  | talk _ hcore => exact hsame hcore
  | started _ _ _ hecho => rwa [hecho] at hno
  | option command byte _ hcore =>
    rw [show link.caps.options = _ from congrArg Core.options hcore] at hno
    rcases telnetQReceive_side c.link.caps.options command byte
      (Link.qAccept host.application c.link.caps) .local_ Telnet.Opt.echo with
      hside | ⟨message, hside⟩
    · rwa [hside] at hno
    · have haccept : Link.qAccept host.application c.link.caps .local_ Telnet.Opt.echo = true :=
        h.desired.trans hpassword
      rw [hside, haccept] at hno
      exact absurd hno (QMethod.Side.phase_hear_ne_wantNo hleans message)
  | environ _ hcore => exact hsame hcore
  | report _ _ hcore => exact hsame hcore
  | message _ hcaps => exact hsame (congrArg _ hcaps)
  | early _ _ hcaps => rwa [hcaps] at hno
  | polled _ hcaps => exact hsame (congrArg _ hcaps)
  | command _ hcaps => exact hsame (congrArg _ hcaps)
  | echo wish _ hcore _ _ _ hwish =>
    obtain rfl : true = wish := hpassword'.symm.trans hwish
    rw [show link.caps.options = _ from congrArg Core.options hcore] at hno
    refine QMethod.Side.phase_ask_true (Eq.trans ?_ hno)
    exact congrArg _ (telnetQRequest_actsAs c.link.caps.options .local_ Telnet.Opt.echo true).side.symm
  | welcome => cases hpassword'
  | opened => cases hpassword'

/-! ## The states of the echo -/

theorem side_off_of_leans {side : TelnetQSide} (h : side.view.leans false = true) :
    side.state = .no ∨ (side.state = .wantNo ∧ side.queuedOpposite = false) ∨
      (side.state = .wantYes ∧ side.queuedOpposite = true) := by
  obtain ⟨state, queued⟩ := side
  cases state with
  | no => exact .inl rfl
  | yes => cases h
  | wantNo => exact .inr (.inl ⟨rfl, (Bool.not_eq_true' _).mp h⟩)
  | wantYes => exact .inr (.inr ⟨rfl, h⟩)

theorem side_on_of_leans {side : TelnetQSide} (h : side.view.leans true = true) :
    side.state = .no ∨ side.state = .yes ∨
      (side.state = .wantYes ∧ side.queuedOpposite = false) ∨
      (side.state = .wantNo ∧ side.queuedOpposite = true) := by
  obtain ⟨state, queued⟩ := side
  cases state with
  | no => exact .inl rfl
  | yes => exact .inr (.inl rfl)
  | wantYes => exact .inr (.inr (.inl ⟨rfl, (Bool.not_eq_true' _).mp h⟩))
  | wantNo => exact .inr (.inr (.inr ⟨rfl, h⟩))

theorem phase_eq_wantNo_iff {side : TelnetQSide} :
    side.view.phase = .wantNo ↔ side.state = .wantNo := by
  obtain ⟨state, queued⟩ := side
  cases state <;> simp [TelnetQSide.view, TelnetQStateId.phase]

/-- In every state that any bytes and calls lead to, the echo fits the phase.
Outside the password phases it is neither on nor on its way to stay on; in them
it is wished for, and no action between two of them asks for it to be off. -/
theorem echo_follows_phase {host : Host β α} {c : Conn β α} (hc : (system host).Reachable c) :
    ((c.dialogue.login = .name ∨ c.dialogue.login = .inGame) →
      c.link.caps.echoDesired = false ∧
        (c.echoSide.state = .no ∨
          (c.echoSide.state = .wantNo ∧ c.echoSide.queuedOpposite = false) ∨
          (c.echoSide.state = .wantYes ∧ c.echoSide.queuedOpposite = true))) ∧
    ((c.dialogue.login = .password ∨ c.dialogue.login = .newPassword ∨
        c.dialogue.login = .confirmPassword) →
      c.link.caps.echoDesired = true ∧
        (c.echoSide.state = .no ∨ c.echoSide.state = .yes ∨
          (c.echoSide.state = .wantYes ∧ c.echoSide.queuedOpposite = false) ∨
          (c.echoSide.state = .wantNo ∧ c.echoSide.queuedOpposite = true))) ∧
    (c.link.caps.enabled .local_ Telnet.Opt.echo = true → c.dialogue.login.isPassword = true) ∧
    (∀ action, c.dialogue.login.isPassword = true →
      (c.act host action).dialogue.login.isPassword = true →
      (c.act host action).echoSide.state = .wantNo → c.echoSide.state = .wantNo) := by
  have hfits := echoFits_of_reachable hc
  refine ⟨fun hlogin => ?_, fun hlogin => ?_, fun henabled => ?_, fun action hlogin hlogin' hno => ?_⟩
  · have hpassword : c.dialogue.login.isPassword = false := by
      rcases hlogin with h | h <;> rw [h] <;> rfl
    exact ⟨hfits.desired.trans hpassword, side_off_of_leans (hpassword ▸ hfits.leans)⟩
  · have hpassword : c.dialogue.login.isPassword = true := by
      rcases hlogin with h | h | h <;> rw [h] <;> rfl
    exact ⟨hfits.desired.trans hpassword, side_on_of_leans (hpassword ▸ hfits.leans)⟩
  · have hyes : c.echoSide.state = .yes := of_decide_eq_true henabled
    cases hpassword : c.dialogue.login.isPassword with
    | true => rfl
    | false =>
      rcases side_off_of_leans (hpassword ▸ hfits.leans) with h | ⟨h, -⟩ | ⟨h, -⟩ <;>
        cases h.symm.trans hyes
  · obtain ⟨made, hdeed, -⟩ := exists_deed host c action
    exact phase_eq_wantNo_iff.mp
      (wantNo_of_deed hfits hdeed hlogin hlogin' (phase_eq_wantNo_iff.mpr hno))

/-- A name has been given and its password is asked for; the client has not
answered WILL ECHO yet. -/
theorem echo_follows_phase_named :
    let c := (initial Host.granting () ()).feedBytes Host.granting 0 (ascii "zoe\n")
    (c.dialogue.login = .password ∧ c.echoSide = ⟨.wantYes, false⟩) ∧
      c.link.caps.echoDesired = true :=
  ⟨by decide +kernel,
    ((echo_follows_phase (reachable_feedBytes (.init ⟨(), (), rfl⟩) 0 (ascii "zoe\n"))).2.1
      (.inl (by decide +kernel))).1⟩

end Conn

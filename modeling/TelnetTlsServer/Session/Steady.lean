-- SUMMARY: What the dialogue functions of a session do to account fields, calls and link, one lemma for each function.
import TelnetTlsServer.Session.Conduct
import TelnetTlsServer.Session.Dialogue
import TelnetTlsServer.Session.Frame

/-!
# Steady steps

The dialogue functions are chains of small steps: a write, an audit record, a
recorded call, an assignment. The simp lemmas here say what each small step does
to the account fields and the calls. `Conn.Steady` is what all of the functions
keep, whichever way a line goes.
-/

namespace Conn

variable {β α : Type}

def calls (c : Conn β α) : List GatedCall := c.link.wire.calls

section Fields

variable (c : Conn β α)

@[simp] theorem dialogue_say (text : String) : (c.say text).dialogue = c.dialogue := rfl
@[simp] theorem dialogue_prompt (text : String) : (c.prompt text).dialogue = c.dialogue := rfl
@[simp] theorem dialogue_audit (event : String) (detail : Bytes) :
    (c.audit event detail).dialogue = c.dialogue := rfl
@[simp] theorem dialogue_auditPlayerEvent (event : String) :
    (c.auditPlayerEvent event).dialogue = c.dialogue := rfl
@[simp] theorem dialogue_requestClose (event : String) (message : Option String) :
    (c.requestClose event message).dialogue = c.dialogue := rfl
@[simp] theorem dialogue_onWire (f : Wire α → Wire α) : (c.onWire f).dialogue = c.dialogue := rfl
@[simp] theorem dialogue_onLink (f : Link α → Link α) : (c.onLink f).dialogue = c.dialogue := rfl
@[simp] theorem dialogue_wipeLine : c.wipeLine.dialogue = c.dialogue := rfl
@[simp] theorem dialogue_record (call : BackendCall) (backend : β) :
    (c.record call backend).dialogue = { c.dialogue with backend := backend } := rfl
@[simp] theorem dialogue_setLogin (login : LoginState) :
    (c.setLogin login).dialogue = { c.dialogue with login := login } := rfl
@[simp] theorem dialogue_setPlayerName (name : Bytes) :
    (c.setPlayerName name).dialogue = { c.dialogue with playerName := name } := rfl
@[simp] theorem dialogue_setPendingPassword (token : PasswordToken) :
    (c.setPendingPassword token).dialogue = { c.dialogue with pendingPassword := token } := rfl
@[simp] theorem dialogue_clearPendingPassword :
    c.clearPendingPassword.dialogue = c.dialogue.forgetPassword := rfl
@[simp] theorem dialogue_warnInsecurePasswordOnce :
    c.warnInsecurePasswordOnce.dialogue = c.dialogue := by
  unfold warnInsecurePasswordOnce
  split
  · rfl
  · exact dialogue_say _ _

@[simp] theorem input_say (text : String) : (c.say text).input = c.input := rfl
@[simp] theorem input_prompt (text : String) : (c.prompt text).input = c.input := rfl
@[simp] theorem input_requestClose (event : String) (message : Option String) :
    (c.requestClose event message).input = c.input := rfl
@[simp] theorem input_onLink (f : Link α → Link α) : (c.onLink f).input = c.input := rfl
@[simp] theorem input_setLogin (login : LoginState) : (c.setLogin login).input = c.input := rfl
@[simp] theorem input_clearPendingPassword : c.clearPendingPassword.input = c.input := rfl

/-! What they do to the link. -/

theorem quiet_say (text : String) : c.link.Quiet (c.say text).link := by
  simp only [say, onWire, Wire.writeText_eq_sends]
  exact .ofSends c.link _

theorem quiet_prompt (text : String) : c.link.Quiet (c.prompt text).link := by
  simp only [prompt, onWire, Wire.writePromptText_eq_sends]
  exact .ofSends c.link _

theorem quiet_audit (event : String) (detail : Bytes) :
    c.link.Quiet (c.audit event detail).link :=
  ⟨by simp [audit, onWire], id, .refl _⟩

theorem quiet_auditPlayerEvent (event : String) :
    c.link.Quiet (c.auditPlayerEvent event).link :=
  quiet_audit c event _

theorem quiet_requestClose (event : String) (message : Option String) :
    c.link.Quiet (c.requestClose event message).link :=
  .requestClose (.refl c.link) event (message.map ascii)

@[simp] theorem closed_requestClose (event : String) (message : Option String) :
    (c.requestClose event message).closed = true :=
  Wire.closeRequested_requestClose _ _ _

theorem quiet_warnInsecurePasswordOnce : c.link.Quiet c.warnInsecurePasswordOnce.link := by
  unfold warnInsecurePasswordOnce
  split
  · exact .refl _
  · exact quiet_say { c with insecureWarningShown := true } _

theorem effect_record (call : BackendCall) (backend : β) :
    Link.Effect [.backend call] c.link (c.record call backend).link :=
  ⟨Wire.calls_emit c.link.wire (.backend call), id, .refl _⟩

theorem calls_of_quiet {c c' : Conn β α} (h : c.link.Quiet c'.link) : c'.calls = c.calls := by
  simpa [calls] using h.calls_eq

@[simp] theorem calls_say (text : String) : (c.say text).calls = c.calls :=
  calls_of_quiet (quiet_say c text)
@[simp] theorem calls_prompt (text : String) : (c.prompt text).calls = c.calls :=
  calls_of_quiet (quiet_prompt c text)
@[simp] theorem calls_onWire_sends (chunks : List Bytes) :
    (c.onWire (·.sends chunks)).calls = c.calls :=
  calls_of_quiet (.ofSends c.link chunks)
@[simp] theorem calls_audit (event : String) (detail : Bytes) :
    (c.audit event detail).calls = c.calls :=
  calls_of_quiet (quiet_audit c event detail)
@[simp] theorem calls_auditPlayerEvent (event : String) :
    (c.auditPlayerEvent event).calls = c.calls :=
  calls_of_quiet (quiet_auditPlayerEvent c event)
@[simp] theorem calls_requestClose (event : String) (message : Option String) :
    (c.requestClose event message).calls = c.calls :=
  calls_of_quiet (quiet_requestClose c event message)
@[simp] theorem calls_warnInsecurePasswordOnce : c.warnInsecurePasswordOnce.calls = c.calls :=
  calls_of_quiet (quiet_warnInsecurePasswordOnce c)
@[simp] theorem calls_passwordEchoOff : (c.onLink Link.passwordEchoOff).calls = c.calls :=
  calls_of_quiet (Link.quiet_passwordEchoOff c.link)
@[simp] theorem calls_passwordEchoOn : (c.onLink Link.passwordEchoOn).calls = c.calls :=
  calls_of_quiet (Link.quiet_passwordEchoOn c.link)
@[simp] theorem calls_record (call : BackendCall) (backend : β) :
    (c.record call backend).calls = c.calls ++ [.backend call] :=
  (effect_record c call backend).calls_eq
@[simp] theorem calls_wipeLine : c.wipeLine.calls = c.calls := rfl
@[simp] theorem calls_setLogin (login : LoginState) : (c.setLogin login).calls = c.calls := rfl
@[simp] theorem calls_setPlayerName (name : Bytes) : (c.setPlayerName name).calls = c.calls := rfl
@[simp] theorem calls_setPendingPassword (token : PasswordToken) :
    (c.setPendingPassword token).calls = c.calls := rfl
@[simp] theorem calls_clearPendingPassword : c.clearPendingPassword.calls = c.calls := rfl

end Fields

theorem effect_openApplication (host : Host β α) (c : Conn β α)
    (hook : Bytes → TerminalCapabilities → α → Wire.HookProgram (Option Nat × α)) :
    Link.Effect [.open_ c.dialogue.playerName] c.link (c.openApplication host hook).link := by
  have hopen := (Link.effect_callHook c.link
    (.open_ c.dialogue.playerName (copyTerminalCapabilities c.terminal))
    (hook c.dialogue.playerName (copyTerminalCapabilities c.terminal)))
  unfold openApplication
  dsimp only
  split
  · refine hopen.trans (Link.Quiet.trans ?_ (quiet_requestClose _ _ _))
    exact .ofFields _ rfl
  · refine hopen.trans (Link.Quiet.trans ?_ (Link.quiet_replayPreAuthGmcpCore host.application _))
    exact .ofFields _ rfl

/-- Some gated calls, no close taken back, no violation counted, all bounds kept,
and the byte parser as it was. -/
structure Steady (c c' : Conn β α) : Prop where
  link : ∃ calls, Link.Effect calls c.link c'.link
  parsing : c'.parsing = c.parsing

namespace Steady

/-- Neither the link nor the parser changes. -/
theorem ofEq {c c' : Conn β α} (hlink : c'.link = c.link) (hparsing : c'.parsing = c.parsing) :
    c.Steady c' :=
  ⟨⟨[], hlink ▸ Link.Quiet.refl _⟩, hparsing⟩

theorem ofLink {c c' : Conn β α} {calls : List GatedCall} (hlink : Link.Effect calls c.link c'.link)
    (hparsing : c'.parsing = c.parsing) : c.Steady c' :=
  ⟨⟨calls, hlink⟩, hparsing⟩

theorem ofSends (c : Conn β α) (chunks : List Bytes) : c.Steady (c.onWire (·.sends chunks)) :=
  ofLink (Link.Quiet.ofSends c.link chunks) rfl

theorem requestClose (c : Conn β α) (event : String) (message : Option String) :
    c.Steady (c.requestClose event message) :=
  ofLink (quiet_requestClose c event message) rfl

theorem frame (host : Host β α) : Frame host False Steady where
  trans h h' := by
    obtain ⟨⟨calls, hlink⟩, hparsing⟩ := h
    obtain ⟨⟨calls', hlink'⟩, hparsing'⟩ := h'
    exact ofLink (hlink.trans hlink') (hparsing'.trans hparsing)
  fields hlink hparsing _ := ofEq hlink hparsing
  text c data := by
    simp only [Wire.writeText_eq_sends]
    exact ofSends c _
  marker c := by
    simp only [Wire.writeMarker_eq_sends]
    exact ofSends c _
  audit c event detail := ofLink (quiet_audit c event detail) rfl
  requestClose := requestClose
  record c call backend := ofLink (effect_record c call backend) rfl
  passwordEchoOff c := ofLink (Link.quiet_passwordEchoOff c.link) rfl
  passwordEchoOn c := ofLink (Link.quiet_passwordEchoOn c.link) rfl
  negotiate c := ofLink (Link.quiet_negotiateOperationalOptions host.application c.link) rfl
  hook c call _ hook := ofLink (Link.effect_callHook c.link call hook) rfl
  attach c _ := ofLink (Link.Quiet.ofFields c.link rfl) rfl
  replay c := ofLink (Link.quiet_replayPreAuthGmcpCore host.application c.link) rfl

theorem processCompleteLine (host : Host β α) (c : Conn β α) (nowMs : UInt64) :
    c.Steady (c.processCompleteLine host nowMs) :=
  (frame host).processCompleteLine c nowMs

end Steady

end Conn

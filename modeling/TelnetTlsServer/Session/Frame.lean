-- SUMMARY: What a relation between sessions must be closed under so that every function outside the capability handlers keeps it.
import TelnetTlsServer.Session.Parser

/-!
# Framing the dialogue

Outside the capability handlers a session does little: it writes text and prompt
markers, records audit events and calls of store and policy, requests a close,
asks for the echo, calls a hook, and sets fields that belong to the line and the
account. `Conn.Frame host window R` says that the relation `R` holds across each of
these. The dialogue functions, prompts, `start` and `poll` are chains of them, so
`R` holds across every one of those functions too. A relation that looks at the window
of the lines has to give it up where `process_complete_line` sets it, which `window` tells.
-/

namespace Conn

variable {β α : Type}

structure Frame (host : Host β α) (window : Prop) (R : Conn β α → Conn β α → Prop) : Prop where
  trans : ∀ {c m c'}, R c m → R m c' → R c c'
  /-- Fields of the line, the account and the rate windows, but the lines' if it is looked at. -/
  fields : ∀ {c c'}, c'.link = c.link → c'.parsing = c.parsing →
    (window → c'.lineWindow = c.lineWindow) → R c c'
  text : ∀ c data, R c (c.onWire (·.writeText data))
  marker : ∀ c, R c (c.onWire (·.writeMarker c.terminal))
  audit : ∀ c event detail, R c (c.audit event detail)
  requestClose : ∀ c event message, R c (c.requestClose event message)
  record : ∀ c call backend, R c (c.record call backend)
  passwordEchoOff : ∀ c, R c (c.onLink Link.passwordEchoOff)
  passwordEchoOn : ∀ c, R c (c.onLink Link.passwordEchoOn)
  negotiate : ∀ c, R c (c.onLink (Link.negotiateOperationalOptions host.application))
  hook : ∀ (c : Conn β α) (call : ApplicationCall) {ρ : Type}
    (hook : α → Wire.HookProgram (ρ × α)), R c { c with link := (c.link.callHook call hook).2 }
  attach : ∀ (c : Conn β α) session, R c { c with link.caps.applicationSession := session }
  replay : ∀ c, R c (c.onLink (Link.replayPreAuthGmcpCore host.application))

namespace Frame

variable {host : Host β α} {window : Prop} {R : Conn β α → Conn β α → Prop} (F : Frame host window R)
  {c m : Conn β α}

include F

theorem refl (c : Conn β α) : R c c := F.fields rfl rfl fun _ => rfl

omit F in
theorem ite {a b : Conn β α} {p : Prop} [Decidable p] (ha : R c a) (hb : R c b) :
    R c (if p then a else b) := by
  split
  · exact ha
  · exact hb

theorem say (h : R c m) (text : String) : R c (m.say text) := F.trans h (F.text m _)

theorem prompt (h : R c m) (text : String) : R c (m.prompt text) :=
  F.trans (F.say h text) (F.marker (m.say text))

theorem auditPlayerEvent (h : R c m) (event : String) : R c (m.auditPlayerEvent event) :=
  F.trans h (F.audit m event _)

theorem close (h : R c m) (event : String) (message : Option String) :
    R c (m.requestClose event message) :=
  F.trans h (F.requestClose m event message)

theorem recorded (h : R c m) (call : BackendCall) (backend : β) : R c (m.record call backend) :=
  F.trans h (F.record m call backend)

theorem hide (h : R c m) : R c (m.onLink Link.passwordEchoOff) := F.trans h (F.passwordEchoOff m)

theorem reveal (h : R c m) : R c (m.onLink Link.passwordEchoOn) := F.trans h (F.passwordEchoOn m)

/-- An assignment to fields that the frame does not look at. -/
theorem set {m' : Conn β α} (h : R c m) (hlink : m'.link = m.link)
    (hparsing : m'.parsing = m.parsing) (hwindow : window → m'.lineWindow = m.lineWindow) : R c m' :=
  F.trans h (F.fields hlink hparsing hwindow)

theorem setLogin (h : R c m) (login : LoginState) : R c (m.setLogin login) := F.set h rfl rfl fun _ => rfl
theorem setPlayerName (h : R c m) (name : Bytes) : R c (m.setPlayerName name) := F.set h rfl rfl fun _ => rfl
theorem setPendingPassword (h : R c m) (token : PasswordToken) :
    R c (m.setPendingPassword token) := F.set h rfl rfl fun _ => rfl
theorem clearPendingPassword (h : R c m) : R c m.clearPendingPassword := F.set h rfl rfl fun _ => rfl
theorem wipeLine (h : R c m) : R c m.wipeLine := F.set h rfl rfl fun _ => rfl

theorem warnInsecurePasswordOnce (h : R c m) : R c m.warnInsecurePasswordOnce := by
  have hshown : R c { m with insecureWarningShown := true } := F.set h rfl rfl fun _ => rfl
  exact ite h (F.say hshown _)

theorem openApplication (h : R c m)
    (hook : Bytes → TerminalCapabilities → α → Wire.HookProgram (Option Nat × α)) :
    R c (m.openApplication host hook) := by
  have hcalled := F.trans h (F.hook m
    (.open_ m.dialogue.playerName (copyTerminalCapabilities m.terminal))
    (hook m.dialogue.playerName (copyTerminalCapabilities m.terminal)))
  have hattached := fun session => F.trans hcalled (F.attach _ session)
  unfold Conn.openApplication
  dsimp only
  split
  · exact F.close (hattached _) _ _
  · exact F.trans (hattached _) (F.replay _)

theorem enterGame (h : R c m) : R c (m.enterGame host) := by
  have hentered := F.auditPlayerEvent (F.setLogin h .inGame) "login_success"
  unfold Conn.enterGame
  dsimp only
  split
  · exact F.openApplication hentered _
  · exact F.prompt (F.say (F.trans (F.say hentered _) (F.text _ _)) _) _

/-! ## Lines -/

theorem processPlayerName (c : Conn β α) : R c (c.processPlayerName host) := by
  have hfound := fun call backend =>
    F.recorded (F.setPlayerName (F.refl c) c.input.line.string) call backend
  have hhidden := fun call backend login =>
    F.warnInsecurePasswordOnce (F.hide (F.setLogin (hfound call backend) login))
  unfold Conn.processPlayerName
  simp only [playerStoreExists]
  exact ite (F.prompt (F.say (F.refl c) _) _)
    (ite (F.prompt (F.say (F.setPlayerName (F.auditPlayerEvent (hfound _ _) _) _) _) _)
      (ite (F.prompt (hhidden _ _ _) _) (F.prompt (F.say (hhidden _ _ _) _) _)))

theorem processExistingPassword (c : Conn β α) (nowMs : UInt64) :
    R c (c.processExistingPassword host nowMs) := by
  have hallowed := fun call backend => F.recorded (F.refl c) call backend
  have hverified := fun call₁ backend₁ call₂ backend₂ =>
    F.wipeLine (F.recorded (hallowed call₁ backend₁) call₂ backend₂)
  unfold Conn.processExistingPassword
  simp only [securityPolicyAllowAuthAttempt, playerStoreVerifyPassword,
    securityPolicyNoteAuthSuccess, securityPolicyNoteAuthFailure]
  refine ite (F.prompt (F.say (F.auditPlayerEvent (F.wipeLine (hallowed _ _)) _) _) _)
    (ite (F.enterGame (F.reveal (ite (F.auditPlayerEvent ?success _) ?success)))
      (ite (F.close ?failure _ _) (F.prompt (F.say ?failure _) _)))
  case success => exact F.recorded (hverified _ _ _ _) _ _
  case failure =>
    exact F.recorded (F.auditPlayerEvent (F.recorded (hverified _ _ _ _) _ _) _) _ _

theorem processNewPassword (c : Conn β α) : R c (c.processNewPassword host) := by
  have hwiped := F.wipeLine (F.refl c)
  have hprepared := fun call backend token =>
    F.wipeLine (F.setPendingPassword (F.recorded (F.refl c) call backend) token)
  unfold Conn.processNewPassword
  simp only [playerStorePreparePassword]
  exact ite (F.prompt (F.say hwiped _) _)
    (ite (F.prompt (F.say (F.auditPlayerEvent hwiped _) _) _)
    (ite (F.prompt (F.say (F.setPlayerName (F.setLogin (F.reveal (hprepared _ _ _)) _) _) _) _)
      (F.prompt (F.say (F.setLogin (hprepared _ _ _) _) _) _)))

theorem processPasswordConfirmation (c : Conn β α) (nowMs : UInt64) :
    R c (c.processPasswordConfirmation host nowMs) := by
  have hmatched := fun call backend => F.wipeLine (F.recorded (F.refl c) call backend)
  have hallowed := fun call₁ backend₁ call₂ backend₂ =>
    F.recorded (hmatched call₁ backend₁) call₂ backend₂
  have hcreated := fun call₁ backend₁ call₂ backend₂ call₃ backend₃ =>
    F.clearPendingPassword (F.recorded (hallowed call₁ backend₁ call₂ backend₂) call₃ backend₃)
  unfold Conn.processPasswordConfirmation
  simp only [playerStorePasswordMatches, securityPolicyAllowAccountCreation, playerStoreCreate,
    securityPolicyNoteAuthSuccess]
  refine ite (F.prompt (F.say (F.setLogin (F.clearPendingPassword (hmatched _ _)) _) _) _)
    (ite (F.prompt (F.say (F.trans ?throttled (F.audit _ _ _)) _) _)
    (ite (F.prompt (F.say (F.setPlayerName (F.auditPlayerEvent (F.setLogin (F.reveal
        (hcreated _ _ _ _ _ _)) _) _) _) _) _)
      (F.enterGame (F.reveal
        (F.recorded (F.auditPlayerEvent (hcreated _ _ _ _ _ _) _) _ _)))))
  case throttled =>
    exact F.setPlayerName (F.setLogin (F.reveal (F.clearPendingPassword (hallowed _ _ _ _))) _) _

theorem processBuiltin (h : R c m) : R c m.processBuiltin :=
  ite (F.prompt h _) (ite (F.prompt (F.say h _) _) (ite (F.prompt (F.say h _) _)
    (ite (F.close h _ _) (F.prompt (F.say h _) _))))

theorem processCommand (c : Conn β α) (nowMs : UInt64) : R c (c.processCommand host nowMs) := by
  have hwindow : ∀ window, R c { c with commandWindow := window } := fun _ => F.fields rfl rfl fun _ => rfl
  unfold Conn.processCommand
  dsimp only
  refine ite (F.close (hwindow _) _ _) ?_
  split
  case h_1 session hook _ _ =>
    have hline := F.trans (hwindow (rateConsume c.commandWindow 1 commandsPerWindow
      commandsWindowMs nowMs).2) (F.hook _ (.line session c.input.text) (hook session c.input.text))
    exact ite (F.close hline _ _) hline
  case h_2 => exact F.processBuiltin (hwindow _)

theorem processOverflow (h : R c m) : R c m.processOverflow := by
  have hwiped : R c { m with input := { m.input.wipe with lineOverflow := false } } :=
    F.set h rfl rfl fun _ => rfl
  exact ite (ite (F.prompt (F.say hwiped _) _)
      (F.prompt (F.setLogin (F.clearPendingPassword (F.say hwiped _)) _) _))
    (ite (F.close hwiped _ _) (F.prompt (F.say hwiped _) _))

theorem processLine (c : Conn β α) (nowMs : UInt64) : R c (c.processLine host nowMs) := by
  unfold Conn.processLine
  split
  · exact F.processPlayerName c
  · exact F.processExistingPassword c nowMs
  · exact F.processNewPassword c
  · exact F.processPasswordConfirmation c nowMs
  · exact F.processCommand c nowMs

/-! ## Prompts, start and poll -/

theorem writeCurrentPrompt (h : R c m) : R c m.writeCurrentPrompt := by
  unfold Conn.writeCurrentPrompt
  split <;> exact F.prompt h _

theorem interruptCurrentInput (c : Conn β α) : R c c.interruptCurrentInput := by
  have hcleared : R c { c with input := c.input.clear } := F.fields rfl rfl fun _ => rfl
  exact F.writeCurrentPrompt (F.say (ite (F.setLogin (F.clearPendingPassword hcleared) _) hcleared) _)

theorem start (c : Conn β α) : R c (c.start host) := by
  have hstarted : R c { c with started := true } := F.fields rfl rfl fun _ => rfl
  exact ite (F.refl c) (F.prompt (F.say (F.trans hstarted (F.negotiate _)) _) _)

theorem poll (c : Conn β α) : R c (c.poll host).2 := by
  unfold Conn.poll
  split
  · exact F.refl c
  split
  case h_2 => exact F.refl c
  case h_1 session hook _ _ =>
    have hpolled := F.hook c (.poll session) (hook session)
    dsimp only
    split
    · exact F.close hpolled _ _
    · exact hpolled

end Frame

theorem Frame.processCompleteLine {host : Host β α} {R : Conn β α → Conn β α → Prop}
    (F : Frame host False R) (c : Conn β α) (nowMs : UInt64) :
    R c (c.processCompleteLine host nowMs) := by
  have hwindow : ∀ window, R c { c with lineWindow := window } :=
    fun _ => F.fields rfl rfl False.elim
  have hended : R c { c with
      lineWindow := (rateConsume c.lineWindow 1 inputLinesPerWindow inputLinesWindowMs nowMs).2
      input.line := c.input.line.set c.input.lineLength 0 } := F.fields rfl rfl False.elim
  unfold Conn.processCompleteLine
  dsimp only
  refine Frame.ite (F.close (F.wipeLine (hwindow _)) _ _)
    (Frame.ite (F.processOverflow (hwindow _)) ?_)
  exact F.set (F.trans hended (F.processLine _ nowMs)) rfl rfl False.elim

end Conn

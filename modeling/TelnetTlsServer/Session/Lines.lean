-- SUMMARY: Everything a completed line can do to the link of a session: talk, hide or show the echo, enter the game, or reach the application.
import TelnetTlsServer.Session.Steps

/-!
# What a line does

The functions of the account dialogue talk: they write, audit and call store and
policy, and leave the capability fields alone. Beyond that a line can do four
things, and `Lined` lists them: the echo is taken before a password is asked for,
it is given back when the dialogue starts over, a player enters the game, and in
game a line goes to the application.
-/

namespace Conn

variable {β α : Type}

/-- Only writes, records and calls of store and policy. -/
structure Talks (c c' : Conn β α) : Prop where
  caps : c'.link.caps = c.link.caps
  wire : c.link.wire.Does [] c'.link.wire

namespace Talks

variable {c m c' : Conn β α}

theorem refl (c : Conn β α) : c.Talks c := ⟨rfl, .refl _⟩

theorem trans (h : c.Talks m) (h' : m.Talks c') : c.Talks c' :=
  ⟨h'.caps.trans h.caps, h.wire.trans h'.wire⟩

/-- The link stays as it is. -/
theorem ofLink (h : c.Talks m) (hlink : c'.link = m.link) : c.Talks c' :=
  ⟨hlink ▸ h.caps, hlink ▸ h.wire⟩

theorem ofStart (h : c.Talks c') (hlink : c.link = m.link) : m.Talks c' :=
  ⟨hlink ▸ h.caps, hlink ▸ h.wire⟩

theorem ofWire (h : c.Talks m) {wire : Wire α} (hwire : m.link.wire.Does [] wire)
    (hlink : c'.link = { m.link with wire := wire }) : c.Talks c' :=
  h.trans ⟨by rw [hlink], by rw [hlink]; exact hwire⟩

theorem say (h : c.Talks m) (text : String) : c.Talks (m.say text) := by
  refine h.ofWire ?_ rfl
  simp only [Wire.writeText_eq_sends]
  exact .sends _ _

theorem prompt (h : c.Talks m) (text : String) : c.Talks (m.prompt text) := by
  refine h.ofWire ?_ rfl
  simp only [Wire.writePromptText_eq_sends]
  exact .sends _ _

theorem greet (h : c.Talks m) (text : Bytes) :
    c.Talks (m.onWire (·.writeUntrustedText text)) := by
  refine h.ofWire ?_ rfl
  simp only [Wire.writeUntrustedText_eq_sends]
  exact .sends _ _

theorem audit (h : c.Talks m) (event : String) {detail : Bytes} (hdetail : detail ≠ Event.closing) :
    c.Talks (m.audit event detail) :=
  h.ofWire (.audit _ event hdetail) rfl

theorem auditPlayerEvent (h : c.Talks m) (event : String) :
    c.Talks (m.auditPlayerEvent event) := by
  have hplayer : ∀ name : Bytes, ascii "player=" ++ name ≠ Event.closing := by
    intro name heq
    have hhead : (ascii "player=").head? = Event.closing.head? := by
      rw [← heq]
      rfl
    exact absurd hhead (by decide)
  have htruncated : ascii "player=truncated" ≠ Event.closing := by decide
  refine h.audit event ?_
  split_ifs <;> first | exact htruncated | exact hplayer _

theorem requestClose (h : c.Talks m) (event : String) (message : Option String) :
    c.Talks (m.requestClose event message) :=
  h.ofWire (.requestClose _ event _) rfl

theorem record (h : c.Talks m) (call : BackendCall) (backend : β) :
    c.Talks (m.record call backend) :=
  h.ofWire (.emit m.link.wire m.link.wire.app (.backend call) rfl) rfl

theorem setLogin (h : c.Talks m) (login : LoginState) : c.Talks (m.setLogin login) := h.ofLink rfl
theorem setPlayerName (h : c.Talks m) (name : Bytes) : c.Talks (m.setPlayerName name) :=
  h.ofLink rfl
theorem setPendingPassword (h : c.Talks m) (token : PasswordToken) :
    c.Talks (m.setPendingPassword token) :=
  h.ofLink rfl
theorem clearPendingPassword (h : c.Talks m) : c.Talks m.clearPendingPassword := h.ofLink rfl
theorem setCommandWindow (h : c.Talks m) (window : RateWindow) :
    c.Talks { m with commandWindow := window } := h.ofLink rfl
theorem wipeLine (h : c.Talks m) : c.Talks m.wipeLine := h.ofLink rfl

theorem warnInsecurePasswordOnce (h : c.Talks m) : c.Talks m.warnInsecurePasswordOnce := by
  unfold Conn.warnInsecurePasswordOnce
  split
  · exact h
  · have hshown : c.Talks { m with insecureWarningShown := true } := h.ofLink rfl
    exact hshown.say _

theorem ite {a b : Conn β α} {p : Prop} [Decidable p] (ha : c.Talks a) (hb : c.Talks b) :
    c.Talks (if p then a else b) := by
  split
  · exact ha
  · exact hb

theorem processBuiltin (h : c.Talks m) : c.Talks m.processBuiltin :=
  .ite (.prompt h _) (.ite (.prompt (.say h _) _) (.ite (.prompt (.say h _) _)
    (.ite (.requestClose h _ _) (.prompt (.say h _) _))))

theorem writeCurrentPrompt (h : c.Talks m) : c.Talks m.writeCurrentPrompt := by
  unfold Conn.writeCurrentPrompt
  split <;> exact .prompt h _

end Talks

/-! ## The five things -/

/-- The link and the account after a completed line. -/
inductive Lined (host : Host β α) (c : Conn β α) : Link α → Dialogue β → Prop where
  | talk {c' : Conn β α} (h : c.Talks c')
      (hpassword : c'.dialogue.login.isPassword = c.dialogue.login.isPassword)
      (hgame : c'.dialogue.login = .inGame ↔ c.dialogue.login = .inGame) :
      Lined host c c'.link c'.dialogue
  | hide {m c' : Conn β α} (hlogin : c.dialogue.login = .name) (h : c.Talks m)
      (h' : (m.onLink Link.passwordEchoOff).Talks c')
      (hlogin' : c'.dialogue.login.isPassword = true) : Lined host c c'.link c'.dialogue
  | restart {m c' : Conn β α} (hlogin : c.dialogue.login.isPassword = true) (h : c.Talks m)
      (h' : (m.onLink Link.passwordEchoOn).Talks c') (hlogin' : c'.dialogue.login = .name) :
      Lined host c c'.link c'.dialogue
  | welcome {m c' : Conn β α} (hlogin : c.dialogue.login.isPassword = true) (h : c.Talks m)
      (h' : (m.onLink Link.passwordEchoOn).Talks c') (hlogin' : c'.dialogue.login = .inGame)
      (hopen : host.application.open_ = none) : Lined host c c'.link c'.dialogue
  | opened {m c' : Conn β α} (hlogin : c.dialogue.login.isPassword = true) (h : c.Talks m)
      (h' : (m.onLink Link.passwordEchoOn).Talks c') (hlogin' : c'.dialogue.login = .inGame)
      {hook : Bytes → TerminalCapabilities → α → Wire.HookProgram (Option Nat × α)}
      (hopen : host.application.open_ = some hook) :
      Lined host c (c'.openApplication host hook).link c'.dialogue
  | command {c' : Conn β α} (hlogin : c.dialogue.login = .inGame) {session : Nat} {line : Bytes}
      (hsession : c.link.caps.applicationSession = some session)
      {hook : α → Wire.HookProgram (Int × α)}
      (h : Talks { c with link := (c.link.callHook (.line session line) hook).2 } c')
      (hlogin' : c'.dialogue.login = .inGame) : Lined host c c'.link c'.dialogue

theorem dialogue_openApplication (host : Host β α) (c : Conn β α)
    (hook : Bytes → TerminalCapabilities → α → Wire.HookProgram (Option Nat × α)) :
    (c.openApplication host hook).dialogue = c.dialogue :=
  congrArg Dialogue.Reply.dialogue (openApplication_account host c hook)

/-- A line that leaves the session in this state. -/
def LinedAs (host : Host β α) (c c' : Conn β α) : Prop := Lined host c c'.link c'.dialogue

namespace LinedAs

variable {host : Host β α} {c m c' : Conn β α}

theorem ite {a b : Conn β α} {p : Prop} [Decidable p] (ha : LinedAs host c a)
    (hb : LinedAs host c b) : LinedAs host c (if p then a else b) := by
  split
  · exact ha
  · exact hb

/-- Only the link and the account count of where the line began. -/
theorem ofStart (h : LinedAs host c c') (hlink : c.link = m.link)
    (hdialogue : c.dialogue = m.dialogue) : LinedAs host m c' := by
  unfold LinedAs at h ⊢
  generalize c'.link = link at h ⊢
  generalize c'.dialogue = dialogue at h ⊢
  cases h with
  | talk h hpassword hgame =>
    exact .talk (h.ofStart hlink) (hdialogue ▸ hpassword) (hdialogue ▸ hgame)
  | hide hlogin h h' hlogin' => exact .hide (hdialogue ▸ hlogin) (h.ofStart hlink) h' hlogin'
  | restart hlogin h h' hlogin' =>
    exact .restart (hdialogue ▸ hlogin) (h.ofStart hlink) h' hlogin'
  | welcome hlogin h h' hlogin' hopen =>
    exact .welcome (hdialogue ▸ hlogin) (h.ofStart hlink) h' hlogin' hopen
  | opened hlogin h h' hlogin' hopen =>
    exact .opened (hdialogue ▸ hlogin) (h.ofStart hlink) h' hlogin' hopen
  | command hlogin hsession h hlogin' =>
    exact .command (hdialogue ▸ hlogin) (hlink ▸ hsession) (h.ofStart (by rw [hlink])) hlogin'

/-- The phase is as it was. -/
theorem talk (h : c.Talks c') (hlogin : c'.dialogue.login = c.dialogue.login) :
    LinedAs host c c' :=
  Lined.talk h (by rw [hlogin]) (by rw [hlogin])

/-- One password phase follows another. -/
theorem retry (h : c.Talks c') (hlogin : c.dialogue.login.isPassword = true)
    (hlogin' : c'.dialogue.login.isPassword = true) : LinedAs host c c' := by
  refine Lined.talk h (hlogin'.trans hlogin.symm) ⟨fun hin => ?_, fun hin => ?_⟩
  · rw [hin] at hlogin'
    cases hlogin'
  · rw [hin] at hlogin
    cases hlogin

/-- A player enters the game from a password phase. -/
theorem enterGame (hlogin : c.dialogue.login.isPassword = true) (h : c.Talks m) :
    LinedAs host c ((m.onLink Link.passwordEchoOn).enterGame host) := by
  have hentered : (m.onLink Link.passwordEchoOn).Talks
      (((m.onLink Link.passwordEchoOn).setLogin .inGame).auditPlayerEvent "login_success") :=
    .auditPlayerEvent (.setLogin (.refl _) _) _
  unfold Conn.enterGame
  dsimp only
  split
  case h_1 hook hopen =>
    unfold LinedAs
    rw [dialogue_openApplication]
    exact Lined.opened hlogin h hentered rfl hopen
  case h_2 hopen =>
    exact Lined.welcome hlogin h (.prompt (.say (.greet (.say hentered _) _) _) _) rfl hopen

theorem processPlayerName (hlogin : c.dialogue.login = .name) :
    LinedAs host c (c.processPlayerName host) := by
  have hfound := fun call backend =>
    ((Talks.refl c).setPlayerName c.input.line.string).record call backend
  unfold Conn.processPlayerName
  simp only [playerStoreExists]
  refine .ite (.talk (.prompt (.say (.refl c) _) _) rfl)
    (.ite (.talk (.prompt (.say (.setPlayerName (.auditPlayerEvent (hfound _ _) _) _) _) _) rfl)
    (.ite (Lined.hide hlogin (.setLogin (hfound _ _) _)
      (.prompt (.warnInsecurePasswordOnce (.refl _)) _) ?_)
      (Lined.hide hlogin (.setLogin (hfound _ _) _)
        (.prompt (.say (.warnInsecurePasswordOnce (.refl _)) _) _) ?_)))
  · simp [LoginState.isPassword]
  · simp [LoginState.isPassword]

theorem processExistingPassword (hlogin : c.dialogue.login = .password) (nowMs : UInt64) :
    LinedAs host c (c.processExistingPassword host nowMs) := by
  have hpassword : c.dialogue.login.isPassword = true := by rw [hlogin]; rfl
  have hverified := fun call₁ backend₁ call₂ backend₂ =>
    (((Talks.refl c).record call₁ backend₁).record call₂ backend₂).wipeLine
  unfold Conn.processExistingPassword
  simp only [securityPolicyAllowAuthAttempt, playerStoreVerifyPassword,
    securityPolicyNoteAuthSuccess, securityPolicyNoteAuthFailure]
  refine .ite (.talk (.prompt (.say (.auditPlayerEvent (.wipeLine (.record (.refl c) _ _)) _) _) _)
      rfl)
    (.ite (.enterGame hpassword (.ite (.auditPlayerEvent ?success _) ?success))
      (.ite (.talk (.requestClose ?failure _ _) rfl) (.talk (.prompt (.say ?failure _) _) rfl)))
  case success => exact .record (hverified _ _ _ _) _ _
  case failure => exact .record (.auditPlayerEvent (.record (hverified _ _ _ _) _ _) _) _ _

theorem processNewPassword (hlogin : c.dialogue.login = .newPassword) :
    LinedAs host c (c.processNewPassword host) := by
  have hpassword : c.dialogue.login.isPassword = true := by rw [hlogin]; rfl
  have hprepared := fun call backend token =>
    (((Talks.refl c).record call backend).setPendingPassword token).wipeLine
  unfold Conn.processNewPassword
  simp only [playerStorePreparePassword]
  exact .ite (.talk (.prompt (.say (.wipeLine (.refl c)) _) _) rfl)
    (.ite (.talk (.prompt (.say (.auditPlayerEvent (.wipeLine (.refl c)) _) _) _) rfl)
    (.ite (Lined.restart hpassword (hprepared _ _ _)
      (.prompt (.say (.setPlayerName (.setLogin (.refl _) _) _) _) _) rfl)
      (.retry (.prompt (.say (.setLogin (hprepared _ _ _) _) _) _) hpassword rfl)))

theorem processPasswordConfirmation (hlogin : c.dialogue.login = .confirmPassword)
    (nowMs : UInt64) : LinedAs host c (c.processPasswordConfirmation host nowMs) := by
  have hpassword : c.dialogue.login.isPassword = true := by rw [hlogin]; rfl
  have hmatched := fun call backend => ((Talks.refl c).record call backend).wipeLine
  have hcreated := fun call₁ backend₁ call₂ backend₂ call₃ backend₃ =>
    (((hmatched call₁ backend₁).record call₂ backend₂).record call₃ backend₃).clearPendingPassword
  unfold Conn.processPasswordConfirmation
  simp only [playerStorePasswordMatches, securityPolicyAllowAccountCreation, playerStoreCreate,
    securityPolicyNoteAuthSuccess]
  exact .ite (.retry (.prompt (.say (.setLogin (.clearPendingPassword (hmatched _ _)) _) _) _)
      hpassword rfl)
    (.ite (Lined.restart hpassword (.clearPendingPassword (.record (hmatched _ _) _ _))
      (.prompt (.say (.audit (.setPlayerName (.setLogin (.refl _) _) _) _ (by decide)) _) _) rfl)
    (.ite (Lined.restart hpassword (hcreated _ _ _ _ _ _)
      (.prompt (.say (.setPlayerName (.auditPlayerEvent (.setLogin (.refl _) _) _) _) _) _) rfl)
      (.enterGame hpassword (.record (.auditPlayerEvent (hcreated _ _ _ _ _ _) _) _ _))))

theorem processCommand (hlogin : c.dialogue.login = .inGame) (nowMs : UInt64) :
    LinedAs host c (c.processCommand host nowMs) := by
  have hwindow := fun window => (Talks.refl c).setCommandWindow window
  unfold Conn.processCommand
  dsimp only
  refine .ite (.talk (.requestClose (hwindow _) _ _) rfl) ?_
  split
  case h_1 session hook hsession hline =>
    have hcalled := fun window => (Talks.refl
      { c with link := (c.link.callHook (.line session c.input.text)
        (hook session c.input.text)).2 }).setCommandWindow window
    exact .ite (Lined.command hlogin hsession (.requestClose (hcalled _) _ _) hlogin)
      (Lined.command hlogin hsession (hcalled _) hlogin)
  case h_2 =>
    refine .talk (.processBuiltin (hwindow _)) ?_
    exact congrArg (fun reply : Dialogue.Reply β => reply.dialogue.login) (processBuiltin_account _)

theorem processOverflow (c : Conn β α) : LinedAs host c c.processOverflow := by
  have hwiped : c.Talks { c with input := { c.input.wipe with lineOverflow := false } } :=
    (Talks.refl c).ofLink rfl
  unfold Conn.processOverflow
  dsimp only
  split
  case isTrue hpassword =>
    exact .ite (.talk (.prompt (.say hwiped _) _) rfl)
      (.retry (.prompt (.setLogin (.clearPendingPassword (.say hwiped _)) _) _) hpassword rfl)
  case isFalse =>
    exact .ite (.talk (.requestClose hwiped _ _) rfl) (.talk (.prompt (.say hwiped _) _) rfl)

theorem processLine (c : Conn β α) (nowMs : UInt64) :
    LinedAs host c (c.processLine host nowMs) := by
  unfold Conn.processLine
  split
  case h_1 hlogin => exact processPlayerName hlogin
  case h_2 hlogin => exact processExistingPassword hlogin nowMs
  case h_3 hlogin => exact processNewPassword hlogin
  case h_4 hlogin => exact processPasswordConfirmation hlogin nowMs
  case h_5 hlogin => exact processCommand hlogin nowMs

theorem processCompleteLine (c : Conn β α) (nowMs : UInt64) :
    LinedAs host c (c.processCompleteLine host nowMs) := by
  have hwindow : ∀ window, c.Talks { c with lineWindow := window } :=
    fun _ => (Talks.refl c).ofLink rfl
  unfold Conn.processCompleteLine
  dsimp only
  refine .ite (.talk (.requestClose (.wipeLine (hwindow _)) _ _) rfl)
    (.ite ((processOverflow _).ofStart rfl rfl) ?_)
  exact (processLine _ nowMs).ofStart rfl rfl

end LinedAs

end Conn

-- SUMMARY: A session follows the account dialogue: each phase, a completed line, and the bytes and calls that complete none.
import TelnetTlsServer.Session.Steady

/-!
# The session refines the dialogue

A completed line changes the account fields as `Dialogue.complete` says and makes
the same gated calls, unless it came too fast and only closes the session. The
other bytes edit the line or leave it alone.
-/

namespace Conn

variable {β α : Type}

/-! ## Each phase follows the dialogue -/

/-- The account fields of a session with all gated calls so far. -/
def account (c : Conn β α) : Dialogue.Reply β := ⟨c.dialogue, c.calls⟩

/-- The account after a reply. -/
def answered (c : Conn β α) (r : Dialogue.Reply β) : Dialogue.Reply β :=
  ⟨r.dialogue, c.calls ++ r.calls⟩

theorem openApplication_account (host : Host β α) (c : Conn β α)
    (hook : Bytes → TerminalCapabilities → α → Wire.HookProgram (Option Nat × α)) :
    (c.openApplication host hook).account =
      ⟨c.dialogue, c.calls ++ [.open_ c.dialogue.playerName]⟩ := by
  have hdialogue : (c.openApplication host hook).dialogue = c.dialogue := by
    unfold openApplication
    dsimp only
    split <;> rfl
  rw [account, hdialogue]
  exact congrArg _ (effect_openApplication host c hook).calls_eq

theorem enterGame_account (host : Host β α) (c : Conn β α) :
    (c.enterGame host).account = ⟨{ c.dialogue with login := .inGame },
      c.calls ++ Dialogue.openCalls host c.dialogue.playerName⟩ := by
  unfold enterGame Dialogue.openCalls
  cases host.application.open_ with
  | some hook => simp [openApplication_account]
  | none => simp [account]

theorem processPlayerName_account (host : Host β α) (c : Conn β α) {t : Typing}
    (h : c.input.Holds t) :
    (c.processPlayerName host).account = c.answered (c.dialogue.giveName host t.text) := by
  unfold processPlayerName Dialogue.giveName
  rw [h.string_eq]
  rcases hfound : host.backend.exists_ c.dialogue.backend t.text with ⟨found, backend⟩
  simp only [playerStoreExists, dialogue_setPlayerName, hfound]
  split_ifs <;> simp [account, answered]

theorem processExistingPassword_account (host : Host β α) (c : Conn β α) {t : Typing}
    (h : c.input.Holds t) (nowMs : UInt64) :
    (c.processExistingPassword host nowMs).account =
      c.answered (c.dialogue.givePassword host t.text nowMs) := by
  have hinput : ∀ call backend, (c.record call backend).input.text = t.text :=
    fun _ _ => h.text_eq
  unfold processExistingPassword Dialogue.givePassword
  rcases hallow : host.backend.allowAuthAttempt c.dialogue.backend host.remoteId
    c.dialogue.playerName nowMs with ⟨allowed, b₁⟩
  simp only [securityPolicyAllowAuthAttempt, hallow]
  cases allowed with
  | false => simp [account, answered]
  | true =>
    rcases hverify : host.backend.verifyPassword b₁ c.dialogue.playerName t.text with
      ⟨⟨verified, rehashed⟩, b₂⟩
    simp only [playerStoreVerifyPassword, hinput, dialogue_record, hverify]
    by_cases hverified : verified = 1
    · cases rehashed <;>
        simp [hverified, securityPolicyNoteAuthSuccess, enterGame_account, answered]
    · rcases hagain : host.backend.allowAuthAttempt (host.backend.noteAuthFailure b₂ host.remoteId
        c.dialogue.playerName nowMs) host.remoteId c.dialogue.playerName nowMs with ⟨again, b₃⟩
      cases again <;>
        simp [hverified, securityPolicyNoteAuthFailure, hagain, account, answered]

theorem processNewPassword_account (host : Host β α) (c : Conn β α) {t : Typing}
    (h : c.input.Holds t) :
    (c.processNewPassword host).account = c.answered (c.dialogue.choosePassword host t.text) := by
  unfold processNewPassword Dialogue.choosePassword
  rw [h.length, h.text_eq]
  by_cases hshort : t.text.length < playerPasswordMin
  · simp [hshort, account, answered]
  by_cases hallowed : playerStorePasswordAllowed c.dialogue.playerName t.text = 1
  · rcases hprepare : host.backend.preparePassword c.dialogue.backend t.text
      c.dialogue.pendingPassword with ⟨⟨prepared, token⟩, backend⟩
    simp only [playerStorePreparePassword, hprepare]
    by_cases hprepared : prepared = 0 <;>
      simp [hshort, hallowed, hprepared, account, answered, Dialogue.restart]
  · simp [hshort, hallowed, account, answered]

theorem processPasswordConfirmation_account (host : Host β α) (c : Conn β α) {t : Typing}
    (h : c.input.Holds t) (nowMs : UInt64) :
    (c.processPasswordConfirmation host nowMs).account =
      c.answered (c.dialogue.confirmPassword host t.text nowMs) := by
  unfold processPasswordConfirmation Dialogue.confirmPassword
  rw [h.text_eq]
  rcases hmatch : host.backend.passwordMatches c.dialogue.backend c.dialogue.pendingPassword
    t.text with ⟨matched, b₁⟩
  simp only [playerStorePasswordMatches, hmatch]
  by_cases hmatched : matched = 1
  case neg => simp [hmatched, account, answered, Dialogue.forgetPassword]
  rcases hallow : host.backend.allowAccountCreation b₁ host.remoteId nowMs with ⟨allowed, b₂⟩
  simp only [securityPolicyAllowAccountCreation, dialogue_wipeLine, dialogue_record, hallow]
  cases allowed with
  | false => simp [hmatched, account, answered, Dialogue.forgetPassword, Dialogue.restart]
  | true =>
    rcases hcreate : host.backend.create b₂ c.dialogue.playerName c.dialogue.pendingPassword with
      ⟨created, b₃⟩
    simp only [playerStoreCreate, dialogue_wipeLine, dialogue_record, hcreate]
    by_cases hcreated : created = 0
    · simp [hmatched, hcreated, securityPolicyNoteAuthSuccess, enterGame_account, answered,
        Dialogue.forgetPassword]
    · simp [hmatched, hcreated, account, answered, Dialogue.forgetPassword, Dialogue.restart]

theorem account_requestClose (c : Conn β α) (event : String) (message : Option String) :
    (c.requestClose event message).account = c.account := by
  simp [account]

/-- A hook other than `open` does nothing to the account. -/
theorem account_callHook {ρ : Type} (c : Conn β α) (call : ApplicationCall)
    (hcall : (Event.application call).gated? = none) (hook : α → Wire.HookProgram (ρ × α)) :
    ({ c with link := (c.link.callHook call hook).2 } : Conn β α).account = c.account := by
  have hcalls := (Link.effect_callHook c.link call hook).calls_eq
  rw [hcall, Option.toList_none, List.append_nil] at hcalls
  exact congrArg (Dialogue.Reply.mk c.dialogue) hcalls

theorem processBuiltin_account (c : Conn β α) : c.processBuiltin.account = c.account := by
  unfold processBuiltin
  dsimp only
  split_ifs <;> simp [account]

theorem processCommand_account (host : Host β α) (c : Conn β α) (nowMs : UInt64) :
    (c.processCommand host nowMs).account = c.account := by
  unfold processCommand
  dsimp only
  split
  · exact account_requestClose _ _ _
  split
  case h_1 session hook _ _ =>
    have hline := account_callHook c (.line session c.input.text) rfl
      (hook session c.input.text)
    split
    · exact (account_requestClose _ _ _).trans hline
    · exact hline
  case h_2 => exact processBuiltin_account _

theorem processOverflow_account (c : Conn β α) :
    c.processOverflow.account = ⟨c.dialogue.abandon, c.calls⟩ := by
  have hwiped : ({ c with input := { c.input.wipe with lineOverflow := false } } :
      Conn β α).calls = c.calls := rfl
  unfold processOverflow Dialogue.abandon
  cases hlogin : c.dialogue.login
  case password | newPassword | confirmPassword =>
    simp [account, LoginState.isPassword, hlogin, hwiped, Dialogue.forgetPassword]
  case name | inGame =>
    simp only [hlogin, LoginState.isPassword, Bool.false_eq_true, if_false]
    split <;> simp [account, hwiped]

theorem input_processOverflow (c : Conn β α) :
    c.processOverflow.input = { c.input.wipe with lineOverflow := false } := by
  unfold processOverflow
  dsimp only
  split_ifs <;> simp

theorem processLine_account (host : Host β α) (c : Conn β α) {t : Typing} (h : c.input.Holds t)
    (hfits : t.overflow = false) (nowMs : UInt64) :
    (c.processLine host nowMs).account = c.answered (c.dialogue.complete host t nowMs) := by
  unfold processLine Dialogue.complete
  rw [if_neg (by simp [hfits])]
  cases c.dialogue.login with
  | name => exact processPlayerName_account host c h
  | password => exact processExistingPassword_account host c h nowMs
  | newPassword => exact processNewPassword_account host c h
  | confirmPassword => exact processPasswordConfirmation_account host c h nowMs
  | inGame => simpa [account, answered] using processCommand_account host c nowMs

theorem processCompleteLine_account_of_accepted (host : Host β α) (c : Conn β α) {t : Typing}
    (h : c.input.Holds t) {nowMs : UInt64}
    (haccepted : (rateConsume c.lineWindow 1 inputLinesPerWindow inputLinesWindowMs nowMs).1 = true) :
    (c.processCompleteLine host nowMs).account = c.answered (c.dialogue.complete host t nowMs) := by
  unfold processCompleteLine
  simp only [haccepted, Bool.not_true, Bool.false_eq_true, if_false]
  split
  case isTrue hoverflow =>
    rw [h.overflow] at hoverflow
    rw [processOverflow_account]
    simp [answered, Dialogue.complete, hoverflow, calls]
  case isFalse hoverflow =>
    rw [h.overflow, Bool.not_eq_true] at hoverflow
    rw [h.terminated]
    exact processLine_account host { c with lineWindow := (rateConsume c.lineWindow 1
      inputLinesPerWindow inputLinesWindowMs nowMs).2 } h hoverflow nowMs

/-- When too many lines came in a short time, a line closes the session and
changes nothing else. -/
theorem processCompleteLine_of_refused (host : Host β α) (c : Conn β α) {nowMs : UInt64}
    (hrefused :
      (rateConsume c.lineWindow 1 inputLinesPerWindow inputLinesWindowMs nowMs).1 = false) :
    (c.processCompleteLine host nowMs).closed = true ∧
      (c.processCompleteLine host nowMs).account = c.account := by
  unfold processCompleteLine
  simp only [hrefused, Bool.not_false, if_true]
  exact ⟨closed_requestClose _ _ _, account_requestClose _ _ _⟩

/-- What a completed line does. -/
theorem processCompleteLine_account (host : Host β α) (c : Conn β α) {t : Typing}
    (h : c.input.Holds t) (nowMs : UInt64) :
    (c.processCompleteLine host nowMs).account = c.answered (c.dialogue.complete host t nowMs) ∨
      (c.processCompleteLine host nowMs).closed = true ∧
        (c.processCompleteLine host nowMs).account = c.account := by
  cases haccepted :
    (rateConsume c.lineWindow 1 inputLinesPerWindow inputLinesWindowMs nowMs).1 with
  | true => exact .inl (processCompleteLine_account_of_accepted host c h haccepted)
  | false => exact .inr (processCompleteLine_of_refused host c haccepted)

/-- After a completed line the buffer is empty; only a line that came too fast
leaves its overflow mark. -/
theorem processCompleteLine_holds (host : Host β α) (c : Conn β α) (nowMs : UInt64) :
    (c.processCompleteLine host nowMs).input.Holds .empty ∨
      (c.processCompleteLine host nowMs).closed = true ∧
        (c.processCompleteLine host nowMs).input.Holds ⟨[], c.input.lineOverflow⟩ := by
  unfold processCompleteLine
  dsimp only
  split
  case isTrue =>
    exact .inr ⟨closed_requestClose _ _ _, LineInput.holds_wipe c.input c.input.lineOverflow⟩
  case isFalse =>
    left
    split
    case isTrue =>
      rw [input_processOverflow]
      exact LineInput.holds_wipe c.input false
    case isFalse => exact LineInput.holds_wipe _ false

/-! ## The steps that complete no line -/

theorem writeCurrentPrompt_account (c : Conn β α) : c.writeCurrentPrompt.account = c.account := by
  unfold writeCurrentPrompt
  split <;> simp [account]

theorem input_writeCurrentPrompt (c : Conn β α) : c.writeCurrentPrompt.input = c.input := by
  unfold writeCurrentPrompt
  split <;> simp

theorem interruptCurrentInput_account (c : Conn β α) :
    c.interruptCurrentInput.account = ⟨c.dialogue.interrupt, c.calls⟩ := by
  have hclear : ({ c with input := c.input.clear } : Conn β α).calls = c.calls := rfl
  unfold interruptCurrentInput Dialogue.interrupt
  dsimp only
  rw [writeCurrentPrompt_account]
  cases hlogin : c.dialogue.login <;> simp [account, hclear, hlogin, Dialogue.forgetPassword]

theorem input_interruptCurrentInput (c : Conn β α) :
    c.interruptCurrentInput.input = c.input.clear := by
  unfold interruptCurrentInput
  dsimp only
  rw [input_writeCurrentPrompt]
  split <;> simp

theorem start_account (host : Host β α) (c : Conn β α) : (c.start host).account = c.account := by
  have hcalls : ({ c with started := true }.onLink
      (Link.negotiateOperationalOptions host.application)).calls = c.calls :=
    calls_of_quiet (Link.quiet_negotiateOperationalOptions host.application c.link)
  unfold start
  split
  · rfl
  · simp [account, hcalls]

theorem input_start (host : Host β α) (c : Conn β α) : (c.start host).input = c.input := by
  unfold start
  split <;> simp

theorem poll_account (host : Host β α) (c : Conn β α) : (c.poll host).2.account = c.account := by
  unfold poll
  split
  · rfl
  split
  case h_2 => rfl
  case h_1 session hook _ _ =>
    have hpoll := account_callHook c (.poll session) rfl (hook session)
    dsimp only
    split
    · exact (account_requestClose _ _ _).trans hpoll
    · exact hpoll

theorem input_poll (host : Host β α) (c : Conn β α) : (c.poll host).2.input = c.input := by
  unfold poll
  split
  · rfl
  split
  · dsimp only
    split <;> rfl
  · rfl

/-! ## Data bytes -/

/-- A pending CR does not change what LF does. -/
theorem receiveDataByte_lf (host : Host β α) (c : Conn β α) (nowMs : UInt64) :
    c.receiveDataByte host 10 nowMs =
      { c with input.pendingCr := false }.processCompleteLine host nowMs := by
  unfold receiveDataByte receivePlainByte
  cases hcr : c.input.pendingCr
  · have hsame : { c with input.pendingCr := false } = c := by
      cases c with | mk _ _ input => cases input; simp_all
    simp [hsame]
  · simp

/-- The byte only edits the line: nothing but the line buffer changes, and that
as if there were no pending CR. -/
structure Edits (c : Conn β α) (t : Typing) (c' : Conn β α) : Prop where
  dialogue : c'.dialogue = c.dialogue
  link : c'.link = c.link
  parsing : c'.parsing = c.parsing
  holds : c'.input.Holds t

theorem receivePlainByte_edits (host : Host β α) {c : Conn β α} {t : Typing}
    (h : c.input.Holds t) {byte : UInt8} (hbyte : byte ≠ 10) (nowMs : UInt64) :
    c.Edits (t.put (LineInput.lineLimit c.dialogue.login) byte)
      (c.receivePlainByte host byte nowMs) := by
  unfold receivePlainByte
  split_ifs with hcr hnul
  · subst hcr
    exact ⟨rfl, rfl, rfl, h.setPendingCr true⟩
  · subst hnul
    exact ⟨rfl, rfl, rfl, h⟩
  · exact ⟨rfl, rfl, rfl, h.appendLineByte c.dialogue.login byte⟩

theorem receiveDataByte_edits (host : Host β α) {c : Conn β α} {t : Typing}
    (h : c.input.Holds t) (hopen : c.closed = false) {byte : UInt8} (hbyte : byte ≠ 10)
    (nowMs : UInt64) :
    c.Edits (t.put (LineInput.lineLimit c.dialogue.login) byte)
      (c.receiveDataByte host byte nowMs) := by
  unfold receiveDataByte
  split
  case isFalse => exact receivePlainByte_edits host h hbyte nowMs
  case isTrue =>
    -- The CR is appended first, which changes nothing: it is a control character.
    have hcr : ({ c with input.pendingCr := false }.appendLineByte 13).input.Holds t :=
      (h.setPendingCr false).appendLineByte c.dialogue.login 13
    dsimp only
    by_cases hnul : byte = 0
    · subst hnul
      exact ⟨rfl, rfl, rfl, hcr⟩
    · have hstill : ({ c with input.pendingCr := false }.appendLineByte 13).closed = false := hopen
      rw [if_neg (by simp [hnul, hstill])]
      obtain ⟨hdialogue, hlink, hparsing, hholds⟩ := receivePlainByte_edits host hcr hbyte nowMs
      exact ⟨hdialogue, hlink, hparsing, hholds⟩

end Conn

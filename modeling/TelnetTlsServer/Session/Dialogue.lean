-- SUMMARY: The account dialogue as a machine over completed lines, without output, and its transitions.
import TelnetTlsServer.Session.Typing

/-!
# The dialogue behind a session

A login is a conversation of completed lines with the credential store and the
security policy. `Dialogue.complete` is that conversation alone: the account
fields after a line, and the gated calls the line makes. Prompts, echo
negotiation, audit records, rate limits and the application do not occur in it.

`Turn` lists its transitions, one constructor for each way a line can end.
-/

namespace Dialogue

variable {β α : Type}

/-- The account fields after a line, and the gated calls it made. -/
structure Reply (β : Type) where
  dialogue : Dialogue β
  calls : List GatedCall

/-- The call that hands a player to the application. -/
def openCalls (host : Host β α) (name : Bytes) : List GatedCall :=
  if host.application.open_.isSome then [.open_ name] else []

def forgetPassword (d : Dialogue β) : Dialogue β := { d with pendingPassword := Buffer.zero 256 }

/-- Back to the name phase, with no name. -/
def restart (d : Dialogue β) : Dialogue β := { d with login := .name, playerName := [] }

def giveName (host : Host β α) (d : Dialogue β) (line : Bytes) : Reply β :=
  if !playerStoreNameValid line then ⟨d, []⟩
  else
    let (found, backend) := host.backend.exists_ d.backend line
    let d := { d with playerName := line, backend := backend }
    let calls := [.backend (.exists_ line found)]
    if found < 0 then ⟨{ d with playerName := [] }, calls⟩
    else if found = 1 then ⟨{ d with login := .password }, calls⟩
    else ⟨{ d with login := .newPassword }, calls⟩

def givePassword (host : Host β α) (d : Dialogue β) (line : Bytes) (nowMs : UInt64) : Reply β :=
  let peer := host.remoteId
  let name := d.playerName
  let (allowed, backend) := host.backend.allowAuthAttempt d.backend peer name nowMs
  let allow := .backend (.allowAuthAttempt peer name nowMs allowed)
  if !allowed then ⟨{ d with backend := backend }, [allow]⟩
  else
    let ((verified, _), backend) := host.backend.verifyPassword backend name line
    let verify := .backend (.verifyPassword name line verified)
    if verified = 1 then
      let backend := host.backend.noteAuthSuccess backend peer name nowMs
      ⟨{ d with login := .inGame, backend := backend },
        [allow, verify, .backend (.noteAuthSuccess peer name nowMs)] ++ openCalls host name⟩
    else
      let backend := host.backend.noteAuthFailure backend peer name nowMs
      let (again, backend) := host.backend.allowAuthAttempt backend peer name nowMs
      ⟨{ d with backend := backend }, [allow, verify, .backend (.noteAuthFailure peer name nowMs),
        .backend (.allowAuthAttempt peer name nowMs again)]⟩

def choosePassword (host : Host β α) (d : Dialogue β) (line : Bytes) : Reply β :=
  if line.length < playerPasswordMin || playerStorePasswordAllowed d.playerName line ≠ 1 then ⟨d, []⟩
  else
    let ((prepared, token), backend) :=
      host.backend.preparePassword d.backend line d.pendingPassword
    let d := { d with pendingPassword := token, backend := backend }
    let calls := [.backend (.preparePassword line prepared token)]
    if prepared ≠ 0 then ⟨d.restart, calls⟩ else ⟨{ d with login := .confirmPassword }, calls⟩

def confirmPassword (host : Host β α) (d : Dialogue β) (line : Bytes) (nowMs : UInt64) :
    Reply β :=
  let peer := host.remoteId
  let name := d.playerName
  let token := d.pendingPassword
  let (matched, backend) := host.backend.passwordMatches d.backend token line
  let matching := .backend (.passwordMatches token line matched)
  let d := d.forgetPassword
  if matched ≠ 1 then ⟨{ d with login := .newPassword, backend := backend }, [matching]⟩
  else
    let (allowed, backend) := host.backend.allowAccountCreation backend peer nowMs
    let allow := .backend (.allowAccountCreation peer nowMs allowed)
    if !allowed then ⟨{ d.restart with backend := backend }, [matching, allow]⟩
    else
      let (created, backend) := host.backend.create backend name token
      let create := .backend (.create name token created)
      if created ≠ 0 then ⟨{ d.restart with backend := backend }, [matching, allow, create]⟩
      else
        let backend := host.backend.noteAuthSuccess backend peer name nowMs
        ⟨{ d with login := .inGame, backend := backend },
          [matching, allow, create, .backend (.noteAuthSuccess peer name nowMs)] ++
            openCalls host name⟩

/-- A password that waits for its confirmation is dropped. -/
def abandon (d : Dialogue β) : Dialogue β :=
  match d.login with
  | .newPassword | .confirmPassword => { d.forgetPassword with login := .newPassword }
  | .name | .password | .inGame => d

/-- A completed line; one that was too long is not looked at. -/
def complete (host : Host β α) (d : Dialogue β) (t : Typing) (nowMs : UInt64) : Reply β :=
  if t.overflow then ⟨d.abandon, []⟩
  else
    match d.login with
    | .name => d.giveName host t.text
    | .password => d.givePassword host t.text nowMs
    | .newPassword => d.choosePassword host t.text
    | .confirmPassword => d.confirmPassword host t.text nowMs
    | .inGame => ⟨d, []⟩

/-- IP and BRK: a confirmation starts over. -/
def interrupt (d : Dialogue β) : Dialogue β :=
  match d.login with
  | .confirmPassword => { d.forgetPassword with login := .newPassword }
  | .name | .password | .newPassword | .inGame => d

/-! ## Transitions -/

/-- The calls of a login with an existing password. -/
def verifiedCalls (host : Host β α) (d : Dialogue β) (line : Bytes) (nowMs : UInt64) :
    List GatedCall :=
  [.backend (.allowAuthAttempt host.remoteId d.playerName nowMs true),
    .backend (.verifyPassword d.playerName line 1),
    .backend (.noteAuthSuccess host.remoteId d.playerName nowMs)] ++
    openCalls host d.playerName

/-- The calls of a login with a new account. -/
def createdCalls (host : Host β α) (d : Dialogue β) (line : Bytes) (nowMs : UInt64) :
    List GatedCall :=
  [.backend (.passwordMatches d.pendingPassword line 1),
    .backend (.allowAccountCreation host.remoteId nowMs true),
    .backend (.create d.playerName d.pendingPassword 0),
    .backend (.noteAuthSuccess host.remoteId d.playerName nowMs)] ++
    openCalls host d.playerName

/-- Every way a completed line can end. The state of store and policy afterwards
is left open; their answers are in the calls. -/
inductive Turn (host : Host β α) (d : Dialogue β) (t : Typing) (nowMs : UInt64) : Reply β → Prop where
  | ignored : Turn host d t nowMs ⟨d, []⟩
  | abandoned : Turn host d t nowMs ⟨d.abandon, []⟩
  | unreadable (hlogin : d.login = .name) (found : Int) (backend : β) :
      Turn host d t nowMs ⟨{ d with playerName := [], backend := backend },
        [.backend (.exists_ t.text found)]⟩
  | known (hlogin : d.login = .name) (backend : β) :
      Turn host d t nowMs ⟨{ d with login := .password, playerName := t.text, backend := backend },
        [.backend (.exists_ t.text 1)]⟩
  | unknown (hlogin : d.login = .name) (found : Int) (backend : β) :
      Turn host d t nowMs
        ⟨{ d with login := .newPassword, playerName := t.text, backend := backend },
          [.backend (.exists_ t.text found)]⟩
  | throttled (hlogin : d.login = .password) (backend : β) :
      Turn host d t nowMs ⟨{ d with backend := backend },
        [.backend (.allowAuthAttempt host.remoteId d.playerName nowMs false)]⟩
  | verified (hlogin : d.login = .password) (backend : β) :
      Turn host d t nowMs ⟨{ d with login := .inGame, backend := backend },
        d.verifiedCalls host t.text nowMs⟩
  | rejected (hlogin : d.login = .password) (answer : Int) (hanswer : answer ≠ 1) (again : Bool)
      (backend : β) :
      Turn host d t nowMs ⟨{ d with backend := backend },
        [.backend (.allowAuthAttempt host.remoteId d.playerName nowMs true),
          .backend (.verifyPassword d.playerName t.text answer),
          .backend (.noteAuthFailure host.remoteId d.playerName nowMs),
          .backend (.allowAuthAttempt host.remoteId d.playerName nowMs again)]⟩
  | unprepared (hlogin : d.login = .newPassword) (answer : Int) (token : PasswordToken)
      (backend : β) :
      Turn host d t nowMs ⟨{ d.restart with pendingPassword := token, backend := backend },
        [.backend (.preparePassword t.text answer token)]⟩
  | prepared (hlogin : d.login = .newPassword)
      (hallowed : playerStorePasswordAllowed d.playerName t.text = 1) (token : PasswordToken)
      (backend : β) :
      Turn host d t nowMs
        ⟨{ d with login := .confirmPassword, pendingPassword := token, backend := backend },
          [.backend (.preparePassword t.text 0 token)]⟩
  | mismatched (hlogin : d.login = .confirmPassword) (answer : Int) (backend : β) :
      Turn host d t nowMs ⟨{ d.forgetPassword with login := .newPassword, backend := backend },
        [.backend (.passwordMatches d.pendingPassword t.text answer)]⟩
  | limited (hlogin : d.login = .confirmPassword) (backend : β) :
      Turn host d t nowMs ⟨{ d.forgetPassword.restart with backend := backend },
        [.backend (.passwordMatches d.pendingPassword t.text 1),
          .backend (.allowAccountCreation host.remoteId nowMs false)]⟩
  | uncreated (hlogin : d.login = .confirmPassword) (answer : Int) (backend : β) :
      Turn host d t nowMs ⟨{ d.forgetPassword.restart with backend := backend },
        [.backend (.passwordMatches d.pendingPassword t.text 1),
          .backend (.allowAccountCreation host.remoteId nowMs true),
          .backend (.create d.playerName d.pendingPassword answer)]⟩
  | created (hlogin : d.login = .confirmPassword) (backend : β) :
      Turn host d t nowMs ⟨{ d.forgetPassword with login := .inGame, backend := backend },
        d.createdCalls host t.text nowMs⟩

variable (host : Host β α) (d : Dialogue β) (t : Typing) (nowMs : UInt64)

theorem turn_giveName (hlogin : d.login = .name) : Turn host d t nowMs (d.giveName host t.text) := by
  unfold giveName
  split
  · exact .ignored
  rcases host.backend.exists_ d.backend t.text with ⟨found, backend⟩
  dsimp only
  split_ifs with hunreadable hfound
  · exact .unreadable hlogin found backend
  · subst hfound
    exact .known hlogin backend
  · exact .unknown hlogin found backend

theorem turn_givePassword (hlogin : d.login = .password) :
    Turn host d t nowMs (d.givePassword host t.text nowMs) := by
  unfold givePassword
  rcases hallow : host.backend.allowAuthAttempt d.backend host.remoteId d.playerName nowMs with
    ⟨allowed, b₁⟩
  simp only [hallow]
  cases allowed with
  | false => exact .throttled hlogin b₁
  | true =>
    rcases hverify : host.backend.verifyPassword b₁ d.playerName t.text with ⟨⟨verified, _⟩, b₂⟩
    simp only [hverify, Bool.not_true, Bool.false_eq_true, if_false]
    split
    case isTrue hverified =>
      subst hverified
      exact .verified hlogin _
    case isFalse hverified => exact .rejected hlogin verified hverified _ _

theorem turn_choosePassword (hlogin : d.login = .newPassword) :
    Turn host d t nowMs (d.choosePassword host t.text) := by
  unfold choosePassword
  split
  case isTrue => exact .ignored
  case isFalse hallowed =>
    simp only [ne_eq, Bool.or_eq_true, decide_eq_true_eq, not_or, not_not] at hallowed
    rcases host.backend.preparePassword d.backend t.text d.pendingPassword with
      ⟨⟨prepared, token⟩, backend⟩
    dsimp only
    split
    case isTrue => exact .unprepared hlogin prepared token backend
    case isFalse hprepared =>
      obtain rfl : prepared = 0 := not_not.mp hprepared
      exact .prepared hlogin hallowed.2 token backend

theorem turn_confirmPassword (hlogin : d.login = .confirmPassword) :
    Turn host d t nowMs (d.confirmPassword host t.text nowMs) := by
  unfold confirmPassword
  rcases hmatch : host.backend.passwordMatches d.backend d.pendingPassword t.text with ⟨matched, b₁⟩
  simp only [hmatch]
  split
  case isTrue => exact .mismatched hlogin matched b₁
  case isFalse hmatched =>
  obtain rfl : matched = 1 := not_not.mp hmatched
  rcases hallow : host.backend.allowAccountCreation b₁ host.remoteId nowMs with ⟨allowed, b₂⟩
  simp only [hallow]
  cases allowed with
  | false => exact .limited hlogin b₂
  | true =>
    rcases hcreate : host.backend.create b₂ d.playerName d.pendingPassword with ⟨created, b₃⟩
    simp only [hcreate, Bool.not_true, Bool.false_eq_true, if_false]
    split
    case isTrue => exact .uncreated hlogin created b₃
    case isFalse hcreated =>
      obtain rfl : created = 0 := not_not.mp hcreated
      exact .created hlogin _

theorem turn_complete : Turn host d t nowMs (d.complete host t nowMs) := by
  unfold complete
  split
  · exact .abandoned
  cases hlogin : d.login with
  | name => exact turn_giveName host d t nowMs hlogin
  | password => exact turn_givePassword host d t nowMs hlogin
  | newPassword => exact turn_choosePassword host d t nowMs hlogin
  | confirmPassword => exact turn_confirmPassword host d t nowMs hlogin
  | inGame => exact .ignored

/-! ## Where the phases come from -/

theorem login_interrupt (d : Dialogue β) :
    d.interrupt.login ≠ .confirmPassword ∧ (d.interrupt.login = .inGame ↔ d.login = .inGame) := by
  unfold interrupt
  cases hlogin : d.login <;> simp [hlogin]

theorem interrupt_of_inGame {d : Dialogue β} (h : d.login = .inGame) : d.interrupt = d := by
  simp [interrupt, h]

theorem login_abandon (d : Dialogue β) :
    d.abandon.login ≠ .confirmPassword ∧ (d.abandon.login = .inGame ↔ d.login = .inGame) := by
  unfold abandon
  cases hlogin : d.login <;> simp [hlogin]

variable {host d t nowMs} {r : Reply β}

/-- A confirmation is asked for after a new password was prepared. -/
theorem Turn.confirm (h : d.Turn host t nowMs r) (hr : r.dialogue.login = .confirmPassword) :
    r.dialogue = d ∨
      (d.login = .newPassword ∧ playerStorePasswordAllowed d.playerName t.text = 1 ∧
        r.dialogue.playerName = d.playerName ∧
        r.calls = [.backend (.preparePassword t.text 0 r.dialogue.pendingPassword)]) := by
  cases h with
  | ignored => exact .inl rfl
  | prepared hlogin hallowed token backend => exact .inr ⟨hlogin, hallowed, rfl, rfl⟩
  | abandoned => exact absurd hr d.login_abandon.1
  | unreadable hlogin | throttled hlogin | rejected hlogin => simp [hlogin] at hr
  | known | unknown | verified | unprepared | mismatched | limited | uncreated | created => cases hr

/-- The game is entered, and the application called, in two ways only. -/
theorem Turn.game (h : d.Turn host t nowMs r)
    (hr : (d.login ≠ .inGame ∧ r.dialogue.login = .inGame) ∨ ∃ name, .open_ name ∈ r.calls) :
    r.dialogue.login = .inGame ∧
      ((d.login = .password ∧ r.calls = d.verifiedCalls host t.text nowMs) ∨
        (d.login = .confirmPassword ∧ r.calls = d.createdCalls host t.text nowMs)) := by
  cases h with
  | verified hlogin backend => exact ⟨rfl, .inl ⟨hlogin, rfl⟩⟩
  | created hlogin backend => exact ⟨rfl, .inr ⟨hlogin, rfl⟩⟩
  | ignored => simp at hr
  | abandoned => simp [d.login_abandon.2] at hr
  | unreadable hlogin | throttled hlogin | rejected hlogin | known hlogin | unknown hlogin
  | unprepared hlogin | prepared hlogin | mismatched hlogin | limited hlogin | uncreated hlogin =>
    simp [hlogin, restart] at hr

/-- Nothing happens to an account in game. -/
theorem Turn.of_inGame (h : d.Turn host t nowMs r) (hd : d.login = .inGame) :
    r = ⟨d, []⟩ := by
  cases h with
  | ignored => rfl
  | abandoned => simp [abandon, hd]
  | unreadable hlogin | throttled hlogin | rejected hlogin | known hlogin | unknown hlogin
  | unprepared hlogin | prepared hlogin | mismatched hlogin | limited hlogin | uncreated hlogin
  | verified hlogin | created hlogin => simp [hd] at hlogin

end Dialogue

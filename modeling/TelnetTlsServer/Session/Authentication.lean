-- SUMMARY: The authentication gate: what happened before a player is in game, over all runs of a session.
import TelnetTlsServer.Session.Steps

/-!
# The authentication gate

An action of a session leaves the account alone, interrupts a confirmation, or
completes a line (`Moves`). With the transitions of the dialogue this gives the
gate: a step into the game is a verified password or the confirmed creation of
an account. What the record of calls looks like over a whole run is `Disciplined`.
-/

namespace Conn

variable {β α : Type}

/-! ## What an action does to the account -/

inductive Moves (host : Host β α) (c : Conn β α) : Action → Dialogue.Reply β → Prop where
  | idle (action : Action) : Moves host c action c.account
  | interrupted (action : Action) : Moves host c action ⟨c.dialogue.interrupt, c.calls⟩
  | completed (byte : UInt8) (nowMs : UInt64) {t : Typing} (h : c.input.Holds t) :
      Moves host c (.byte byte nowMs) (c.answered (c.dialogue.complete host t nowMs))

theorem moves_act {host : Host β α} {c : Conn β α} (hc : (system host).Reachable c)
    (action : Action) : Moves host c action (c.act host action).account := by
  obtain ⟨made, dialogue, hhandles, hcalls, hdialogue⟩ := exists_handles host (good_of_reachable hc) action
  rw [account, hdialogue, hcalls]
  cases hhandles with
  | idle => rw [List.append_nil]; exact .idle action
  | interrupted => rw [List.append_nil]; exact .interrupted action
  | read hread =>
    obtain ⟨rfl, -, -, -, ht⟩ := hread
    exact .completed 10 _ ht

theorem exists_moves {host : Host β α} {c : Conn β α} (hc : (system host).Reachable c)
    (action : Action) : ∃ r, Moves host c action r ∧
      (c.act host action).dialogue = r.dialogue ∧ (c.act host action).calls = r.calls :=
  ⟨_, moves_act hc action, rfl, rfl⟩

/-! ## The record of calls -/

/-- Every password check directly follows the policy's consent, a failed one is
directly followed by a charge for the same peer, name and time, and there are no
other charges. -/
structure Disciplined (host : Host β α) (calls : List GatedCall) : Prop where
  checked : ∀ {pre post name password answer},
    calls = pre ++ .backend (.verifyPassword name password answer) :: post →
    ∃ nowMs before, pre = before ++ [.backend (.allowAuthAttempt host.remoteId name nowMs true)] ∧
      (answer ≠ 1 → ∃ after, post = .backend (.noteAuthFailure host.remoteId name nowMs) :: after)
  charged : ∀ {pre post peer name nowMs},
    calls = pre ++ .backend (.noteAuthFailure peer name nowMs) :: post →
    peer = host.remoteId ∧ ∃ before password answer, answer ≠ 1 ∧
      pre = before ++ [.backend (.allowAuthAttempt peer name nowMs true),
        .backend (.verifyPassword name password answer)]

/-- Neither a password check nor a charge. -/
def plainCall : GatedCall → Bool
  | .backend (.verifyPassword ..) | .backend (.noteAuthFailure ..) => false
  | _ => true

namespace Disciplined

variable {host : Host β α}

theorem of_plain {calls : List GatedCall} (h : ∀ x ∈ calls, plainCall x = true) :
    Disciplined host calls where
  checked heq := absurd (h _ (heq ▸ List.mem_append_right _ List.mem_cons_self)) (by simp [plainCall])
  charged heq := absurd (h _ (heq ▸ List.mem_append_right _ List.mem_cons_self)) (by simp [plainCall])

/-- An element of `a ++ b` stands in `a` or in `b`. -/
private theorem append_eq_split {γ : Type} {a b pre post : List γ} {x : γ}
    (h : a ++ b = pre ++ x :: post) :
    (∃ mid, pre = a ++ mid ∧ b = mid ++ x :: post) ∨
      ∃ mid, a = pre ++ x :: mid ∧ post = mid ++ b := by
  rcases List.append_eq_append_iff.mp h with ⟨mid, hpre, hb⟩ | ⟨mid, ha, hpost⟩
  · exact .inl ⟨mid, hpre, hb⟩
  cases mid with
  | nil => exact .inl ⟨[], by simpa using ha.symm, hpost.symm⟩
  | cons y mid =>
    obtain ⟨rfl, hrest⟩ := List.cons.inj hpost
    exact .inr ⟨mid, ha, hrest⟩

theorem append {a b : List GatedCall} (ha : Disciplined host a) (hb : Disciplined host b) :
    Disciplined host (a ++ b) := by
  constructor
  · intro pre post name password answer heq
    rcases append_eq_split heq with ⟨mid, rfl, hmid⟩ | ⟨mid, hmid, rfl⟩
    · obtain ⟨nowMs, before, rfl, hcharge⟩ := hb.checked hmid
      exact ⟨nowMs, a ++ before, by simp, hcharge⟩
    · obtain ⟨nowMs, before, hpre, hcharge⟩ := ha.checked hmid
      refine ⟨nowMs, before, hpre, fun hanswer => ?_⟩
      obtain ⟨after, rfl⟩ := hcharge hanswer
      exact ⟨after ++ b, rfl⟩
  · intro pre post peer name nowMs heq
    rcases append_eq_split heq with ⟨mid, rfl, hmid⟩ | ⟨mid, hmid, rfl⟩
    · obtain ⟨hpeer, before, password, answer, hanswer, rfl⟩ := hb.charged hmid
      exact ⟨hpeer, a ++ before, password, answer, hanswer, by simp⟩
    · exact ha.charged hmid

theorem accepted (name password : Bytes) (nowMs : UInt64) :
    Disciplined host [.backend (.allowAuthAttempt host.remoteId name nowMs true),
      .backend (.verifyPassword name password 1)] := by
  constructor
  · intro pre post name' password' answer heq
    rcases pre with _ | ⟨_, _ | ⟨_, pre⟩⟩ <;> simp at heq
    obtain ⟨rfl, ⟨rfl, rfl, rfl⟩, rfl⟩ := heq
    exact ⟨nowMs, [], rfl, fun h => absurd rfl h⟩
  · intro pre post peer name' nowMs' heq
    rcases pre with _ | ⟨_, _ | ⟨_, pre⟩⟩ <;> simp at heq

theorem refused (name password : Bytes) {answer : Int} (hanswer : answer ≠ 1) (nowMs : UInt64) :
    Disciplined host [.backend (.allowAuthAttempt host.remoteId name nowMs true),
      .backend (.verifyPassword name password answer),
      .backend (.noteAuthFailure host.remoteId name nowMs)] := by
  constructor
  · intro pre post name' password' answer' heq
    rcases pre with _ | ⟨_, _ | ⟨_, _ | ⟨_, pre⟩⟩⟩ <;> simp at heq
    obtain ⟨rfl, ⟨rfl, rfl, rfl⟩, rfl⟩ := heq
    exact ⟨nowMs, [], rfl, fun _ => ⟨[], rfl⟩⟩
  · intro pre post peer name' nowMs' heq
    rcases pre with _ | ⟨_, _ | ⟨_, _ | ⟨_, pre⟩⟩⟩ <;> simp at heq
    obtain ⟨rfl, rfl, ⟨rfl, rfl, rfl⟩, rfl⟩ := heq
    exact ⟨rfl, [], password, answer, hanswer, rfl⟩

theorem openCalls (name : Bytes) : Disciplined host (Dialogue.openCalls host name) := by
  apply of_plain
  unfold Dialogue.openCalls
  split <;> simp [plainCall]

theorem turn {d : Dialogue β} {t : Typing} {nowMs : UInt64} {r : Dialogue.Reply β}
    (h : d.Turn host t nowMs r) : Disciplined host r.calls := by
  cases h with
  | verified _ _ =>
    exact ((accepted d.playerName t.text nowMs).append (of_plain (by simp [plainCall]))).append
      (openCalls d.playerName)
  | rejected _ answer hanswer again _ =>
    exact (refused d.playerName t.text hanswer nowMs).append (of_plain (by simp [plainCall]))
  | created _ _ => exact (of_plain (by simp [plainCall])).append (openCalls d.playerName)
  | ignored | abandoned => exact of_plain (by simp)
  | unreadable | known | unknown | throttled | unprepared | prepared | mismatched | limited
  | uncreated => exact of_plain (by simp [plainCall])

end Disciplined

theorem Moves.disciplined {host : Host β α} {c : Conn β α} {action : Action}
    {r : Dialogue.Reply β} (h : Moves host c action r) (hc : Disciplined host c.calls) :
    Disciplined host r.calls := by
  cases h with
  | idle | interrupted => exact hc
  | completed byte nowMs ht => exact hc.append (.turn (Dialogue.turn_complete host c.dialogue _ nowMs))

theorem disciplined_of_reachable {host : Host β α} {c : Conn β α}
    (hc : (system host).Reachable c) : Disciplined host c.calls := by
  refine hc.invariant (I := fun c => Disciplined host c.calls) ?_ ?_
  · rintro c ⟨backend, app, rfl⟩
    exact .of_plain (by simp [calls, Conn.initial, Wire.calls])
  · rintro action c c' hc h rfl
    exact (moves_act hc action).disciplined h

/-! ## Prepared passwords -/

/-- The pending token was made by an earlier step of the run from a line that was
allowed as a password for the name the session still has. -/
def Prepared (host : Host β α) (c : Conn β α) : Prop :=
  ∃ c₀ byte nowMs n, (system host).Reachable c₀ ∧
    c₀.dialogue.login = .newPassword ∧
    c₀.dialogue.playerName = c.dialogue.playerName ∧
    playerStorePasswordAllowed c.dialogue.playerName c₀.input.text = 1 ∧
    (c₀.act host (.byte byte nowMs)).calls = c₀.calls ++
      [.backend (.preparePassword c₀.input.text 0 c.dialogue.pendingPassword)] ∧
    (system host).Run (fun _ => True) n (c₀.act host (.byte byte nowMs)) c

theorem Prepared.act {host : Host β α} {c : Conn β α} (h : Prepared host c) (action : Action)
    (hdialogue : (c.act host action).dialogue = c.dialogue) :
    Prepared host (c.act host action) := by
  obtain ⟨c₀, byte, nowMs, n, hreach, hlogin, hname, hallowed, hcalls, hrun⟩ := h
  refine ⟨c₀, byte, nowMs, n + 1, hreach, hlogin, hdialogue ▸ hname, hdialogue ▸ hallowed,
    hdialogue ▸ hcalls, ?_⟩
  exact .tail hrun trivial rfl

theorem prepared_of_confirm {host : Host β α} {c : Conn β α} (hc : (system host).Reachable c) :
    c.dialogue.login = .confirmPassword → Prepared host c := by
  refine hc.invariant (I := fun c => c.dialogue.login = .confirmPassword → Prepared host c) ?_ ?_
  · rintro c ⟨backend, app, rfl⟩ hlogin
    cases hlogin
  · rintro action c c' hc h rfl hlogin
    obtain ⟨r, hmoves, hdialogue, hcalls⟩ := exists_moves hc action
    rw [hdialogue] at hlogin
    cases hmoves with
    | idle => exact (h hlogin).act action hdialogue
    | interrupted => exact absurd hlogin (Dialogue.login_interrupt c.dialogue).1
    | @completed byte nowMs t ht =>
      have hturn := Dialogue.turn_complete host c.dialogue t nowMs
      rcases hturn.confirm hlogin with hsame | ⟨hnew, hallowed, hname, hmade⟩
      · have hkept : (c.act host (.byte byte nowMs)).dialogue = c.dialogue := hdialogue.trans hsame
        exact (h (hsame ▸ hlogin)).act _ hkept
      · have hstate : (c.act host (.byte byte nowMs)).dialogue =
            (c.dialogue.complete host t nowMs).dialogue := hdialogue
        refine ⟨c, byte, nowMs, 0, hc, hnew, ?_, ?_, ?_, .refl _⟩
        · rw [hstate, hname]
        · rw [hstate, hname, ht.text_eq]
          exact hallowed
        · rw [hcalls, hstate, ht.text_eq, ← hmade]
          rfl

/-! ## The gate -/

/-- What a step into the game of a player is: a verified password, or a new
account whose password was prepared, confirmed and stored. -/
def Gate (host : Host β α) (c : Conn β α) (nowMs : UInt64) (made : List GatedCall) : Prop :=
  (c.dialogue.login = .password ∧
      made = c.dialogue.verifiedCalls host c.input.text nowMs) ∨
    (c.dialogue.login = .confirmPassword ∧ Prepared host c ∧
      made = c.dialogue.createdCalls host c.input.text nowMs)

/-- The calls an action makes, and what it takes to enter the game or to open the
application with it. In game nothing happens to the account any more. -/
theorem act_calls {host : Host β α} {c : Conn β α} (hc : (system host).Reachable c)
    (action : Action) :
    ∃ made, (c.act host action).calls = c.calls ++ made ∧
      ((c.dialogue.login ≠ .inGame ∧ (c.act host action).dialogue.login = .inGame ∨
          ∃ name, .open_ name ∈ made) →
        (c.act host action).dialogue.login = .inGame ∧
          ∃ byte nowMs, action = .byte byte nowMs ∧ c.Gate host nowMs made) ∧
      (c.dialogue.login = .inGame →
        (c.act host action).dialogue = c.dialogue ∧ made = []) := by
  obtain ⟨r, hmoves, hdialogue, hcalls⟩ := exists_moves hc action
  rw [hdialogue, hcalls]
  cases hmoves with
  | idle => exact ⟨[], by simp [account], by simp [account], by simp [account]⟩
  | interrupted =>
    exact ⟨[], by simp, by simp [Dialogue.login_interrupt],
      fun hin => ⟨Dialogue.interrupt_of_inGame hin, rfl⟩⟩
  | @completed byte nowMs t ht =>
    have hturn := Dialogue.turn_complete host c.dialogue t nowMs
    refine ⟨_, rfl, ?_, ?_⟩
    · intro hgame
      obtain ⟨hin, hgate⟩ := hturn.game hgame
      rw [← ht.text_eq] at hgate
      refine ⟨hin, byte, nowMs, rfl, ?_⟩
      rcases hgate with hverified | ⟨hlogin, hmade⟩
      · exact .inl hverified
      · exact .inr ⟨hlogin, prepared_of_confirm hc hlogin, hmade⟩
    · intro hin
      have hnone := hturn.of_inGame hin
      exact ⟨congrArg (·.dialogue) hnone, congrArg (·.calls) hnone⟩

/-- Some earlier step of the run went through the gate, for the same player. -/
def Entered (host : Host β α) (c : Conn β α) : Prop :=
  ∃ c₀ byte nowMs made n, (system host).Reachable c₀ ∧ c₀.Gate host nowMs made ∧
    (c₀.act host (.byte byte nowMs)).calls = c₀.calls ++ made ∧
    (system host).Run (fun _ => True) n (c₀.act host (.byte byte nowMs)) c

theorem entered_of_inGame {host : Host β α} {c : Conn β α} (hc : (system host).Reachable c) :
    c.dialogue.login = .inGame → Entered host c := by
  refine hc.invariant (I := fun c => c.dialogue.login = .inGame → Entered host c) ?_ ?_
  · rintro c ⟨backend, app, rfl⟩ hlogin
    cases hlogin
  · rintro action c c' hc h rfl hin
    by_cases hbefore : c.dialogue.login = .inGame
    · obtain ⟨c₀, byte, nowMs, made, n, hreach, hgate, hmade, hrun⟩ := h hbefore
      exact ⟨c₀, byte, nowMs, made, n + 1, hreach, hgate, hmade, .tail hrun trivial rfl⟩
    · obtain ⟨made, hmade, hgame, -⟩ := act_calls hc action
      obtain ⟨-, byte, nowMs, rfl, hgate⟩ := hgame (.inl ⟨hbefore, hin⟩)
      exact ⟨c, byte, nowMs, made, 0, hc, hgate, hmade, .refl _⟩

/-- From every reachable state and for every action: the game is entered, and the
application opened, only through the gate, with the line that is just completed.
So every session that is in game got there through it, whatever the calls were
that fed it. -/
theorem authentication_gate (host : Host β α) :
    (∀ c action, (system host).Reachable c →
      ∃ made, (c.act host action).calls = c.calls ++ made ∧
        ((c.dialogue.login ≠ .inGame ∧ (c.act host action).dialogue.login = .inGame ∨
            ∃ name, .open_ name ∈ made) →
          (c.act host action).dialogue.login = .inGame ∧
            ∃ byte nowMs, action = .byte byte nowMs ∧ c.Gate host nowMs made) ∧
        (c.dialogue.login = .inGame →
          (c.act host action).dialogue = c.dialogue ∧ made = [])) ∧
    (∀ c, (system host).Reachable c → Disciplined host c.calls) ∧
    ∀ s, (TelnetSession.system host).Reachable s →
      Disciplined host s.conn.calls ∧ (s.conn.dialogue.login = .inGame → Entered host s.conn) := by
  refine ⟨fun c action hc => act_calls hc action, fun c hc => disciplined_of_reachable hc, ?_⟩
  intro s hs
  have hconn := TelnetSession.reachable_conn hs
  exact ⟨disciplined_of_reachable hconn, entered_of_inGame hconn⟩

/-- A session with a name given and a password typed, before the LF. -/
def beforeLogin : Conn Unit Unit :=
  (Conn.initial .granting () ()).feedBytes .granting 1 (ascii "bob\nhunter22")

theorem authentication_gate_login :
    (beforeLogin.act .granting (.byte 10 2)).dialogue.login = .inGame ∧
      ∃ made, beforeLogin.Gate .granting 2 made := by
  have hin : beforeLogin.dialogue.login ≠ .inGame ∧
      (beforeLogin.act .granting (.byte 10 2)).dialogue.login = .inGame := by decide
  obtain ⟨made, -, hgame, -⟩ := (authentication_gate .granting).1 beforeLogin (.byte 10 2)
    (reachable_feedBytes (.init ⟨(), (), rfl⟩) 1 _)
  obtain ⟨-, byte, nowMs, haction, hgate⟩ := hgame (.inl hin)
  cases haction
  exact ⟨hin.2, made, hgate⟩

end Conn

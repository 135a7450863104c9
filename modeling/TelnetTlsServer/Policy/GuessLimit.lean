-- SUMMARY: Concurrent password attempts on one account: the check and the recorded failure are separate calls, and what that does to the limit.
import TelnetTlsServer.Policy.SecurityPolicy

/-!
# Guesses under concurrency

Each attempt asks the policy, verifies the password and records the failure. The
policy is locked for each call but not from the first to the last, so any number
of attempts can be between the two (`guess_limit_exceeded`).

The limit of three in any five minutes holds in every run in which an attempt is
let through only while recorded failures and attempts in flight together leave
room for it, and in timestamp order (`guess_limit`).
-/

/-! ## The attempts of one account -/

/-- A password verification that has been let through. -/
structure Attempt where
  peer : Bytes
  name : PlayerName
  nowMs : UInt64

/-- The policy, the verifications still running, the times at which one was
started, and the latest time at which the policy was asked. -/
structure Guessing where
  policy : SecurityPolicy
  inFlight : List Attempt
  started : List UInt64
  clock : UInt64

inductive GuessEvent where
  /-- A session asks, and starts to verify if it is let through. -/
  | attempt (a : Attempt)
  /-- The `i`-th running verification fails and is recorded. -/
  | fail (i : Nat)
  /-- A session asks only to learn whether it is locked out. -/
  | recheck (a : Attempt)

namespace Guessing

open SecurityPolicy

/-- Ask for `a`; the attempt is let through or not. -/
def ask (g : Guessing) (a : Attempt) : PolicyAnswer :=
  g.policy.securityPolicyAllowAuthAttempt a.peer a.name.val a.nowMs

def next (g : Guessing) : GuessEvent → Option Guessing
  | .attempt a =>
      let asked := { g with policy := (g.ask a).policy, clock := max g.clock a.nowMs }
      if (g.ask a).allowed then
        some { asked with inFlight := a :: g.inFlight, started := a.nowMs :: g.started }
      else some asked
  | .fail i => do
      let a ← g.inFlight[i]?
      some { g with
        policy := g.policy.securityPolicyNoteAuthFailure a.peer a.name.val a.nowMs
        inFlight := g.inFlight.eraseIdx i }
  | .recheck a => some { g with policy := (g.ask a).policy, clock := max g.clock a.nowMs }

/-- All sessions attempt `account`, under any spelling, from any policy state. -/
def system (account : PlayerName) : Transition.System Guessing GuessEvent where
  init g := SecurityPolicy.system.Reachable g.policy ∧ g.inFlight = [] ∧ g.started = [] ∧
    g.clock = 0
  step e g g' := (∀ a, e = .attempt a ∨ e = .recheck a → SameAccount a.name account) ∧
    g.next e = some g'

/-- The condition on one step. An attempt is let through only with room for it
and no earlier than any question before it. The failure that completes the limit
is stamped no earlier than any started verification. -/
def InTurn (account : PlayerName) (e : GuessEvent) (g : Guessing) : Prop :=
  match e with
  | .attempt a => (g.ask a).allowed = true →
      ((g.policy.accountAuth account).expire a.nowMs).authFailures + g.inFlight.length
        < accountAuthFailureLimit ∧ g.clock ≤ a.nowMs
  | .fail i => ∀ a, g.inFlight[i]? = some a →
      accountAuthFailureLimit ≤ (g.policy.accountAuth account).authFailures + 1 →
      (∀ u ∈ g.started, u ≤ a.nowMs) ∧ a.nowMs.toNat + accountAuthLockMs.toNat < 2 ^ 64
  | .recheck _ => True

end Guessing

/-! ## The invariant of one account -/

/-- What holds of an account with `running` verifications. Those started since the
last lock are covered by recorded failures and running ones; the others are a
whole lock time older than the clock. -/
structure GuessInv (auth : Backoff) (running : Nat) (started : List UInt64) (clock : UInt64) :
    Prop where
  room : running = 0 ∨ auth.authFailures + running ≤ accountAuthFailureLimit
  earned : auth.Earned
  covered : auth.authBlockedUntilMs ≠ 0 →
    ∀ u ∈ started, u.toNat + accountAuthLockMs.toNat ≤ auth.authBlockedUntilMs.toNat
  split : ∃ batch old, started.Perm (batch ++ old) ∧
    batch.length ≤ auth.authFailures + running ∧
    ∀ u ∈ old, u.toNat + accountAuthLockMs.toNat ≤ clock.toNat
  bounded : ∀ x, SlidingWindow.within accountAuthLockMs.toNat x (started.map UInt64.toNat)
    ≤ accountAuthFailureLimit

theorem GuessInv.init {auth : Backoff} (h : auth.Earned) : GuessInv auth 0 [] 0 where
  room := .inl rfl
  earned := h
  covered := by simp
  split := ⟨[], [], by simp, by simp, by simp⟩
  bounded := by simp [SlidingWindow.within]

/-- The policy is asked at `now`. -/
theorem GuessInv.expire {auth : Backoff} {running : Nat} {started : List UInt64} {clock : UInt64}
    (h : GuessInv auth running started clock) (now : UInt64) :
    GuessInv (auth.expire now) running started (max clock now) := by
  have hclock : clock.toNat ≤ (max clock now).toNat := by
    rw [← UInt64.le_iff_toNat_le]
    exact le_max_left _ _
  have hnow : now.toNat ≤ (max clock now).toNat := by
    rw [← UInt64.le_iff_toNat_le]
    exact le_max_right _ _
  by_cases hover : auth.authBlockedUntilMs ≠ 0 ∧ auth.authBlockedUntilMs ≤ now
  · -- The lock is over: nothing runs, and all that was started is old.
    have hnone : running = 0 := by
      have hfull := h.earned hover.1
      have hroom := h.room
      omega
    rw [Backoff.expire, if_pos hover]
    refine ⟨.inl hnone, fun hne => absurd rfl hne, fun hne => absurd rfl hne,
      ⟨[], started, by simp, by simp, ?_⟩, h.bounded⟩
    intro u hu
    have hcov := h.covered hover.1 u hu
    have hle := UInt64.le_iff_toNat_le.mp hover.2
    omega
  · rw [Backoff.expire, if_neg hover]
    obtain ⟨batch, old, hperm, hbatch, hold⟩ := h.split
    refine ⟨h.room, h.earned, h.covered, ⟨batch, old, hperm, hbatch, ?_⟩, h.bounded⟩
    intro u hu
    have := hold u hu
    omega

/-- A verification is started at `now`. -/
theorem GuessInv.start {auth : Backoff} {running : Nat} {started : List UInt64}
    {clock now : UInt64} (h : GuessInv auth running started clock) (hnow : clock ≤ now)
    (hfree : auth.authBlockedUntilMs = 0)
    (hroom : auth.authFailures + running < accountAuthFailureLimit) :
    GuessInv auth (running + 1) (now :: started) clock := by
  obtain ⟨batch, old, hperm, hbatch, hold⟩ := h.split
  refine ⟨.inr (by omega), h.earned, fun hne => absurd hfree hne,
    ⟨now :: batch, old, hperm.cons now, by simp only [List.length_cons]; omega, hold⟩, ?_⟩
  intro x
  rw [List.map_cons, SlidingWindow.within, List.countP_cons]
  split
  case isFalse => exact h.bounded x
  case isTrue hin =>
    simp only [Bool.and_eq_true, decide_eq_true_eq] at hin
    -- Only the current batch can lie in an interval that contains `now`.
    have hsum : List.countP (fun t => decide (x ≤ t) && decide (t < x + accountAuthLockMs.toNat))
        (started.map UInt64.toNat) ≤ batch.length := by
      rw [(hperm.map UInt64.toNat).countP_eq, List.map_append, List.countP_append]
      have hzero : List.countP
          (fun t => decide (x ≤ t) && decide (t < x + accountAuthLockMs.toNat))
          (old.map UInt64.toNat) = 0 := by
        rw [List.countP_eq_zero]
        intro t ht
        obtain ⟨u, hu, rfl⟩ := List.mem_map.mp ht
        have hle := hold u hu
        have hclock := UInt64.le_iff_toNat_le.mp hnow
        simp only [Bool.and_eq_true, decide_eq_true_eq, not_and]
        omega
      rw [hzero, Nat.add_zero]
      exact (List.countP_le_length).trans (by simp)
    omega

/-- A running verification, let through at `now`, fails and is recorded. -/
theorem GuessInv.fail {auth : Backoff} {running : Nat} {started : List UInt64}
    {clock now : UInt64} (h : GuessInv auth (running + 1) started clock)
    (hlast : accountAuthFailureLimit ≤ auth.authFailures + 1 →
      (∀ u ∈ started, u ≤ now) ∧ now.toNat + accountAuthLockMs.toNat < 2 ^ 64) :
    GuessInv (auth.fail accountBackoffMs now) running started clock := by
  have hroom : auth.authFailures + (running + 1) ≤ accountAuthFailureLimit :=
    h.room.resolve_left (by omega)
  have hfree : auth.authBlockedUntilMs = 0 := by
    by_contra hne
    have hfull := h.earned hne
    omega
  have hcount : (auth.fail accountBackoffMs now).authFailures = auth.authFailures + 1 := by
    simp only [accountAuthFailureLimit] at hroom
    simp only [Backoff.fail]
    rw [if_pos (by omega)]
  obtain ⟨batch, old, hperm, hbatch, hold⟩ := h.split
  refine ⟨.inr (by omega), h.earned.fail now, ?_, ⟨batch, old, hperm, by omega, hold⟩, h.bounded⟩
  intro hne u hu
  have hfull : accountAuthFailureLimit ≤ auth.authFailures + 1 := by
    rw [← hcount]
    exact h.earned.fail now hne
  obtain ⟨hle, hwrap⟩ := hlast hfull
  have hset : (auth.fail accountBackoffMs now).authBlockedUntilMs = now + accountAuthLockMs := by
    have hlimit : accountAuthFailureLimit ≤ (auth.fail accountBackoffMs now).authFailures := by
      omega
    simp only [Backoff.fail] at hlimit ⊢
    simp [accountBackoffMs, hlimit, show (0 : UInt64) < accountAuthLockMs by decide]
  rw [hset, UInt64.toNat_add, Nat.mod_eq_of_lt hwrap]
  have := UInt64.le_iff_toNat_le.mp (hle u hu)
  omega

/-! ## Runs whose steps are in turn -/

namespace Guessing

open SecurityPolicy

/-- The invariant of a state: that of the account, and that every running
verification is one of the account. -/
structure Good (account : PlayerName) (g : Guessing) : Prop where
  inv : GuessInv (g.policy.accountAuth account) g.inFlight.length g.started g.clock
  names : ∀ a ∈ g.inFlight, SameAccount a.name account

theorem accountAuth_ask {account : PlayerName} {a : Attempt} (hsame : SameAccount a.name account)
    (g : Guessing) :
    (g.ask a).policy.accountAuth account = (g.policy.accountAuth account).expire a.nowMs := by
  rw [← hsame.accountAuth_eq, ← hsame.accountAuth_eq]
  exact accountAuth_allowAuthAttempt g.policy a.peer a.name a.nowMs

theorem Good.init {account : PlayerName} {g : Guessing} (h : (system account).init g) :
    g.Good account := by
  obtain ⟨hreach, hflight, hstarted, hclock⟩ := h
  refine ⟨?_, by simp [hflight]⟩
  rw [hflight, hstarted, hclock]
  apply GuessInv.init
  rw [accountAuth_eq]
  cases hrecord : g.policy.accountRecord? account with
  | none => exact fun hne => absurd rfl hne
  | some r => exact earned_of_reachable hreach r (List.mem_of_find?_eq_some hrecord)

theorem Good.asked {account : PlayerName} {g : Guessing} (h : g.Good account) {a : Attempt}
    (hsame : SameAccount a.name account) :
    Good account { g with policy := (g.ask a).policy, clock := max g.clock a.nowMs } where
  inv := by
    have hexpire := h.inv.expire a.nowMs
    rw [← accountAuth_ask hsame g] at hexpire
    exact hexpire
  names := h.names

theorem Good.step {account : PlayerName} {g g' : Guessing} {e : GuessEvent}
    (h : g.Good account) (hturn : g.InTurn account e) (hstep : (system account).step e g g') :
    g'.Good account := by
  obtain ⟨hname, hnext⟩ := hstep
  cases e with
  | recheck a =>
    obtain rfl := Option.some.inj hnext
    exact h.asked (hname a (.inr rfl))
  | attempt a =>
    have hsame := hname a (.inl rfl)
    have hasked := h.asked hsame
    simp only [next] at hnext
    split at hnext
    case isFalse =>
      obtain rfl := Option.some.inj hnext
      exact hasked
    case isTrue hallowed =>
      obtain rfl := Option.some.inj hnext
      obtain ⟨hroom, hclock⟩ := hturn hallowed
      have hfree : ((g.policy.accountAuth account).expire a.nowMs).authBlockedUntilMs = 0 := by
        simp only [ask, allowAuthAttempt_allowed, Bool.and_eq_true, decide_eq_true_eq,
          Backoff.expire_waitMs_eq_zero_iff, hsame.accountAuth_eq] at hallowed
        unfold Backoff.expire
        split
        · rfl
        · by_contra hne
          simp_all
      refine ⟨?_, ?_⟩
      · apply hasked.inv.start (max_le hclock le_rfl)
        · rw [accountAuth_ask hsame]
          exact hfree
        · rw [accountAuth_ask hsame]
          exact hroom
      · intro b hb
        rcases List.mem_cons.mp hb with rfl | hb
        · exact hsame
        · exact h.names b hb
  | fail i =>
    obtain ⟨a, ha, hnext⟩ := Option.bind_eq_some_iff.mp hnext
    obtain rfl := Option.some.inj hnext
    have hsame := h.names a (List.mem_of_getElem? ha)
    have hi := (List.getElem?_eq_some_iff.mp ha).1
    have hlen : g.inFlight.length = (g.inFlight.eraseIdx i).length + 1 := by
      rw [List.length_eraseIdx_of_lt hi]
      omega
    have hinv := h.inv
    rw [hlen] at hinv
    refine ⟨?_, fun b hb => h.names b (List.mem_of_mem_eraseIdx hb)⟩
    have hauth : (g.policy.securityPolicyNoteAuthFailure a.peer a.name.val a.nowMs).accountAuth
        account = (g.policy.accountAuth account).fail accountBackoffMs a.nowMs := by
      rw [← hsame.accountAuth_eq, ← hsame.accountAuth_eq]
      exact accountAuth_noteAuthFailure g.policy a.peer a.name a.nowMs
    rw [hauth]
    exact hinv.fail (hturn a ha)

/-- In every run whose steps are in turn, at most three verifications are started
in any five minutes. -/
theorem guess_limit {account : PlayerName} {g₀ g : Guessing} (hinit : (system account).init g₀)
    (hrun : ((system account).guarded g₀ (fun e g => g.InTurn account e)).Reachable g) (x : Nat) :
    SlidingWindow.within accountAuthLockMs.toNat x (g.started.map UInt64.toNat)
      ≤ accountAuthFailureLimit := by
  have hgood : g.Good account := by
    apply hrun.invariant (I := fun g => g.Good account)
    · rintro _ rfl
      exact .init hinit
    · rintro e g g' _ hg ⟨hturn, hstep⟩
      exact hg.step hturn hstep
  exact hgood.inv.bounded x

def idle : Guessing := ⟨securityPolicyCreate, [], [], 0⟩

def guess : Attempt := ⟨ascii "192.0.2.1", ⟨ascii "abc", by decide⟩, 1000⟩

theorem init_idle (account : PlayerName) : (system account).init idle :=
  ⟨.init rfl, rfl, rfl, rfl⟩

/-- Nothing is held against the account and the peer of `guess`. -/
def Unblocked (g : Guessing) : Prop :=
  g.policy.accountAuth guess.name = .zero ∧ g.policy.peerAuth guess.peer = .zero

theorem unblocked_idle : idle.Unblocked := by
  unfold Unblocked
  decide

/-- The state after `guess` has been let through once more. -/
def begun (g : Guessing) : Guessing where
  policy := (g.ask guess).policy
  inFlight := guess :: g.inFlight
  started := guess.nowMs :: g.started
  clock := max g.clock guess.nowMs

theorem Unblocked.next {g : Guessing} (h : g.Unblocked) :
    g.next (.attempt guess) = some g.begun ∧ g.begun.Unblocked := by
  obtain ⟨haccount, hpeer⟩ := h
  have hallowed : (g.ask guess).allowed = true := by
    rw [ask, allowAuthAttempt_allowed, haccount, hpeer]
    decide
  refine ⟨by simp [Guessing.next, hallowed, begun], ?_, ?_⟩
  · simp only [begun, ask, accountAuth_allowAuthAttempt, haccount]
    decide
  · simp only [begun, ask, peerAuth_allowAuthAttempt, hpeer]
    decide

theorem step_begun {g : Guessing} (h : g.Unblocked) :
    (system guess.name).step (.attempt guess) g g.begun := by
  refine ⟨?_, h.next.1⟩
  rintro a (heq | heq)
  · obtain rfl := GuessEvent.attempt.inj heq
    exact rfl
  · cases heq

theorem guess_limit_begun :
    SlidingWindow.within accountAuthLockMs.toNat 1000 (idle.begun.started.map UInt64.toNat)
      ≤ accountAuthFailureLimit := by
  have hturn : idle.InTurn guess.name (.attempt guess) := by
    intro _
    have hzero : idle.policy.accountAuth guess.name = .zero := unblocked_idle.1
    rw [hzero]
    decide
  have hrun : ((system guess.name).guarded idle fun e g => g.InTurn guess.name e).Reachable
      idle.begun := .step (.init rfl) ⟨hturn, step_begun unblocked_idle⟩
  exact guess_limit (init_idle guess.name) hrun 1000

/-! ## Attempts that overlap -/

/-- Any number of attempts can be let through before the first one fails. -/
theorem exists_started (n : Nat) : ∃ g, (system guess.name).Reachable g ∧ g.Unblocked ∧
    g.started = List.replicate n guess.nowMs := by
  induction n with
  | zero => exact ⟨idle, .init (init_idle _), unblocked_idle, rfl⟩
  | succ n ih =>
    obtain ⟨g, hreach, hfree, hstarted⟩ := ih
    refine ⟨g.begun, .step hreach (step_begun hfree), hfree.next.2, ?_⟩
    simp [begun, hstarted, List.replicate_succ]

/-- All running verifications can fail and be recorded. -/
theorem exists_all_failed {account : PlayerName} {g : Guessing}
    (hreach : (system account).Reachable g) :
    ∃ g', (system account).Reachable g' ∧ g'.inFlight = [] ∧ g'.started = g.started := by
  generalize hn : g.inFlight.length = n
  induction n generalizing g with
  | zero => exact ⟨g, hreach, List.length_eq_zero_iff.mp hn, rfl⟩
  | succ n ih =>
    obtain ⟨a, rest, hflight⟩ := List.exists_cons_of_length_eq_add_one hn
    let failed : Guessing :=
      { g with
        policy := g.policy.securityPolicyNoteAuthFailure a.peer a.name.val a.nowMs
        inFlight := rest }
    have hstep : (system account).step (.fail 0) g failed :=
      ⟨by simp, by simp [Guessing.next, hflight, failed]⟩
    have hlen : failed.inFlight.length = n := by simpa [hflight] using hn
    exact ih (g := failed) (.step hreach hstep) hlen

/-- Four attempts are let through at one time, and all of them fail. -/
theorem guess_limit_exceeded : ∃ (account : PlayerName) (g : Guessing) (x : Nat),
    (system account).Reachable g ∧ g.inFlight = [] ∧
      accountAuthFailureLimit <
        SlidingWindow.within accountAuthLockMs.toNat x (g.started.map UInt64.toNat) := by
  obtain ⟨g, hreach, _, hstarted⟩ := exists_started 4
  obtain ⟨g', hreach', hdone, hsame⟩ := exists_all_failed hreach
  refine ⟨guess.name, g', 1000, hreach', hdone, ?_⟩
  rw [hsame, hstarted]
  decide

end Guessing

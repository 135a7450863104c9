-- SUMMARY: The backoff of a peer whose password attempts are made one at a time: every third failure blocks it, for one second.
import TelnetTlsServer.Policy.Lockout
import TelnetTlsServer.Policy.UnboundedPolicy

/-!
# Peer backoff

`peer_backoff_ms` doubles the delay with each failure from the third on. A peer that makes one
attempt at a time never gets there: its third failure blocks it, the next attempt is let through
only when the block is over, and then `allow_auth_attempt` starts a fresh set of attempts. The
longer delays are for failures of attempts that were let through side by side.
-/

/-- Whoever is let through is not blocked any more. -/
theorem Backoff.expire_open {b : Backoff} {now : UInt64} (h : (b.expire now).waitMs now = 0) :
    (b.expire now).authBlockedUntilMs = 0 := by
  have hover := expire_waitMs_eq_zero_iff.mp h
  unfold Backoff.expire
  split
  case isTrue => rfl
  case isFalse hnot => exact not_not.mp fun hset => hnot ⟨hset, hover⟩

open Transition.System

namespace SecurityPolicy

/-! ## What the operations do to one peer -/

/-- What an operation does to the failure counter and block time of its peer. -/
def PolicyOp.onPeer : PolicyOp → Backoff → Backoff
  | allowAuthAttempt _ _ now => Backoff.expire now
  | noteAuthFailure _ _ now => Backoff.fail peerBackoffMs now
  | noteAuthSuccess _ _ _ => fun _ => .zero
  | allowConnection _ _ | allowAccountCreation _ _ => id

theorem peerAuth_eq_of_key {peer other : Bytes}
    (h : copyKey peerKeyBytes other = copyKey peerKeyBytes peer) (p : SecurityPolicy) :
    p.peerAuth other = p.peerAuth peer := by
  rw [peerAuth, peerAuth, h]

theorem peerAuth_apply_self (p : SecurityPolicy) (op : PolicyOp) :
    (p.apply op).peerAuth op.peer = op.onPeer (p.peerAuth op.peer) := by
  have hwith : ∀ (peer : Bytes) (now : UInt64) (update : PeerRecord → PeerRecord),
      (∀ r, (update r).key = r.key) → (p.withPeer peer now update).peerAuth peer =
        (update (p.peerRecordFor peer now).record).auth :=
    fun peer now update hkey => peerAuth_withPeer_self p peer now hkey
  cases op with
  | allowAuthAttempt peer name now => exact peerAuth_allowAuthAttempt p peer name.val now
  | noteAuthFailure peer name now => exact peerAuth_noteAuthFailure p peer name.val now
  | noteAuthSuccess peer name now =>
    exact hwith peer now (fun r => { r with auth := .zero }) fun _ => rfl
  | allowConnection peer now =>
    simp only [apply, allowConnection_eq]
    generalize p.unbounded.connectionCharge (copyKey peerKeyBytes peer) now = charge
    exact (hwith peer now (fun r => { r with connections := charge.first }) fun _ => rfl).trans
      (peerRecordFor_auth p peer now)
  | allowAccountCreation peer now =>
    simp only [apply, allowAccountCreation_eq]
    generalize p.unbounded.creationCharge (copyKey peerKeyBytes peer) now = charge
    exact (hwith peer now (fun r => { r with creations := charge.first }) fun _ => rfl).trans
      (peerRecordFor_auth p peer now)

theorem peerAuth_apply_of_key {p : SecurityPolicy} {op : PolicyOp} {peer : Bytes}
    (hkey : op.peerKey = copyKey peerKeyBytes peer) :
    (p.apply op).peerAuth peer = op.onPeer (p.peerAuth peer) := by
  rw [← peerAuth_eq_of_key hkey, peerAuth_apply_self, peerAuth_eq_of_key hkey]

theorem peerAuth_of_unknown {p : SecurityPolicy} {peer : Bytes}
    (h : SlotTable.lookup peerLayout p.peers (copyKey peerKeyBytes peer) = none) :
    p.peerAuth peer = .zero := by
  rw [peerAuth, peerState, h]
  rfl

/-- An operation for another peer leaves the record alone or loses it. -/
theorem lookup_apply_other {p : SecurityPolicy} (hp : SlotTable.Distinct peerLayout p.peers)
    {op : PolicyOp} {key : Bytes} (hne : op.peerKey ≠ key) :
    SlotTable.lookup peerLayout (p.apply op).peers key = SlotTable.lookup peerLayout p.peers key ∨
      SlotTable.lookup peerLayout (p.apply op).peers key = none := by
  have htouch := peers_apply p op
  by_cases hevicts : SlotTable.Evicts peerLayout p.peers op.peerKey key
  · exact .inr (hp.lookup_of_evicts (fun r => le_ceiling r.lastSeenMs) hne htouch hevicts)
  · obtain ⟨r, hr, -, htable⟩ := htouch
    rw [htable]
    exact .inl (SlotTable.lookup_put_other p.peers_ne_nil (fun r => le_ceiling r.lastSeenMs) hne _
      (SlotTable.holds_iff.mp hr).2 hevicts)

/-! ## One attempt at a time -/

/-- The policy in a run, with the failures of one peer since its last success or since its record
was last lost, and whether it has been let through and its password is being looked at. -/
structure Streak where
  policy : SecurityPolicy
  failures : Nat
  asked : Bool

namespace Streak

def start : Streak := ⟨securityPolicyCreate, 0, false⟩

def step (peer : Bytes) (s : Streak) (op : PolicyOp) : Streak :=
  let policy := s.policy.apply op
  if op.peerKey = copyKey peerKeyBytes peer then
    match op with
    | .allowAuthAttempt peer name now =>
        ⟨policy, s.failures, (s.policy.securityPolicyAllowAuthAttempt peer name.val now).allowed⟩
    | .noteAuthFailure _ _ _ => ⟨policy, s.failures + 1, false⟩
    | .noteAuthSuccess _ _ _ => ⟨policy, 0, false⟩
    | .allowConnection _ _ | .allowAccountCreation _ _ => { s with policy := policy }
  else
    let known := SlotTable.lookup peerLayout policy.peers (copyKey peerKeyBytes peer)
    ⟨policy, if known.isNone then 0 else s.failures, s.asked⟩

def run (peer : Bytes) (ops : List PolicyOp) : Streak := ops.foldl (step peer) start

/-- The peer asks when none of its attempts is under way, a password is looked at only for an
attempt that was let through, and the clock is not about to wrap. -/
def OneAtATime (peer : Bytes) (s : Streak) (op : PolicyOp) : Prop :=
  op.peerKey = copyKey peerKeyBytes peer →
    match op with
    | .allowAuthAttempt _ _ _ => s.asked = false
    | .noteAuthFailure _ _ now => s.asked = true ∧ now.toNat + 1000 < 2 ^ 64
    | .noteAuthSuccess _ _ _ => s.asked = true
    | .allowConnection _ _ | .allowAccountCreation _ _ => True

/-- The counter of a peer that has made `failures` attempts in vain, one at a time. -/
inductive Counted (failures : Nat) : Backoff → Prop where
  | open_ : Counted failures ⟨failures % 3, 0⟩
  | blocked {until_ : UInt64} (hset : until_ ≠ 0) (hthird : failures % 3 = 0) :
      Counted failures ⟨3, until_⟩

structure Good (peer : Bytes) (s : Streak) : Prop where
  distinct : SlotTable.Distinct peerLayout s.policy.peers
  counted : Counted s.failures (s.policy.peerAuth peer)
  asked : s.asked = true → (s.policy.peerAuth peer).authBlockedUntilMs = 0

theorem Counted.expire {failures : Nat} {b : Backoff} (h : Counted failures b) (now : UInt64) :
    Counted failures (b.expire now) := by
  unfold Backoff.expire
  split
  case isFalse => exact h
  case isTrue hover =>
    cases h with
    | open_ => exact absurd rfl hover.1
    | blocked hset hthird =>
      rw [show Backoff.zero = ⟨failures % 3, 0⟩ by rw [hthird]; rfl]
      exact .open_

/-- A failure of an attempt that was let through. -/
theorem Counted.fail {failures : Nat} {b : Backoff} (h : Counted failures b)
    (hopen : b.authBlockedUntilMs = 0) (now : UInt64) :
    b.fail peerBackoffMs now =
      ⟨failures % 3 + 1, if (failures + 1) % 3 = 0 then now + 1000 else 0⟩ := by
  cases h with
  | blocked hset => exact absurd hopen hset
  | open_ =>
    have hrest : failures % 3 = 0 ∨ failures % 3 = 1 ∨ failures % 3 = 2 := by omega
    rcases hrest with hrest | hrest | hrest
    · rw [hrest, show (failures + 1) % 3 = 1 by omega]
      rfl
    · rw [hrest, show (failures + 1) % 3 = 2 by omega]
      rfl
    · rw [hrest, show (failures + 1) % 3 = 0 by omega]
      rfl

theorem Counted.next {failures : Nat} {now : UInt64} (hclock : now.toNat + 1000 < 2 ^ 64) :
    Counted (failures + 1)
      ⟨failures % 3 + 1, if (failures + 1) % 3 = 0 then now + 1000 else 0⟩ := by
  split
  case isTrue hthird =>
    have hset : now + 1000 ≠ 0 := by
      rw [Ne, ← UInt64.toNat_inj, UInt64.toNat_add]
      simp only [UInt64.reduceToNat]
      omega
    rw [show failures % 3 + 1 = 3 by omega]
    exact .blocked hset hthird
  case isFalse hless =>
    rw [show failures % 3 + 1 = (failures + 1) % 3 by omega]
    exact .open_

theorem Good.start (peer : Bytes) : Streak.start.Good peer where
  distinct := (show Tidy ∅ ∅ securityPolicyCreate from tidy_create).peers
  counted := by
    have hnone : SlotTable.lookup peerLayout securityPolicyCreate.peers (copyKey peerKeyBytes peer) =
        none := by
      refine List.find?_eq_none.mpr fun r hr => ?_
      rw [(List.mem_replicate.mp hr).2]
      exact Bool.false_ne_true
    exact peerAuth_of_unknown hnone ▸ Counted.open_
  asked h := by cases h

theorem Good.other {peer : Bytes} {s : Streak} (h : s.Good peer) {op : PolicyOp}
    (hother : op.peerKey ≠ copyKey peerKeyBytes peer) : (s.step peer op).Good peer := by
  have hdistinct := h.distinct.touch (peers_apply s.policy op)
  have hstep : s.step peer op = ⟨s.policy.apply op, if (SlotTable.lookup peerLayout
      (s.policy.apply op).peers (copyKey peerKeyBytes peer)).isNone then 0 else s.failures, s.asked⟩ :=
    if_neg hother
  rw [hstep]
  rcases hlookup : SlotTable.lookup peerLayout (s.policy.apply op).peers (copyKey peerKeyBytes peer)
    with _ | record
  · have hzero := peerAuth_of_unknown hlookup
    refine ⟨hdistinct, ?_, fun _ => by rw [hzero]; rfl⟩
    rw [hzero]
    exact .open_
  · have hsame : (s.policy.apply op).peerAuth peer = s.policy.peerAuth peer := by
      rcases lookup_apply_other h.distinct hother with heq | hnone
      · rw [peerAuth, peerState, heq, peerAuth, peerState]
      · exact absurd (hlookup.symm.trans hnone) (Option.some_ne_none record)
    refine ⟨hdistinct, ?_, fun hasked => ?_⟩
    · rw [hsame]
      exact h.counted
    · rw [hsame]
      exact h.asked hasked

theorem Good.step {peer : Bytes} {s : Streak} (h : s.Good peer) {op : PolicyOp}
    (hop : s.OneAtATime peer op) : (s.step peer op).Good peer := by
  by_cases hkey : op.peerKey = copyKey peerKeyBytes peer
  · have hauth : (s.policy.apply op).peerAuth peer = op.onPeer (s.policy.peerAuth peer) :=
      peerAuth_apply_of_key hkey
    have hdistinct := h.distinct.touch (peers_apply s.policy op)
    have hturn := hop hkey
    unfold Streak.step
    rw [if_pos hkey]
    cases op with
    | allowConnection other now | allowAccountCreation other now =>
      exact ⟨hdistinct, hauth ▸ h.counted, fun hasked => hauth ▸ h.asked hasked⟩
    | allowAuthAttempt other name now =>
      refine ⟨hdistinct, hauth ▸ h.counted.expire now, fun hasked => ?_⟩
      have hallowed : (s.policy.securityPolicyAllowAuthAttempt other name.val now).allowed = true :=
        hasked
      have hsame : s.policy.peerAuth other = s.policy.peerAuth peer := peerAuth_eq_of_key hkey _
      rw [allowAuthAttempt_allowed, hsame, Bool.and_eq_true] at hallowed
      exact hauth ▸ Backoff.expire_open (of_decide_eq_true hallowed.1)
    | noteAuthFailure other name now =>
      refine ⟨hdistinct, ?_, fun hasked => by cases hasked⟩
      have hfailed := h.counted.fail (h.asked hturn.1) now
      exact (hauth.trans hfailed) ▸ Counted.next hturn.2
    | noteAuthSuccess other name now =>
      exact ⟨hdistinct, hauth ▸ Counted.open_, fun hasked => by cases hasked⟩
  · exact h.other hkey

theorem Good.run {peer : Bytes} {ops : List PolicyOp} (hops : ∀ before op, before ++ [op] <+: ops →
    (run peer before).OneAtATime peer op) : (run peer ops).Good peer := by
  induction ops using List.reverseRecOn with
  | nil => exact .start peer
  | append_singleton ops op ih =>
    have hbefore := ih fun before op hpre => hops before op (hpre.trans (List.prefix_append _ _))
    rw [Streak.run, List.foldl_append]
    exact hbefore.step (hops ops op (List.prefix_refl _))

end Streak

/-- Of the failures of a peer that makes one attempt at a time, every third blocks it, until one
second after it, and the others do not block it. -/
theorem peer_backoff_restarts {peer : Bytes} {ops : List PolicyOp}
    (hops : ∀ before op, before ++ [op] <+: ops → (Streak.run peer before).OneAtATime peer op)
    {before : List PolicyOp} {other : Bytes} {name : PlayerName} {now : UInt64}
    (hfailure : before ++ [.noteAuthFailure other name now] <+: ops)
    (hpeer : copyKey peerKeyBytes other = copyKey peerKeyBytes peer) :
    let after := Streak.run peer (before ++ [.noteAuthFailure other name now])
    after.failures = (Streak.run peer before).failures + 1 ∧
      (after.policy.peerAuth peer).authBlockedUntilMs =
        if after.failures % 3 = 0 then now + 1000 else 0 := by
  have hgood : (Streak.run peer before).Good peer := Streak.Good.run fun earlier op hpre =>
    hops earlier op (hpre.trans ((List.prefix_append _ _).trans hfailure))
  have hturn := hops before _ hfailure hpeer
  have hafter : Streak.run peer (before ++ [.noteAuthFailure other name now]) =
      ⟨(Streak.run peer before).policy.apply (.noteAuthFailure other name now),
        (Streak.run peer before).failures + 1, false⟩ := by
    rw [Streak.run, List.foldl_append]
    exact if_pos hpeer
  have hkey : (PolicyOp.noteAuthFailure other name now).peerKey = copyKey peerKeyBytes peer := hpeer
  intro after
  rw [show after = _ from hafter]
  refine ⟨rfl, ?_⟩
  rw [peerAuth_apply_of_key hkey]
  exact congrArg Backoff.authBlockedUntilMs (hgood.counted.fail (hgood.asked hturn.1) now)

/-- Four attempts in vain, on four accounts; the fourth as soon as the block of the third is over. -/
def fourAttempts : List PolicyOp :=
  [.allowAuthAttempt attacker (decoy 0 0) 1, .noteAuthFailure attacker (decoy 0 0) 1,
    .allowAuthAttempt attacker (decoy 0 1) 2, .noteAuthFailure attacker (decoy 0 1) 2,
    .allowAuthAttempt attacker (decoy 0 2) 3, .noteAuthFailure attacker (decoy 0 2) 3,
    .allowAuthAttempt attacker (decoy 0 3) 1003, .noteAuthFailure attacker (decoy 0 3) 1003]

/-- Each attempt is let through, and the fourth failure does not block the peer: 1 ms later it
may try again. -/
theorem fourth_failure_unblocked :
    (Streak.run attacker (fourAttempts.take 1)).asked = true ∧
      (Streak.run attacker (fourAttempts.take 3)).asked = true ∧
      (Streak.run attacker (fourAttempts.take 5)).asked = true ∧
      (Streak.run attacker (fourAttempts.take 7)).asked = true ∧
      (Streak.run attacker fourAttempts).failures = 4 ∧
      1003 + peerBackoffMs 4 = 3003 ∧
      ((Streak.run attacker fourAttempts).policy.securityPolicyAllowAuthAttempt attacker
        (decoy 0 4).val 1004).allowed = true := by
  decide +kernel

/-- The third of these failures blocks the peer for one second. -/
theorem peer_backoff_restarts_third :
    ((Streak.run attacker (fourAttempts.take 6)).policy.peerAuth attacker).authBlockedUntilMs = 1003 := by
  have hops : ∀ before op, before ++ [op] <+: fourAttempts.take 6 →
      (Streak.run attacker before).OneAtATime attacker op :=
    along_cons (fun _ => rfl) (along_cons (fun _ => ⟨by decide +kernel, by decide⟩)
      (along_cons (fun _ => rfl) (along_cons (fun _ => ⟨by decide +kernel, by decide⟩)
        (along_cons (fun _ => rfl) (along_cons (fun _ => ⟨by decide +kernel, by decide⟩) along_nil)))))
  have hfailure : fourAttempts.take 5 ++ [.noteAuthFailure attacker (decoy 0 2) 3] <+:
      fourAttempts.take 6 := List.prefix_refl _
  have hcounted : (Streak.run attacker (fourAttempts.take 5)).failures = 2 := by decide +kernel
  obtain ⟨hfailures, hblocked⟩ := peer_backoff_restarts hops hfailure rfl
  rw [hfailures, hcounted] at hblocked
  exact hblocked

end SecurityPolicy

-- SUMMARY: How long an account stays locked: a lock survives every call that does not reuse its record, and a flood of other names loses it.
import TelnetTlsServer.Policy.SecurityPolicy
import Mathlib.Data.List.FinRange
import Mathlib.Data.List.ProdSigma

/-!
# Account lockout

Three bad passwords block an account for five minutes. The block is kept in the
account's record, one of 256, and a call for an account without a record reuses
the least recently seen one, whether it is blocked or not.

A lock lasts through every run in which no call reuses its record and no further
failure moves its end forward (`account_lock_persists`). 256 attempts on other
names, at any times before its end, lose it (`account_lock_lost`).
-/

theorem Backoff.fail_blocked_ge {b : Backoff} {now t : UInt64} (h : t ≤ b.authBlockedUntilMs)
    (hnow : t ≤ now + accountAuthLockMs) :
    t ≤ (b.fail accountBackoffMs now).authBlockedUntilMs := by
  simp only [Backoff.fail]
  generalize (if b.authFailures < 1000000 then b.authFailures + 1 else b.authFailures) = failures
  by_cases hlimit : failures ≥ accountAuthFailureLimit
  · simpa [accountBackoffMs, hlimit, show (0 : UInt64) < accountAuthLockMs by decide] using hnow
  · simpa [accountBackoffMs, hlimit] using h

namespace SecurityPolicy

/-- The account is blocked until `t`. -/
def BlockedUntil (p : SecurityPolicy) (name : PlayerName) (t : UInt64) : Prop :=
  (p.accountAuth name).authBlockedUntilMs = t

/-- An operation before `t` that is not a successful login to the account. -/
def PolicyOp.NoLogin (name : PlayerName) (t : UInt64) (op : PolicyOp) : Prop :=
  op.nowMs < t ∧ ∀ peer other now, op = .noteAuthSuccess peer other now → ¬ SameAccount other name

/-- The operation does not take the slot of the account, and if it is a further
failure of the account, the block it sets ends no earlier than `t`. -/
def KeepsLock (name : PlayerName) (t : UInt64) (op : PolicyOp) (p : SecurityPolicy) : Prop :=
  (∀ other, op.account? = some other → ¬ p.Evicts other name) ∧
    ∀ peer other now, op = .noteAuthFailure peer other now → SameAccount other name →
      t ≤ now + accountAuthLockMs

/-! ## A lock that is kept -/

/-- One step: the block still ends no earlier than `t`. -/
theorem blocked_apply {p : SecurityPolicy} {name : PlayerName} {t : UInt64} {op : PolicyOp}
    (hblocked : t ≤ (p.accountAuth name).authBlockedUntilMs) (hop : op.NoLogin name t)
    (hkeep : p.KeepsLock name t op) :
    t ≤ ((p.apply op).accountAuth name).authBlockedUntilMs := by
  obtain ⟨hnow, hlogin⟩ := hop
  obtain ⟨hslot, hfail⟩ := hkeep
  rw [accountAuth_apply p op name hslot]
  split
  case isFalse => exact hblocked
  case isTrue hsame =>
    cases op with
    | allowConnection peer now => exact hblocked
    | allowAccountCreation peer now => exact hblocked
    | allowAuthAttempt peer other now =>
      have hlater : now < (p.accountAuth name).authBlockedUntilMs := hnow.trans_le hblocked
      simpa [PolicyOp.onAccount, Backoff.expire_of_lt hlater] using hblocked
    | noteAuthFailure peer other now =>
      simp only [PolicyOp.account?, Option.any_some, decide_eq_true_eq] at hsame
      exact Backoff.fail_blocked_ge hblocked (hfail peer other now rfl hsame)
    | noteAuthSuccess peer other now =>
      simp only [PolicyOp.account?, Option.any_some, decide_eq_true_eq] at hsame
      exact absurd hsame (hlogin peer other now rfl)

theorem refused_of_blocked {p : SecurityPolicy} {name : PlayerName} {t : UInt64}
    (hblocked : t < (p.accountAuth name).authBlockedUntilMs) (peer : Bytes) :
    (p.securityPolicyAllowAuthAttempt peer name.val t).allowed = false := by
  have hwait : ¬ ((p.accountAuth name).expire t).waitMs t = 0 := by
    rw [Backoff.expire_waitMs_eq_zero_iff]
    exact not_le.mpr hblocked
  simp [allowAuthAttempt_allowed, hwait]

/-- In every run whose steps all keep the lock, the account stays locked. -/
theorem account_lock_persists {p p' : SecurityPolicy} {name : PlayerName} {until_ : UInt64}
    (hblocked : p.BlockedUntil name until_)
    (hrun : (system.guarded p fun op q =>
      op.NoLogin name until_ ∧ q.KeepsLock name until_ op).Reachable p')
    (peer : Bytes) {t : UInt64} (ht : t < until_) :
    (p'.securityPolicyAllowAuthAttempt peer name.val t).allowed = false := by
  have hinv : until_ ≤ (p'.accountAuth name).authBlockedUntilMs := by
    apply hrun.invariant (I := fun q => until_ ≤ (q.accountAuth name).authBlockedUntilMs)
    · rintro q rfl
      exact hblocked.ge
    · rintro op q q' _ hq ⟨⟨hop, hkeep⟩, rfl⟩
      exact blocked_apply hq hop hkeep
  exact refused_of_blocked (ht.trans_le hinv) peer

/-! ## Three bad passwords -/

def letter (i : Fin 16) : UInt8 := 97 + UInt8.ofNat i.val

/-- 256 valid names: `xaa`, `xab`, … -/
def decoy (i j : Fin 16) : PlayerName := ⟨[120, letter i, letter j], by revert i j; decide⟩

def decoys : List PlayerName :=
  (List.finRange 16 ×ˢ List.finRange 16).map fun (i, j) => decoy i j

theorem victim_valid : playerStoreNameValid (ascii "abc") = true := by decide

def victim : PlayerName := ⟨ascii "abc", victim_valid⟩

def attacker : Bytes := ascii "192.0.2.1"

/-- Three bad passwords for the victim, at time 0. -/
def threeFailures : List PolicyOp := List.replicate 3 (.noteAuthFailure attacker victim 0)

theorem accountAuth_threeFailures :
    (securityPolicyCreate.run threeFailures).accountAuth victim = ⟨3, 300000⟩ := by
  have hstart : securityPolicyCreate.accountAuth victim = .zero := by decide
  simp only [run, threeFailures, List.replicate, List.foldl, apply, accountAuth_noteAuthFailure,
    hstart]
  decide

/-- An attempt on another name finds a free slot and leaves the lock alone. -/
theorem account_lock_persists_after_attempt :
    (((securityPolicyCreate.run threeFailures).apply
      (.allowAuthAttempt attacker (decoy 0 0) 1)).securityPolicyAllowAuthAttempt
        attacker victim.val 299999).allowed = false := by
  have hblocked : (securityPolicyCreate.run threeFailures).BlockedUntil victim 300000 := by
    rw [BlockedUntil, accountAuth_threeFailures]
  refine account_lock_persists hblocked (.step (.init rfl) ⟨⟨?_, ?_, by simp⟩, rfl⟩) attacker
    (by decide)
  · exact ⟨show (1 : UInt64) < 300000 by decide, by simp⟩
  · rintro other _ ⟨_, hfull, _⟩
    have hvacant : AccountRecord.zero ∈ (securityPolicyCreate.run threeFailures).accounts := by
      decide +kernel
    exact absurd (hfull _ hvacant) (by decide)

/-! ## A lock that is lost -/

/-- One refused attempt on each of the other names, at time 1. -/
def flood (names : List PlayerName) : List PolicyOp :=
  names.map fun name => .allowAuthAttempt attacker name 1

theorem peerAuth_threeFailures :
    (securityPolicyCreate.run threeFailures).peerAuth attacker = ⟨3, 1000⟩ := by
  have hstart : securityPolicyCreate.peerAuth attacker = .zero := by decide
  simp only [run, threeFailures, List.replicate, List.foldl, apply, peerAuth_noteAuthFailure,
    hstart]
  decide

theorem peerAuth_flood {p : SecurityPolicy} (h : p.peerAuth attacker = ⟨3, 1000⟩)
    (names : List PlayerName) : (p.run (flood names)).peerAuth attacker = ⟨3, 1000⟩ := by
  induction names generalizing p with
  | nil => exact h
  | cons name names ih =>
    apply ih
    simp only [apply, peerAuth_allowAuthAttempt, h]
    decide

theorem flooded_flood {p : SecurityPolicy} {key : Bytes} {keys : List Bytes}
    (h : SlotTable.Flooded accountLayout key 0 keys p.accounts) (names : List PlayerName)
    (hother : ∀ name ∈ names, normalizeAccount accountKeyBytes name.val ≠ key) :
    SlotTable.Flooded accountLayout key 0
      ((names.map fun name => normalizeAccount accountKeyBytes name.val).reverse ++ keys)
      (p.run (flood names)).accounts := by
  induction names generalizing p keys with
  | nil => exact h
  | cons name names ih =>
    have hstep := h.touch p.accounts_ne_nil (fun r => le_ceiling r.lastSeenMs)
      (hother name (by simp)) (show (0 : UInt64) < 1 by decide)
      (accounts_apply p (.allowAuthAttempt attacker name 1))
    have hrest := ih hstep fun name hname => hother name (by simp [hname])
    simpa [run, flood] using hrest

theorem normalizeAccount_decoy (i j : Fin 16) :
    normalizeAccount accountKeyBytes (decoy i j).val = [120, letter i, letter j] := by
  have hlower : ∀ i, asciiLower (letter i) = letter i := by decide
  simp [normalizeAccount, accountKeyBytes, decoy, hlower, show asciiLower 120 = 120 by decide]

theorem decoys_distinct : ((victim :: decoys).map fun name =>
    normalizeAccount accountKeyBytes name.val).Nodup := by
  have hletter : ∀ i j, letter i = letter j → i = j := by decide
  have hkeys : (decoys.map fun name => normalizeAccount accountKeyBytes name.val) =
      (List.finRange 16 ×ˢ List.finRange 16).map fun ij =>
        [120, letter ij.1, letter ij.2] := by
    rw [decoys, List.map_map]
    apply List.map_congr_left
    exact fun ij _ => normalizeAccount_decoy ij.1 ij.2
  rw [List.map_cons, List.nodup_cons, hkeys]
  constructor
  · intro hmem
    obtain ⟨ij, _, heq⟩ := List.mem_map.mp hmem
    have hhead := congrArg List.head? heq
    revert hhead
    simp [normalizeAccount, accountKeyBytes, victim, ascii, asciiLower]
  · apply List.Nodup.map
    · rintro ⟨i, j⟩ ⟨i', j'⟩ heq
      simp only [List.cons.injEq, and_true, true_and] at heq
      rw [hletter i i' heq.1, hletter j j' heq.2]
    · exact (List.nodup_finRange 16).product (List.nodup_finRange 16)

theorem accountAuth_flood :
    ((securityPolicyCreate.run threeFailures).run (flood decoys)).accountAuth victim = .zero := by
  let p := securityPolicyCreate.run threeFailures
  have hreach : system.Reachable p := reachable_run (.init rfl) threeFailures
  have hstart : SlotTable.Flooded accountLayout
      (normalizeAccount accountKeyBytes victim.val) 0 [] p.accounts := by
    refine ⟨accounts_distinct hreach, ?_⟩
    intro r hr
    have hseen : (p.accountRecord? victim).map AccountRecord.lastSeenMs = some 0 := by
      decide +kernel
    refine ⟨?_, by simp⟩
    rw [accountRecord?, hr] at hseen
    exact (Option.some.inj hseen).le
  have hnodup := decoys_distinct
  rw [List.map_cons, List.nodup_cons] at hnodup
  have hflood := flooded_flood hstart decoys fun name hname heq =>
    hnodup.1 (List.mem_map.mpr ⟨name, hname, heq⟩)
  have hnone := hflood.lookup_eq_none
    (by simpa using hnodup)
    (by simp [SecurityPolicy.accounts_length, decoys, maxAccountRecords, List.length_product])
  rw [accountAuth_eq, accountRecord?, hnone]
  rfl

/-- The victim is locked until 300000. 256 attempts on other names, all refused
because their peer has to wait, lose the lock: at 299999 the victim is let
through. -/
theorem account_lock_lost : ∃ (p : SecurityPolicy) (name : PlayerName) (until_ : UInt64)
    (ops : List PolicyOp) (peer : Bytes) (t : UInt64),
    system.Reachable p ∧ p.BlockedUntil name until_ ∧ (∀ op ∈ ops, op.NoLogin name until_) ∧
      (ops.map PolicyOp.nowMs).Pairwise (· ≤ ·) ∧ (∀ op ∈ ops, op.nowMs ≤ t) ∧ t < until_ ∧
      ((p.run ops).securityPolicyAllowAuthAttempt peer name.val t).allowed = true := by
  refine ⟨securityPolicyCreate.run threeFailures, victim, 300000, flood decoys, attacker, 299999,
    reachable_run (.init rfl) threeFailures, ?_, ?_, ?_, ?_, by decide, ?_⟩
  · rw [BlockedUntil, accountAuth_threeFailures]
  · intro op hop
    obtain ⟨name, _, rfl⟩ := List.mem_map.mp hop
    exact ⟨show (1 : UInt64) < 300000 by decide, by simp⟩
  · rw [List.pairwise_map, flood, List.pairwise_map]
    exact List.pairwise_of_forall fun _ _ => le_refl (1 : UInt64)
  · intro op hop
    obtain ⟨name, _, rfl⟩ := List.mem_map.mp hop
    exact show (1 : UInt64) ≤ 299999 by decide
  · rw [allowAuthAttempt_allowed, accountAuth_flood,
      peerAuth_flood peerAuth_threeFailures]
    decide

end SecurityPolicy

-- SUMMARY: The shared abuse-control policy of security_policy.c: windows, backoff, the two record tables and the five operations.
import TelnetTlsServer.Lib.SlidingWindow
import TelnetTlsServer.Lib.SlotTable
import TelnetTlsServer.Lib.Transition
import TelnetTlsServer.Store.PlayerRules

/-!
# The security policy

Every operation takes the policy mutex for its whole body, so one call is one
step. Timestamps are 64-bit and wrap as the code's do. A record is vacant when
its key is the empty string. Calls with a NULL argument change nothing and are
left out, as is the mutex.
-/

def maxPeerRecords : Nat := 128
def maxAccountRecords : Nat := 256
def peerKeyBytes : Nat := 96
def accountKeyBytes : Nat := 32

def peerConnectionLimit : Nat := 5
def peerConnectionWindowMs : UInt64 := 10000
def globalConnectionLimit : Nat := 30
def globalConnectionWindowMs : UInt64 := 10000

def accountAuthFailureLimit : Nat := 3
def accountAuthLockMs : UInt64 := 300000

def peerCreationLimit : Nat := 10
def peerCreationWindowMs : UInt64 := 600000
def globalCreationLimit : Nat := 50
def globalCreationWindowMs : UInt64 := 600000

/-! ## Timestamps -/

instance linearOrderUInt64 : LinearOrder UInt64 where
  le_refl := UInt64.le_refl
  le_trans _ _ _ := UInt64.le_trans
  le_antisymm _ _ := UInt64.le_antisymm
  le_total := UInt64.le_total
  lt_iff_le_not_ge a b := by
    simp only [UInt64.lt_iff_toNat_lt, UInt64.le_iff_toNat_le]
    omega
  toDecidableLE := inferInstance
  toDecidableLT := inferInstance
  toDecidableEq := inferInstance
  min_def _ _ := rfl
  max_def _ _ := rfl

/-! ## Keys -/

def copyKey (size : Nat) (source : Bytes) : Bytes :=
  (if source = [] then ascii "unknown" else source).take (size - 1)

def normalizeAccount (size : Nat) (source : Bytes) : Bytes :=
  (source.take (size - 1)).map asciiLower

/-! ## Event windows -/

structure EventWindow where
  times : List UInt64
deriving DecidableEq, Repr

/-- The answer of a window, its `retry_after_ms` and what it stores afterwards. -/
structure WindowAnswer where
  allowed : Bool
  retryAfterMs : UInt64
  window : EventWindow
deriving DecidableEq, Repr

def pruneWindow (window : EventWindow) (nowMs windowMs : UInt64) : EventWindow :=
  ⟨window.times.filter fun t => decide (t ≤ nowMs) && decide (nowMs - t < windowMs)⟩

def windowAllow (window : EventWindow) (limit : Nat) (windowMs nowMs : UInt64) : WindowAnswer :=
  let pruned := pruneWindow window nowMs windowMs
  if limit ≤ pruned.times.length then
    let oldest := pruned.times.headD 0
    let age := if oldest ≤ nowMs then nowMs - oldest else 0
    ⟨false, if windowMs ≤ age then 0 else windowMs - age, pruned⟩
  else
    ⟨true, 0, ⟨pruned.times ++ [nowMs]⟩⟩

/-- A window is a sliding window over the times as numbers. -/
theorem pruneWindow_times (window : EventWindow) (nowMs windowMs : UInt64) :
    (pruneWindow window nowMs windowMs).times.map UInt64.toNat =
      SlidingWindow.prune windowMs.toNat nowMs.toNat (window.times.map UInt64.toNat) := by
  simp only [pruneWindow, SlidingWindow.prune, List.filter_map]
  congr 1
  apply List.filter_congr
  intro t _
  by_cases hle : t ≤ nowMs
  · have hsub := UInt64.toNat_sub_of_le _ _ hle
    have hle' := UInt64.le_iff_toNat_le.mp hle
    simp [SlidingWindow.live, hle, hle', UInt64.lt_iff_toNat_lt, hsub]
  · have hle' : ¬ t.toNat ≤ nowMs.toNat := fun h => hle (UInt64.le_iff_toNat_le.mpr h)
    simp [SlidingWindow.live, hle, hle']

theorem windowAllow_offer (window : EventWindow) (limit : Nat) (windowMs nowMs : UInt64) :
    ((windowAllow window limit windowMs nowMs).allowed,
      (windowAllow window limit windowMs nowMs).window.times.map UInt64.toNat) =
      SlidingWindow.offer limit windowMs.toNat nowMs.toNat (window.times.map UInt64.toNat) := by
  have hlen : (SlidingWindow.prune windowMs.toNat nowMs.toNat
      (window.times.map UInt64.toNat)).length =
      (pruneWindow window nowMs windowMs).times.length := by
    rw [← pruneWindow_times, List.length_map]
  simp only [windowAllow, SlidingWindow.offer, hlen]
  split <;> simp [pruneWindow_times]

/-! ## Backoff -/

/-- The failure counter and block time that peer and account records both carry. -/
structure Backoff where
  authFailures : Nat
  authBlockedUntilMs : UInt64
deriving DecidableEq, Repr

def Backoff.zero : Backoff := ⟨0, 0⟩

def peerBackoffMs (failures : Nat) : UInt64 :=
  if failures < 3 then 0
  else
    let shift := min (failures - 3) 6
    let delay := (1000 : UInt64) <<< UInt64.ofNat shift
    if delay > 60000 then 60000 else delay

def accountBackoffMs (failures : Nat) : UInt64 :=
  if failures ≥ accountAuthFailureLimit then accountAuthLockMs else 0

/-- A completed cooldown starts a fresh set of attempts. -/
def Backoff.expire (nowMs : UInt64) (b : Backoff) : Backoff :=
  if b.authBlockedUntilMs ≠ 0 ∧ b.authBlockedUntilMs ≤ nowMs then .zero else b

def Backoff.waitMs (nowMs : UInt64) (b : Backoff) : UInt64 :=
  if nowMs < b.authBlockedUntilMs then b.authBlockedUntilMs - nowMs else 0

/-- One more failure, with the backoff `delay` of the record's kind. -/
def Backoff.fail (delay : Nat → UInt64) (nowMs : UInt64) (b : Backoff) : Backoff :=
  let failures := if b.authFailures < 1000000 then b.authFailures + 1 else b.authFailures
  ⟨failures, if 0 < delay failures then nowMs + delay failures else b.authBlockedUntilMs⟩

theorem Backoff.expire_of_lt {b : Backoff} {now : UInt64} (h : now < b.authBlockedUntilMs) :
    b.expire now = b := by
  rw [Backoff.expire, if_neg]
  rintro ⟨_, hle⟩
  exact absurd h (not_lt.mpr hle)

theorem Backoff.waitMs_eq_zero_iff {b : Backoff} {now : UInt64} :
    b.waitMs now = 0 ↔ b.authBlockedUntilMs ≤ now := by
  unfold Backoff.waitMs
  split
  case isTrue h =>
    rw [← UInt64.toNat_inj, UInt64.toNat_sub_of_le _ _ h.le, UInt64.le_iff_toNat_le]
    rw [UInt64.lt_iff_toNat_lt] at h
    simp only [UInt64.reduceToNat]
    omega
  case isFalse h => simpa using h

/-- Once expired, a block is over exactly when it is gone. -/
theorem Backoff.expire_waitMs_eq_zero_iff {b : Backoff} {now : UInt64} :
    (b.expire now).waitMs now = 0 ↔ b.authBlockedUntilMs ≤ now := by
  rw [waitMs_eq_zero_iff, Backoff.expire]
  split
  case isTrue h =>
    have hz : (0 : UInt64) ≤ now := by simp [UInt64.le_iff_toNat_le]
    exact ⟨fun _ => h.2, fun _ => hz⟩
  case isFalse h => exact Iff.rfl

/-- A block is only ever set by the third failure. -/
def Backoff.Earned (b : Backoff) : Prop :=
  b.authBlockedUntilMs ≠ 0 → accountAuthFailureLimit ≤ b.authFailures

theorem Backoff.Earned.expire {b : Backoff} (h : b.Earned) (now : UInt64) :
    (b.expire now).Earned := by
  unfold Backoff.expire
  split
  · exact fun hne => absurd rfl hne
  · exact h

theorem Backoff.Earned.fail {b : Backoff} (h : b.Earned) (now : UInt64) :
    (b.fail accountBackoffMs now).Earned := by
  intro hne
  simp only [Backoff.fail] at hne ⊢
  by_cases hlimit : accountAuthFailureLimit ≤
      (if b.authFailures < 1000000 then b.authFailures + 1 else b.authFailures)
  · exact hlimit
  · simp only [accountBackoffMs, ge_iff_le, hlimit, if_false, lt_self_iff_false] at hne
    have hold := h hne
    split <;> omega

/-! ## Records and tables -/

structure PeerRecord where
  key : Bytes
  lastSeenMs : UInt64
  connections : EventWindow
  creations : EventWindow
  auth : Backoff
deriving DecidableEq, Repr

structure AccountRecord where
  key : Bytes
  lastSeenMs : UInt64
  auth : Backoff
deriving DecidableEq, Repr

def PeerRecord.zero : PeerRecord := ⟨[], 0, ⟨[]⟩, ⟨[]⟩, .zero⟩

def AccountRecord.zero : AccountRecord := ⟨[], 0, .zero⟩

def peerLayout : SlotTable.Layout PeerRecord Bytes UInt64 where
  key := PeerRecord.key
  vacant r := r.key = []
  seen := PeerRecord.lastSeenMs
  touch now r := { r with lastSeenMs := now }
  fresh key now := { PeerRecord.zero with key := copyKey peerKeyBytes key, lastSeenMs := now }
  ceiling := 0xFFFFFFFFFFFFFFFF

def accountLayout : SlotTable.Layout AccountRecord Bytes UInt64 where
  key := AccountRecord.key
  vacant r := r.key = []
  seen := AccountRecord.lastSeenMs
  touch now r := { r with lastSeenMs := now }
  fresh key now := { AccountRecord.zero with key := copyKey accountKeyBytes key, lastSeenMs := now }
  ceiling := 0xFFFFFFFFFFFFFFFF

/-- The policy state. The tables never change their size. -/
structure SecurityPolicy where
  peers : List PeerRecord
  accounts : List AccountRecord
  globalConnections : EventWindow
  globalCreations : EventWindow
  peers_length : peers.length = maxPeerRecords
  accounts_length : accounts.length = maxAccountRecords

/-- The facts of a peer's record. -/
structure PeerState where
  connections : EventWindow
  creations : EventWindow
  auth : Backoff

def PeerState.zero : PeerState := ⟨⟨[]⟩, ⟨[]⟩, .zero⟩

def PeerRecord.state (r : PeerRecord) : PeerState := ⟨r.connections, r.creations, r.auth⟩

namespace SecurityPolicy

def securityPolicyCreate : SecurityPolicy where
  peers := List.replicate maxPeerRecords .zero
  accounts := List.replicate maxAccountRecords .zero
  globalConnections := ⟨[]⟩
  globalCreations := ⟨[]⟩
  peers_length := by simp
  accounts_length := by simp

def peerRecordFor (p : SecurityPolicy) (peer : Bytes) (nowMs : UInt64) :
    SlotTable.Located PeerRecord :=
  SlotTable.locate peerLayout p.peers (copyKey peerKeyBytes peer) nowMs

def accountRecordFor (p : SecurityPolicy) (playerName : Bytes) (nowMs : UInt64) :
    SlotTable.Located AccountRecord :=
  SlotTable.locate accountLayout p.accounts (normalizeAccount accountKeyBytes playerName) nowMs

/-- Change the located record of a peer in place. -/
def withPeer (p : SecurityPolicy) (peer : Bytes) (nowMs : UInt64)
    (update : PeerRecord → PeerRecord) : SecurityPolicy :=
  let found := p.peerRecordFor peer nowMs
  { p with
    peers := found.put (update found.record)
    peers_length := by
      rw [← p.peers_length]
      exact SlotTable.length_locate_put _ _ _ _ _ }

/-- Change the failure counter and block time of the located record in place. -/
def withAccount (p : SecurityPolicy) (playerName : Bytes) (nowMs : UInt64)
    (update : Backoff → Backoff) : SecurityPolicy :=
  let found := p.accountRecordFor playerName nowMs
  { p with
    accounts := found.put { found.record with auth := update found.record.auth }
    accounts_length := by
      rw [← p.accounts_length]
      exact SlotTable.length_locate_put _ _ _ _ _ }

end SecurityPolicy

/-! ## Operations -/

/-- What an operation returns, its `retry_after_ms` and the policy afterwards. -/
structure PolicyAnswer where
  allowed : Bool
  retryAfterMs : UInt64
  policy : SecurityPolicy

namespace SecurityPolicy

def securityPolicyAllowConnection (p : SecurityPolicy) (peer : Bytes) (nowMs : UInt64) :
    PolicyAnswer :=
  let record := (p.peerRecordFor peer nowMs).record
  let peerAnswer :=
    windowAllow record.connections peerConnectionLimit peerConnectionWindowMs nowMs
  let p := p.withPeer peer nowMs fun r => { r with connections := peerAnswer.window }
  -- Only a connection its peer's window accepts consumes a global slot.
  if peerAnswer.allowed then
    let globalAnswer :=
      windowAllow p.globalConnections globalConnectionLimit globalConnectionWindowMs nowMs
    ⟨globalAnswer.allowed, max peerAnswer.retryAfterMs globalAnswer.retryAfterMs,
      { p with globalConnections := globalAnswer.window }⟩
  else
    ⟨false, peerAnswer.retryAfterMs, p⟩

def securityPolicyAllowAuthAttempt (p : SecurityPolicy) (peer playerName : Bytes)
    (nowMs : UInt64) : PolicyAnswer :=
  let peerAuth := (p.peerRecordFor peer nowMs).record.auth.expire nowMs
  let accountAuth := (p.accountRecordFor playerName nowMs).record.auth.expire nowMs
  let peerWait := peerAuth.waitMs nowMs
  let accountWait := accountAuth.waitMs nowMs
  ⟨peerWait = 0 && accountWait = 0, max peerWait accountWait,
    (p.withPeer peer nowMs fun r => { r with auth := r.auth.expire nowMs }).withAccount
      playerName nowMs (Backoff.expire nowMs)⟩

def securityPolicyNoteAuthFailure (p : SecurityPolicy) (peer playerName : Bytes)
    (nowMs : UInt64) : SecurityPolicy :=
  (p.withPeer peer nowMs fun r => { r with auth := r.auth.fail peerBackoffMs nowMs }).withAccount
    playerName nowMs (Backoff.fail accountBackoffMs nowMs)

def securityPolicyNoteAuthSuccess (p : SecurityPolicy) (peer playerName : Bytes)
    (nowMs : UInt64) : SecurityPolicy :=
  (p.withPeer peer nowMs fun r => { r with auth := .zero }).withAccount playerName nowMs
    fun _ => .zero

def securityPolicyAllowAccountCreation (p : SecurityPolicy) (peer : Bytes) (nowMs : UInt64) :
    PolicyAnswer :=
  let record := (p.peerRecordFor peer nowMs).record
  let peerAnswer := windowAllow record.creations peerCreationLimit peerCreationWindowMs nowMs
  let p := p.withPeer peer nowMs fun r => { r with creations := peerAnswer.window }
  if peerAnswer.allowed then
    let globalAnswer :=
      windowAllow p.globalCreations globalCreationLimit globalCreationWindowMs nowMs
    ⟨globalAnswer.allowed, max peerAnswer.retryAfterMs globalAnswer.retryAfterMs,
      { p with globalCreations := globalAnswer.window }⟩
  else
    ⟨false, peerAnswer.retryAfterMs, p⟩

/-! ## The system of policy calls -/

/-- One call of the public interface, for a valid player name where it takes one. -/
inductive PolicyOp where
  | allowConnection (peer : Bytes) (nowMs : UInt64)
  | allowAuthAttempt (peer : Bytes) (name : PlayerName) (nowMs : UInt64)
  | noteAuthFailure (peer : Bytes) (name : PlayerName) (nowMs : UInt64)
  | noteAuthSuccess (peer : Bytes) (name : PlayerName) (nowMs : UInt64)
  | allowAccountCreation (peer : Bytes) (nowMs : UInt64)

def PolicyOp.nowMs : PolicyOp → UInt64
  | allowConnection _ now | allowAuthAttempt _ _ now | noteAuthFailure _ _ now
  | noteAuthSuccess _ _ now | allowAccountCreation _ now => now

/-- The account an operation is about. -/
def PolicyOp.account? : PolicyOp → Option PlayerName
  | allowAuthAttempt _ name _ | noteAuthFailure _ name _ | noteAuthSuccess _ name _ => some name
  | allowConnection _ _ | allowAccountCreation _ _ => none

def apply (p : SecurityPolicy) : PolicyOp → SecurityPolicy
  | .allowConnection peer now => (p.securityPolicyAllowConnection peer now).policy
  | .allowAuthAttempt peer name now => (p.securityPolicyAllowAuthAttempt peer name.val now).policy
  | .noteAuthFailure peer name now => p.securityPolicyNoteAuthFailure peer name.val now
  | .noteAuthSuccess peer name now => p.securityPolicyNoteAuthSuccess peer name.val now
  | .allowAccountCreation peer now => (p.securityPolicyAllowAccountCreation peer now).policy

def system : Transition.System SecurityPolicy PolicyOp where
  init p := p = securityPolicyCreate
  step op p p' := p' = p.apply op

def run (p : SecurityPolicy) (ops : List PolicyOp) : SecurityPolicy := ops.foldl apply p

theorem reachable_run {p : SecurityPolicy} (hp : system.Reachable p) (ops : List PolicyOp) :
    system.Reachable (p.run ops) := by
  induction ops generalizing p with
  | nil => exact hp
  | cons op ops ih => exact ih (.step hp rfl)

/-! ## Keys of valid names and of peers -/

theorem normalizeAccount_ne_nil (name : PlayerName) :
    normalizeAccount accountKeyBytes name.val ≠ [] := by
  obtain ⟨hmin, _, _⟩ := playerStoreNameValid_iff.mp name.property
  intro hnil
  have hlen := congrArg List.length hnil
  simp only [normalizeAccount, List.length_map, List.length_take, List.length_nil] at hlen
  simp only [playerNameMin, accountKeyBytes] at hmin hlen
  omega

theorem copyKey_normalizeAccount (name : PlayerName) :
    copyKey accountKeyBytes (normalizeAccount accountKeyBytes name.val)
      = normalizeAccount accountKeyBytes name.val := by
  rw [copyKey, if_neg (normalizeAccount_ne_nil name)]
  apply List.take_of_length_le
  simp [normalizeAccount]

theorem copyKey_ne_nil (peer : Bytes) : copyKey peerKeyBytes peer ≠ [] := by
  unfold copyKey
  split
  case isTrue h => decide
  case isFalse h => simpa [peerKeyBytes] using h

theorem copyKey_copyKey (peer : Bytes) :
    copyKey peerKeyBytes (copyKey peerKeyBytes peer) = copyKey peerKeyBytes peer := by
  have hne := copyKey_ne_nil peer
  rw [copyKey, if_neg hne]
  apply List.take_of_length_le
  simp [copyKey]

/-! ## What the operations do to one account -/

/-- The record of an account, if it has one. -/
def accountRecord? (p : SecurityPolicy) (name : PlayerName) : Option AccountRecord :=
  SlotTable.lookup accountLayout p.accounts (normalizeAccount accountKeyBytes name.val)

def peerState (p : SecurityPolicy) (key : Bytes) : PeerState :=
  ((SlotTable.lookup peerLayout p.peers key).map PeerRecord.state).getD .zero

def accountState (p : SecurityPolicy) (key : Bytes) : Backoff :=
  ((SlotTable.lookup accountLayout p.accounts key).map AccountRecord.auth).getD .zero

/-- The failure counter and block time of an account. -/
def accountAuth (p : SecurityPolicy) (name : PlayerName) : Backoff :=
  p.accountState (normalizeAccount accountKeyBytes name.val)

/-- The failure counter and block time of a peer. -/
def peerAuth (p : SecurityPolicy) (peer : Bytes) : Backoff :=
  (p.peerState (copyKey peerKeyBytes peer)).auth

theorem accountAuth_eq (p : SecurityPolicy) (name : PlayerName) :
    p.accountAuth name = ((p.accountRecord? name).map AccountRecord.auth).getD .zero := rfl

theorem le_ceiling (t : UInt64) : t ≤ 0xFFFFFFFFFFFFFFFF := by
  have ht := t.toNat_lt
  rw [UInt64.le_iff_toNat_le]
  simp only [UInt64.reduceToNat]
  omega

theorem accounts_ne_nil (p : SecurityPolicy) : p.accounts ≠ [] := by
  intro h
  have hlen := p.accounts_length
  simp [h, maxAccountRecords] at hlen

theorem peers_ne_nil (p : SecurityPolicy) : p.peers ≠ [] := by
  intro h
  have hlen := p.peers_length
  simp [h, maxPeerRecords] at hlen

@[simp] theorem accountRecordFor_auth (p : SecurityPolicy) (name : PlayerName) (now : UInt64) :
    (p.accountRecordFor name.val now).record.auth = p.accountAuth name := by
  simp only [accountRecordFor, SlotTable.locate_record, SlotTable.recordFor, accountAuth,
    accountState]
  split <;> simp_all [accountLayout]
  rfl

@[simp] theorem peerRecordFor_auth (p : SecurityPolicy) (peer : Bytes) (now : UInt64) :
    (p.peerRecordFor peer now).record.auth = p.peerAuth peer := by
  simp only [peerRecordFor, SlotTable.locate_record, SlotTable.recordFor, peerAuth, peerState]
  cases SlotTable.lookup peerLayout p.peers (copyKey peerKeyBytes peer) <;> rfl

theorem accountRecordFor_key (p : SecurityPolicy) (name : PlayerName) (now : UInt64) :
    (p.accountRecordFor name.val now).record.key = normalizeAccount accountKeyBytes name.val := by
  simp only [accountRecordFor, SlotTable.locate_record, SlotTable.recordFor]
  split
  case h_1 r h => exact (SlotTable.holds_iff.mp (List.find?_some h)).2
  case h_2 h => exact copyKey_normalizeAccount name

theorem peerRecordFor_key (p : SecurityPolicy) (peer : Bytes) (now : UInt64) :
    (p.peerRecordFor peer now).record.key = copyKey peerKeyBytes peer := by
  simp only [peerRecordFor, SlotTable.locate_record, SlotTable.recordFor]
  split
  case h_1 r h => exact (SlotTable.holds_iff.mp (List.find?_some h)).2
  case h_2 h => exact copyKey_copyKey peer

theorem accountRecord?_withAccount_self (p : SecurityPolicy) (name : PlayerName) (now : UInt64)
    (update : Backoff → Backoff) :
    (p.withAccount name.val now update).accountRecord? name =
      some { (p.accountRecordFor name.val now).record with auth := update (p.accountAuth name) } := by
  rw [← accountRecordFor_auth p name now]
  apply SlotTable.lookup_put_self p.accounts_ne_nil (fun r => le_ceiling r.lastSeenMs)
  have hkey := accountRecordFor_key p name now
  refine SlotTable.holds_iff.mpr ⟨decide_eq_false ?_, hkey⟩
  rw [hkey]
  exact normalizeAccount_ne_nil name

@[simp] theorem accountAuth_withAccount_self (p : SecurityPolicy) (name : PlayerName)
    (now : UInt64) (update : Backoff → Backoff) :
    (p.withAccount name.val now update).accountAuth name = update (p.accountAuth name) := by
  rw [accountAuth_eq, accountRecord?_withAccount_self]
  rfl

/-- Locating `other` takes the slot of `name`. -/
def Evicts (p : SecurityPolicy) (other name : PlayerName) : Prop :=
  SlotTable.Evicts accountLayout p.accounts (normalizeAccount accountKeyBytes other.val)
    (normalizeAccount accountKeyBytes name.val)

theorem accountRecord?_withAccount_other (p : SecurityPolicy) {other name : PlayerName}
    (hne : normalizeAccount accountKeyBytes other.val ≠ normalizeAccount accountKeyBytes name.val)
    (now : UInt64) (update : Backoff → Backoff) (hkeep : ¬ p.Evicts other name) :
    (p.withAccount other.val now update).accountRecord? name = p.accountRecord? name :=
  SlotTable.lookup_put_other p.accounts_ne_nil (fun r => le_ceiling r.lastSeenMs) hne now
    (accountRecordFor_key p other now) hkeep

@[simp] theorem accountRecord?_withPeer (p : SecurityPolicy) (peer : Bytes) (now : UInt64)
    (update : PeerRecord → PeerRecord) (name : PlayerName) :
    (p.withPeer peer now update).accountRecord? name = p.accountRecord? name := rfl

@[simp] theorem accountAuth_withPeer (p : SecurityPolicy) (peer : Bytes) (now : UInt64)
    (update : PeerRecord → PeerRecord) (name : PlayerName) :
    (p.withPeer peer now update).accountAuth name = p.accountAuth name := rfl

@[simp] theorem peerAuth_withAccount (p : SecurityPolicy) (name : Bytes) (now : UInt64)
    (update : Backoff → Backoff) (peer : Bytes) :
    (p.withAccount name now update).peerAuth peer = p.peerAuth peer := rfl

theorem holds_peerRecordFor (p : SecurityPolicy) (peer : Bytes) (now : UInt64) {r : PeerRecord}
    (hkey : r.key = (p.peerRecordFor peer now).record.key) :
    SlotTable.holds peerLayout (copyKey peerKeyBytes peer) r = true := by
  have hpeer := hkey.trans (peerRecordFor_key p peer now)
  refine SlotTable.holds_iff.mpr ⟨decide_eq_false ?_, hpeer⟩
  rw [hpeer]
  exact copyKey_ne_nil peer

theorem lookup_withPeer_self (p : SecurityPolicy) (peer : Bytes) (now : UInt64)
    {update : PeerRecord → PeerRecord} (hkey : ∀ r, (update r).key = r.key) :
    SlotTable.lookup peerLayout (p.withPeer peer now update).peers (copyKey peerKeyBytes peer) =
      some (update (p.peerRecordFor peer now).record) :=
  SlotTable.lookup_put_self p.peers_ne_nil (fun r => le_ceiling r.lastSeenMs) now
    (holds_peerRecordFor p peer now (hkey _))

theorem peerAuth_withPeer_self (p : SecurityPolicy) (peer : Bytes) (now : UInt64)
    {update : PeerRecord → PeerRecord} (hkey : ∀ r, (update r).key = r.key) :
    (p.withPeer peer now update).peerAuth peer
      = (update (p.peerRecordFor peer now).record).auth := by
  rw [peerAuth, peerState, lookup_withPeer_self p peer now hkey]
  rfl

/-- An authentication attempt is let through when neither side is waiting. -/
theorem allowAuthAttempt_allowed (p : SecurityPolicy) (peer : Bytes) (name : PlayerName)
    (now : UInt64) :
    (p.securityPolicyAllowAuthAttempt peer name.val now).allowed =
      (decide (((p.peerAuth peer).expire now).waitMs now = 0) &&
        decide (((p.accountAuth name).expire now).waitMs now = 0)) := by
  simp [securityPolicyAllowAuthAttempt]

@[simp] theorem accountAuth_allowAuthAttempt (p : SecurityPolicy) (peer : Bytes)
    (name : PlayerName) (now : UInt64) :
    (p.securityPolicyAllowAuthAttempt peer name.val now).policy.accountAuth name
      = (p.accountAuth name).expire now := by
  simp [securityPolicyAllowAuthAttempt]

@[simp] theorem accountAuth_noteAuthFailure (p : SecurityPolicy) (peer : Bytes)
    (name : PlayerName) (now : UInt64) :
    (p.securityPolicyNoteAuthFailure peer name.val now).accountAuth name
      = (p.accountAuth name).fail accountBackoffMs now := by
  simp [securityPolicyNoteAuthFailure]

@[simp] theorem peerAuth_allowAuthAttempt (p : SecurityPolicy) (peer name : Bytes)
    (now : UInt64) :
    (p.securityPolicyAllowAuthAttempt peer name now).policy.peerAuth peer
      = (p.peerAuth peer).expire now := by
  rw [securityPolicyAllowAuthAttempt, peerAuth_withAccount, peerAuth_withPeer_self p peer now]
  · rw [peerRecordFor_auth]
  · exact fun r => rfl

@[simp] theorem peerAuth_noteAuthFailure (p : SecurityPolicy) (peer name : Bytes)
    (now : UInt64) :
    (p.securityPolicyNoteAuthFailure peer name now).peerAuth peer
      = (p.peerAuth peer).fail peerBackoffMs now := by
  rw [securityPolicyNoteAuthFailure, peerAuth_withAccount, peerAuth_withPeer_self p peer now]
  · rw [peerRecordFor_auth]
  · exact fun r => rfl

/-! ## The account table over a run -/

theorem touch_withAccount (p : SecurityPolicy) (name : PlayerName) (now : UInt64)
    (update : Backoff → Backoff) :
    SlotTable.Touch accountLayout p.accounts (normalizeAccount accountKeyBytes name.val) now
      (p.withAccount name.val now update).accounts := by
  have hkey := accountRecordFor_key p name now
  refine ⟨{ (p.accountRecordFor name.val now).record with
    auth := update (p.accountRecordFor name.val now).record.auth },
    SlotTable.holds_iff.mpr ⟨decide_eq_false ?_, hkey⟩, ?_, rfl⟩
  · rw [hkey]
    exact normalizeAccount_ne_nil name
  · change (p.accountRecordFor name.val now).record.lastSeenMs = now
    simp only [accountRecordFor, SlotTable.locate_record, SlotTable.recordFor]
    split <;> rfl

/-- An operation writes the record of its account and no other. -/
theorem accounts_apply (p : SecurityPolicy) (op : PolicyOp) :
    match op.account? with
    | some name => SlotTable.Touch accountLayout p.accounts
        (normalizeAccount accountKeyBytes name.val) op.nowMs (p.apply op).accounts
    | none => (p.apply op).accounts = p.accounts := by
  cases op with
  | allowConnection peer now =>
    simp only [PolicyOp.account?, apply, securityPolicyAllowConnection]
    split <;> rfl
  | allowAccountCreation peer now =>
    simp only [PolicyOp.account?, apply, securityPolicyAllowAccountCreation]
    split <;> rfl
  | allowAuthAttempt peer name now => exact touch_withAccount (p.withPeer peer now _) name now _
  | noteAuthFailure peer name now => exact touch_withAccount (p.withPeer peer now _) name now _
  | noteAuthSuccess peer name now => exact touch_withAccount (p.withPeer peer now _) name now _

theorem accounts_distinct {p : SecurityPolicy} (hp : system.Reachable p) :
    SlotTable.Distinct accountLayout p.accounts := by
  apply hp.invariant (I := fun p => SlotTable.Distinct accountLayout p.accounts)
  · rintro _ rfl i j r s hi _ hr _ _
    have hmem := List.mem_of_getElem? hi
    simp [securityPolicyCreate, List.mem_replicate] at hmem
    simp [hmem.2, accountLayout, AccountRecord.zero] at hr
  · rintro op p _ _ hdistinct rfl
    have hop := accounts_apply p op
    cases haccount : op.account? with
    | none =>
      rw [haccount] at hop
      rw [hop]
      exact hdistinct
    | some name =>
      rw [haccount] at hop
      exact hdistinct.touch hop

/-- Two names of one account: they have the same key. -/
def SameAccount (other name : PlayerName) : Prop :=
  normalizeAccount accountKeyBytes other.val = normalizeAccount accountKeyBytes name.val

instance (other name : PlayerName) : Decidable (SameAccount other name) := by
  unfold SameAccount
  infer_instance

theorem SameAccount.accountAuth_eq {other name : PlayerName} (h : SameAccount other name)
    (p : SecurityPolicy) : p.accountAuth other = p.accountAuth name := by
  rw [accountAuth, accountAuth, h]

/-- What an operation does to the failure counter and block time of its account. -/
def PolicyOp.onAccount : PolicyOp → Backoff → Backoff
  | allowAuthAttempt _ _ now => Backoff.expire now
  | noteAuthFailure _ _ now => Backoff.fail accountBackoffMs now
  | noteAuthSuccess _ _ _ => fun _ => .zero
  | allowConnection _ _ | allowAccountCreation _ _ => id

private theorem accountAuth_withAccount (p : SecurityPolicy) {other name : PlayerName}
    (now : UInt64) (update : Backoff → Backoff) (hkeep : ¬ p.Evicts other name) :
    (p.withAccount other.val now update).accountAuth name =
      if SameAccount other name then update (p.accountAuth name) else p.accountAuth name := by
  split
  case isTrue hsame =>
    rw [← hsame.accountAuth_eq, ← hsame.accountAuth_eq, accountAuth_withAccount_self]
  case isFalse hne =>
    rw [accountAuth_eq, accountRecord?_withAccount_other p hne now update hkeep, accountAuth_eq]

/-- One operation acts on its own account, and on no other as long as it does
not take the slot of that account. -/
theorem accountAuth_apply (p : SecurityPolicy) (op : PolicyOp) (name : PlayerName)
    (hkeep : ∀ other, op.account? = some other → ¬ p.Evicts other name) :
    (p.apply op).accountAuth name =
      if op.account?.any (SameAccount · name) then op.onAccount (p.accountAuth name)
      else p.accountAuth name := by
  cases op with
  | allowConnection peer now =>
    simp only [apply, securityPolicyAllowConnection]
    split <;> rfl
  | allowAccountCreation peer now =>
    simp only [apply, securityPolicyAllowAccountCreation]
    split <;> rfl
  | allowAuthAttempt peer other now =>
    simp only [apply, securityPolicyAllowAuthAttempt]
    rw [accountAuth_withAccount]
    · simp [PolicyOp.account?, PolicyOp.onAccount]
    · exact hkeep other rfl
  | noteAuthFailure peer other now =>
    simp only [apply, securityPolicyNoteAuthFailure]
    rw [accountAuth_withAccount]
    · simp [PolicyOp.account?, PolicyOp.onAccount]
    · exact hkeep other rfl
  | noteAuthSuccess peer other now =>
    simp only [apply, securityPolicyNoteAuthSuccess]
    rw [accountAuth_withAccount]
    · simp [PolicyOp.account?, PolicyOp.onAccount]
    · exact hkeep other rfl

/-! ## Blocks are earned -/

theorem earned_withAccount {p : SecurityPolicy} (h : ∀ r ∈ p.accounts, r.auth.Earned)
    (name : Bytes) (now : UInt64) {update : Backoff → Backoff}
    (hupdate : ∀ b : Backoff, b.Earned → (update b).Earned) :
    ∀ r ∈ (p.withAccount name now update).accounts, r.auth.Earned := by
  intro r hr
  simp only [withAccount, accountRecordFor, SlotTable.locate_put, SlotTable.locate_record] at hr
  rcases List.mem_or_eq_of_mem_set hr with hr | rfl
  · exact h r hr
  · apply hupdate
    simp only [SlotTable.recordFor]
    split
    case h_1 r' hr' => exact h r' (List.mem_of_find?_eq_some hr')
    case h_2 => exact fun hne => absurd rfl hne

theorem earned_of_reachable {p : SecurityPolicy} (hp : system.Reachable p) :
    ∀ r ∈ p.accounts, r.auth.Earned := by
  apply hp.invariant (I := fun p => ∀ r ∈ p.accounts, r.auth.Earned)
  · rintro _ rfl r hr
    rw [(List.mem_replicate.mp hr).2]
    exact fun hne => absurd rfl hne
  · rintro op p _ _ hearned rfl
    cases op with
    | allowConnection peer now =>
      have hsame := accounts_apply p (.allowConnection peer now)
      rw [hsame]
      exact hearned
    | allowAccountCreation peer now =>
      have hsame := accounts_apply p (.allowAccountCreation peer now)
      rw [hsame]
      exact hearned
    | allowAuthAttempt peer name now =>
      exact earned_withAccount (p := p.withPeer peer now _) hearned _ _ fun b hb => hb.expire now
    | noteAuthFailure peer name now =>
      exact earned_withAccount (p := p.withPeer peer now _) hearned _ _ fun b hb => hb.fail now
    | noteAuthSuccess peer name now =>
      exact earned_withAccount (p := p.withPeer peer now _) hearned _ _
        fun b hb hne => absurd rfl hne

end SecurityPolicy

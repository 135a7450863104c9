-- SUMMARY: The policy without tables, as a map from keys to records, and that the tables behave like it while every key has a slot.
import TelnetTlsServer.Policy.SecurityPolicy

/-!
# A policy without tables

What the policy decides is about peers and accounts. `UnboundedPolicy` says it
that way: a record for every key, zero until it is used, and the windows and
backoff rules of the code. It has no slots, no timestamps of last use and no
reuse.

As long as no more keys occur than there are slots, the fixed tables answer every
call as `UnboundedPolicy` does, and a call neither reads nor changes the record
of another key (`tables_refine_unbounded`).
-/

/-- What a call tells its caller. -/
structure Answer where
  allowed : Bool
  retryAfterMs : UInt64
deriving DecidableEq, Repr

/-- The answer of two windows asked one after the other, the second only if the
first accepts, and what they store afterwards. -/
structure Charge where
  answer : Answer
  first : EventWindow
  second : EventWindow

def charge (first second : WindowAnswer) (untouched : EventWindow) : Charge :=
  if first.allowed then
    ⟨⟨second.allowed, max first.retryAfterMs second.retryAfterMs⟩, first.window, second.window⟩
  else ⟨⟨false, first.retryAfterMs⟩, first.window, untouched⟩

theorem charge_allowed (first second : WindowAnswer) (untouched : EventWindow) :
    (charge first second untouched).answer.allowed = (first.allowed && second.allowed) := by
  unfold charge
  split <;> simp_all

/-- The first window has stored the event before the second one is asked. -/
theorem charge_first (first second : WindowAnswer) (untouched : EventWindow) :
    (charge first second untouched).first = first.window := by
  unfold charge
  split <;> rfl

theorem charge_second (first second : WindowAnswer) (untouched : EventWindow) :
    (charge first second untouched).second =
      if first.allowed then second.window else untouched := by
  unfold charge
  split <;> rfl

structure UnboundedPolicy where
  peers : Bytes → PeerState
  accounts : Bytes → Backoff
  globalConnections : EventWindow
  globalCreations : EventWindow

/-! ## Keys of a call -/

namespace SecurityPolicy

def PolicyOp.peer : PolicyOp → Bytes
  | allowConnection peer _ | allowAuthAttempt peer _ _ | noteAuthFailure peer _ _
  | noteAuthSuccess peer _ _ | allowAccountCreation peer _ => peer

def PolicyOp.peerKey (op : PolicyOp) : Bytes := copyKey peerKeyBytes op.peer

/-- The account's name in lower case, for the calls about an account. -/
def PolicyOp.accountKey? (op : PolicyOp) : Option Bytes :=
  op.account?.map fun name => normalizeAccount accountKeyBytes name.val

/-- What a call returns; the two notes return nothing. -/
def answer? (p : SecurityPolicy) : PolicyOp → Option Answer
  | .allowConnection peer now =>
      let a := p.securityPolicyAllowConnection peer now
      some ⟨a.allowed, a.retryAfterMs⟩
  | .allowAuthAttempt peer name now =>
      let a := p.securityPolicyAllowAuthAttempt peer name.val now
      some ⟨a.allowed, a.retryAfterMs⟩
  | .allowAccountCreation peer now =>
      let a := p.securityPolicyAllowAccountCreation peer now
      some ⟨a.allowed, a.retryAfterMs⟩
  | .noteAuthFailure .. | .noteAuthSuccess .. => none

/-- The answers of a sequence of calls. -/
def answers (p : SecurityPolicy) : List PolicyOp → List (Option Answer)
  | [] => []
  | op :: ops => p.answer? op :: answers (p.apply op) ops

end SecurityPolicy

/-! ## Calls without tables -/

namespace UnboundedPolicy

open SecurityPolicy

def zero : UnboundedPolicy := ⟨fun _ => .zero, fun _ => .zero, ⟨[]⟩, ⟨[]⟩⟩

def setPeer (u : UnboundedPolicy) (key : Bytes) (s : PeerState) : UnboundedPolicy :=
  { u with peers := Function.update u.peers key s }

def setAccount (u : UnboundedPolicy) (key : Bytes) (b : Backoff) : UnboundedPolicy :=
  { u with accounts := Function.update u.accounts key b }

/-- Change the backoff of a peer and of an account. -/
def setAuth (u : UnboundedPolicy) (peer account : Bytes) (onPeer onAccount : Backoff → Backoff) :
    UnboundedPolicy :=
  (u.setPeer peer { u.peers peer with auth := onPeer (u.peers peer).auth }).setAccount account
    (onAccount (u.accounts account))

def connectionCharge (u : UnboundedPolicy) (key : Bytes) (now : UInt64) : Charge :=
  charge
    (windowAllow (u.peers key).connections peerConnectionLimit peerConnectionWindowMs now)
    (windowAllow u.globalConnections globalConnectionLimit globalConnectionWindowMs now)
    u.globalConnections

def creationCharge (u : UnboundedPolicy) (key : Bytes) (now : UInt64) : Charge :=
  charge
    (windowAllow (u.peers key).creations peerCreationLimit peerCreationWindowMs now)
    (windowAllow u.globalCreations globalCreationLimit globalCreationWindowMs now)
    u.globalCreations

def attemptAnswer (u : UnboundedPolicy) (peer account : Bytes) (now : UInt64) : Answer :=
  let peerWait := ((u.peers peer).auth.expire now).waitMs now
  let accountWait := ((u.accounts account).expire now).waitMs now
  ⟨peerWait = 0 && accountWait = 0, max peerWait accountWait⟩

def call (u : UnboundedPolicy) (op : PolicyOp) : Option Answer × UnboundedPolicy :=
  let key := op.peerKey
  match op with
  | .allowConnection _ now =>
      let c := u.connectionCharge key now
      (some c.answer, { u.setPeer key { u.peers key with connections := c.first } with
        globalConnections := c.second })
  | .allowAccountCreation _ now =>
      let c := u.creationCharge key now
      (some c.answer, { u.setPeer key { u.peers key with creations := c.first } with
        globalCreations := c.second })
  | .allowAuthAttempt _ name now =>
      let account := normalizeAccount accountKeyBytes name.val
      (some (u.attemptAnswer key account now),
        u.setAuth key account (Backoff.expire now) (Backoff.expire now))
  | .noteAuthFailure _ name now =>
      (none, u.setAuth key (normalizeAccount accountKeyBytes name.val)
        (Backoff.fail peerBackoffMs now) (Backoff.fail accountBackoffMs now))
  | .noteAuthSuccess _ name _ =>
      (none, u.setAuth key (normalizeAccount accountKeyBytes name.val)
        (fun _ => .zero) (fun _ => .zero))

def answers (u : UnboundedPolicy) : List PolicyOp → List (Option Answer)
  | [] => []
  | op :: ops => (u.call op).1 :: answers (u.call op).2 ops

end UnboundedPolicy

/-! ## The tables as a map -/

namespace SecurityPolicy

def unbounded (p : SecurityPolicy) : UnboundedPolicy :=
  ⟨p.peerState, p.accountState, p.globalConnections, p.globalCreations⟩

/-- A call for this peer takes the slot of no other. -/
def PeerRoom (p : SecurityPolicy) (peer : Bytes) : Prop :=
  ∀ key, ¬ SlotTable.Evicts peerLayout p.peers (copyKey peerKeyBytes peer) key

def AccountRoom (p : SecurityPolicy) (name : PlayerName) : Prop :=
  ∀ key, ¬ SlotTable.Evicts accountLayout p.accounts (normalizeAccount accountKeyBytes name.val) key

theorem peerRecordFor_state (p : SecurityPolicy) (peer : Bytes) (now : UInt64) :
    (p.peerRecordFor peer now).record.state = p.peerState (copyKey peerKeyBytes peer) := by
  simp only [peerRecordFor, SlotTable.locate_record, SlotTable.recordFor, peerState]
  cases SlotTable.lookup peerLayout p.peers (copyKey peerKeyBytes peer) <;> rfl

theorem lookup_withPeer {p : SecurityPolicy} {peer : Bytes} (hroom : p.PeerRoom peer) (now : UInt64)
    (update : PeerRecord → PeerRecord) (hkey : ∀ r, (update r).key = r.key) :
    SlotTable.lookup peerLayout (p.withPeer peer now update).peers =
      Function.update (SlotTable.lookup peerLayout p.peers) (copyKey peerKeyBytes peer)
        (some (update (p.peerRecordFor peer now).record)) :=
  SlotTable.lookup_put p.peers_ne_nil (fun r => le_ceiling r.lastSeenMs) now
    (holds_peerRecordFor p peer now (hkey _)) hroom

theorem lookup_withAccount {p : SecurityPolicy} {name : PlayerName} (hroom : p.AccountRoom name)
    (now : UInt64) (update : Backoff → Backoff) :
    SlotTable.lookup accountLayout (p.withAccount name.val now update).accounts =
      Function.update (SlotTable.lookup accountLayout p.accounts)
        (normalizeAccount accountKeyBytes name.val)
        (some { (p.accountRecordFor name.val now).record with auth := update (p.accountAuth name) }) := by
  rw [← accountRecordFor_auth p name now]
  apply SlotTable.lookup_put p.accounts_ne_nil (fun r => le_ceiling r.lastSeenMs) now _ hroom
  have hkey := accountRecordFor_key p name now
  refine SlotTable.holds_iff.mpr ⟨decide_eq_false ?_, hkey⟩
  rw [hkey]
  exact normalizeAccount_ne_nil name

theorem unbounded_withPeer {p : SecurityPolicy} {peer : Bytes} (hroom : p.PeerRoom peer)
    (now : UInt64) (update : PeerRecord → PeerRecord) (hkey : ∀ r, (update r).key = r.key) :
    (p.withPeer peer now update).unbounded =
      p.unbounded.setPeer (copyKey peerKeyBytes peer)
        (update (p.peerRecordFor peer now).record).state := by
  have hpeers : (p.withPeer peer now update).peerState =
      Function.update p.peerState (copyKey peerKeyBytes peer)
        (update (p.peerRecordFor peer now).record).state := by
    funext key
    rw [peerState, lookup_withPeer hroom now update hkey]
    by_cases hk : key = copyKey peerKeyBytes peer
    · subst hk
      simp
    · simp [hk, peerState]
  rw [unbounded, hpeers]
  rfl

theorem unbounded_withAccount {p : SecurityPolicy} {name : PlayerName} (hroom : p.AccountRoom name)
    (now : UInt64) (update : Backoff → Backoff) :
    (p.withAccount name.val now update).unbounded =
      p.unbounded.setAccount (normalizeAccount accountKeyBytes name.val)
        (update (p.accountAuth name)) := by
  have haccounts : (p.withAccount name.val now update).accountState =
      Function.update p.accountState (normalizeAccount accountKeyBytes name.val)
        (update (p.accountAuth name)) := by
    funext key
    rw [accountState, lookup_withAccount hroom now]
    by_cases hk : key = normalizeAccount accountKeyBytes name.val
    · subst hk
      simp
    · simp [hk, accountState]
  rw [unbounded, haccounts]
  rfl

/-! ## One call -/

/-- A connection charges the window of its peer, then the one of all peers. -/
theorem allowConnection_eq (p : SecurityPolicy) (peer : Bytes) (now : UInt64) :
    let c := p.unbounded.connectionCharge (copyKey peerKeyBytes peer) now
    p.securityPolicyAllowConnection peer now = ⟨c.answer.allowed, c.answer.retryAfterMs,
      { p.withPeer peer now fun r => { r with connections := c.first } with
        globalConnections := c.second }⟩ := by
  have hrecord : (p.peerRecordFor peer now).record.connections =
      (p.peerState (copyKey peerKeyBytes peer)).connections :=
    congrArg PeerState.connections (peerRecordFor_state p peer now)
  simp only [securityPolicyAllowConnection, UnboundedPolicy.connectionCharge, charge, unbounded,
    hrecord]
  by_cases hfirst : (windowAllow (p.peerState (copyKey peerKeyBytes peer)).connections
      peerConnectionLimit peerConnectionWindowMs now).allowed = true
  · simp only [hfirst, if_true]
    rfl
  · simp only [hfirst, if_false, Bool.false_eq_true]
    rfl

/-- So does the creation of an account. -/
theorem allowAccountCreation_eq (p : SecurityPolicy) (peer : Bytes) (now : UInt64) :
    let c := p.unbounded.creationCharge (copyKey peerKeyBytes peer) now
    p.securityPolicyAllowAccountCreation peer now = ⟨c.answer.allowed, c.answer.retryAfterMs,
      { p.withPeer peer now fun r => { r with creations := c.first } with
        globalCreations := c.second }⟩ := by
  have hrecord : (p.peerRecordFor peer now).record.creations =
      (p.peerState (copyKey peerKeyBytes peer)).creations :=
    congrArg PeerState.creations (peerRecordFor_state p peer now)
  simp only [securityPolicyAllowAccountCreation, UnboundedPolicy.creationCharge, charge, unbounded,
    hrecord]
  by_cases hfirst : (windowAllow (p.peerState (copyKey peerKeyBytes peer)).creations
      peerCreationLimit peerCreationWindowMs now).allowed = true
  · simp only [hfirst, if_true]
    rfl
  · simp only [hfirst, if_false, Bool.false_eq_true]
    rfl

theorem allowAuthAttempt_answer (p : SecurityPolicy) (peer : Bytes) (name : PlayerName)
    (now : UInt64) :
    p.answer? (.allowAuthAttempt peer name now) = some (p.unbounded.attemptAnswer
      (copyKey peerKeyBytes peer) (normalizeAccount accountKeyBytes name.val) now) := by
  have hpeer : (p.peerRecordFor peer now).record.auth =
      (p.peerState (copyKey peerKeyBytes peer)).auth :=
    congrArg PeerState.auth (peerRecordFor_state p peer now)
  simp only [answer?, securityPolicyAllowAuthAttempt, UnboundedPolicy.attemptAnswer, hpeer,
    accountRecordFor_auth]
  rfl

/-- A call returns what the map of records says. -/
theorem answer?_eq (p : SecurityPolicy) (op : PolicyOp) :
    p.answer? op = (p.unbounded.call op).1 := by
  cases op with
  | allowConnection peer now => simp only [answer?, allowConnection_eq]; rfl
  | allowAccountCreation peer now => simp only [answer?, allowAccountCreation_eq]; rfl
  | allowAuthAttempt peer name now => exact allowAuthAttempt_answer p peer name now
  | noteAuthFailure peer name now => rfl
  | noteAuthSuccess peer name now => rfl

/-- No slot is taken from another key. -/
def Room (p : SecurityPolicy) (op : PolicyOp) : Prop :=
  p.PeerRoom op.peer ∧ ∀ name, op.account? = some name → p.AccountRoom name

/-- The peer's and the account's backoff are changed, in this order. -/
private theorem unbounded_setAuth {p : SecurityPolicy} {peer : Bytes} {name : PlayerName}
    (hpeer : p.PeerRoom peer) (hname : p.AccountRoom name) (now : UInt64)
    (onPeer onAccount : Backoff → Backoff) :
    ((p.withPeer peer now fun r => { r with auth := onPeer r.auth }).withAccount
      name.val now onAccount).unbounded =
      p.unbounded.setAuth (copyKey peerKeyBytes peer) (normalizeAccount accountKeyBytes name.val)
        onPeer onAccount := by
  have hroom : (p.withPeer peer now fun r => { r with auth := onPeer r.auth }).AccountRoom name :=
    hname
  have hset := unbounded_withPeer hpeer now (fun r => { r with auth := onPeer r.auth }) fun _ => rfl
  have hstate : ({ (p.peerRecordFor peer now).record with
      auth := onPeer (p.peerRecordFor peer now).record.auth } : PeerRecord).state =
      { p.peerState (copyKey peerKeyBytes peer) with
        auth := onPeer (p.peerState (copyKey peerKeyBytes peer)).auth } := by
    rw [← peerRecordFor_state p peer now]
    rfl
  rw [unbounded_withAccount hroom, hset, hstate]
  rfl

private theorem unbounded_setConnections {p : SecurityPolicy} {peer : Bytes}
    (hpeer : p.PeerRoom peer) (now : UInt64) (first second : EventWindow) :
    ({ p.withPeer peer now fun r => { r with connections := first } with
      globalConnections := second } : SecurityPolicy).unbounded =
      { p.unbounded.setPeer (copyKey peerKeyBytes peer)
          { p.peerState (copyKey peerKeyBytes peer) with connections := first } with
        globalConnections := second } := by
  have hset := unbounded_withPeer hpeer now (fun r => { r with connections := first }) fun _ => rfl
  rw [← peerRecordFor_state p peer now]
  exact congrArg (fun u => { u with globalConnections := second }) hset

private theorem unbounded_setCreations {p : SecurityPolicy} {peer : Bytes}
    (hpeer : p.PeerRoom peer) (now : UInt64) (first second : EventWindow) :
    ({ p.withPeer peer now fun r => { r with creations := first } with
      globalCreations := second } : SecurityPolicy).unbounded =
      { p.unbounded.setPeer (copyKey peerKeyBytes peer)
          { p.peerState (copyKey peerKeyBytes peer) with creations := first } with
        globalCreations := second } := by
  have hset := unbounded_withPeer hpeer now (fun r => { r with creations := first }) fun _ => rfl
  rw [← peerRecordFor_state p peer now]
  exact congrArg (fun u => { u with globalCreations := second }) hset

/-- And it changes the map as it should, if it finds a slot of its own. -/
theorem unbounded_apply {p : SecurityPolicy} {op : PolicyOp} (hroom : p.Room op) :
    (p.apply op).unbounded = (p.unbounded.call op).2 := by
  obtain ⟨hpeer, hname⟩ := hroom
  cases op with
  | allowConnection peer now =>
    simp only [apply, allowConnection_eq]
    exact unbounded_setConnections hpeer now _ _
  | allowAccountCreation peer now =>
    simp only [apply, allowAccountCreation_eq]
    exact unbounded_setCreations hpeer now _ _
  | allowAuthAttempt peer name now =>
    exact unbounded_setAuth hpeer (hname name rfl) now (Backoff.expire now) (Backoff.expire now)
  | noteAuthFailure peer name now =>
    exact unbounded_setAuth hpeer (hname name rfl) now (Backoff.fail peerBackoffMs now)
      (Backoff.fail accountBackoffMs now)
  | noteAuthSuccess peer name now =>
    exact unbounded_setAuth hpeer (hname name rfl) now (fun _ => .zero) fun _ => .zero

/-! ## The tables over a run -/

theorem touch_withPeer (p : SecurityPolicy) (peer : Bytes) (now : UInt64)
    (update : PeerRecord → PeerRecord) (hkey : ∀ r, (update r).key = r.key)
    (hseen : ∀ r, (update r).lastSeenMs = r.lastSeenMs) :
    SlotTable.Touch peerLayout p.peers (copyKey peerKeyBytes peer) now
      (p.withPeer peer now update).peers := by
  refine ⟨update (p.peerRecordFor peer now).record, holds_peerRecordFor p peer now (hkey _),
    (hseen _).trans ?_, rfl⟩
  simp only [peerRecordFor, SlotTable.locate_record, SlotTable.recordFor]
  split <;> rfl

/-- Every operation writes the record of its peer and no other. -/
theorem peers_apply (p : SecurityPolicy) (op : PolicyOp) :
    SlotTable.Touch peerLayout p.peers op.peerKey op.nowMs (p.apply op).peers := by
  have hauth : ∀ (peer : Bytes) (now : UInt64) (update : Backoff → Backoff),
      SlotTable.Touch peerLayout p.peers (copyKey peerKeyBytes peer) now
        (p.withPeer peer now fun r => { r with auth := update r.auth }).peers :=
    fun peer now update => touch_withPeer p peer now _ (fun _ => rfl) fun _ => rfl
  cases op with
  | allowConnection peer now =>
    simp only [apply, allowConnection_eq]
    exact touch_withPeer p peer now _ (fun _ => rfl) fun _ => rfl
  | allowAccountCreation peer now =>
    simp only [apply, allowAccountCreation_eq]
    exact touch_withPeer p peer now _ (fun _ => rfl) fun _ => rfl
  | allowAuthAttempt peer name now => exact hauth peer now (Backoff.expire now)
  | noteAuthFailure peer name now => exact hauth peer now (Backoff.fail peerBackoffMs now)
  | noteAuthSuccess peer name now => exact hauth peer now fun _ => .zero

/-- No key stands twice in a table, and only the given keys stand there. -/
structure Tidy (peerKeys accountKeys : Finset Bytes) (p : SecurityPolicy) : Prop where
  peers : SlotTable.Distinct peerLayout p.peers
  accounts : SlotTable.Distinct accountLayout p.accounts
  peerKeys : SlotTable.KeysIn peerLayout peerKeys p.peers
  accountKeys : SlotTable.KeysIn accountLayout accountKeys p.accounts

/-- The keys of the call are among the given ones. -/
def PolicyOp.KeysIn (peerKeys accountKeys : Finset Bytes) (op : PolicyOp) : Prop :=
  op.peerKey ∈ peerKeys ∧ ∀ key, op.accountKey? = some key → key ∈ accountKeys

section Tidy

variable {peerKeys accountKeys : Finset Bytes} {p : SecurityPolicy} {op : PolicyOp}

theorem tidy_create : Tidy peerKeys accountKeys securityPolicyCreate := by
  have hpeer : ∀ r ∈ securityPolicyCreate.peers, peerLayout.vacant r = true := fun r hr => by
    rw [(List.mem_replicate.mp hr).2]
    rfl
  have haccount : ∀ r ∈ securityPolicyCreate.accounts, accountLayout.vacant r = true :=
    fun r hr => by
      rw [(List.mem_replicate.mp hr).2]
      rfl
  constructor
  · intro i j r s hi _ hr
    simp [hpeer r (List.mem_of_getElem? hi)] at hr
  · intro i j r s hi _ hr
    simp [haccount r (List.mem_of_getElem? hi)] at hr
  · intro r hmem hr
    simp [hpeer r hmem] at hr
  · intro r hmem hr
    simp [haccount r hmem] at hr

theorem Tidy.apply (h : Tidy peerKeys accountKeys p) (hop : op.KeysIn peerKeys accountKeys) :
    Tidy peerKeys accountKeys (p.apply op) := by
  have hpeer := peers_apply p op
  have haccount := accounts_apply p op
  cases hname : op.account? with
  | none =>
    rw [hname] at haccount
    exact ⟨h.peers.touch hpeer, haccount ▸ h.accounts, h.peerKeys.touch hop.1 hpeer,
      haccount ▸ h.accountKeys⟩
  | some name =>
    rw [hname] at haccount
    have hkey := hop.2 _ (by rw [PolicyOp.accountKey?, hname]; rfl)
    exact ⟨h.peers.touch hpeer, h.accounts.touch haccount, h.peerKeys.touch hop.1 hpeer,
      h.accountKeys.touch hkey haccount⟩

/-- With a slot for each key there is room for every call. -/
theorem Tidy.room (h : Tidy peerKeys accountKeys p) (hop : op.KeysIn peerKeys accountKeys)
    (hpeers : peerKeys.card ≤ maxPeerRecords) (haccounts : accountKeys.card ≤ maxAccountRecords) :
    p.Room op := by
  constructor
  · exact h.peers.not_evicts h.peerKeys hop.1 (p.peers_length ▸ hpeers)
  · intro name hname
    have hkey := hop.2 _ (by rw [PolicyOp.accountKey?, hname]; rfl)
    exact h.accounts.not_evicts h.accountKeys hkey (p.accounts_length ▸ haccounts)

end Tidy

/-! ## What a call reads -/

/-- The two policies have the same records for the keys of the call. -/
structure SameRecords (op : PolicyOp) (p q : SecurityPolicy) : Prop where
  peer : SlotTable.lookup peerLayout q.peers op.peerKey =
    SlotTable.lookup peerLayout p.peers op.peerKey
  account : ∀ key, op.accountKey? = some key →
    SlotTable.lookup accountLayout q.accounts key = SlotTable.lookup accountLayout p.accounts key
  globalConnections : q.globalConnections = p.globalConnections
  globalCreations : q.globalCreations = p.globalCreations

namespace SameRecords

variable {op : PolicyOp} {p q : SecurityPolicy}

theorem peerState (h : SameRecords op p q) : q.peerState op.peerKey = p.peerState op.peerKey := by
  rw [SecurityPolicy.peerState, h.peer, SecurityPolicy.peerState]

theorem accountState (h : SameRecords op p q) {name : PlayerName} (hname : op.account? = some name) :
    q.accountState (normalizeAccount accountKeyBytes name.val) =
      p.accountState (normalizeAccount accountKeyBytes name.val) := by
  rw [SecurityPolicy.accountState, h.account _ (by rw [PolicyOp.accountKey?, hname]; rfl),
    SecurityPolicy.accountState]

theorem peerRecord (h : SameRecords op p q) (now : UInt64) :
    (q.peerRecordFor op.peer now).record = (p.peerRecordFor op.peer now).record := by
  have hpeer : SlotTable.lookup peerLayout q.peers (copyKey peerKeyBytes op.peer) =
    SlotTable.lookup peerLayout p.peers (copyKey peerKeyBytes op.peer) := h.peer
  simp only [peerRecordFor, SlotTable.locate_record, SlotTable.recordFor, hpeer]

theorem accountRecord (h : SameRecords op p q) {name : PlayerName} (hname : op.account? = some name)
    (now : UInt64) :
    (q.accountRecordFor name.val now).record = (p.accountRecordFor name.val now).record := by
  simp only [accountRecordFor, SlotTable.locate_record, SlotTable.recordFor,
    h.account _ (by rw [PolicyOp.accountKey?, hname]; rfl)]

theorem connectionCharge (h : SameRecords op p q) (now : UInt64) :
    q.unbounded.connectionCharge op.peerKey now = p.unbounded.connectionCharge op.peerKey now := by
  simp only [UnboundedPolicy.connectionCharge, unbounded, h.peerState, h.globalConnections]

theorem creationCharge (h : SameRecords op p q) (now : UInt64) :
    q.unbounded.creationCharge op.peerKey now = p.unbounded.creationCharge op.peerKey now := by
  simp only [UnboundedPolicy.creationCharge, unbounded, h.peerState, h.globalCreations]

/-- They give the same answer. -/
theorem answer? (h : SameRecords op p q) : q.answer? op = p.answer? op := by
  rw [answer?_eq, answer?_eq]
  cases op with
  | allowConnection peer now => exact congrArg (fun c => some c.answer) (h.connectionCharge now)
  | allowAccountCreation peer now => exact congrArg (fun c => some c.answer) (h.creationCharge now)
  | allowAuthAttempt peer name now =>
    simp only [UnboundedPolicy.call, UnboundedPolicy.attemptAnswer, unbounded, h.peerState,
      h.accountState rfl]
    rfl
  | noteAuthFailure peer name now => rfl
  | noteAuthSuccess peer name now => rfl

theorem lookup_withPeer (h : SameRecords op p q) (now : UInt64) (update : PeerRecord → PeerRecord)
    (hkey : ∀ r, (update r).key = r.key) :
    SlotTable.lookup peerLayout (q.withPeer op.peer now update).peers op.peerKey =
      SlotTable.lookup peerLayout (p.withPeer op.peer now update).peers op.peerKey := by
  have hp := lookup_withPeer_self p op.peer now hkey
  have hq := lookup_withPeer_self q op.peer now hkey
  exact hq.trans ((congrArg (some ∘ update) (h.peerRecord now)).trans hp.symm)

theorem setAuth (h : SameRecords op p q) {name : PlayerName} (hname : op.account? = some name)
    (now : UInt64) (onPeer onAccount : Backoff → Backoff) :
    SameRecords op
      ((p.withPeer op.peer now fun r => { r with auth := onPeer r.auth }).withAccount
        name.val now onAccount)
      ((q.withPeer op.peer now fun r => { r with auth := onPeer r.auth }).withAccount
        name.val now onAccount) where
  peer := h.lookup_withPeer now (fun r => { r with auth := onPeer r.auth }) fun _ => rfl
  account key hkey := by
    obtain rfl : normalizeAccount accountKeyBytes name.val = key := by
      simpa [PolicyOp.accountKey?, hname] using hkey
    have hself := fun p' : SecurityPolicy => accountRecord?_withAccount_self
      (p'.withPeer op.peer now fun r => { r with auth := onPeer r.auth }) name now onAccount
    have hrecord := h.accountRecord hname now
    have hauth : q.accountAuth name = p.accountAuth name := by
      rw [← accountRecordFor_auth q name now, hrecord, accountRecordFor_auth]
    refine (hself q).trans (Eq.trans ?_ (hself p).symm)
    simp only [accountAuth_withPeer, hauth]
    exact congrArg (fun r : AccountRecord => some { r with auth := onAccount (p.accountAuth name) })
      hrecord
  globalConnections := h.globalConnections
  globalCreations := h.globalCreations

/-- And they still have the same records after it. -/
theorem apply (h : SameRecords op p q) : SameRecords op (p.apply op) (q.apply op) := by
  cases op with
  | allowConnection peer now =>
    have hcharge := h.connectionCharge now
    simp only [PolicyOp.peerKey, PolicyOp.peer] at hcharge
    simp only [SecurityPolicy.apply, allowConnection_eq, hcharge]
    have hpeer := h.lookup_withPeer now (fun r => { r with
      connections := (p.unbounded.connectionCharge (copyKey peerKeyBytes peer) now).first }) fun _ => rfl
    exact ⟨hpeer, by simp [PolicyOp.accountKey?, PolicyOp.account?], rfl, h.globalCreations⟩
  | allowAccountCreation peer now =>
    have hcharge := h.creationCharge now
    simp only [PolicyOp.peerKey, PolicyOp.peer] at hcharge
    simp only [SecurityPolicy.apply, allowAccountCreation_eq, hcharge]
    have hpeer := h.lookup_withPeer now (fun r => { r with
      creations := (p.unbounded.creationCharge (copyKey peerKeyBytes peer) now).first }) fun _ => rfl
    exact ⟨hpeer, by simp [PolicyOp.accountKey?, PolicyOp.account?], h.globalConnections, rfl⟩
  | allowAuthAttempt peer name now =>
    exact h.setAuth rfl now (Backoff.expire now) (Backoff.expire now)
  | noteAuthFailure peer name now =>
    exact h.setAuth rfl now (Backoff.fail peerBackoffMs now) (Backoff.fail accountBackoffMs now)
  | noteAuthSuccess peer name now => exact h.setAuth rfl now (fun _ => .zero) fun _ => .zero

end SameRecords

/-! ## The refinement -/

/-- The call neither changes nor reads the record of another key. -/
structure Separate (p : SecurityPolicy) (op : PolicyOp) : Prop where
  peers : ∀ key, key ≠ op.peerKey → SlotTable.lookup peerLayout (p.apply op).peers key =
    SlotTable.lookup peerLayout p.peers key
  accounts : ∀ key, op.accountKey? ≠ some key →
    SlotTable.lookup accountLayout (p.apply op).accounts key =
      SlotTable.lookup accountLayout p.accounts key
  reads : ∀ q, SameRecords op p q → q.answer? op = p.answer? op ∧
    SameRecords op (p.apply op) (q.apply op)

theorem Room.separate {p : SecurityPolicy} {op : PolicyOp} (h : p.Room op) : p.Separate op where
  peers key hkey := by
    obtain ⟨r, hr, _, htable⟩ := peers_apply p op
    rw [htable, SlotTable.lookup_put p.peers_ne_nil (fun r => le_ceiling r.lastSeenMs) _ hr h.1,
      Function.update_of_ne hkey]
  accounts key hkey := by
    have hop := accounts_apply p op
    cases hname : op.account? with
    | none =>
      rw [hname] at hop
      rw [hop]
    | some name =>
      rw [hname] at hop
      obtain ⟨r, hr, _, htable⟩ := hop
      rw [htable, SlotTable.lookup_put p.accounts_ne_nil (fun r => le_ceiling r.lastSeenMs) _ hr
        (h.2 name hname), Function.update_of_ne]
      rintro rfl
      exact hkey (by rw [PolicyOp.accountKey?, hname]; rfl)
  reads _ hq := ⟨hq.answer?, hq.apply⟩

/-- The keys of peers and of accounts that occur in the calls. -/
def peerKeysOf (ops : List PolicyOp) : Finset Bytes := (ops.map PolicyOp.peerKey).toFinset

def accountKeysOf (ops : List PolicyOp) : Finset Bytes :=
  (ops.filterMap PolicyOp.accountKey?).toFinset

theorem unbounded_create : securityPolicyCreate.unbounded = .zero := by
  have hpeers : ∀ key, SlotTable.lookup peerLayout securityPolicyCreate.peers key = none := by
    intro key
    refine List.find?_eq_none.mpr fun r hr => ?_
    rw [(List.mem_replicate.mp hr).2]
    simp [peerLayout, PeerRecord.zero]
  have haccounts : ∀ key,
      SlotTable.lookup accountLayout securityPolicyCreate.accounts key = none := by
    intro key
    refine List.find?_eq_none.mpr fun r hr => ?_
    rw [(List.mem_replicate.mp hr).2]
    simp [accountLayout, AccountRecord.zero]
  have hpeerState : securityPolicyCreate.peerState = fun _ => .zero :=
    funext fun key => by rw [peerState, hpeers]; rfl
  have haccountState : securityPolicyCreate.accountState = fun _ => .zero :=
    funext fun key => by rw [accountState, haccounts]; rfl
  rw [unbounded, hpeerState, haccountState]
  rfl

section Run

variable {peerKeys accountKeys : Finset Bytes} {p : SecurityPolicy} {ops : List PolicyOp}

theorem Tidy.run (h : Tidy peerKeys accountKeys p)
    (hops : ∀ op ∈ ops, op.KeysIn peerKeys accountKeys) :
    Tidy peerKeys accountKeys (p.run ops) := by
  induction ops generalizing p with
  | nil => exact h
  | cons op ops ih =>
    exact ih (h.apply (hops op List.mem_cons_self)) fun o ho => hops o (List.mem_cons_of_mem op ho)

theorem Tidy.answers (h : Tidy peerKeys accountKeys p)
    (hpeers : peerKeys.card ≤ maxPeerRecords) (haccounts : accountKeys.card ≤ maxAccountRecords)
    (hops : ∀ op ∈ ops, op.KeysIn peerKeys accountKeys) :
    p.answers ops = p.unbounded.answers ops := by
  induction ops generalizing p with
  | nil => rfl
  | cons op ops ih =>
    have hop := hops op List.mem_cons_self
    have hrest := ih (h.apply hop) fun o ho => hops o (List.mem_cons_of_mem op ho)
    rw [unbounded_apply (h.room hop hpeers haccounts)] at hrest
    rw [SecurityPolicy.answers, UnboundedPolicy.answers, answer?_eq, hrest]

end Run

theorem keysIn_of_mem {ops : List PolicyOp} {op : PolicyOp} (h : op ∈ ops) :
    op.KeysIn (peerKeysOf ops) (accountKeysOf ops) := by
  constructor
  · exact List.mem_toFinset.mpr (List.mem_map_of_mem h)
  · intro key hkey
    exact List.mem_toFinset.mpr (List.mem_filterMap.mpr ⟨op, h, hkey⟩)

/-- While no more keys occur than there are slots, the calls return what they
would without tables. Before each of them no key stands twice in a table, and the
call leaves the records of other keys alone. -/
theorem tables_refine_unbounded (ops : List PolicyOp)
    (hpeers : (peerKeysOf ops).card ≤ maxPeerRecords)
    (haccounts : (accountKeysOf ops).card ≤ maxAccountRecords) :
    securityPolicyCreate.answers ops = UnboundedPolicy.zero.answers ops ∧
      ∀ before after, ops = before ++ after →
        SlotTable.Distinct peerLayout (securityPolicyCreate.run before).peers ∧
        SlotTable.Distinct accountLayout (securityPolicyCreate.run before).accounts ∧
        ∀ op rest, after = op :: rest → (securityPolicyCreate.run before).Separate op := by
  constructor
  · rw [← unbounded_create]
    exact tidy_create.answers hpeers haccounts fun op hop => keysIn_of_mem hop
  · rintro before after rfl
    have htidy : Tidy _ _ (securityPolicyCreate.run before) :=
      tidy_create.run fun op hop => keysIn_of_mem (List.mem_append_left after hop)
    refine ⟨htidy.peers, htidy.accounts, ?_⟩
    rintro op rest rfl
    have hop : op ∈ before ++ op :: rest := List.mem_append_right before List.mem_cons_self
    exact (htidy.room (keysIn_of_mem hop) hpeers haccounts).separate

/-- Three failures of one account under two spellings, and a further attempt. -/
def fourCalls : List PolicyOp :=
  let lower : PlayerName := ⟨ascii "zoe", by decide⟩
  let upper : PlayerName := ⟨ascii "Zoe", by decide⟩
  let peer := ascii "192.0.2.1"
  [.noteAuthFailure peer lower 0, .noteAuthFailure peer upper 0, .noteAuthFailure peer lower 0,
    .allowAuthAttempt peer upper 1]

theorem tables_refine_unbounded_fourCalls :
    UnboundedPolicy.zero.answers fourCalls = [none, none, none, some ⟨false, 299999⟩] := by
  rw [← (tables_refine_unbounded fourCalls (by decide) (by decide)).1]
  decide +kernel

end SecurityPolicy

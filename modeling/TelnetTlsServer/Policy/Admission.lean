-- SUMMARY: Admissions by two windows: the connection limits over every interval, and what a refused call leaves behind.
import TelnetTlsServer.Policy.UnboundedPolicy

/-!
# Admissions

A connection or an account creation is admitted by the window of its peer and by
the window of all peers, asked in this order.

The listener's calls come in timestamp order, and then both connection limits
hold over every interval of ten seconds (`connection_limit`). A refused call
consumes no slot only if it is its peer's window that refuses
(`refused_keeps_windows_iff`): when the global window refuses, the peer's window
has stored the event already.
-/

/-- The entries of the source's `times` array. -/
def eventWindowEntries : Nat := 64

namespace EventWindow

/-- The window keeps to its limit and stays sorted. -/
structure Fits (limit : Nat) (w : EventWindow) : Prop where
  count : w.times.length ≤ limit
  entries : w.times.length ≤ eventWindowEntries
  sorted : w.times.Pairwise (· ≤ ·)

theorem fits_nil (limit : Nat) : Fits limit ⟨[]⟩ := ⟨Nat.zero_le _, Nat.zero_le _, .nil⟩

theorem sorted_iff (w : EventWindow) :
    w.times.Pairwise (· ≤ ·) ↔ (w.times.map UInt64.toNat).Pairwise (· ≤ ·) := by
  rw [List.pairwise_map]
  exact Iff.rfl

theorem Fits.allow {limit : Nat} {w : EventWindow} (h : Fits limit w)
    (hlimit : limit ≤ eventWindowEntries) (windowMs now : UInt64) :
    Fits limit (windowAllow w limit windowMs now).window := by
  have hoffer : (windowAllow w limit windowMs now).window.times.map UInt64.toNat =
      (SlidingWindow.offer limit windowMs.toNat now.toNat (w.times.map UInt64.toNat)).2 :=
    congrArg Prod.snd (windowAllow_offer w limit windowMs now)
  have hcount : (windowAllow w limit windowMs now).window.times.length ≤ limit := by
    rw [← List.length_map UInt64.toNat, hoffer]
    exact SlidingWindow.offer_length_le _ _ (by simpa using h.count)
  refine ⟨hcount, hcount.trans hlimit, ?_⟩
  rw [sorted_iff, hoffer]
  exact SlidingWindow.offer_sorted _ _ _ ((sorted_iff w).mp h.sorted)

end EventWindow

namespace SecurityPolicy

/-! ## Windows over a run -/

/-- Every window of the policy keeps to its limit. -/
structure WindowsFit (p : SecurityPolicy) : Prop where
  globalConnections : p.globalConnections.Fits globalConnectionLimit
  globalCreations : p.globalCreations.Fits globalCreationLimit
  peers : ∀ r ∈ p.peers, r.connections.Fits peerConnectionLimit ∧ r.creations.Fits peerCreationLimit

theorem windowsFit_create : securityPolicyCreate.WindowsFit where
  globalConnections := EventWindow.fits_nil _
  globalCreations := EventWindow.fits_nil _
  peers r hr := by
    rw [(List.mem_replicate.mp hr).2]
    exact ⟨EventWindow.fits_nil _, EventWindow.fits_nil _⟩

theorem fits_charge {limit limit' : Nat} {w v : EventWindow} (hw : w.Fits limit) (hv : v.Fits limit')
    (hlimit : limit ≤ eventWindowEntries) (hlimit' : limit' ≤ eventWindowEntries)
    (windowMs windowMs' now : UInt64) :
    let c := charge (windowAllow w limit windowMs now) (windowAllow v limit' windowMs' now) v
    c.first.Fits limit ∧ c.second.Fits limit' := by
  simp only [charge_first, charge_second]
  refine ⟨hw.allow hlimit windowMs now, ?_⟩
  split
  · exact hv.allow hlimit' windowMs' now
  · exact hv

section WindowsFit

variable {p : SecurityPolicy}

theorem WindowsFit.peerState (h : p.WindowsFit) (key : Bytes) :
    (p.peerState key).connections.Fits peerConnectionLimit ∧
      (p.peerState key).creations.Fits peerCreationLimit := by
  rw [SecurityPolicy.peerState]
  cases hfound : SlotTable.lookup peerLayout p.peers key with
  | none => exact ⟨EventWindow.fits_nil _, EventWindow.fits_nil _⟩
  | some r => exact h.peers r (List.mem_of_find?_eq_some hfound)

theorem WindowsFit.withPeer (h : p.WindowsFit) (peer : Bytes) (now : UInt64)
    (update : PeerRecord → PeerRecord)
    (hconnections : (update (p.peerRecordFor peer now).record).connections.Fits peerConnectionLimit)
    (hcreations : (update (p.peerRecordFor peer now).record).creations.Fits peerCreationLimit) :
    (p.withPeer peer now update).WindowsFit where
  globalConnections := h.globalConnections
  globalCreations := h.globalCreations
  peers r hr := by
    simp only [SecurityPolicy.withPeer, peerRecordFor, SlotTable.locate_put] at hr
    rcases List.mem_or_eq_of_mem_set hr with hr | rfl
    · exact h.peers r hr
    · exact ⟨hconnections, hcreations⟩

theorem WindowsFit.apply (h : p.WindowsFit) (op : PolicyOp) : (p.apply op).WindowsFit := by
  have hstate := h.peerState op.peerKey
  have hrecord : ∀ now, (p.peerRecordFor op.peer now).record.state = p.peerState op.peerKey :=
    peerRecordFor_state p op.peer
  have hauth : ∀ (now : UInt64) (update : Backoff → Backoff),
      (p.withPeer op.peer now fun r => { r with auth := update r.auth }).WindowsFit := by
    intro now update
    rw [← hrecord now] at hstate
    exact h.withPeer op.peer now (fun r => { r with auth := update r.auth }) hstate.1 hstate.2
  cases op with
  | allowConnection peer now =>
    obtain ⟨hfirst, hsecond⟩ := fits_charge hstate.1 h.globalConnections (by decide) (by decide)
      peerConnectionWindowMs globalConnectionWindowMs now
    rw [← hrecord now] at hstate
    have hpeer := h.withPeer peer now (fun r => { r with connections := _ }) hfirst hstate.2
    simp only [SecurityPolicy.apply, allowConnection_eq]
    exact ⟨hsecond, hpeer.globalCreations, hpeer.peers⟩
  | allowAccountCreation peer now =>
    obtain ⟨hfirst, hsecond⟩ := fits_charge hstate.2 h.globalCreations (by decide) (by decide)
      peerCreationWindowMs globalCreationWindowMs now
    rw [← hrecord now] at hstate
    have hpeer := h.withPeer peer now (fun r => { r with creations := _ }) hstate.1 hfirst
    simp only [SecurityPolicy.apply, allowAccountCreation_eq]
    exact ⟨hpeer.globalConnections, hsecond, hpeer.peers⟩
  | allowAuthAttempt peer name now =>
    have hpeer := hauth now (Backoff.expire now)
    exact ⟨hpeer.globalConnections, hpeer.globalCreations, hpeer.peers⟩
  | noteAuthFailure peer name now =>
    have hpeer := hauth now (Backoff.fail peerBackoffMs now)
    exact ⟨hpeer.globalConnections, hpeer.globalCreations, hpeer.peers⟩
  | noteAuthSuccess peer name now =>
    have hpeer := hauth now fun _ => .zero
    exact ⟨hpeer.globalConnections, hpeer.globalCreations, hpeer.peers⟩

theorem windowsFit_run (ops : List PolicyOp) : (securityPolicyCreate.run ops).WindowsFit := by
  induction ops using List.reverseRecOn with
  | nil => exact windowsFit_create
  | append_singleton ops op ih =>
    rw [run, List.foldl_append]
    exact ih.apply op

end WindowsFit

/-! ## The connection window of a peer -/

def PolicyOp.connectionTime? : PolicyOp → Option UInt64
  | allowConnection _ now => some now
  | _ => none

theorem PolicyOp.connection_cases (op : PolicyOp) :
    op.connectionTime? = none ∨ ∃ peer now, op = allowConnection peer now := by
  cases op with
  | allowConnection peer now => exact .inr ⟨peer, now, rfl⟩
  | _ => exact .inl rfl

theorem peerState_withPeer {p : SecurityPolicy} {peer : Bytes} (hroom : p.PeerRoom peer)
    (now : UInt64) (update : PeerRecord → PeerRecord) (hkey : ∀ r, (update r).key = r.key) :
    (p.withPeer peer now update).peerState =
      Function.update p.peerState (copyKey peerKeyBytes peer)
        (update (p.peerRecordFor peer now).record).state :=
  congrArg UnboundedPolicy.peers (unbounded_withPeer hroom now update hkey)

/-- A connection changes the window of its peer only. -/
theorem connections_allowConnection {p : SecurityPolicy} {peer : Bytes} (hroom : p.PeerRoom peer)
    (now : UInt64) (key : Bytes) :
    ((p.apply (.allowConnection peer now)).peerState key).connections =
      if key = copyKey peerKeyBytes peer then
        (p.unbounded.connectionCharge (copyKey peerKeyBytes peer) now).first
      else (p.peerState key).connections := by
  simp only [apply, allowConnection_eq]
  have hset := peerState_withPeer hroom now (fun r => { r with
    connections := (p.unbounded.connectionCharge (copyKey peerKeyBytes peer) now).first }) fun _ => rfl
  have hkey := congrArg PeerState.connections (congrFun hset key)
  refine hkey.trans ?_
  split
  case isTrue h => rw [h, Function.update_self]; rfl
  case isFalse h => rw [Function.update_of_ne h]

/-- The other operations change no connection window. -/
theorem connections_apply_of_other {p : SecurityPolicy} {op : PolicyOp}
    (hop : op.connectionTime? = none) (hroom : p.PeerRoom op.peer) (key : Bytes) :
    ((p.apply op).peerState key).connections = (p.peerState key).connections := by
  have hkeep : ∀ (now : UInt64) (update : PeerRecord → PeerRecord), (∀ r, (update r).key = r.key) →
      (∀ r, (update r).connections = r.connections) →
      ((p.withPeer op.peer now update).peerState key).connections =
        (p.peerState key).connections := by
    intro now update hkey hsame
    rw [peerState_withPeer hroom now update hkey]
    by_cases h : key = copyKey peerKeyBytes op.peer
    · rw [h, Function.update_self, ← peerRecordFor_state p op.peer now]
      exact hsame _
    · rw [Function.update_of_ne h]
  cases op with
  | allowConnection => simp [PolicyOp.connectionTime?] at hop
  | allowAccountCreation peer now =>
    simp only [apply, allowAccountCreation_eq]
    exact hkeep now (fun r => { r with creations := _ }) (fun _ => rfl) fun _ => rfl
  | allowAuthAttempt peer name now =>
    exact hkeep now (fun r => { r with auth := r.auth.expire now }) (fun _ => rfl) fun _ => rfl
  | noteAuthFailure peer name now =>
    exact hkeep now (fun r => { r with auth := r.auth.fail peerBackoffMs now }) (fun _ => rfl)
      fun _ => rfl
  | noteAuthSuccess peer name now =>
    exact hkeep now (fun r => { r with auth := .zero }) (fun _ => rfl) fun _ => rfl

theorem globalConnections_apply_of_other {p : SecurityPolicy} {op : PolicyOp}
    (hop : op.connectionTime? = none) :
    (p.apply op).globalConnections = p.globalConnections := by
  cases op with
  | allowConnection => simp [PolicyOp.connectionTime?] at hop
  | allowAccountCreation peer now => simp only [apply, allowAccountCreation_eq]; rfl
  | allowAuthAttempt => rfl
  | noteAuthFailure => rfl
  | noteAuthSuccess => rfl

end SecurityPolicy

/-! ## The log of accepted connections -/

/-- The policy, and the peer keys and times of the connections it has accepted,
the newest first. -/
structure ConnectionLog where
  policy : SecurityPolicy
  accepted : List (Bytes × UInt64)

namespace ConnectionLog

open SecurityPolicy

def acceptedConnection (p : SecurityPolicy) : PolicyOp → Option (Bytes × UInt64)
  | .allowConnection peer now =>
      if (p.securityPolicyAllowConnection peer now).allowed then
        some (copyKey peerKeyBytes peer, now)
      else none
  | _ => none

def next (s : ConnectionLog) (op : PolicyOp) : ConnectionLog :=
  ⟨s.policy.apply op, (acceptedConnection s.policy op).toList ++ s.accepted⟩

def start : ConnectionLog := ⟨securityPolicyCreate, []⟩

def run (s : ConnectionLog) (ops : List PolicyOp) : ConnectionLog := ops.foldl next s

def times (s : ConnectionLog) : List Nat := s.accepted.map fun c => c.2.toNat

def timesFor (s : ConnectionLog) (key : Bytes) : List Nat :=
  (s.accepted.filter fun c => c.1 = key).map fun c => c.2.toNat

theorem run_append (s : ConnectionLog) (ops : List PolicyOp) (op : PolicyOp) :
    s.run (ops ++ [op]) = (s.run ops).next op := by
  rw [run, List.foldl_append]
  rfl

theorem run_policy (ops : List PolicyOp) :
    (start.run ops).policy = securityPolicyCreate.run ops := by
  induction ops using List.reverseRecOn with
  | nil => rfl
  | append_singleton ops op ih =>
    rw [run_append, SecurityPolicy.run, List.foldl_append]
    exact congrArg (fun p => SecurityPolicy.apply p op) ih

/-- A window that accounts for `held`, times of calls made so far. -/
structure Keeps (limit : Nat) (windowMs : UInt64) (calls : List UInt64) (held : List Nat)
    (w : EventWindow) : Prop where
  accounts : SlidingWindow.Accounts limit windowMs.toNat held (w.times.map UInt64.toNat)
  called : ∀ t ∈ held, ∃ u ∈ calls, t = u.toNat

namespace Keeps

variable {limit : Nat} {windowMs : UInt64} {calls calls' : List UInt64} {held : List Nat}
  {w : EventWindow}

theorem mono (h : Keeps limit windowMs calls held w) (hsub : ∀ u ∈ calls, u ∈ calls') :
    Keeps limit windowMs calls' held w :=
  ⟨h.accounts, fun t ht =>
    let ⟨u, hu, heq⟩ := h.called t ht
    ⟨u, hsub u hu, heq⟩⟩

/-- One more call, no earlier than those before. -/
theorem allow (h : Keeps limit windowMs calls held w) {now : UInt64} (hnow : ∀ u ∈ calls, u ≤ now) :
    Keeps limit windowMs (calls ++ [now])
      (if (windowAllow w limit windowMs now).allowed then now.toNat :: held else held)
      (windowAllow w limit windowMs now).window := by
  constructor
  · have hstep := h.accounts.offer now.toNat (by
      intro t ht
      obtain ⟨u, hu, rfl⟩ := h.called t (h.accounts.mem_accepted ht)
      exact UInt64.le_iff_toNat_le.mp (hnow u hu))
    rw [← windowAllow_offer] at hstep
    exact hstep
  · intro t ht
    split at ht
    case isFalse => exact (h.mono fun u hu => List.mem_append_left [now] hu).called t ht
    case isTrue =>
      rcases List.mem_cons.mp ht with rfl | ht
      · exact ⟨now, by simp, rfl⟩
      · exact (h.mono fun u hu => List.mem_append_left [now] hu).called t ht

end Keeps

def callTimes (ops : List PolicyOp) : List UInt64 := ops.filterMap PolicyOp.connectionTime?

/-- A call stamped no earlier than the calls before it. -/
theorem callTimes_append_connection {ops : List PolicyOp} {peer : Bytes} {now : UInt64}
    (h : (callTimes (ops ++ [.allowConnection peer now])).Pairwise (· ≤ ·)) :
    callTimes (ops ++ [.allowConnection peer now]) = callTimes ops ++ [now] ∧
      ∀ u ∈ callTimes ops, u ≤ now := by
  have happend : callTimes (ops ++ [.allowConnection peer now]) = callTimes ops ++ [now] := by
    simp [callTimes, List.filterMap_append, PolicyOp.connectionTime?]
  rw [happend, List.pairwise_append] at h
  exact ⟨happend, fun u hu => h.2.2 u hu now List.mem_cons_self⟩

theorem callTimes_append_other (ops : List PolicyOp) {op : PolicyOp}
    (hop : op.connectionTime? = none) : callTimes (ops ++ [op]) = callTimes ops := by
  simp [callTimes, List.filterMap_append, hop]

theorem callTimes_init {ops : List PolicyOp} {op : PolicyOp}
    (h : (callTimes (ops ++ [op])).Pairwise (· ≤ ·)) : (callTimes ops).Pairwise (· ≤ ·) := by
  rw [callTimes, List.filterMap_append] at h
  exact (List.pairwise_append.mp h).1

theorem card_peerKeysOf_init {ops : List PolicyOp} {op : PolicyOp}
    (h : (peerKeysOf (ops ++ [op])).card ≤ maxPeerRecords) :
    (peerKeysOf ops).card ≤ maxPeerRecords := by
  refine (Finset.card_le_card ?_).trans h
  intro key hkey
  simp only [peerKeysOf, List.mem_toFinset, List.map_append, List.mem_append] at hkey ⊢
  exact .inl hkey

/-- While no more peers occur than there are slots, the next one finds a slot. -/
theorem peerRoom_run {ops : List PolicyOp} {op : PolicyOp}
    (h : (peerKeysOf (ops ++ [op])).card ≤ maxPeerRecords) :
    (securityPolicyCreate.run ops).PeerRoom op.peer := by
  have htidy : Tidy _ _ (securityPolicyCreate.run ops) :=
    tidy_create.run fun o ho => keysIn_of_mem (List.mem_append_left [op] ho)
  have hmem : op ∈ ops ++ [op] := List.mem_append_right ops List.mem_cons_self
  have hop := keysIn_of_mem hmem
  exact htidy.peers.not_evicts htidy.peerKeys hop.1 ((peers_length _).symm ▸ h)

theorem next_other (s : ConnectionLog) {op : PolicyOp} (hop : op.connectionTime? = none) :
    (s.next op).accepted = s.accepted := by
  cases op with
  | allowConnection => simp [PolicyOp.connectionTime?] at hop
  | _ => rfl

theorem next_connection (s : ConnectionLog) (peer : Bytes) (now : UInt64) :
    (s.next (.allowConnection peer now)).accepted =
      if (s.policy.unbounded.connectionCharge (copyKey peerKeyBytes peer) now).answer.allowed then
        (copyKey peerKeyBytes peer, now) :: s.accepted
      else s.accepted := by
  simp only [next, acceptedConnection, allowConnection_eq]
  split <;> rfl

/-- The global window accounts for all accepted connections. -/
theorem global_keeps {ops : List PolicyOp} (horder : (callTimes ops).Pairwise (· ≤ ·)) :
    Keeps globalConnectionLimit globalConnectionWindowMs (callTimes ops) (start.run ops).times
      (start.run ops).policy.globalConnections := by
  induction ops using List.reverseRecOn with
  | nil => exact ⟨SlidingWindow.Accounts.nil _ _, by simp [run, start, times]⟩
  | append_singleton ops op ih =>
    have hkeeps := ih (callTimes_init horder)
    rw [run_append]
    set s := start.run ops
    rcases op.connection_cases with hop | ⟨peer, now, rfl⟩
    · rw [times, next_other s hop, callTimes_append_other ops hop]
      change Keeps _ _ _ _ (s.policy.apply op).globalConnections
      rw [globalConnections_apply_of_other hop]
      exact hkeeps
    · obtain ⟨hcalls, hnow⟩ := callTimes_append_connection horder
      have hstep := hkeeps.allow hnow
      rw [times, next_connection, hcalls]
      change Keeps _ _ _ _ (s.policy.apply (.allowConnection peer now)).globalConnections
      simp only [apply, allowConnection_eq, UnboundedPolicy.connectionCharge, charge_allowed,
        charge_second, unbounded]
      cases (windowAllow (s.policy.peerState (copyKey peerKeyBytes peer)).connections
        peerConnectionLimit peerConnectionWindowMs now).allowed with
      | false =>
        simp only [Bool.false_and, Bool.false_eq_true, if_false]
        exact hkeeps.mono fun u hu => List.mem_append_left [now] hu
      | true =>
        simp only [Bool.true_and, if_true,
          apply_ite (List.map fun c : Bytes × UInt64 => c.2.toNat)]
        exact hstep

theorem timesFor_connection (s : ConnectionLog) (peer : Bytes) (now : UInt64) (key : Bytes) :
    (s.next (.allowConnection peer now)).timesFor key =
      if key = copyKey peerKeyBytes peer ∧
          (s.policy.unbounded.connectionCharge (copyKey peerKeyBytes peer) now).answer.allowed then
        now.toNat :: s.timesFor key
      else s.timesFor key := by
  rw [timesFor, next_connection]
  by_cases hkey : key = copyKey peerKeyBytes peer
  · simp only [hkey, true_and]
    split <;> simp [timesFor]
  · have hkey' : ¬ copyKey peerKeyBytes peer = key := fun h => hkey h.symm
    simp only [hkey, false_and, if_false]
    split <;> simp [timesFor, hkey']

theorem peer_connection {s : ConnectionLog} {peer : Bytes} {now : UInt64} {key : Bytes}
    {calls : List UInt64} {held : List Nat} (hroom : s.policy.PeerRoom peer)
    (hnow : ∀ u ∈ calls, u ≤ now) (hsub : (s.timesFor key).Subperm held)
    (hkeeps : Keeps peerConnectionLimit peerConnectionWindowMs calls held
      (s.policy.peerState key).connections) :
    ∃ held', ((s.next (.allowConnection peer now)).timesFor key).Subperm held' ∧
      Keeps peerConnectionLimit peerConnectionWindowMs (calls ++ [now]) held'
        ((s.next (.allowConnection peer now)).policy.peerState key).connections := by
  rw [timesFor_connection]
  change ∃ held', _ ∧ Keeps _ _ _ _
    ((s.policy.apply (.allowConnection peer now)).peerState key).connections
  rw [connections_allowConnection hroom]
  by_cases hkey : key = copyKey peerKeyBytes peer
  · subst hkey
    have hstep := hkeeps.allow hnow
    simp only [true_and, if_true, UnboundedPolicy.connectionCharge, charge_first, charge_allowed,
      unbounded]
    refine ⟨_, ?_, hstep⟩
    -- The peer's window stores the call, whatever the global one says.
    cases (windowAllow (s.policy.peerState (copyKey peerKeyBytes peer)).connections
      peerConnectionLimit peerConnectionWindowMs now).allowed with
    | false => simpa using hsub
    | true =>
      simp only [Bool.true_and, if_true]
      split
      · exact (List.subperm_cons _).mpr hsub
      · exact hsub.trans (List.sublist_cons_self _ _).subperm
  · simp only [hkey, false_and, if_false]
    exact ⟨held, hsub, hkeeps.mono fun u hu => List.mem_append_left [now] hu⟩

/-- The window of a peer accounts for the accepted connections of the peer, and
for those the global window refused. -/
theorem peer_keeps {ops : List PolicyOp} (horder : (callTimes ops).Pairwise (· ≤ ·))
    (hpeers : (peerKeysOf ops).card ≤ maxPeerRecords) (key : Bytes) :
    ∃ held, ((start.run ops).timesFor key).Subperm held ∧
      Keeps peerConnectionLimit peerConnectionWindowMs (callTimes ops) held
        ((start.run ops).policy.peerState key).connections := by
  induction ops using List.reverseRecOn with
  | nil =>
    have hzero : start.policy.peerState key = .zero :=
      congrFun (congrArg UnboundedPolicy.peers unbounded_create) key
    refine ⟨[], by simp [run, start, timesFor], ?_, by simp⟩
    rw [run, List.foldl_nil, hzero]
    exact SlidingWindow.Accounts.nil _ _
  | append_singleton ops op ih =>
    have hroom := peerRoom_run hpeers
    rw [← run_policy ops] at hroom
    obtain ⟨held, hsub, hkeeps⟩ := ih (callTimes_init horder) (card_peerKeysOf_init hpeers)
    rw [run_append]
    set s := start.run ops
    rcases op.connection_cases with hop | ⟨peer, now, rfl⟩
    · rw [timesFor, next_other s hop, callTimes_append_other ops hop]
      refine ⟨held, hsub, ?_⟩
      change Keeps _ _ _ _ ((s.policy.apply op).peerState key).connections
      rw [connections_apply_of_other hop hroom]
      exact hkeeps
    · obtain ⟨hcalls, hnow⟩ := callTimes_append_connection horder
      rw [hcalls]
      exact peer_connection hroom hnow hsub hkeeps

/-- With the calls in timestamp order, whatever else happens between them: in
every ten seconds at most 30 connections are accepted, and at most 5 of a peer if
no more peers occur than the table has slots. The windows keep to their limits
and stay sorted. -/
theorem connection_limit (ops : List PolicyOp) (horder : (callTimes ops).Pairwise (· ≤ ·)) :
    (∀ x, SlidingWindow.within globalConnectionWindowMs.toNat x (start.run ops).times
      ≤ globalConnectionLimit) ∧
    ((peerKeysOf ops).card ≤ maxPeerRecords → ∀ key x,
      SlidingWindow.within peerConnectionWindowMs.toNat x ((start.run ops).timesFor key)
        ≤ peerConnectionLimit) ∧
    ∀ before after, ops = before ++ after → (start.run before).policy.WindowsFit := by
  refine ⟨fun x => (global_keeps horder).accounts.bounded x, ?_, ?_⟩
  · intro hpeers key x
    obtain ⟨held, hsub, hkeeps⟩ := peer_keeps horder hpeers key
    exact (SlidingWindow.within_le_of_subperm hsub).trans (hkeeps.accounts.bounded x)
  · rintro before after -
    rw [run_policy]
    exact windowsFit_run before

/-- Six connections of one peer within 50 milliseconds. -/
def sixCalls : List PolicyOp :=
  [0, 10, 20, 30, 40, 50].map fun now => .allowConnection (ascii "192.0.2.1") now

theorem connection_limit_sixCalls :
    SlidingWindow.within peerConnectionWindowMs.toNat 0
      ((start.run sixCalls).timesFor (ascii "192.0.2.1")) ≤ peerConnectionLimit :=
  (connection_limit sixCalls (by decide)).2.1 (by decide) _ 0

end ConnectionLog

/-! ## What a refused call leaves behind -/

section Refused

variable {limit limit' : Nat} {windowMs windowMs' now : UInt64}

theorem pruneWindow_idem (w : EventWindow) (now windowMs : UInt64) :
    pruneWindow (pruneWindow w now windowMs) now windowMs = pruneWindow w now windowMs := by
  simp [pruneWindow, List.filter_filter]

theorem windowAllow_of_full {w : EventWindow}
    (h : limit ≤ (pruneWindow w now windowMs).times.length) :
    (windowAllow w limit windowMs now).allowed = false ∧
      (windowAllow w limit windowMs now).window = pruneWindow w now windowMs := by
  simp [windowAllow, h]

theorem windowAllow_of_room {w : EventWindow}
    (h : ¬ limit ≤ (pruneWindow w now windowMs).times.length) :
    (windowAllow w limit windowMs now).allowed = true ∧
      (windowAllow w limit windowMs now).window =
        ⟨(pruneWindow w now windowMs).times ++ [now]⟩ := by
  simp [windowAllow, h]

/-- The event a window has just stored is live. -/
theorem pruneWindow_stored {w : EventWindow} (hpos : 0 < windowMs) :
    (pruneWindow ⟨(pruneWindow w now windowMs).times ++ [now]⟩ now windowMs).times =
      (pruneWindow w now windowMs).times ++ [now] := by
  have hidem := congrArg EventWindow.times (pruneWindow_idem w now windowMs)
  simp only [pruneWindow] at hidem ⊢
  rw [List.filter_append, hidem]
  simp [hpos]

/-- Both windows have the live events they had exactly if the first one was
full. -/
theorem charge_same_iff (w v : EventWindow) (hpos : 0 < windowMs) {c : Charge}
    (hc : c = charge (windowAllow w limit windowMs now) (windowAllow v limit' windowMs' now) v) :
    (pruneWindow c.first now windowMs = pruneWindow w now windowMs ∧
      pruneWindow c.second now windowMs' = pruneWindow v now windowMs') ↔
      limit ≤ (pruneWindow w now windowMs).times.length := by
  subst hc
  simp only [charge_first, charge_second]
  by_cases hfull : limit ≤ (pruneWindow w now windowMs).times.length
  · obtain ⟨hallowed, hwindow⟩ := windowAllow_of_full hfull
    simp [hallowed, hwindow, pruneWindow_idem, hfull]
  · obtain ⟨-, hwindow⟩ := windowAllow_of_room hfull
    refine iff_of_false ?_ hfull
    rintro ⟨hsame, -⟩
    have htimes := congrArg (fun w : EventWindow => w.times.length) hsame
    simp only [hwindow, pruneWindow_stored hpos, List.length_append, List.length_singleton] at htimes
    omega

end Refused

namespace SecurityPolicy

/-- The event times that stand in any window. -/
def storedTimes (p : SecurityPolicy) : List UInt64 :=
  p.globalConnections.times ++ p.globalCreations.times ++
    p.peers.flatMap fun r => r.connections.times ++ r.creations.times

/-- The connection windows of the peer and of all peers have the same live
events in both states. -/
def SameConnections (peer : Bytes) (now : UInt64) (p p' : SecurityPolicy) : Prop :=
  let key := copyKey peerKeyBytes peer
  pruneWindow (p'.peerState key).connections now peerConnectionWindowMs =
      pruneWindow (p.peerState key).connections now peerConnectionWindowMs ∧
    pruneWindow p'.globalConnections now globalConnectionWindowMs =
      pruneWindow p.globalConnections now globalConnectionWindowMs

def SameCreations (peer : Bytes) (now : UInt64) (p p' : SecurityPolicy) : Prop :=
  let key := copyKey peerKeyBytes peer
  pruneWindow (p'.peerState key).creations now peerCreationWindowMs =
      pruneWindow (p.peerState key).creations now peerCreationWindowMs ∧
    pruneWindow p'.globalCreations now globalCreationWindowMs =
      pruneWindow p.globalCreations now globalCreationWindowMs

theorem peerState_withPeer_self (p : SecurityPolicy) (peer : Bytes) (now : UInt64)
    (update : PeerRecord → PeerRecord) (hkey : ∀ r, (update r).key = r.key) :
    (p.withPeer peer now update).peerState (copyKey peerKeyBytes peer) =
      (update (p.peerRecordFor peer now).record).state := by
  rw [peerState, lookup_withPeer_self p peer now hkey]
  rfl

/-- A refused call leaves the windows as they were if and only if the window of
its peer was full. -/
theorem refused_keeps_windows_iff (p : SecurityPolicy) (peer : Bytes) (now : UInt64) :
    let before := p.peerState (copyKey peerKeyBytes peer)
    let connection := p.securityPolicyAllowConnection peer now
    let creation := p.securityPolicyAllowAccountCreation peer now
    (connection.allowed = false →
      (SameConnections peer now p connection.policy ↔
        peerConnectionLimit ≤
          (pruneWindow before.connections now peerConnectionWindowMs).times.length)) ∧
    (creation.allowed = false →
      (SameCreations peer now p creation.policy ↔
        peerCreationLimit ≤
          (pruneWindow before.creations now peerCreationWindowMs).times.length)) := by
  simp only [allowConnection_eq, allowAccountCreation_eq]
  constructor
  · intro _
    set c := p.unbounded.connectionCharge (copyKey peerKeyBytes peer) now with hc
    have hfirst := congrArg PeerState.connections
      (peerState_withPeer_self p peer now (fun r => { r with connections := c.first }) fun _ => rfl)
    refine Iff.trans ?_ (charge_same_iff (p.peerState (copyKey peerKeyBytes peer)).connections
      p.globalConnections (by decide) hc)
    exact and_congr_left' (Eq.congr_left (congrArg (pruneWindow · now _) hfirst))
  · intro _
    set c := p.unbounded.creationCharge (copyKey peerKeyBytes peer) now with hc
    have hfirst := congrArg PeerState.creations
      (peerState_withPeer_self p peer now (fun r => { r with creations := c.first }) fun _ => rfl)
    refine Iff.trans ?_ (charge_same_iff (p.peerState (copyKey peerKeyBytes peer)).creations
      p.globalCreations (by decide) hc)
    exact and_congr_left' (Eq.congr_left (congrArg (pruneWindow · now _) hfirst))

/-- Six peers fill the global window, each within its own limit. -/
def sixPeers (op : Bytes → UInt64 → PolicyOp) (each : Nat) : List PolicyOp :=
  ["10.0.0.1", "10.0.0.2", "10.0.0.3", "10.0.0.4", "10.0.0.5", "10.0.0.6"].flatMap fun peer =>
    List.replicate each (op (ascii peer) 0)

/-- A peer whose own window is full pays nothing for the refusal. -/
theorem refused_keeps_windows_ownLimit :
    let p := securityPolicyCreate.run (List.replicate 5 (.allowConnection (ascii "10.0.0.1") 0))
    SameConnections (ascii "10.0.0.1") 7 p
      (p.securityPolicyAllowConnection (ascii "10.0.0.1") 7).policy :=
  ((refused_keeps_windows_iff _ _ _).1 (by decide +kernel)).mpr (by decide +kernel)

-- A quantifier over the stored times would be decided by going through all times.
theorem storedTimes_le {p : SecurityPolicy} {now : UInt64}
    (h : (p.storedTimes.all fun t => decide (t ≤ now)) = true) : ∀ t ∈ p.storedTimes, t ≤ now :=
  fun t ht => of_decide_eq_true (List.all_eq_true.mp h t ht)

/-- A seventh peer, refused by the full global window, has lost a slot of its
own: for a connection after 30 connections, and for an account after 50 of them. -/
theorem refused_costs_peer_slot :
    (∃ p peer now, system.Reachable p ∧ (∀ t ∈ p.storedTimes, t ≤ now) ∧
      (p.securityPolicyAllowConnection peer now).allowed = false ∧
      ¬ SameConnections peer now p (p.securityPolicyAllowConnection peer now).policy) ∧
    ∃ p peer now, system.Reachable p ∧ (∀ t ∈ p.storedTimes, t ≤ now) ∧
      (p.securityPolicyAllowAccountCreation peer now).allowed = false ∧
      ¬ SameCreations peer now p (p.securityPolicyAllowAccountCreation peer now).policy := by
  constructor
  · refine ⟨securityPolicyCreate.run (sixPeers .allowConnection 5), ascii "10.0.0.7", 7,
      reachable_run (.init rfl) _, storedTimes_le (by decide +kernel), by decide +kernel, ?_⟩
    unfold SameConnections
    decide +kernel
  · refine ⟨securityPolicyCreate.run (sixPeers .allowAccountCreation 9), ascii "10.0.0.7", 7,
      reachable_run (.init rfl) _, storedTimes_le (by decide +kernel), by decide +kernel, ?_⟩
    unfold SameCreations
    decide +kernel

end SecurityPolicy

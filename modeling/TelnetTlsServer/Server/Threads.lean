-- SUMMARY: What the listener and each worker do to the connections, whatever the other threads do in between.
import TelnetTlsServer.Server.Accounting
import TelnetTlsServer.Server.Connections

/-!
# The threads of the server

A connection is in one hand at a time: the listener has it until it has created the
worker, and then the worker has it. Each thread therefore knows the history of its
connection at every point of its code, and every operation finds the connection at the
point of its life where it keeps the state sound.
-/

open Interleaving

/-! ## Rely and guarantee -/

/-- Nothing has happened to connection `n`. -/
structure Untouched (n : Nat) (s s' : ServerState) : Prop where
  args : s'.args n = s.args n
  events : s'.eventsOf n = s.eventsOf n
  attached : s'.attached n = s.attached n

theorem Untouched.refl (n : Nat) (s : ServerState) : Untouched n s s := ⟨rfl, rfl, rfl⟩

theorem Untouched.trans {n : Nat} {s s' s'' : ServerState} (h : Untouched n s s')
    (h' : Untouched n s' s'') : Untouched n s s'' :=
  ⟨h'.args.trans h.args, h'.events.trans h.events, h'.attached.trans h.attached⟩

/-- The listener has just created the worker of connection `n`. -/
def Handed (listeners : List ConnectionTransport) (n : Nat) (s : ServerState) : Prop :=
  ∃ transport ∈ listeners, s.args n = some transport ∧ s.eventsOf n = [.granted n] ∧
    s.attached n = false

theorem Handed.untouched {listeners : List ConnectionTransport} {n : Nat} {s s' : ServerState}
    (h : Handed listeners n s) (hs : Untouched n s s') : Handed listeners n s' := by
  obtain ⟨transport, hmem, hargs, hevents, hattached⟩ := h
  exact ⟨transport, hmem, hs.args.trans hargs, hs.events.trans hevents,
    hs.attached.trans hattached⟩

theorem Handed.running {listeners : List ConnectionTransport} {n : Nat} {s : ServerState}
    (h : Handed listeners n s) : s.args n ≠ none := by
  obtain ⟨transport, -, hargs, -⟩ := h
  rw [hargs]
  exact Option.some_ne_none _

section RelyGuarantee

variable (leaks : Prop) (listeners : List ConnectionTransport)

structure WorkerRely (n : Nat) (s s' : ServerState) : Prop where
  sound : s.Sound leaks → s'.Sound leaks
  kept : s.args n ≠ none → Untouched n s s'
  handed : s.args n = none → s'.args n = none ∨ Handed listeners n s'

structure ListenerRely (s s' : ServerState) : Prop where
  sound : s.Sound leaks → s'.Sound leaks
  accepted : s'.accepted = s.accepted
  args : s'.args = s.args
  active : s'.activeConnections ≤ s.activeConnections
  untouched : ∀ n, s.args n = none → Untouched n s s'

/-- A worker changes its own connection only, and only once it has been created. -/
structure WorkerGuarantee (n : Nat) (s s' : ServerState) : Prop where
  sound : s.Sound leaks → s'.Sound leaks
  accepted : s'.accepted = s.accepted
  args : s'.args = s.args
  active : s'.activeConnections ≤ s.activeConnections
  others : ∀ m, m ≠ n ∨ s.args m = none → Untouched m s s'

/-- The listener does not touch the connections of workers. -/
structure ListenerGuarantee (s s' : ServerState) : Prop where
  sound : s.Sound leaks → s'.Sound leaks
  kept : ∀ n, s.args n ≠ none → Untouched n s s'
  handed : ∀ n, s.args n = none → s'.args n = none ∨ Handed listeners n s'

def serverRely : ServerThread → ServerState → ServerState → Prop
  | .listener => ListenerRely leaks
  | .worker n => WorkerRely leaks listeners n

def serverGuarantee : ServerThread → ServerState → ServerState → Prop
  | .listener => ListenerGuarantee leaks listeners
  | .worker n => WorkerGuarantee leaks n

variable {leaks listeners} {s s' s'' : ServerState} {n : Nat}

theorem WorkerRely.trans (h : WorkerRely leaks listeners n s s')
    (h' : WorkerRely leaks listeners n s' s'') : WorkerRely leaks listeners n s s'' where
  sound hs := h'.sound (h.sound hs)
  kept hargs :=
    have hfirst := h.kept hargs
    hfirst.trans (h'.kept (hfirst.args ▸ hargs))
  handed hnone := by
    rcases h.handed hnone with hnone' | hhanded
    · exact h'.handed hnone'
    · exact .inr (hhanded.untouched (h'.kept hhanded.running))

theorem ListenerRely.trans (h : ListenerRely leaks s s') (h' : ListenerRely leaks s' s'') :
    ListenerRely leaks s s'' where
  sound hs := h'.sound (h.sound hs)
  accepted := h'.accepted.trans h.accepted
  args := h'.args.trans h.args
  active := h'.active.trans h.active
  untouched m hm := (h.untouched m hm).trans (h'.untouched m (h.args ▸ hm))

theorem serverRely_refl (i : ServerThread) (s : ServerState) :
    serverRely leaks listeners i s s := by
  cases i with
  | listener => exact ⟨id, rfl, rfl, Nat.le_refl _, fun m _ => .refl m s⟩
  | worker n => exact ⟨id, fun _ => .refl n s, .inl⟩

theorem WorkerGuarantee.refl (leaks : Prop) (n : Nat) (s : ServerState) :
    WorkerGuarantee leaks n s s :=
  ⟨id, rfl, rfl, Nat.le_refl _, fun m _ => .refl m s⟩

theorem serverGuarantee_refl (i : ServerThread) (s : ServerState) :
    serverGuarantee leaks listeners i s s := by
  cases i with
  | listener => exact ⟨id, fun m _ => .refl m s, fun _ => .inl⟩
  | worker n => exact .refl leaks n s

theorem server_compatible :
    Compatible (serverRely leaks listeners) (serverGuarantee leaks listeners) where
  refl := serverRely_refl
  trans i s t u h h' := by
    cases i with
    | listener => exact ListenerRely.trans h h'
    | worker n => exact WorkerRely.trans h h'
  within i j hij s t h := by
    cases i with
    | listener =>
      cases j with
      | listener => exact absurd rfl hij
      | worker n => exact ⟨h.sound, h.kept n, h.handed n⟩
    | worker m =>
      cases j with
      | listener => exact ⟨h.sound, h.accepted, h.args, h.active, fun n hn => h.others n (.inr hn)⟩
      | worker n =>
        have hnm : n ≠ m := fun heq => hij (heq ▸ rfl)
        exact ⟨h.sound, fun _ => h.others n (.inl hnm), fun hnone => .inl (h.args ▸ hnone)⟩

end RelyGuarantee

/-! ## Quiet operations -/

/-- Operations that only answer. -/
def ServerOp.quiet : ServerOp → Prop
  | .ask _ | .clock | .poll | .isStopping | .workersLeft | .conditionWait | .sslAccept | .sslRead
  | .recv | .outOfRounds => True
  | _ => False

theorem eq_of_quiet {op : ServerOp} (hop : op.quiet) {s s' : ServerState} {a : op.Answer}
    (h : s.Does op a s') : s' = s := by
  cases op <;> first | exact absurd hop id | exact h | exact h.2 | exact absurd h id

section Quiet

open Prog

theorem only_tlsAcceptWithDeadline (started : UInt64) (rounds : Nat) :
    (tlsAcceptWithDeadline started rounds).Only ServerOp.quiet := by
  induction rounds with
  | zero => exact .call trivial fun _ => trivial
  | succ rounds ih =>
    unfold tlsAcceptWithDeadline
    refine .call trivial fun stopping => .ite trivial (.call trivial fun answer => ?_)
    cases answer with
    | done _ => trivial
    | retry => exact .call trivial fun now => .ite trivial ih
    | closed => exact .call trivial fun now => .ite trivial trivial
    | failed => exact .call trivial fun now => .ite trivial trivial

theorem only_sessionLoop (transport : ConnectionTransport) (connectedAt : UInt64) (rounds : Nat)
    (lastActivity : UInt64) :
    (sessionLoop transport connectedAt rounds lastActivity).Only ServerOp.quiet := by
  induction rounds generalizing lastActivity with
  | zero => exact .call trivial fun _ => trivial
  | succ rounds ih =>
    have hread : (readConnection transport).Only ServerOp.quiet :=
      .ite (.perform trivial) (.perform trivial)
    unfold sessionLoop
    refine .call trivial fun failed => .ite trivial (.call trivial fun closes => .ite trivial
      (.call trivial fun now => .call trivial fun stopping => .ite trivial (.ite trivial
      (.ite trivial (.call trivial fun waiting => .ite trivial (.call trivial fun playing =>
      .ite trivial (.call trivial fun polled => .ite trivial (.bind hread fun answer => ?_))))))))
    cases answer with
    | done received =>
      exact .ite (.call trivial fun now => .call trivial fun fed => .ite trivial (ih now))
        (ih lastActivity)
    | closed => trivial
    | retry => exact ih lastActivity
    | failed => trivial

theorem only_runSession (transport : ConnectionTransport) (rounds : Nat) :
    (runSession transport rounds).Only ServerOp.quiet :=
  .call trivial fun _ => .ite trivial
    (.call trivial fun connectedAt => only_sessionLoop transport connectedAt rounds connectedAt)

theorem only_runTls (rounds : Nat) : (runTls rounds).Only ServerOp.quiet := by
  unfold runTls
  refine .call trivial fun ssl => .ite trivial (.call trivial fun fd => .ite trivial
    (.call trivial fun started => .bind (only_tlsAcceptWithDeadline started rounds) fun accepted =>
    .ite trivial (.bind (only_runSession .telnetTls rounds) fun failed =>
    .call trivial fun writerFailed => .ite (.call trivial fun _ => trivial) trivial)))

theorem only_sshEventLoop (rounds : Nat) : (sshEventLoop rounds).Only ServerOp.quiet := by
  induction rounds with
  | zero => exact .perform trivial
  | succ rounds ih =>
    unfold sshEventLoop
    exact .call trivial fun _ => .ite trivial (.call trivial fun _ => .ite trivial
      (.call trivial fun _ => .ite trivial (.call trivial fun _ => .ite trivial
      (.call trivial fun _ => .ite trivial (.call trivial fun _ => .ite trivial
      (.call trivial fun _ => .ite trivial (.call trivial fun _ => .ite trivial
      (.call trivial fun _ => .ite trivial ih))))))))

end Quiet

/-! ## Triples -/

section Triples

variable {leaks : Prop} {listeners : List ConnectionTransport} {i : ServerThread} {ρ ρ' : Type}
  {post : ρ → ServerState → Prop} {P : ServerState → Prop} {s : ServerState}

abbrev ThreadSafe (leaks : Prop) (listeners : List ConnectionTransport) (i : ServerThread)
    (post : ρ → ServerState → Prop) (p : ServerProg ρ) (s : ServerState) : Prop :=
  Safe serverSem i (serverRely leaks listeners i) (serverGuarantee leaks listeners i) post p s

namespace ThreadSafe

theorem bind {mid : ρ' → ServerState → Prop} {p : ServerProg ρ'} {f : ρ' → ServerProg ρ}
    (h : ThreadSafe leaks listeners i mid p s)
    (hf : ∀ r s', mid r s' → ThreadSafe leaks listeners i post (f r) s') :
    ThreadSafe leaks listeners i post (p >>= f) s :=
  Safe.bind (serverRely_refl i) (h.mono hf)

theorem quiet {p : ServerProg ρ'} {f : ρ' → ServerProg ρ}
    (hstable : Stable (serverRely leaks listeners i) P) (hp : p.Only ServerOp.quiet) (h : P s)
    (hf : ∀ r s', P s' → ThreadSafe leaks listeners i post (f r) s') :
    ThreadSafe leaks listeners i post (p >>= f) s :=
  Safe.quiet_bind (fun _ hop _ _ _ hsem => eq_of_quiet hop hsem) (serverRely_refl i)
    (serverGuarantee_refl i) hstable hp h hf

theorem ite {c : Prop} [Decidable c] {p p' : ServerProg ρ}
    (hp : c → ThreadSafe leaks listeners i post p s)
    (hp' : ¬ c → ThreadSafe leaks listeners i post p' s) :
    ThreadSafe leaks listeners i post (if c then p else p') s :=
  Safe.ite hp hp'

theorem exec {op : ServerOp} {k : op.Answer → ServerProg ρ}
    (hstable : Stable (serverRely leaks listeners i) P) (h : P s)
    (hstep : ∀ s a s', P s → s.Does op a s' →
      serverGuarantee leaks listeners i s s' ∧ ThreadSafe leaks listeners i post (k a) s') :
    ThreadSafe leaks listeners i post (exec op >>= k) s :=
  Safe.perform hstable h hstep

end ThreadSafe

end Triples

/-! ## Workers -/

section Workers

variable {leaks : Prop} {listeners : List ConnectionTransport} {n : Nat} {ρ ρ' : Type}
  {transport : ConnectionTransport} {events : List ServerEvent} {attached : Bool}
  {post : ρ → ServerState → Prop} {s : ServerState}

/-- The worker of connection `n` runs and knows what has happened to it. -/
structure Owns (leaks : Prop) (n : Nat) (transport : ConnectionTransport)
    (events : List ServerEvent) (attached : Bool) (s : ServerState) : Prop where
  sound : s.Sound leaks
  args : s.args n = some transport
  events : s.eventsOf n = events
  attached : s.attached n = attached

theorem Owns.running (h : Owns leaks n transport events attached s) : s.args n ≠ none := by
  rw [h.args]
  exact Option.some_ne_none _

theorem Owns.ne_of_other (h : Owns leaks n transport events attached s) {m : Nat}
    (hm : m ≠ n ∨ s.args m = none) : m ≠ n := by
  rcases hm with hne | hnone
  · exact hne
  · rintro rfl
    exact h.running hnone

theorem Owns.stable :
    Stable (serverRely leaks listeners (.worker n)) (Owns leaks n transport events attached) := by
  intro s s' hR h
  have hsame := hR.kept h.running
  exact ⟨hR.sound h.sound, hsame.args.trans h.args, hsame.events.trans h.events,
    hsame.attached.trans h.attached⟩

/-- The worker adds an event to the history of its connection. -/
theorem Owns.record {e : ServerEvent} {s' : ServerState}
    (h : Owns leaks n transport events attached s) (hsound : s'.Sound leaks)
    (hn : e.connection = some n) (hhistory : s'.history = s.history ++ [e])
    (hargs : s'.args = s.args) (haccepted : s'.accepted = s.accepted)
    (hactive : s'.activeConnections ≤ s.activeConnections)
    (hattached : ∀ m, m ≠ n → s'.attached m = s.attached m) :
    WorkerGuarantee leaks n s s' ∧
      Owns leaks n transport (events ++ [e]) (s'.attached n) s' := by
  refine ⟨⟨fun _ => hsound, haccepted, hargs, hactive, fun m hm => ?_⟩, hsound,
    hargs ▸ h.args, ?_, rfl⟩
  · have hmn := h.ne_of_other hm
    refine ⟨congrFun hargs m, ?_, hattached m hmn⟩
    rw [ServerState.eventsOf, hhistory]
    exact s.eventsOf_emit_of_ne (by simpa [hn] using hmn.symm)
  · rw [← h.events, ServerState.eventsOf, hhistory]
    exact s.eventsOf_emit_self hn

theorem Owns.close (h : Owns leaks n transport [.granted n] attached s) :
    WorkerGuarantee leaks n s (s.emit (.closed n)) ∧
      Owns leaks n transport [.granted n, .closed n] attached (s.emit (.closed n)) := by
  obtain ⟨hG, howns⟩ := h.record (e := .closed n)
    (h.sound.close (.inr h.running) (.inr h.events)) rfl rfl rfl rfl (Nat.le_refl _) fun _ _ => rfl
  exact ⟨hG, { howns with attached := h.attached }⟩

theorem Owns.release (h : Owns leaks n transport events attached s)
    (hevents : events = [.granted n, .closed n] ∨ leaks ∧ events = [.granted n]) :
    WorkerGuarantee leaks n s (s.runtimeReleaseConnection n) ∧
      Owns leaks n transport (events ++ [.released n]) attached (s.runtimeReleaseConnection n) := by
  obtain ⟨hsound, heq⟩ := h.sound.release (.inr h.running) (h.events ▸ hevents)
  rw [heq] at hsound ⊢
  obtain ⟨hG, howns⟩ := h.record (e := .released n) hsound rfl rfl rfl rfl (Nat.sub_le _ _)
    fun _ _ => rfl
  exact ⟨hG, { howns with attached := h.attached }⟩

theorem Owns.setAttached (h : Owns leaks n transport events attached s) (b : Bool) :
    WorkerGuarantee leaks n s { s with attached := Function.update s.attached n b } ∧
      Owns leaks n transport events b { s with attached := Function.update s.attached n b } := by
  have hsound : ServerState.Sound leaks { s with attached := Function.update s.attached n b } :=
    { h.sound with }
  refine ⟨⟨fun _ => hsound, rfl, rfl, Nat.le_refl _, fun m hm => ⟨rfl, rfl, ?_⟩⟩, hsound,
    h.args, h.events, Function.update_self ..⟩
  exact Function.update_of_ne (h.ne_of_other hm) ..

theorem Owns.free (h : Owns leaks n transport [.granted n] true s) {s' : ServerState}
    (hdoes : s.Does (.sshFree n) () s') :
    WorkerGuarantee leaks n s s' ∧ Owns leaks n transport [.granted n, .closed n] false s' := by
  have hs' : s' = { s with attached := Function.update s.attached n false }.emit (.closed n) :=
    hdoes.trans (if_pos h.attached)
  subst hs'
  have hset := (h.setAttached false).2
  obtain ⟨hG, howns⟩ := h.record (e := .closed n)
    (hset.sound.close (.inr hset.running) (.inr hset.events)) rfl rfl rfl rfl (Nat.le_refl _)
    fun m hm => Function.update_of_ne hm ..
  exact ⟨hG, { howns with attached := Function.update_self .. }⟩

theorem Owns.free_of_unattached (h : Owns leaks n transport events false s) {s' : ServerState}
    (hdoes : s.Does (.sshFree n) () s') : s' = s :=
  hdoes.trans (if_neg (by simp [h.attached]))

theorem Owns.ask {question : Question} {f : Bool → ServerProg ρ}
    (h : Owns leaks n transport events attached s)
    (hf : ∀ answer s', Owns leaks n transport events attached s' →
      ThreadSafe leaks listeners (.worker n) post (f answer) s') :
    ThreadSafe leaks listeners (.worker n) post (ask question >>= f) s :=
  .quiet Owns.stable (.perform trivial) h hf

theorem Owns.safe_pure {r : ρ} (h : Owns leaks n transport events attached s) :
    ThreadSafe leaks listeners (.worker n) (fun _ => Owns leaks n transport events attached)
      (pure r) s :=
  Safe.pure Owns.stable h

theorem Owns.safe_close {k : Unit → ServerProg ρ}
    (h : Owns leaks n transport [.granted n] attached s)
    (hk : ∀ s', Owns leaks n transport [.granted n, .closed n] attached s' →
      ThreadSafe leaks listeners (.worker n) post (k ()) s') :
    ThreadSafe leaks listeners (.worker n) post (exec (.close n) >>= k) s := by
  refine .exec Owns.stable h fun s a s' howns hdoes => ?_
  obtain rfl := hdoes
  exact ⟨howns.close.1, hk _ howns.close.2⟩

/-- Whatever libssh answered, the descriptor of a connection that reached it is closed
once. -/
theorem safe_cleanupSshConnection {session : Bool}
    (h : Owns leaks n transport [.granted n] attached s)
    (hfree : attached = true → session = true) :
    ThreadSafe leaks listeners (.worker n)
      (fun _ => Owns leaks n transport [.granted n, .closed n] false)
      (cleanupSshConnection n session attached) s := by
  cases attached with
  | true =>
    -- The flag and libssh agree on who owns the descriptor.
    obtain rfl := hfree rfl
    refine .exec (k := fun _ => pure ()) Owns.stable h fun s a s' howns hdoes => ?_
    obtain ⟨hG, hclosed⟩ := howns.free hdoes
    exact ⟨hG, hclosed.safe_pure⟩
  | false =>
    have hclose : ∀ s, Owns leaks n transport [.granted n] false s →
        ThreadSafe leaks listeners (.worker n)
          (fun _ => Owns leaks n transport [.granted n, .closed n] false)
          (exec (.close n) >>= pure) s :=
      fun s howns => howns.safe_close fun s' hclosed => hclosed.safe_pure
    cases session with
    | false => exact hclose s h
    | true =>
      refine .exec (k := fun _ => exec (.close n)) Owns.stable h fun s a s' howns hdoes => ?_
      obtain rfl := howns.free_of_unattached hdoes
      exact ⟨.refl leaks n s', hclose s' howns⟩

/-- What `setup_ssh_session` has done when it is over. -/
def SetUp (leaks : Prop) (n : Nat) (transport : ConnectionTransport) (r : Bool × Bool × Bool)
    (s : ServerState) : Prop :=
  Owns leaks n transport [.granted n] r.2.1 s ∧ (r.2.1 = true → r.1 = true)

theorem safe_setupSshSession (h : Owns leaks n transport [.granted n] false s) :
    ThreadSafe leaks listeners (.worker n) (SetUp leaks n transport) (setupSshSession n) s := by
  have hend : ∀ {session attached ready : Bool} {s : ServerState},
      Owns leaks n transport [.granted n] attached s → (attached = true → session = true) →
      ThreadSafe leaks listeners (.worker n) (SetUp leaks n transport)
        (pure (session, attached, ready)) s :=
    fun howns hfree => fun s' hR => ⟨Owns.stable _ s' hR howns, hfree⟩
  unfold setupSshSession
  refine h.ask fun bound s h => h.ask fun session s h => .ite (fun _ => hend h (by simp)) fun _ =>
    h.ask fun key s h => .ite (fun _ => hend h (by simp)) fun _ =>
    h.ask fun callbacks s h => .ite (fun _ => hend h (by simp)) fun _ =>
    .exec Owns.stable h fun s taken s' h hdoes => ?_
  cases taken with
  | false =>
    obtain rfl := hdoes
    exact ⟨.refl leaks n s', .ite (fun _ => hend h (by simp)) fun hnot => absurd rfl hnot⟩
  | true =>
    obtain rfl := hdoes
    obtain ⟨hG, h⟩ := h.setAttached true
    refine ⟨hG, .ite (fun hnot => absurd hnot (by simp)) fun _ => ?_⟩
    exact h.ask fun exchanged s h => .ite (fun _ => hend h (by simp)) fun _ =>
      h.ask fun event s h => .ite (fun _ => hend h (by simp)) fun _ =>
      h.ask fun added s h => .ite (fun _ => hend h (by simp)) fun _ => hend h (by simp)

/-- The histories with which `ssh_transport_run_connection` may end: it does nothing
if an argument is missing. -/
def sshEnd (n : Nat) (missing : Bool) : List ServerEvent :=
  if missing then [.granted n] else [.granted n, .closed n]

theorem safe_sshTransportRunConnection {α : Type} {hostKeyPath : Option Bytes}
    {application : Option (Application α)} {rounds : Nat}
    (h : Owns leaks n transport [.granted n] false s) :
    ThreadSafe leaks listeners (.worker n)
      (fun _ => Owns leaks n transport (sshEnd n (hostKeyPath.isNone || application.isNone)) false)
      (sshTransportRunConnection hostKeyPath application rounds n) s := by
  unfold sshTransportRunConnection
  refine .ite (fun hmissing => ?_) fun hmissing => ?_
  · rw [hmissing]
    exact h.safe_pure
  rw [Bool.not_eq_true] at hmissing
  rw [hmissing]
  refine .quiet Owns.stable (.perform trivial) h fun now s h => .ite
    (fun _ => safe_cleanupSshConnection h (by simp)) fun _ => ?_
  refine .bind (safe_setupSshSession h) ?_
  rintro ⟨session, attached, ready⟩ s ⟨h, hfree⟩
  exact ThreadSafe.ite (fun _ => .quiet Owns.stable (only_sshEventLoop rounds) h fun _ s h =>
    safe_cleanupSshConnection h hfree) fun _ => safe_cleanupSshConnection h hfree

/-- The histories of a connection whose worker is done. -/
def Finished (leaks : Prop) (n : Nat) (s : ServerState) : Prop :=
  s.args n ≠ none ∧ (s.eventsOf n = [.granted n, .closed n, .released n] ∨
    leaks ∧ s.eventsOf n = [.granted n, .released n])

theorem Finished.stable :
    Stable (serverRely leaks listeners (.worker n)) (Finished leaks n) := by
  rintro s s' hR ⟨hargs, hevents⟩
  have hsame := hR.kept hargs
  exact ⟨hsame.args ▸ hargs, hsame.events ▸ hevents⟩

theorem Owns.safe_release (h : Owns leaks n transport events attached s)
    (hevents : events = [.granted n, .closed n] ∨ leaks ∧ events = [.granted n]) :
    ThreadSafe leaks listeners (.worker n) (fun _ => Finished leaks n) (exec (.release n)) s := by
  refine .exec (k := pure) Owns.stable h fun s a s' h hdoes => ?_
  obtain rfl := hdoes
  obtain ⟨hG, howns⟩ := h.release hevents
  refine ⟨hG, Safe.pure Finished.stable ⟨howns.running, ?_⟩⟩
  rw [howns.events]
  rcases hevents with rfl | ⟨hleaks, rfl⟩
  · exact .inl rfl
  · exact .inr ⟨hleaks, rfl⟩

/-- A worker that has not been created yet, or only just. -/
def Pending (leaks : Prop) (listeners : List ConnectionTransport) (n : Nat) (s : ServerState) :
    Prop :=
  s.Sound leaks ∧ (s.args n = none ∨ Handed listeners n s)

theorem Pending.stable :
    Stable (serverRely leaks listeners (.worker n)) (Pending leaks listeners n) := by
  rintro s s' hR ⟨hsound, hnone | hhanded⟩
  · exact ⟨hR.sound hsound, hR.handed hnone⟩
  · exact ⟨hR.sound hsound, .inr (hhanded.untouched (hR.kept hhanded.running))⟩

theorem safe_connectionWorker {α : Type} {config : SecureServerConfig α} {rounds : Nat}
    (hleaks : .ssh ∈ listeners →
      (config.sshHostKeyPath.isNone || config.sessionHooks.isNone) = true → leaks)
    (h : Pending leaks listeners n s) :
    ThreadSafe leaks listeners (.worker n) (fun _ => Finished leaks n)
      (connectionWorker config rounds n) s := by
  unfold connectionWorker
  refine Safe.perform Pending.stable h fun s transport s' h hdoes => ?_
  obtain ⟨hargs, rfl⟩ := hdoes
  obtain ⟨hsound, hnone | ⟨other, hmem, hother, hevents, hattached⟩⟩ := h
  -- A thread that has not been created does not begin.
  · cases hnone.symm.trans hargs
  obtain rfl := Option.some.inj (hother.symm.trans hargs)
  have howns : Owns leaks n other [.granted n] false s' := ⟨hsound, hargs, hevents, hattached⟩
  refine ⟨.refl leaks n s', ?_⟩
  cases other with
  | ssh =>
    refine ThreadSafe.bind (safe_sshTransportRunConnection howns) fun _ s h => h.safe_release ?_
    unfold sshEnd
    split
    case isTrue hmissing => exact .inr ⟨hleaks hmem hmissing, rfl⟩
    case isFalse => exact .inl rfl
  | telnetTls =>
    exact ThreadSafe.quiet Owns.stable (only_runTls rounds) howns fun _ s h =>
      h.safe_close fun s h => h.safe_release (.inl rfl)
  | telnet =>
    exact ThreadSafe.quiet Owns.stable (only_runSession .telnet rounds) howns fun _ s h =>
      h.safe_close fun s h => h.safe_release (.inl rfl)

end Workers

/-! ## The listener -/

section Listener

variable {leaks : Prop} {listeners : List ConnectionTransport} {n : Nat} {ρ : Type}
  {events : List ServerEvent} {post : ρ → ServerState → Prop} {s : ServerState}

/-- A connection that has not come yet. -/
structure Unborn (n : Nat) (s : ServerState) : Prop where
  args : s.args n = none
  events : s.eventsOf n = []
  attached : s.attached n = false

theorem Unborn.untouched {s' : ServerState} (h : Unborn n s) (hs : Untouched n s s') :
    Unborn n s' :=
  ⟨hs.args.trans h.args, hs.events.trans h.events, hs.attached.trans h.attached⟩

/-- The listener is done with every connection that has come. -/
structure Clear (leaks : Prop) (s : ServerState) : Prop where
  sound : s.Sound leaks
  settled : ∀ m, m < s.accepted → s.args m = none → Settled m (s.eventsOf m)
  unborn : ∀ m, s.accepted ≤ m → Unborn m s

/-- The listener has connection `n`, the last that has come. -/
structure Holds (leaks : Prop) (n : Nat) (events : List ServerEvent) (s : ServerState) : Prop where
  sound : s.Sound leaks
  accepted : s.accepted = n + 1
  args : s.args n = none
  events : s.eventsOf n = events
  attached : s.attached n = false
  settled : ∀ m, m < n → s.args m = none → Settled m (s.eventsOf m)
  unborn : ∀ m, n < m → Unborn m s

theorem Clear.stable : Stable (serverRely leaks listeners .listener) (Clear leaks) := by
  intro s s' hR h
  refine ⟨hR.sound h.sound, fun m hm hargs => ?_, fun m hm => ?_⟩
  · rw [hR.args] at hargs
    rw [hR.accepted] at hm
    rw [(hR.untouched m hargs).events]
    exact h.settled m hm hargs
  · have hunborn := h.unborn m (hR.accepted ▸ hm)
    exact hunborn.untouched (hR.untouched m hunborn.args)

theorem Holds.stable : Stable (serverRely leaks listeners .listener) (Holds leaks n events) := by
  intro s s' hR h
  have hsame := hR.untouched n h.args
  refine ⟨hR.sound h.sound, hR.accepted.trans h.accepted, hsame.args.trans h.args,
    hsame.events.trans h.events, hsame.attached.trans h.attached, fun m hm hargs => ?_,
    fun m hm => ?_⟩
  · rw [hR.args] at hargs
    rw [(hR.untouched m hargs).events]
    exact h.settled m hm hargs
  · have hunborn := h.unborn m hm
    exact hunborn.untouched (hR.untouched m hunborn.args)

theorem Clear.accept (h : Clear leaks s) :
    ListenerGuarantee leaks listeners s { s with accepted := s.accepted + 1 } ∧
      Holds leaks s.accepted [] { s with accepted := s.accepted + 1 } := by
  have hnew := h.unborn s.accepted (Nat.le_refl _)
  have hsound : ServerState.Sound leaks { s with accepted := s.accepted + 1 } := by
    refine { h.sound with settled := fun m hm => ?_ }
    simp only [ServerState.InHand, not_or, Nat.not_le, not_not] at hm
    exact h.settled m (Nat.lt_of_succ_lt_succ hm.1) hm.2
  exact ⟨⟨fun _ => hsound, fun m _ => ⟨rfl, rfl, rfl⟩, fun m hm => .inl hm⟩,
    hsound, rfl, hnew.args, hnew.events, hnew.attached, h.settled,
    fun m hm => ⟨(h.unborn m (Nat.le_of_lt hm)).args, (h.unborn m (Nat.le_of_lt hm)).events,
      (h.unborn m (Nat.le_of_lt hm)).attached⟩⟩

theorem Holds.inHand (h : Holds leaks n events s) : s.InHand n := .inl (Nat.le_of_eq h.accepted)

/-- The listener adds an event to the history of its connection. -/
theorem Holds.record {e : ServerEvent} {s' : ServerState} (h : Holds leaks n events s)
    (hsound : s'.Sound leaks) (hn : e.connection = some n)
    (hhistory : s'.history = s.history ++ [e]) (hargs : s'.args = s.args)
    (haccepted : s'.accepted = s.accepted) (hattached : s'.attached = s.attached) :
    ListenerGuarantee leaks listeners s s' ∧ Holds leaks n (events ++ [e]) s' := by
  have hself : s'.eventsOf n = events ++ [e] := by
    rw [← h.events, ServerState.eventsOf, hhistory]
    exact s.eventsOf_emit_self hn
  have hother : ∀ m, m ≠ n → Untouched m s s' := by
    refine fun m hm => ⟨congrFun hargs m, ?_, congrFun hattached m⟩
    rw [ServerState.eventsOf, hhistory]
    exact s.eventsOf_emit_of_ne (by simpa [hn] using hm.symm)
  refine ⟨⟨fun _ => hsound, fun m hm => hother m ?_, fun m hm => .inl (hargs ▸ hm)⟩,
    hsound, haccepted.trans h.accepted, hargs ▸ h.args, hself, hattached ▸ h.attached,
    fun m hm hnone => ?_, fun m hm => (h.unborn m hm).untouched (hother m (Nat.ne_of_gt hm))⟩
  · rintro rfl
    exact hm h.args
  · rw [(hother m (Nat.ne_of_lt hm)).events]
    exact h.settled m hm (hargs ▸ hnone)

theorem Holds.clear (h : Holds leaks n events s) (hevents : Settled n events) : Clear leaks s := by
  have haccepted := h.accepted
  refine ⟨h.sound, fun m hm hargs => ?_, fun m hm => h.unborn m (by omega)⟩
  rcases Nat.eq_or_lt_of_le (Nat.lt_succ_iff.mp (h.accepted ▸ hm)) with rfl | hlt
  · rw [h.events]
    exact hevents
  · exact h.settled m hlt hargs

theorem Holds.close (h : Holds leaks n events s)
    (hevents : events = [] ∨ events = [.granted n]) :
    ListenerGuarantee leaks listeners s (s.emit (.closed n)) ∧
      Holds leaks n (events ++ [.closed n]) (s.emit (.closed n)) :=
  h.record (h.sound.close h.inHand (h.events ▸ hevents)) rfl rfl rfl rfl rfl

theorem Holds.release (h : Holds leaks n [.granted n, .closed n] s) :
    ListenerGuarantee leaks listeners s (s.runtimeReleaseConnection n) ∧
      Holds leaks n [.granted n, .closed n, .released n] (s.runtimeReleaseConnection n) := by
  obtain ⟨hsound, heq⟩ := h.sound.release h.inHand (.inl h.events)
  rw [heq] at hsound ⊢
  exact h.record (e := .released n) hsound rfl rfl rfl rfl rfl

theorem Holds.reserve (h : Holds leaks n [] s) {allowed : Bool} {s' : ServerState}
    (hdoes : s.Does (.reserve n) allowed s') :
    ListenerGuarantee leaks listeners s s' ∧
      Holds leaks n (if allowed then [.granted n] else []) s' := by
  have hsound := h.sound.reserve h.inHand h.events
  have hresult : (allowed, s') = s.runtimeReserveConnection n := hdoes
  unfold ServerState.runtimeReserveConnection at hsound hresult
  split at hresult
  case isTrue hallowed =>
    rw [if_pos hallowed] at hsound
    obtain ⟨rfl, rfl⟩ := Prod.mk.inj hresult
    exact h.record (e := .granted n) hsound rfl rfl rfl rfl rfl
  case isFalse =>
    obtain ⟨rfl, rfl⟩ := Prod.mk.inj hresult
    exact ⟨serverGuarantee_refl .listener s', h⟩

/-- The connection passes to its worker. -/
theorem Holds.handOver (h : Holds leaks n [.granted n] s) {transport : ConnectionTransport}
    (hmem : transport ∈ listeners) :
    ListenerGuarantee leaks listeners s
        { s with args := Function.update s.args n (some transport) } ∧
      Clear leaks { s with args := Function.update s.args n (some transport) } := by
  have hself : Function.update s.args n (some transport) n = some transport :=
    Function.update_self ..
  have hother : ∀ m, m ≠ n → Function.update s.args n (some transport) m = s.args m :=
    fun m hm => Function.update_of_ne hm ..
  have hrunning : ∀ m, Function.update s.args n (some transport) m = none →
      m ≠ n ∧ s.args m = none := by
    intro m hm
    have hmn : m ≠ n := by
      rintro rfl
      cases hself.symm.trans hm
    exact ⟨hmn, hother m hmn ▸ hm⟩
  have hsound : ServerState.Sound leaks
      { s with args := Function.update s.args n (some transport) } := by
    refine { h.sound with settled := fun m hm => h.sound.settled m fun hhand => hm ?_ }
    rcases hhand with hlast | hargs
    · exact .inl hlast
    · exact .inr fun hnone => hargs (hrunning m hnone).2
  have haccepted := h.accepted
  refine ⟨⟨fun _ => hsound, fun m hm => ⟨hother m ?_, rfl, rfl⟩, fun m hm => ?_⟩,
    hsound, fun m hm hnone => ?_, fun m hm => ?_⟩
  · rintro rfl
    exact hm h.args
  · by_cases hmn : m = n
    · subst hmn
      exact .inr ⟨transport, hmem, hself, h.events, h.attached⟩
    · exact .inl ((hother m hmn).trans hm)
  · obtain ⟨hmn, hargs⟩ := hrunning m hnone
    have hlt : m < s.accepted := hm
    exact h.settled m (by omega) hargs
  · have hlt : s.accepted ≤ m := hm
    have hunborn := h.unborn m (by omega)
    exact ⟨(hother m (by omega)).trans hunborn.args, hunborn.events, hunborn.attached⟩

/-! ### Its code -/

theorem Clear.safe_pure {r : ρ} (h : Clear leaks s) :
    ThreadSafe leaks listeners .listener (fun _ => Clear leaks) (pure r) s :=
  Safe.pure Clear.stable h

theorem Holds.safe_close {k : Unit → ServerProg ρ} (h : Holds leaks n events s)
    (hevents : events = [] ∨ events = [.granted n])
    (hk : ∀ s', Holds leaks n (events ++ [.closed n]) s' →
      ThreadSafe leaks listeners .listener post (k ()) s') :
    ThreadSafe leaks listeners .listener post (exec (.close n) >>= k) s := by
  refine .exec Holds.stable h fun s a s' h hdoes => ?_
  obtain rfl := hdoes
  obtain ⟨hG, hclosed⟩ := h.close hevents
  exact ⟨hG, hk _ hclosed⟩

theorem Holds.safe_release {k : Unit → ServerProg ρ} (h : Holds leaks n [.granted n, .closed n] s)
    (hk : ∀ s', Clear leaks s' → ThreadSafe leaks listeners .listener post (k ()) s') :
    ThreadSafe leaks listeners .listener post (exec (.release n) >>= k) s := by
  refine .exec Holds.stable h fun s a s' h hdoes => ?_
  obtain rfl := hdoes
  obtain ⟨hG, hreleased⟩ := h.release
  exact ⟨hG, hk _ (hreleased.clear (.inr rfl))⟩

theorem only_connectionAllowed : connectionAllowed.Only ServerOp.quiet :=
  .call trivial fun _ => .ite trivial (.perform trivial)

theorem safe_acceptConnection {transport : ConnectionTransport} (hmem : transport ∈ listeners)
    (h : Clear leaks s) :
    ThreadSafe leaks listeners .listener (fun _ => Clear leaks) (acceptConnection transport) s := by
  unfold acceptConnection
  refine .exec Clear.stable h fun s answer s' h hdoes => ?_
  cases answer with
  | again =>
    obtain rfl := hdoes
    exact ⟨serverGuarantee_refl .listener s', h.safe_pure⟩
  | failed =>
    obtain rfl := hdoes
    exact ⟨serverGuarantee_refl .listener s', h.safe_pure⟩
  | accepted n =>
    obtain ⟨rfl, rfl⟩ := hdoes
    obtain ⟨hG, hholds⟩ := h.accept
    refine ⟨hG, ?_⟩
    -- The connection is in hand from here on. Every exit but the last closes it, and
    -- gives the reservation back if there is one.
    have hrefuse : ∀ {s'}, Holds leaks s.accepted [] s' →
        ThreadSafe leaks listeners .listener (fun _ => Clear leaks)
          (exec (.close s.accepted) >>= fun _ => pure (0 : Int)) s' :=
      fun h => h.safe_close (.inl rfl) fun s' h => (h.clear (.inl rfl)).safe_pure
    have hundo : ∀ {s'}, Holds leaks s.accepted [.granted s.accepted] s' →
        ThreadSafe leaks listeners .listener (fun _ => Clear leaks)
          (exec (.close s.accepted) >>= fun _ => exec (.release s.accepted) >>= fun _ =>
            pure (0 : Int)) s' :=
      fun h => h.safe_close (.inr rfl) fun s' h => h.safe_release fun s' h => h.safe_pure
    refine ThreadSafe.quiet Holds.stable only_connectionAllowed hholds fun allowed s' h =>
      .ite (fun _ => hrefuse h) fun _ => .exec Holds.stable h fun s' granted s'' h hdoes => ?_
    obtain ⟨hG, h⟩ := h.reserve hdoes
    refine ⟨hG, ?_⟩
    cases granted with
    | false => exact hrefuse h
    | true =>
      refine ThreadSafe.quiet Holds.stable (p := ask .calloc) (.perform trivial) h
        fun allocated s' h => .ite (fun _ => hundo h) fun _ =>
        .exec Holds.stable h fun s' created s'' h hdoes => ?_
      cases created with
      | false =>
        obtain rfl := hdoes
        exact ⟨serverGuarantee_refl .listener s'', hundo h⟩
      | true =>
        obtain rfl := hdoes
        obtain ⟨hG, hclear⟩ := h.handOver hmem
        exact ⟨hG, hclear.safe_pure⟩

theorem safe_acceptReady {ready : List (ConnectionTransport × PollEvents)}
    (hready : ∀ socket ∈ ready, socket.1 ∈ listeners) (h : Clear leaks s) :
    ThreadSafe leaks listeners .listener (fun _ => Clear leaks) (acceptReady ready) s := by
  induction ready generalizing s with
  | nil => exact h.safe_pure
  | cons socket rest ih =>
    have hrest := fun s (h : Clear leaks s) =>
      ih (fun other hother => hready other (by simp [hother])) h
    unfold acceptReady
    refine .ite (fun _ => h.safe_pure) fun _ => .ite (fun _ => ?_) fun _ => hrest s h
    exact .bind (safe_acceptConnection (hready socket (by simp)) h) fun result s h =>
      .ite (fun _ => h.safe_pure) fun _ => hrest s h

theorem safe_listenLoop (rounds : Nat) (h : Clear leaks s) :
    ThreadSafe leaks listeners .listener (fun _ => Clear leaks) (listenLoop listeners rounds)
      s := by
  induction rounds generalizing s with
  | zero =>
    refine .exec (k := pure) Clear.stable h fun s a s' h hdoes => ?_
    exact absurd hdoes id
  | succ rounds ih =>
    unfold listenLoop
    refine .quiet Clear.stable (.perform trivial) h fun stop s h => .ite (fun _ => h.safe_pure)
      fun _ => .quiet Clear.stable (.perform trivial) h fun answer s h => ?_
    cases answer with
    | interrupted => exact ih h
    | timeout => exact ih h
    | failed => exact h.safe_pure
    | ready events =>
      have hready : ∀ socket ∈ listeners.zip events, socket.1 ∈ listeners :=
        fun socket hmem => (List.of_mem_zip hmem).1
      exact ThreadSafe.bind (safe_acceptReady hready h) fun failed s h =>
        .ite (fun _ => h.safe_pure) fun _ => ih h

theorem Clear.shutdown (h : Clear leaks s) :
    ListenerGuarantee leaks listeners s s.runtimeBeginShutdown ∧
      Clear leaks s.runtimeBeginShutdown := by
  have hevents : ∀ m, s.runtimeBeginShutdown.eventsOf m = s.eventsOf m :=
    fun m => s.eventsOf_emit_of_ne (by simp [ServerEvent.connection])
  have hsound := h.sound.shutdown
  exact ⟨⟨fun _ => hsound, fun m _ => ⟨rfl, hevents m, rfl⟩, fun m hm => .inl hm⟩, hsound,
    fun m hm hargs => hevents m ▸ h.settled m hm hargs,
    fun m hm => (h.unborn m hm).untouched ⟨rfl, hevents m, rfl⟩⟩

/-- No reservation is left. -/
def Idle (leaks : Prop) (s : ServerState) : Prop := Clear leaks s ∧ s.activeConnections = 0

theorem Idle.stable : Stable (serverRely leaks listeners .listener) (Idle leaks) := by
  rintro s s' hR ⟨hclear, hactive⟩
  exact ⟨Clear.stable s s' hR hclear, Nat.eq_zero_of_le_zero (hactive ▸ hR.active)⟩

theorem safe_runtimeWaitForWorkers (rounds : Nat) (h : Clear leaks s) :
    ThreadSafe leaks listeners .listener (fun _ => Idle leaks) (runtimeWaitForWorkers rounds)
      s := by
  induction rounds generalizing s with
  | zero =>
    refine .exec (k := pure) Clear.stable h fun s a s' h hdoes => ?_
    exact absurd hdoes id
  | succ rounds ih =>
    unfold runtimeWaitForWorkers
    refine .exec Clear.stable h fun s left s' h hdoes => ?_
    obtain ⟨rfl, rfl⟩ := hdoes
    refine ⟨serverGuarantee_refl .listener s', .ite (fun _ => ?_) fun hnone => ?_⟩
    · exact .quiet Clear.stable (.perform trivial) h fun _ s h => ih h
    · exact Safe.pure Idle.stable ⟨h, by simpa using hnone⟩

theorem safe_runListeners (rounds : Nat) (h : Clear leaks s) :
    ThreadSafe leaks listeners .listener (fun _ => Idle leaks) (runListeners listeners rounds)
      s := by
  unfold runListeners
  refine .bind (safe_listenLoop rounds h) fun _ s h => .exec Clear.stable h fun s a s' h hdoes => ?_
  obtain rfl := hdoes
  obtain ⟨hG, hclear⟩ := h.shutdown
  exact ⟨hG, safe_runtimeWaitForWorkers rounds hclear⟩

end Listener

-- SUMMARY: Runs of the server: the accounts of its reservations, and which servers close every descriptor once.
import TelnetTlsServer.Server.Threads

/-!
# Runs of the server

The triples of the threads hold of every interleaving. The accounts of the
reservations are right in all of them. The listener or the worker closes the
descriptor of a connection once, on every path but one:
`ssh_transport_run_connection` owns the descriptor it is called with, but returns
before it has looked at it when an argument is missing, and a worker calls it without
hooks when the application has no `open`. `secure_server_run` only asks for an
application when it listens for SSH, and takes such a one.
-/

open Interleaving

variable {α : Type} {config : SecureServerConfig α} {ipv6 : ConnectionTransport → Bool}
  {rounds n : Nat} {p : Pool ServerThread ServerState ServerOp ServerOp.Answer Unit}

/-! ## All threads together -/

/-- A worker for SSH is called without what it needs. -/
def SecureServerConfig.leaks (config : SecureServerConfig α) (ipv6 : ConnectionTransport → Bool) :
    Prop :=
  .ssh ∈ config.listenerTransports ipv6 ∧
    (config.sshHostKeyPath.isNone || config.sessionHooks.isNone) = true

def serverPost (leaks : Prop) : ServerThread → Unit → ServerState → Prop
  | .listener, _ => Idle leaks
  | .worker n, _ => Finished leaks n

theorem safe_serverThreads (config : SecureServerConfig α) (ipv6 : ConnectionTransport → Bool)
    (rounds : Nat) (i : ServerThread) :
    ThreadSafe (config.leaks ipv6) (config.listenerTransports ipv6) i
      (serverPost (config.leaks ipv6) i) (serverThreads config ipv6 rounds i) .initial := by
  have hsound := ServerState.sound_initial (config.leaks ipv6)
  cases i with
  | listener =>
    exact safe_runListeners rounds
      ⟨hsound, fun m hm => absurd hm (Nat.not_lt_zero m), fun _ _ => ⟨rfl, rfl, rfl⟩⟩
  | worker n =>
    exact safe_connectionWorker (fun hmem hmissing => ⟨hmem, hmissing⟩) ⟨hsound, .inl rfl⟩

theorem sound_of_reachable (hp : (serverSystem config ipv6 rounds).Reachable p) :
    p.shared.Sound (config.leaks ipv6) := by
  refine Pool.shared_invariant server_compatible (safe_serverThreads config ipv6 rounds)
    (ServerState.sound_initial _) (fun i s s' hG hs => ?_) hp
  cases i with
  | listener => exact hG.sound hs
  | worker n => exact hG.sound hs

theorem post_of_done (hp : (serverSystem config ipv6 rounds).Reachable p) {i : ServerThread}
    (hi : p.threads i = .ret ()) : serverPost (config.leaks ipv6) i () p.shared :=
  Pool.post_of_ret server_compatible (safe_serverThreads config ipv6 rounds) hp hi

/-- No code of the server has to do with connection `n` any more: its worker is done,
or it has none and the listener has gone on. -/
def Over (p : Pool ServerThread ServerState ServerOp ServerOp.Answer Unit) (n : Nat) : Prop :=
  n < p.shared.accepted ∧
    ((p.shared.args n ≠ none ∧ p.threads (.worker n) = .ret ()) ∨
      (p.shared.args n = none ∧
        (n + 1 < p.shared.accepted ∨ p.threads .listener = .ret ())))

theorem eventsOf_of_over (hp : (serverSystem config ipv6 rounds).Reachable p) (h : Over p n) :
    Settled n (p.shared.eventsOf n) ∨
      config.leaks ipv6 ∧ p.shared.eventsOf n = [.granted n, .released n] := by
  obtain ⟨hcame, ⟨hargs, hdone⟩ | ⟨hargs, hlater | hdone⟩⟩ := h
  · obtain ⟨-, hevents | hleaked⟩ := post_of_done hp hdone
    · exact .inl (.inr hevents)
    · exact .inr hleaked
  · refine .inl ((sound_of_reachable hp).settled n ?_)
    rintro (hlast | hrunning)
    · exact absurd hlast (Nat.not_le.mpr hlater)
    · exact hrunning hargs
  · exact .inl ((post_of_done hp hdone).1.settled n hcame hargs)

/-! ## A first connection -/

/-- The listener has created a worker for the first connection, which is for SSH. -/
def ServerState.sshHanded : ServerState where
  activeConnections := 1
  stopping := false
  accepted := 1
  args := Function.update (fun _ => none) 0 (some .ssh)
  attached := fun _ => false
  history := [.granted 0]

theorem steps_runListeners : ∃ rest,
    (runListeners [.telnet, .telnetTls, .ssh] 1).Steps serverSem .listener .initial rest
      .sshHanded := by
  -- The third socket is readable, and every call on the way to the worker succeeds.
  refine ⟨_, .call (a := false) rfl (.call
    (a := .ready [⟨false, false⟩, ⟨false, false⟩, ⟨false, true⟩]) rfl (.call
    (a := .accepted 0) ⟨rfl, rfl⟩ (.call (a := (1 : UInt64)) rfl (.call (a := true) rfl (.call
    (a := true) rfl (.call (a := true) rfl (.call (a := true) rfl (.refl _ _))))))))⟩

theorem sshHanded_reachable (hport : config.sshPort ≠ 0) :
    ∃ rest, (serverSystem config (fun _ => false) 1).Reachable
      ⟨.sshHanded, Function.update (serverThreads config (fun _ => false) 1) .listener rest⟩ := by
  have hlisteners : config.listenerTransports (fun _ => false) = [.telnet, .telnetTls, .ssh] := by
    simp [SecureServerConfig.listenerTransports, hport]
  obtain ⟨rest, hsteps⟩ := steps_runListeners
  rw [← hlisteners] at hsteps
  exact ⟨rest, Pool.reachable_of_steps hsteps (.init rfl) rfl⟩

/-! ## Reservations -/

/-- In every interleaving `active_connections` is the number of reservations granted and
not yet released. It stays within the cap, the guard of the release never fires, every
reservation is released once on every path, none is granted after the shutdown began,
and the listener does not end before all are released. -/
theorem worker_accounting (hp : (serverSystem config ipv6 rounds).Reachable p) :
    p.shared.activeConnections = (outstanding p.shared.history).card ∧
    p.shared.activeConnections ≤ maxActiveConnections ∧
    (∀ n, .underflow n ∉ p.shared.history ∧
      p.shared.history.count (.released n) ≤ p.shared.history.count (.granted n) ∧
      p.shared.history.count (.granted n) ≤ 1) ∧
    (∀ n, Over p n →
      p.shared.history.count (.released n) = p.shared.history.count (.granted n)) ∧
    NoneLate p.shared.history ∧
    (p.threads .listener = .ret () → outstanding p.shared.history = ∅) := by
  have hsound := sound_of_reachable hp
  refine ⟨hsound.active, hsound.cap, fun n => ?_, fun n hover => ?_, hsound.noneLate,
    fun hdone => ?_⟩
  · obtain ⟨hguard, hreleased, hgranted, -⟩ := (hsound.life n).counts
    rw [← ServerState.mem_eventsOf (n := n) rfl, ← ServerState.count_eventsOf (n := n) rfl,
      ← ServerState.count_eventsOf (n := n) rfl]
    exact ⟨hguard, hreleased, hgranted⟩
  · rw [← ServerState.count_eventsOf (n := n) rfl, ← ServerState.count_eventsOf (n := n) rfl]
    rcases eventsOf_of_over hp hover with (hevents | hevents) | ⟨-, hevents⟩ <;> simp [hevents]
  · have hzero := (post_of_done hp hdone).2
    rw [hsound.active, Finset.card_eq_zero] at hzero
    exact hzero

theorem worker_accounting_handed :
    ∃ p, (serverSystem (.harness .idle) (fun _ => false) 1).Reachable p ∧
      p.shared.activeConnections = 1 ∧
      p.shared.activeConnections = (outstanding p.shared.history).card := by
  have hport : (SecureServerConfig.harness Application.idle).sshPort ≠ 0 := by decide
  obtain ⟨rest, hp⟩ := sshHanded_reachable hport
  exact ⟨_, hp, rfl, (worker_accounting hp).1⟩

/-! ## Descriptors -/

theorem SecureServerConfig.not_leaks (hvalid : config.valid = true)
    (h : config.sshPort = 0 ∨ config.hooks.open_.isSome = true)
    (ipv6 : ConnectionTransport → Bool) : ¬ config.leaks ipv6 := by
  rintro ⟨hlistens, hmissing⟩
  have hport := ssh_mem_listenerTransports.mp hlistens
  have hkey : config.sshHostKeyPath.isNone = false := by
    simp only [valid, Bool.not_eq_true', Bool.or_eq_false_iff, Bool.and_eq_false_iff,
      decide_eq_false_iff_not] at hvalid
    exact (hvalid.2.resolve_left (not_not_intro hport)).1.1.1
  have hopen := h.resolve_left hport
  simp [hkey, sessionHooks, hopen] at hmissing

def ServerState.sshLeaked : ServerState :=
  { sshHanded with activeConnections := 0, history := [.granted 0, .released 0] }

theorem steps_connectionWorker (hopen : config.sessionHooks = none) (rounds : Nat) :
    (connectionWorker config rounds 0).Steps serverSem (.worker 0) .sshHanded (.ret ())
      .sshLeaked := by
  have hreturn : sshTransportRunConnection config.sshHostKeyPath config.sessionHooks rounds 0 =
      pure () := by
    simp [sshTransportRunConnection, hopen]
  refine .call (a := .ssh) ⟨rfl, rfl⟩ ?_
  change Prog.Steps serverSem _ (sshTransportRunConnection _ _ _ _ >>= fun _ => exec (.release 0))
    _ _ _
  rw [hreturn]
  exact .call (a := ()) rfl (.refl _ _)

/-- A server that listens for SSH without a hook to open a session leaves the
descriptor of its first connection open. -/
theorem leak_reachable (hport : config.sshPort ≠ 0) (hopen : config.hooks.open_.isSome = false) :
    ∃ p, (serverSystem config (fun _ => false) 1).Reachable p ∧ Over p 0 ∧
      p.shared.history = [.granted 0, .released 0] := by
  have hhooks : config.sessionHooks = none := by
    simp [SecureServerConfig.sessionHooks, hopen]
  obtain ⟨rest, hhanded⟩ := sshHanded_reachable hport
  have hleaked := Pool.reachable_of_steps (steps_connectionWorker hhooks 1) hhanded
    (Function.update_of_ne (by simp) ..)
  refine ⟨_, hleaked, ⟨Nat.one_pos, .inl ⟨?_, ?_⟩⟩, rfl⟩
  · simp [ServerState.sshLeaked, ServerState.sshHanded]
  · simp

/-- What the server does with descriptors in every interleaving: it never closes one
twice, and has closed each once when it is done with the connection. -/
def ClosesOnce (config : SecureServerConfig α) : Prop :=
  ∀ ipv6 rounds p n, (serverSystem config ipv6 rounds).Reachable p →
    p.shared.history.count (.closed n) ≤ 1 ∧
      (Over p n → p.shared.history.count (.closed n) = 1)

theorem closesOnce_iff (hvalid : config.valid = true) :
    ClosesOnce config ↔ config.sshPort = 0 ∨ config.hooks.open_.isSome = true := by
  constructor
  · intro hcloses
    by_contra hleaks
    simp only [not_or, Bool.not_eq_true] at hleaks
    obtain ⟨p, hp, hover, hhistory⟩ := leak_reachable hleaks.1 hleaks.2
    have hclosed := (hcloses _ _ p 0 hp).2 hover
    rw [hhistory] at hclosed
    cases hclosed
  · intro h ipv6 rounds p n hp
    rw [← ServerState.count_eventsOf (n := n) rfl]
    refine ⟨((sound_of_reachable hp).life n).counts.2.2.2, fun hover => ?_⟩
    rcases eventsOf_of_over hp hover with (hevents | hevents) | ⟨hleaks, -⟩
    · simp [hevents]
    · simp [hevents]
    · exact absurd hleaks (SecureServerConfig.not_leaks hvalid h ipv6)

theorem closesOnce_iff_harness :
    (SecureServerConfig.harness Application.idle).valid = true ∧
      ClosesOnce (SecureServerConfig.harness Application.idle) := by
  have hvalid : (SecureServerConfig.harness Application.idle).valid = true := by decide
  exact ⟨hvalid, (closesOnce_iff hvalid).mpr (.inr rfl)⟩

/-- The server takes an application without hooks and leaves the first descriptor
open. -/
theorem open_after_release :
    (SecureServerConfig.harness (.absent Unit)).valid = true ∧
      ∃ p, (serverSystem (.harness (.absent Unit)) (fun _ => false) 1).Reachable p ∧ Over p 0 ∧
        p.shared.history.count (.closed 0) = 0 := by
  have hport : (SecureServerConfig.harness (.absent Unit)).sshPort ≠ 0 := by decide
  obtain ⟨p, hp, hover, hhistory⟩ := leak_reachable hport rfl
  refine ⟨by decide, p, hp, hover, ?_⟩
  rw [hhistory]
  rfl

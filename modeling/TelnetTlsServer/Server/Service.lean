-- SUMMARY: The store and the policy that all sessions share, as the backend of one of them, with the system calls the others make in between.
import TelnetTlsServer.Policy.SecurityPolicy
import TelnetTlsServer.Session.Authentication
import TelnetTlsServer.Store.Accounts

/-!
# The shared service

A session calls the store and the policy, and other sessions call them at the same time.
Here the two are the backend of one session. The store has no lock: the calls of the
others are threads that go on, one system call at a time, before each system call of this
session. The policy is locked, so a call of it is one step. Who goes on when, and how each
system call ends, is taken from a script. What holds for one session and every script
holds for every session of a server.
-/

open Interleaving

/-- A step of another session, or of the listener. -/
inductive SharedStep (ι : Type) where
  | store (i : ι) (choice : Choice)
  | allowConnection (peer : Bytes) (nowMs : UInt64)
  | allowAuthAttempt (peer name : Bytes) (nowMs : UInt64)
  | noteAuthFailure (peer name : Bytes) (nowMs : UInt64)
  | noteAuthSuccess (peer name : Bytes) (nowMs : UInt64)
  | allowAccountCreation (peer : Bytes) (nowMs : UInt64)

/-- What the others do before a call of this session, and the outcome of that call where it
is a system call. -/
structure Turn (ι : Type) where
  others : List (SharedStep ι)
  choice : Choice

/-- The party `none` is this session, and `others` are the store calls of the others as far
as they still have to go. -/
structure Service (ι : Type) where
  world : World (Option ι)
  others : ι → StoreProg Int
  policy : SecurityPolicy
  script : List (Turn ι)

variable {ι : Type} [Fintype ι] [DecidableEq ι]

namespace SharedStep

/-- A store call that is done, or whose next system call cannot have this outcome, waits. -/
def on (crypto : Crypto) (s : Service ι) : SharedStep ι → Service ι
  | store i choice =>
      match s.others i with
      | .ret _ => s
      | .call call k =>
          match s.world.attempt crypto (some i) call choice with
          | none => s
          | some (answer, world) =>
              { s with world := world, others := Function.update s.others i (k answer) }
  | allowConnection peer nowMs =>
      { s with policy := (s.policy.securityPolicyAllowConnection peer nowMs).policy }
  | allowAuthAttempt peer name nowMs =>
      { s with policy := (s.policy.securityPolicyAllowAuthAttempt peer name nowMs).policy }
  | noteAuthFailure peer name nowMs =>
      { s with policy := s.policy.securityPolicyNoteAuthFailure peer name nowMs }
  | noteAuthSuccess peer name nowMs =>
      { s with policy := s.policy.securityPolicyNoteAuthSuccess peer name nowMs }
  | allowAccountCreation peer nowMs =>
      { s with policy := (s.policy.securityPolicyAllowAccountCreation peer nowMs).policy }

end SharedStep

namespace Service

/-- A service at its start, in the directory of `d`, with the store calls that others will
make. -/
def start {κ : Type} (crypto : Crypto) (directory : Bytes) (calls : ι → StoreCall) (d : Disk κ)
    (policy : SecurityPolicy) : Service ι where
  world := World.start d.found
  others i := (calls i).prog crypto directory
  policy := policy
  script := []

def turn (s : Service ι) : Turn ι := s.script.headD ⟨[], .fail⟩

/-- What the others do before the next call. -/
def interlude (crypto : Crypto) (s : Service ι) : Service ι :=
  s.turn.others.foldl (SharedStep.on crypto) { s with script := s.script.tail }

/-- A system call of this session. -/
def sysCall (crypto : Crypto) (call : Call) (s : Service ι) : call.Answer × Service ι :=
  let choice := s.turn.choice
  let s := s.interlude crypto
  let (answer, world) := s.world.settle crypto none call choice
  (answer, { s with world := world })

/-- A function of the store, called by this session. -/
def call {ρ : Type} (crypto : Crypto) (s : Service ι) (p : StoreProg ρ) : ρ × Service ι :=
  p.exec (sysCall crypto) s

/-- A question to the policy. -/
def ask (crypto : Crypto) (s : Service ι) (question : SecurityPolicy → PolicyAnswer) :
    Bool × Service ι :=
  let s := s.interlude crypto
  let answer := question s.policy
  (answer.allowed, { s with policy := answer.policy })

/-- A note to the policy. -/
def tell (crypto : Crypto) (s : Service ι) (note : SecurityPolicy → SecurityPolicy) : Service ι :=
  let s := s.interlude crypto
  { s with policy := note s.policy }

def backend (crypto : Crypto) (directory : Bytes) : Backend (Service ι) where
  exists_ s name := s.call crypto (playerStoreExists directory name)
  verifyPassword s name password :=
    s.call crypto (playerStoreVerifyPassword crypto directory name password)
  preparePassword s password token := s.call crypto (playerStorePreparePassword password token)
  passwordMatches s token password := (playerStorePasswordMatches crypto token password, s)
  create s name token := s.call crypto (playerStoreCreate directory name token)
  allowAuthAttempt s peer name nowMs :=
    s.ask crypto (·.securityPolicyAllowAuthAttempt peer name nowMs)
  noteAuthFailure s peer name nowMs :=
    s.tell crypto (·.securityPolicyNoteAuthFailure peer name nowMs)
  noteAuthSuccess s peer name nowMs :=
    s.tell crypto (·.securityPolicyNoteAuthSuccess peer name nowMs)
  allowAccountCreation s peer nowMs :=
    s.ask crypto (·.securityPolicyAllowAccountCreation peer nowMs)

abbrev accounts (crypto : Crypto) (s : Service ι) : Set Account := s.world.accounts crypto

/-- A system call has failed in a call of this session's own. -/
def faulted (s : Service ι) : Bool := faulty (s.world.log none)

end Service

/-! ## What the calls do to the accounts -/

/-- What the answer of a call means, by the accounts there were at first and those there
are now. -/
def BackendCall.Right (crypto : Crypto) (before now : Set Account) (faulted : Prop) :
    BackendCall → Prop
  | .exists_ name answer => (AccountCall.probe name).Right before now faulted answer
  | .verifyPassword name password answer =>
      (AccountCall.verify name password).Right before now faulted answer
  | .passwordMatches token password answer =>
      answer = 1 → crypto.passwordOf token.string = some password
  | .create name token answer =>
      (StoreCall.create ⟨name, token⟩).Ready crypto ∧
        (StoreCall.create ⟨name, token⟩).Right crypto before now faulted answer
  | .preparePassword .. | .allowAuthAttempt .. | .noteAuthFailure .. | .noteAuthSuccess ..
  | .allowAccountCreation .. => True

/-- An answer stays right, from earlier accounts to later ones. -/
theorem BackendCall.Right.mono {crypto : Crypto} {before before' now now' : Set Account}
    {faulted faulted' : Prop} {call : BackendCall} (h : call.Right crypto before now faulted)
    (hbefore : before' ⊆ before) (hnow : now ⊆ now') (hfaulted : faulted → faulted') :
    call.Right crypto before' now' faulted' := by
  cases call with
  | exists_ | verifyPassword => exact AccountCall.Right.mono h hbefore hnow hfaulted
  | create => exact ⟨h.1, h.2.mono hbefore hnow hfaulted⟩
  | passwordMatches => exact h
  | preparePassword | allowAuthAttempt | noteAuthFailure | noteAuthSuccess
  | allowAccountCreation => trivial

namespace Service

open Verification

/-- The others keep to what each call of the store does. -/
def Amid (crypto : Crypto) (s : Service ι) : Prop :=
  ∀ i, Behaves (steadfast crypto) crypto recordLeaves Set.univ (some i) (fun _ _ => True)
    (s.others i) s.world

/-- The store is in order, and this session is not in the middle of a call. -/
structure Holds (crypto : Crypto) (s : Service ι) : Prop where
  amid : s.Amid crypto
  sound : Sound crypto recordLeaves s.world
  held : heldName (s.world.log none) = none

/-- What a later state of the service has: accounts are only added, and this session's
calls have been answered rightly. -/
structure Follows (crypto : Crypto) (s : Service ι) (calls : List BackendCall) (s' : Service ι) :
    Prop where
  holds : s'.Holds crypto
  grown : s.accounts crypto ⊆ s'.accounts crypto
  faulted : s.faulted = true → s'.faulted = true
  right : ∀ call ∈ calls, call.Right crypto (s.accounts crypto) (s'.accounts crypto)
    (s'.faulted = true)

/-- From one state of the service to a later one, where the first is in order. -/
def Leads (crypto : Crypto) (s : Service ι) (calls : List BackendCall) (s' : Service ι) : Prop :=
  s.Holds crypto → s.Follows crypto calls s'

variable {crypto : Crypto} {directory : Bytes} {s s' s'' : Service ι}

omit [Fintype ι] in
theorem Leads.refl (crypto : Crypto) (s : Service ι) : Leads crypto s [] s :=
  fun h => ⟨h, subset_rfl, id, by simp⟩

omit [Fintype ι] in
theorem Leads.trans {calls calls' : List BackendCall} (h : Leads crypto s calls s')
    (h' : Leads crypto s' calls' s'') : Leads crypto s (calls ++ calls') s'' := by
  intro hs
  have hfirst := h hs
  have hsecond := h' hfirst.holds
  refine ⟨hsecond.holds, hfirst.grown.trans hsecond.grown,
    fun hfaulted => hsecond.faulted (hfirst.faulted hfaulted), fun call hcall => ?_⟩
  rcases List.mem_append.mp hcall with hcall | hcall
  · exact (hfirst.right call hcall).mono subset_rfl hsecond.grown hsecond.faulted
  · exact (hsecond.right call hcall).mono hfirst.grown subset_rfl id

/-! ### The others -/

omit [Fintype ι] in
theorem compatible_all (crypto : Crypto) :
    Compatible (Rely crypto recordLeaves)
      (fun i : Option ι => Guarantee crypto recordLeaves Set.univ i) :=
  compatible crypto recordLeaves fun _ => Set.univ

theorem amid_on (step : SharedStep ι) (h : s.Amid crypto) :
    (step.on crypto s).Amid crypto ∧
      Rely crypto recordLeaves none s.world (step.on crypto s).world := by
  cases step with
  | store i choice =>
    unfold SharedStep.on
    dsimp only
    split
    · exact ⟨h, rely_refl _⟩
    case h_2 call k hthread =>
    split
    · exact ⟨h, rely_refl _⟩
    case h_2 answer world hattempt =>
    have hi := h i
    rw [hthread] at hi
    obtain ⟨hG, hk⟩ := hi _ (rely_refl _) _ _ (World.steadfast_of_attempt hattempt)
    refine ⟨fun j => ?_, (compatible_all crypto).within _ _ (by simp) _ _ hG⟩
    by_cases hij : j = i
    · subst hij
      simpa using hk
    · simp only [Function.update_of_ne hij]
      exact (h j).of_rely ((compatible_all crypto).trans _)
        ((compatible_all crypto).within _ _ (by simpa using Ne.symm hij) _ _ hG)
  | allowConnection | allowAuthAttempt | noteAuthFailure | noteAuthSuccess
  | allowAccountCreation => exact ⟨h, rely_refl _⟩

theorem amid_foldl (steps : List (SharedStep ι)) (h : s.Amid crypto) :
    (steps.foldl (SharedStep.on crypto) s).Amid crypto ∧
      Rely crypto recordLeaves none s.world (steps.foldl (SharedStep.on crypto) s).world := by
  induction steps generalizing s with
  | nil => exact ⟨h, rely_refl _⟩
  | cons step rest ih =>
    obtain ⟨hon, hR⟩ := amid_on step h
    obtain ⟨hend, hR'⟩ := ih hon
    exact ⟨hend, (compatible_all crypto).trans none _ _ _ hR hR'⟩

theorem amid_interlude (h : s.Amid crypto) :
    (s.interlude crypto).Amid crypto ∧
      Rely crypto recordLeaves none s.world (s.interlude crypto).world :=
  amid_foldl s.turn.others (s := { s with script := s.script.tail }) h

/-- The log of this session starts anew. -/
def forget (w : World (Option ι)) : World (Option ι) :=
  { w with log := Function.update w.log none [] }

omit [Fintype ι] in
theorem sound_forget {w : World (Option ι)} (h : Sound crypto recordLeaves w) :
    Sound crypto recordLeaves (forget w) := by
  have hheld : ∀ {j : Option ι} {temp : Bytes},
      heldName ((forget w).log j) = some temp → heldName (w.log j) = some temp := by
    intro j temp hj
    cases j with
    | none => cases hj
    | some j => exact hj
  exact ⟨h.recorded, fun j temp hj => h.apart j temp (hheld hj),
    fun j k temp hj hk => h.distinct j k temp (hheld hj) (hheld hk)⟩

omit [Fintype ι] in
/-- The others do not look at it. -/
theorem rely_forget (w : World (Option ι)) (i : ι) :
    Rely crypto recordLeaves (some i) w (forget w) :=
  ⟨fun h => ⟨sound_forget h, subset_rfl⟩, rfl, fun _ => rfl, fun _ _ hfile _ => hfile,
    fun _ _ => rfl⟩

/-! ### The calls of this session -/

theorem leads_interlude (s : Service ι) : Leads crypto s [] (s.interlude crypto) := by
  intro h
  obtain ⟨hamid, hR⟩ := amid_interlude h.amid
  obtain ⟨hsound, hgrown⟩ := hR.sound h.sound
  exact ⟨⟨hamid, hsound, by rw [hR.log]; exact h.held⟩, hgrown,
    by unfold faulted; rw [hR.log]; exact id, by simp⟩

/-- A function of the store that behaves leads on, whatever the others do between its
system calls. -/
theorem leads_call {ρ : Type} {p : StoreProg ρ} (made : ρ → List BackendCall)
    (hp : ∀ {before : Set Account} {w : World (Option ι)},
      Resting crypto recordLeaves none before Unnoted w →
      Behaves (steadfast crypto) crypto recordLeaves Set.univ none
        (fun r w => Resting crypto recordLeaves none before Unnoted w ∧ ∀ call ∈ made r,
          call.Right crypto before (w.accounts crypto) (Faulted (w.log none))) p w) :
    Leads crypto s (made (s.call crypto p).1) (s.call crypto p).2 := by
  intro h
  have hrun : ∀ (call : Call) (t : Service ι),
      t.Amid crypto ∧ (s.faulted = true → t.faulted = true) →
      ∃ w, Rely crypto recordLeaves none t.world w ∧
        steadfast crypto none call w (t.sysCall crypto call).1 (t.sysCall crypto call).2.world ∧
        (Guarantee crypto recordLeaves Set.univ none w (t.sysCall crypto call).2.world →
          (t.sysCall crypto call).2.Amid crypto ∧
            (s.faulted = true → (t.sysCall crypto call).2.faulted = true)) := by
    rintro call t ⟨hamid, hfaulted⟩
    obtain ⟨hamid', hR⟩ := amid_interlude hamid
    have hcall := (t.interlude crypto).world.steadfast_settle crypto none call t.turn.choice
    refine ⟨_, hR, hcall, fun hG => ⟨fun i => ?_, fun hs => ?_⟩⟩
    · exact (hamid' i).of_rely ((compatible_all crypto).trans _)
        ((compatible_all crypto).within _ _ (by simp) _ _ hG)
    · obtain ⟨choice, d, -, hworld⟩ := World.exists_perform hcall.1.1
      have hold : faulty ((t.interlude crypto).world.log none) = true := by
        rw [hR.log]
        exact hfaulted hs
      show faulty (((t.interlude crypto).world.settle crypto none call t.turn.choice).2.log none) =
        true
      rw [hworld, World.faulty_record, hold]
      rfl
  obtain ⟨⟨hamid, hfaulted⟩, hresting, hright⟩ := Safe.exec rely_refl hrun ⟨h.amid, id⟩
    (hp ⟨h.sound, subset_rfl, h.held, trivial⟩)
  exact ⟨⟨hamid, hresting.sound, hresting.held⟩, hresting.grown, hfaulted, hright⟩

/-- The policy is asked, and told, without the store. -/
theorem leads_policy (policy : SecurityPolicy) {call : BackendCall}
    (hcall : ∀ before now faulted, call.Right crypto before now faulted) :
    Leads crypto s [call] { s.interlude crypto with policy := policy } := by
  have hpolicy : ∀ t : Service ι, Leads crypto t [call] { t with policy := policy } :=
    fun t ht => ⟨⟨ht.amid, ht.sound, ht.held⟩, subset_rfl, id,
      List.forall_mem_singleton.mpr (hcall _ _ _)⟩
  exact (leads_interlude s).trans (hpolicy (s.interlude crypto))

end Service

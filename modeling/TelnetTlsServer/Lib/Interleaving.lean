-- SUMMARY: Threads that share a state and are interleaved operation by operation, with a rely-guarantee rule for them.
import Mathlib.Logic.Function.Basic
import TelnetTlsServer.Lib.Transition

/-!
# Interleaved threads

A thread is a tree of operations that branches on their answers. Threads of a
pool share one state; a step of the pool is one operation of one thread, and the
meaning of an operation is a relation, so that it may fail or choose.

`Safe` is the rely-guarantee triple of a thread: whatever the others do within
the rely `R`, every operation of the thread stays within the guarantee `G`, and
a result meets the postcondition. When every guarantee lies within the relies of
the other threads, the threads of a pool are safe in every state it reaches.
-/

namespace Interleaving

/-- A thread: it is done, or it performs an operation and goes on with the
answer. -/
inductive Prog (Op : Type) (Ans : Op → Type) (ρ : Type) where
  | ret (result : ρ)
  | call (op : Op) (k : Ans op → Prog Op Ans ρ)

/-- What an operation of thread `i` may answer and do to the shared state. -/
abbrev Sem (ι σ Op : Type) (Ans : Op → Type) := ι → (op : Op) → σ → Ans op → σ → Prop

variable {ι σ Op ρ ρ' : Type} {Ans : Op → Type}

namespace Prog

def bind : Prog Op Ans ρ → (ρ → Prog Op Ans ρ') → Prog Op Ans ρ'
  | .ret r, f => f r
  | .call op k, f => .call op fun a => (k a).bind f

/-- One operation, whose answer is the result. -/
def perform (op : Op) : Prog Op Ans (Ans op) := .call op .ret

instance : Monad (Prog Op Ans) where
  pure := .ret
  bind := bind

/-- Every operation of the thread is in `Q`, whatever the answers are. -/
def Only (Q : Op → Prop) : Prog Op Ans ρ → Prop
  | .ret _ => True
  | .call op k => Q op ∧ ∀ a, (k a).Only Q

variable {Q : Op → Prop}

theorem Only.perform {op : Op} (h : Q op) : (perform op : Prog Op Ans (Ans op)).Only Q :=
  ⟨h, fun _ => trivial⟩

theorem Only.call {op : Op} {k : Ans op → Prog Op Ans ρ} (h : Q op) (hk : ∀ a, (k a).Only Q) :
    (Prog.perform op >>= k).Only Q :=
  ⟨h, hk⟩

theorem Only.ite {c : Prop} [Decidable c] {p p' : Prog Op Ans ρ} (hp : p.Only Q)
    (hp' : p'.Only Q) : (if c then p else p').Only Q := by
  split
  · exact hp
  · exact hp'

theorem Only.bind {p : Prog Op Ans ρ} {f : ρ → Prog Op Ans ρ'} (hp : p.Only Q)
    (hf : ∀ r, (f r).Only Q) : (p >>= f).Only Q := by
  induction p with
  | ret r => exact hf r
  | call op k ih => exact ⟨hp.1, fun a => ih a (hp.2 a)⟩

end Prog

/-! ## Pools -/

structure Pool (ι σ Op : Type) (Ans : Op → Type) (ρ : Type) where
  shared : σ
  threads : ι → Prog Op Ans ρ

namespace Pool

variable [DecidableEq ι]

inductive Step (sem : Sem ι σ Op Ans) : ι → Pool ι σ Op Ans ρ → Pool ι σ Op Ans ρ → Prop where
  | call {i : ι} {p : Pool ι σ Op Ans ρ} {op : Op} {k : Ans op → Prog Op Ans ρ} {a : Ans op}
      {s : σ} (hthread : p.threads i = .call op k) (hsem : sem i op p.shared a s) :
      Step sem i p ⟨s, Function.update p.threads i (k a)⟩

/-- The runs of the threads `progs` from the shared state `s`. -/
def system (sem : Sem ι σ Op Ans) (s : σ) (progs : ι → Prog Op Ans ρ) :
    Transition.System (Pool ι σ Op Ans ρ) ι where
  init p := p = ⟨s, progs⟩
  step := Step sem

/-- Runs of a semantics are runs of one that allows more. -/
theorem reachable_mono {sem sem' : Sem ι σ Op Ans} {s : σ} {progs : ι → Prog Op Ans ρ}
    {p : Pool ι σ Op Ans ρ} (hsem : ∀ i op s a s', sem i op s a s' → sem' i op s a s')
    (hp : (system sem s progs).Reachable p) : (system sem' s progs).Reachable p := by
  induction hp with
  | init h => exact .init h
  | step _ hstep ih =>
    cases hstep with
    | call hthread hcall => exact .step ih (.call hthread (hsem _ _ _ _ _ hcall))

end Pool

/-! ## One thread alone -/

/-- Operations of thread `i` while the others wait. -/
inductive Prog.Steps (sem : Sem ι σ Op Ans) (i : ι) :
    Prog Op Ans ρ → σ → Prog Op Ans ρ → σ → Prop where
  | refl (p : Prog Op Ans ρ) (s : σ) : Steps sem i p s p s
  | call {op : Op} {k : Ans op → Prog Op Ans ρ} {a : Ans op} {q : Prog Op Ans ρ} {s s' t : σ}
      (hsem : sem i op s a s') (h : Steps sem i (k a) s' q t) : Steps sem i (.call op k) s q t

theorem Pool.reachable_of_steps [DecidableEq ι] {sem : Sem ι σ Op Ans} {i : ι} {s₀ s t : σ}
    {progs threads : ι → Prog Op Ans ρ} {p q : Prog Op Ans ρ} (hsteps : p.Steps sem i s q t)
    (hp : (system sem s₀ progs).Reachable ⟨s, threads⟩) (hthread : threads i = p) :
    (system sem s₀ progs).Reachable ⟨t, Function.update threads i q⟩ := by
  induction hsteps generalizing threads with
  | refl p s =>
    rw [← hthread, Function.update_eq_self]
    exact hp
  | call hsem _ ih =>
    rw [← Function.update_idem]
    exact ih (.step hp (.call hthread hsem)) (Function.update_self ..)

/-- The result of a thread alone when its operations are functions, and the state it
leaves; none when it gets stuck. -/
def Prog.eval (run : (op : Op) → σ → Option (Ans op × σ)) : Prog Op Ans ρ → σ → Option (ρ × σ)
  | .ret r, s => some (r, s)
  | .call op k, s => (run op s).bind fun answer => (k answer.1).eval run answer.2

namespace Prog

variable {run : (op : Op) → σ → Option (Ans op × σ)}

theorem eval_perform {op : Op} {k : Ans op → Prog Op Ans ρ} {s s' : σ} {a : Ans op}
    (h : run op s = some (a, s')) : (Prog.perform op >>= k).eval run s = (k a).eval run s' := by
  show (run op s).bind _ = _
  rw [h]
  rfl

theorem eval_bind {p : Prog Op Ans ρ} {f : ρ → Prog Op Ans ρ'} {s s' : σ} {r : ρ}
    (h : p.eval run s = some (r, s')) : (p >>= f).eval run s = (f r).eval run s' := by
  induction p generalizing s with
  | ret r' =>
    cases h
    rfl
  | call op k ih =>
    obtain ⟨answer, hrun, hrest⟩ := Option.bind_eq_some_iff.mp h
    exact (congrArg (Option.bind · _) hrun).trans (ih answer.1 hrest)

/-- What it computes is a run. -/
theorem steps_of_eval {sem : Sem ι σ Op Ans} {i : ι}
    (hsem : ∀ op s a s', run op s = some (a, s') → sem i op s a s') {p : Prog Op Ans ρ} {s s' : σ}
    {r : ρ} (h : p.eval run s = some (r, s')) : p.Steps sem i s (.ret r) s' := by
  induction p generalizing s with
  | ret r' =>
    cases h
    exact .refl _ _
  | call op k ih =>
    obtain ⟨answer, hrun, hrest⟩ := Option.bind_eq_some_iff.mp h
    exact .call (hsem op s answer.1 answer.2 hrun) (ih answer.1 hrest)

end Prog

/-! ## Replay

A semantics can be given by a function that also takes the choices the relation
leaves open. A list of such choices then determines a run. -/

/-- The semantics of operations that compute from a choice. -/
def semOf {χ : Type} (run : ι → (op : Op) → σ → χ → Option (Ans op × σ)) : Sem ι σ Op Ans :=
  fun i op s a s' => ∃ choice, run i op s choice = some (a, s')

namespace Pool

variable [DecidableEq ι] {χ : Type}

def next (run : ι → (op : Op) → σ → χ → Option (Ans op × σ)) (p : Pool ι σ Op Ans ρ) (i : ι)
    (choice : χ) : Option (Pool ι σ Op Ans ρ) :=
  match p.threads i with
  | .ret _ => none
  | .call op k =>
      (run i op p.shared choice).map fun r => ⟨r.2, Function.update p.threads i (k r.1)⟩

def replay (run : ι → (op : Op) → σ → χ → Option (Ans op × σ)) (p : Pool ι σ Op Ans ρ) :
    List (ι × χ) → Option (Pool ι σ Op Ans ρ)
  | [] => some p
  | step :: steps => (p.next run step.1 step.2).bind fun p' => replay run p' steps

theorem step_of_next {run : ι → (op : Op) → σ → χ → Option (Ans op × σ)}
    {p p' : Pool ι σ Op Ans ρ} {i : ι} {choice : χ} (h : p.next run i choice = some p') :
    Step (semOf run) i p p' := by
  unfold next at h
  split at h
  · cases h
  case h_2 op k hthread =>
    obtain ⟨r, hr, rfl⟩ := Option.map_eq_some_iff.mp h
    exact .call hthread ⟨choice, hr⟩

theorem run_of_replay {run : ι → (op : Op) → σ → χ → Option (Ans op × σ)} {sem : Sem ι σ Op Ans}
    {s : σ} {progs : ι → Prog Op Ans ρ} {p p' q : Pool ι σ Op Ans ρ} {n : Nat}
    (hsem : ∀ i op s a s', semOf run i op s a s' → sem i op s a s') (steps : List (ι × χ))
    (hp : (system sem s progs).Run (fun _ => True) n q p) (h : p.replay run steps = some p') :
    ∃ m, (system sem s progs).Run (fun _ => True) m q p' := by
  induction steps generalizing p n with
  | nil =>
    obtain rfl := Option.some.inj h
    exact ⟨n, hp⟩
  | cons step steps ih =>
    obtain ⟨p₁, hnext, hrest⟩ := Option.bind_eq_some_iff.mp h
    cases step_of_next hnext with
    | call hthread hcall => exact ih (.tail hp trivial (.call hthread (hsem _ _ _ _ _ hcall))) hrest

theorem reachable_of_replay {run : ι → (op : Op) → σ → χ → Option (Ans op × σ)} {s : σ}
    {progs : ι → Prog Op Ans ρ} {p p' : Pool ι σ Op Ans ρ} (steps : List (ι × χ))
    (hp : (system (semOf run) s progs).Reachable p) (h : p.replay run steps = some p') :
    (system (semOf run) s progs).Reachable p' := by
  obtain ⟨n, hrun⟩ := run_of_replay (fun _ _ _ _ _ => id) steps (.refl p) h
  exact hrun.reachable hp

end Pool

/-! ## Rely and guarantee -/

/-- Thread `i` with the code `p` is safe from the state `s`. Both clauses look at
the states the others may have moved to in the meantime. -/
def Safe (sem : Sem ι σ Op Ans) (i : ι) (R G : σ → σ → Prop) (post : ρ → σ → Prop) :
    Prog Op Ans ρ → σ → Prop
  | .ret r, s => ∀ s', R s s' → post r s'
  | .call op k, s => ∀ s', R s s' → ∀ a s'', sem i op s' a s'' →
      G s' s'' ∧ Safe sem i R G post (k a) s''

section Rules

variable {sem : Sem ι σ Op Ans} {i : ι} {R G : σ → σ → Prop} {post : ρ → σ → Prop} {s s' : σ}

/-- A predicate the other threads cannot falsify. -/
def Stable (R : σ → σ → Prop) (P : σ → Prop) : Prop := ∀ s s', R s s' → P s → P s'

theorem Safe.pure {r : ρ} (hstable : Stable R (post r)) (h : post r s) :
    Safe sem i R G post (pure r) s :=
  fun s' hR => hstable s s' hR h

/-- The rule of one operation, from a stable precondition `P`. -/
theorem Safe.perform {P : σ → Prop} {op : Op} {k : Ans op → Prog Op Ans ρ} (hstable : Stable R P)
    (h : P s)
    (hstep : ∀ s a s', P s → sem i op s a s' → G s s' ∧ Safe sem i R G post (k a) s') :
    Safe sem i R G post (.perform op >>= k) s :=
  fun s' hR a s'' hsem => hstep s' a s'' (hstable s s' hR h) hsem

theorem Safe.ite {c : Prop} [Decidable c] {p p' : Prog Op Ans ρ}
    (hp : c → Safe sem i R G post p s) (hp' : ¬ c → Safe sem i R G post p' s) :
    Safe sem i R G post (if c then p else p') s := by
  split
  case isTrue h => exact hp h
  case isFalse h => exact hp' h

theorem Safe.of_rely (htrans : ∀ a b c, R a b → R b c → R a c) {p : Prog Op Ans ρ}
    (h : Safe sem i R G post p s) (hR : R s s') : Safe sem i R G post p s' := by
  cases p with
  | ret r => exact fun t ht => h t (htrans _ _ _ hR ht)
  | call op k => exact fun t ht => h t (htrans _ _ _ hR ht)

theorem Safe.bind (hrefl : ∀ a, R a a) {p : Prog Op Ans ρ} {f : ρ → Prog Op Ans ρ'}
    {post' : ρ' → σ → Prop}
    (h : Safe sem i R G (fun r t => Safe sem i R G post' (f r) t) p s) :
    Safe sem i R G post' (p >>= f) s := by
  induction p generalizing s with
  | ret r => exact h s (hrefl s)
  | call op k ih =>
    intro t ht a t' hsem
    obtain ⟨hG, hk⟩ := h t ht a t' hsem
    exact ⟨hG, ih a hk⟩

theorem Safe.mono {p : Prog Op Ans ρ} {post' : ρ → σ → Prop}
    (hpost : ∀ r t, post r t → post' r t) (h : Safe sem i R G post p s) :
    Safe sem i R G post' p s := by
  induction p generalizing s with
  | ret r => exact fun t ht => hpost r t (h t ht)
  | call op k ih =>
    intro t ht a t' hsem
    obtain ⟨hG, hk⟩ := h t ht a t' hsem
    exact ⟨hG, ih a hk⟩

/-- Operations that change nothing keep what the others cannot falsify. -/
theorem Safe.of_only {P : σ → Prop} {Q : Op → Prop} {p : Prog Op Ans ρ}
    (hquiet : ∀ op, Q op → ∀ s a s', sem i op s a s' → s' = s) (hG : ∀ s, G s s)
    (hstable : Stable R P) (hp : p.Only Q) (h : P s) : Safe sem i R G (fun _ => P) p s := by
  induction p generalizing s with
  | ret r => exact fun s' hR => hstable s s' hR h
  | call op k ih =>
    intro t ht a t' hsem
    obtain rfl := hquiet op hp.1 t a t' hsem
    exact ⟨hG _, ih a (hp.2 a) (hstable s _ ht h)⟩

theorem Safe.quiet_bind {P : σ → Prop} {Q : Op → Prop} {p : Prog Op Ans ρ}
    {f : ρ → Prog Op Ans ρ'} {post' : ρ' → σ → Prop}
    (hquiet : ∀ op, Q op → ∀ s a s', sem i op s a s' → s' = s) (hR : ∀ s, R s s)
    (hG : ∀ s, G s s) (hstable : Stable R P) (hp : p.Only Q) (h : P s)
    (hf : ∀ r t, P t → Safe sem i R G post' (f r) t) : Safe sem i R G post' (p >>= f) s :=
  .bind hR ((Safe.of_only hquiet hG hstable hp h).mono hf)

end Rules

/-! ## One thread amid others

An execution picks one answer for each operation of a thread, and may let the others move
before it. -/

/-- The result and the state a thread ends with, if `run` gives the answers. -/
def Prog.exec {τ : Type} (run : (op : Op) → τ → Ans op × τ) : Prog Op Ans ρ → τ → ρ × τ
  | .ret r, t => (r, t)
  | .call op k, t => (k (run op t).1).exec run (run op t).2

/-- A safe thread ends with its postcondition, and with what its guarantee keeps. -/
theorem Safe.exec {sem : Sem ι σ Op Ans} {i : ι} {R G : σ → σ → Prop} {post : ρ → σ → Prop}
    {τ : Type} {run : (op : Op) → τ → Ans op × τ} {view : τ → σ} {I : τ → Prop}
    (hrefl : ∀ s, R s s)
    (hrun : ∀ op t, I t → ∃ s, R (view t) s ∧ sem i op s (run op t).1 (view (run op t).2) ∧
      (G s (view (run op t).2) → I (run op t).2))
    {p : Prog Op Ans ρ} {t : τ} (ht : I t) (h : Safe sem i R G post p (view t)) :
    I (p.exec run t).2 ∧ post (p.exec run t).1 (view (p.exec run t).2) := by
  induction p generalizing t with
  | ret r => exact ⟨ht, h _ (hrefl _)⟩
  | call op k ih =>
    obtain ⟨s, hR, hsem, hI⟩ := hrun op t ht
    obtain ⟨hG, hk⟩ := h s hR _ _ hsem
    exact ih _ (hI hG) hk

/-! ## Soundness -/

section Soundness

variable [DecidableEq ι] {sem : Sem ι σ Op Ans} {R G : ι → σ → σ → Prop}
  {post : ι → ρ → σ → Prop} {s₀ : σ} {progs : ι → Prog Op Ans ρ}

/-- What makes per-thread triples compose. -/
structure Compatible (R G : ι → σ → σ → Prop) : Prop where
  refl : ∀ i s, R i s s
  trans : ∀ i s t u, R i s t → R i t u → R i s u
  within : ∀ i j, i ≠ j → ∀ s t, G i s t → R j s t

namespace Pool

/-- A step of the pool keeps every thread safe and is within the guarantee of
the thread that takes it. -/
theorem Step.safe (hRG : Compatible R G) {i : ι} {p p' : Pool ι σ Op Ans ρ}
    (hstep : Step sem i p p')
    (h : ∀ j, Safe sem j (R j) (G j) (post j) (p.threads j) p.shared) :
    G i p.shared p'.shared ∧
      ∀ j, Safe sem j (R j) (G j) (post j) (p'.threads j) p'.shared := by
  cases hstep with
  | call hthread hsem =>
    have hi := h i
    rw [hthread] at hi
    obtain ⟨hG, hk⟩ := hi _ (hRG.refl i _) _ _ hsem
    refine ⟨hG, fun j => ?_⟩
    by_cases hij : i = j
    · subst hij
      simpa using hk
    · simp only [Function.update_of_ne (Ne.symm hij)]
      exact (h j).of_rely (hRG.trans j) (hRG.within i j hij _ _ hG)

theorem safe_of_reachable (hRG : Compatible R G)
    (hinit : ∀ j, Safe sem j (R j) (G j) (post j) (progs j) s₀)
    {p : Pool ι σ Op Ans ρ} (hp : (system sem s₀ progs).Reachable p) :
    ∀ j, Safe sem j (R j) (G j) (post j) (p.threads j) p.shared := by
  induction hp with
  | init h =>
    obtain rfl := h
    exact hinit
  | step _ hstep ih => exact (Step.safe hRG hstep ih).2

/-- An invariant of the shared state is checked on the guarantees alone. -/
theorem shared_invariant (hRG : Compatible R G)
    (hinit : ∀ j, Safe sem j (R j) (G j) (post j) (progs j) s₀) {I : σ → Prop} (h₀ : I s₀)
    (hI : ∀ i s s', G i s s' → I s → I s') {p : Pool ι σ Op Ans ρ}
    (hp : (system sem s₀ progs).Reachable p) : I p.shared := by
  induction hp with
  | init h =>
    obtain rfl := h
    exact h₀
  | step hs hstep ih =>
    exact hI _ _ _ (Step.safe hRG hstep (safe_of_reachable hRG hinit hs)).1 ih

/-- A thread that is done meets its postcondition, now and later. -/
theorem post_of_ret (hRG : Compatible R G)
    (hinit : ∀ j, Safe sem j (R j) (G j) (post j) (progs j) s₀)
    {p : Pool ι σ Op Ans ρ} (hp : (system sem s₀ progs).Reachable p) {i : ι} {r : ρ}
    (hi : p.threads i = .ret r) : post i r p.shared := by
  have h := safe_of_reachable hRG hinit hp i
  rw [hi] at h
  exact h _ (hRG.refl i _)

end Pool

end Soundness

end Interleaving

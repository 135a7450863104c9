-- SUMMARY: Labelled transition systems: reachability, invariants, projection onto a smaller system, and termination by a measure.
import Mathlib.Data.List.Induction
import Mathlib.Order.Basic

/-!
# Transition systems

A system is a set of initial states and one step relation per label. The rules
here are the ones every run-level result of the development goes through: an
invariant is checked on the initial states and on one step; a projection maps
the runs of a large system to runs of a small one, with stuttering; a measure
that decreases on one step bounds the length of every run.
-/

namespace Transition

structure System (σ : Type) (ι : Type) where
  init : σ → Prop
  step : ι → σ → σ → Prop

namespace System

variable {σ ι τ κ : Type}

inductive Reachable (S : System σ ι) : σ → Prop where
  | init {s : σ} (h : S.init s) : Reachable S s
  | step {l : ι} {s s' : σ} (hs : Reachable S s) (h : S.step l s s') : Reachable S s'

/-- The invariant rule. The step case may use that the state is reachable, so
that an invariant can build on an earlier one. -/
theorem Reachable.invariant {S : System σ ι} {I : σ → Prop}
    (hinit : ∀ s, S.init s → I s)
    (hstep : ∀ l s s', S.Reachable s → I s → S.step l s s' → I s')
    {s : σ} (h : S.Reachable s) : I s := by
  induction h with
  | init h => exact hinit _ h
  | step hs h ih => exact hstep _ _ _ hs ih h

/-- The runs of `S` from one state on whose steps all meet `P`. -/
def guarded (S : System σ ι) (s₀ : σ) (P : ι → σ → Prop) : System σ ι where
  init s := s = s₀
  step l s s' := P l s ∧ S.step l s s'

/-- `f` maps every step of `S` to a step of `T` or to no change at all. -/
structure Projects (S : System σ ι) (T : System τ κ) (f : σ → τ) : Prop where
  init : ∀ s, S.init s → T.init (f s)
  step : ∀ l s s', S.Reachable s → S.step l s s' → f s' = f s ∨ ∃ k, T.step k (f s) (f s')

theorem Projects.reachable {S : System σ ι} {T : System τ κ} {f : σ → τ}
    (hf : S.Projects T f) {s : σ} (h : S.Reachable s) : T.Reachable (f s) := by
  induction h with
  | init h => exact .init (hf.init _ h)
  | step hs h ih =>
    rcases hf.step _ _ _ hs h with heq | ⟨k, hk⟩
    · rw [heq]; exact ih
    · exact .step ih hk

/-! ## Runs of a function

The runs of a system whose steps are a function are given by lists of labels. -/

/-- A property that a step keeps exactly under a condition holds along a whole run
exactly if every step of the run meets the condition. Only runs whose steps all meet
`G` are looked at, and as long as the property holds an invariant `I` may be used. -/
theorem along_iff_of {step : σ → ι → σ} {I P : σ → Prop} {G K : σ → ι → Prop} {s₀ : σ}
    (hI₀ : I s₀) (hP₀ : P s₀) (hstep : ∀ s l, I s → P s → G s l → (P (step s l) ↔ K s l))
    (hkeeps : ∀ s l, I s → P s → G s l → P (step s l) → I (step s l)) {labels : List ι}
    (hG : ∀ before l, before ++ [l] <+: labels → G (before.foldl step s₀) l) :
    (∀ before, before <+: labels → P (before.foldl step s₀)) ↔
      ∀ before l, before ++ [l] <+: labels → K (before.foldl step s₀) l := by
  have hshorter : ∀ {before : List ι} {l : ι}, before ++ [l] <+: labels → before <+: labels :=
    fun hbefore => (List.prefix_append _ _).trans hbefore
  constructor
  · intro hP
    have hI : ∀ before, before <+: labels → I (before.foldl step s₀) := by
      intro before
      induction before using List.reverseRecOn with
      | nil => exact fun _ => hI₀
      | append_singleton before l ih =>
        intro hbefore
        have hnext := hP _ hbefore
        rw [List.foldl_append] at hnext ⊢
        exact hkeeps _ l (ih (hshorter hbefore)) (hP _ (hshorter hbefore)) (hG _ _ hbefore) hnext
    intro before l hbefore
    have hnext := hP _ hbefore
    rw [List.foldl_append] at hnext
    have hnow := hshorter hbefore
    exact (hstep _ l (hI _ hnow) (hP _ hnow) (hG _ _ hbefore)).mp hnext
  · intro hK
    have hboth : ∀ before, before <+: labels →
        I (before.foldl step s₀) ∧ P (before.foldl step s₀) := by
      intro before
      induction before using List.reverseRecOn with
      | nil => exact fun _ => ⟨hI₀, hP₀⟩
      | append_singleton before l ih =>
        intro hbefore
        obtain ⟨hI, hP⟩ := ih (hshorter hbefore)
        have hnext := (hstep _ l hI hP (hG _ _ hbefore)).mpr (hK _ _ hbefore)
        rw [List.foldl_append]
        exact ⟨hkeeps _ l hI hP (hG _ _ hbefore) hnext, hnext⟩
    exact fun before hbefore => (hboth before hbefore).2

theorem along_iff {step : σ → ι → σ} {P : σ → Prop} {K : σ → ι → Prop} {s₀ : σ} (h₀ : P s₀)
    (hstep : ∀ s l, P s → (P (step s l) ↔ K s l)) (labels : List ι) :
    (∀ before, before <+: labels → P (before.foldl step s₀)) ↔
      ∀ before l, before ++ [l] <+: labels → K (before.foldl step s₀) l :=
  along_iff_of (I := fun _ => True) (G := fun _ _ => True) trivial h₀ (fun s l _ h _ => hstep s l h)
    (fun _ _ _ _ _ _ => trivial) fun _ _ _ => trivial

/-- A condition on every step of a run, from its first step on. -/
theorem along_cons {step : σ → ι → σ} {K : σ → ι → Prop} {s : σ} {l : ι} {labels : List ι}
    (h : K s l) (hrest : ∀ before l', before ++ [l'] <+: labels → K (before.foldl step (step s l)) l') :
    ∀ before l', before ++ [l'] <+: l :: labels → K (before.foldl step s) l' := by
  intro before l' hcut
  cases before with
  | nil =>
    obtain ⟨rfl, -⟩ := List.cons_prefix_cons.mp hcut
    exact h
  | cons first before =>
    obtain ⟨rfl, hlater⟩ := List.cons_prefix_cons.mp hcut
    exact hrest before l' hlater

theorem along_nil {step : σ → ι → σ} {K : σ → ι → Prop} {s : σ} :
    ∀ before l, before ++ [l] <+: [] → K (before.foldl step s) l := by
  intro before l hcut
  simp at hcut

/-- What a step spends is drawn from a potential: over a run whose steps all meet
`K`, no more is spent than the potential at its start. -/
theorem spent_le (step : σ → ι → σ) (spent potential : σ → Nat) {I : σ → Prop}
    {K : σ → ι → Prop} (hI : ∀ s l, I s → I (step s l))
    (hstep : ∀ s l, I s → K s l →
      spent (step s l) + potential (step s l) ≤ spent s + potential s)
    {labels : List ι} {s : σ} (hs : I s)
    (hK : ∀ before l, before ++ [l] <+: labels → K (before.foldl step s) l) :
    spent (labels.foldl step s) ≤ spent s + potential s := by
  induction labels generalizing s with
  | nil => exact Nat.le_add_right _ _
  | cons l rest ih =>
    have hrest := ih (hI s l hs) fun before l' hbefore =>
      hK (l :: before) l' (List.prefix_cons_inj l |>.mpr hbefore)
    have hfirst := hstep s l hs (hK [] l (List.prefix_append [l] rest))
    exact Nat.le_trans hrest hfirst

/-! ## Termination -/

/-- `n` steps in a row, all with labels in `P`. -/
inductive Run (S : System σ ι) (P : ι → Prop) : Nat → σ → σ → Prop where
  | refl (s : σ) : Run S P 0 s s
  | tail {n : Nat} {l : ι} {s s' s'' : σ} (h : Run S P n s s') (hl : P l)
      (hstep : S.step l s' s'') : Run S P (n + 1) s s''

theorem Run.reachable {S : System σ ι} {P : ι → Prop} {n : Nat} {s s' : σ}
    (h : S.Run P n s s') (hs : S.Reachable s) : S.Reachable s' := by
  induction h with
  | refl => exact hs
  | tail _ _ hstep ih => exact .step (ih hs) hstep

/-- Every `P`-step from a reachable state decreases the measure `μ`. -/
def Decreases (S : System σ ι) (P : ι → Prop) (μ : σ → Nat) : Prop :=
  ∀ l s s', S.Reachable s → P l → S.step l s s' → μ s' < μ s

theorem Decreases.run_le {S : System σ ι} {P : ι → Prop} {μ : σ → Nat}
    (hμ : S.Decreases P μ) {n : Nat} {s s' : σ} (hs : S.Reachable s)
    (h : S.Run P n s s') : n + μ s' ≤ μ s := by
  induction h with
  | refl => omega
  | tail hrun hl hstep ih =>
    have hlt := hμ _ _ _ (hrun.reachable hs) hl hstep
    have hle := ih hs
    omega

theorem Decreases.not_infinite {S : System σ ι} {P : ι → Prop} {μ : σ → Nat}
    (hμ : S.Decreases P μ) (f : Nat → σ) (hs : S.Reachable (f 0)) :
    ¬ ∀ n, ∃ l, P l ∧ S.step l (f n) (f (n + 1)) := by
  intro hf
  have hrun : ∀ n, S.Run P n (f 0) (f n) := by
    intro n
    induction n with
    | zero => exact .refl _
    | succ n ih =>
      obtain ⟨l, hl, hstep⟩ := hf n
      exact .tail ih hl hstep
  have hle := hμ.run_le hs (hrun (μ (f 0) + 1))
  omega

end System

end Transition

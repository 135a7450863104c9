-- SUMMARY: Account creations under worker interleaving: the global limit holds for calls in timestamp order and fails for others.
import TelnetTlsServer.Policy.SecurityPolicy

/-!
# Account creation

A worker reads the clock when it receives input and asks for the creation after
the password has been hashed, so calls reach the policy out of timestamp order.
A call stamped earlier than a stored creation drops it from the window
(`creation_limit_exceeded`). The limit of 50 in any ten minutes holds in every
run in which no call does that (`creation_limit`).
-/

/-- The policy, and the times of all creations it has accepted. -/
structure CreationLog where
  policy : SecurityPolicy
  accepted : List UInt64

namespace CreationLog

open SecurityPolicy

/-- The time of an accepted creation, if the operation is one. -/
def acceptedAt (p : SecurityPolicy) : PolicyOp → Option UInt64
  | .allowAccountCreation peer now =>
      if (p.securityPolicyAllowAccountCreation peer now).allowed then some now else none
  | _ => none

def next (s : CreationLog) (op : PolicyOp) : CreationLog :=
  ⟨s.policy.apply op, (acceptedAt s.policy op).toList ++ s.accepted⟩

def start : CreationLog := ⟨securityPolicyCreate, []⟩

def system : Transition.System CreationLog PolicyOp where
  init s := s = start
  step op s s' := s' = s.next op

/-- The answer of the window of the peer itself. -/
def peerAnswer (p : SecurityPolicy) (peer : Bytes) (now : UInt64) : WindowAnswer :=
  windowAllow (p.peerRecordFor peer now).record.creations peerCreationLimit peerCreationWindowMs
    now

/-- A creation call is refused for its peer, or is stamped no earlier than any
creation the global window stores. -/
def InOrder (op : PolicyOp) (s : CreationLog) : Prop :=
  ∀ peer now, op = .allowAccountCreation peer now →
    (peerAnswer s.policy peer now).allowed = false ∨
      ∀ t ∈ s.policy.globalCreations.times, t ≤ now

/-! ## Calls in order -/

/-- The stored creations account for all accepted ones. -/
def Accounted (s : CreationLog) : Prop :=
  SlidingWindow.Accounts globalCreationLimit globalCreationWindowMs.toNat
    (s.accepted.map UInt64.toNat) (s.policy.globalCreations.times.map UInt64.toNat)

theorem globalCreations_apply_of_ne (p : SecurityPolicy) {op : PolicyOp}
    (h : ∀ peer now, op ≠ .allowAccountCreation peer now) :
    (p.apply op).globalCreations = p.globalCreations ∧ acceptedAt p op = none := by
  cases op with
  | allowAccountCreation peer now => exact absurd rfl (h peer now)
  | allowConnection peer now =>
    refine ⟨?_, rfl⟩
    simp only [apply, securityPolicyAllowConnection]
    split <;> rfl
  | allowAuthAttempt => exact ⟨rfl, rfl⟩
  | noteAuthFailure => exact ⟨rfl, rfl⟩
  | noteAuthSuccess => exact ⟨rfl, rfl⟩

/-- The answer of the global window, when it is asked. -/
def globalAnswer (p : SecurityPolicy) (now : UInt64) : WindowAnswer :=
  windowAllow p.globalCreations globalCreationLimit globalCreationWindowMs now

theorem allowAccountCreation_allowed (p : SecurityPolicy) (peer : Bytes) (now : UInt64) :
    (p.securityPolicyAllowAccountCreation peer now).allowed =
      ((peerAnswer p peer now).allowed && (globalAnswer p now).allowed) := by
  simp only [securityPolicyAllowAccountCreation, peerAnswer]
  split
  case isTrue h => rw [h]; rfl
  case isFalse h => simp [h]

theorem allowAccountCreation_globalCreations (p : SecurityPolicy) (peer : Bytes) (now : UInt64) :
    (p.securityPolicyAllowAccountCreation peer now).policy.globalCreations =
      if (peerAnswer p peer now).allowed then (globalAnswer p now).window
      else p.globalCreations := by
  cases hpeer : (peerAnswer p peer now).allowed <;>
    simp only [peerAnswer] at hpeer <;>
    simp [securityPolicyAllowAccountCreation, hpeer] <;> rfl

theorem Accounted.creation {s : CreationLog} (h : s.Accounted) (peer : Bytes) (now : UInt64)
    (horder : s.InOrder (.allowAccountCreation peer now)) :
    (s.next (.allowAccountCreation peer now)).Accounted := by
  unfold Accounted
  simp only [next, acceptedAt, apply, allowAccountCreation_allowed,
    allowAccountCreation_globalCreations]
  cases hpeer : (peerAnswer s.policy peer now).allowed with
  | false => simpa [Accounted] using h
  | true =>
    have hlater := (horder peer now rfl).resolve_left (by simp [hpeer])
    have hstep := h.offer now.toNat (by
      intro t ht
      obtain ⟨u, hu, rfl⟩ := List.mem_map.mp ht
      exact UInt64.le_iff_toNat_le.mp (hlater u hu))
    rw [← windowAllow_offer] at hstep
    cases hglobal : (globalAnswer s.policy now).allowed with
    | true =>
      rw [globalAnswer] at hglobal
      simpa [globalAnswer, hglobal] using hstep
    | false =>
      rw [globalAnswer] at hglobal
      simpa [globalAnswer, hglobal] using hstep

/-- In every run whose creation calls are in order, at most 50 of them are
accepted in any ten minutes. -/
theorem creation_limit {s : CreationLog}
    (hrun : (system.guarded start fun op s => s.InOrder op).Reachable s) (x : Nat) :
    SlidingWindow.within globalCreationWindowMs.toNat x (s.accepted.map UInt64.toNat)
      ≤ globalCreationLimit := by
  have hacc : s.Accounted := by
    apply hrun.invariant (I := Accounted)
    · rintro _ rfl
      exact SlidingWindow.Accounts.nil _ _
    · rintro op s _ _ hs ⟨horder, rfl⟩
      by_cases hop : ∃ peer now, op = .allowAccountCreation peer now
      · obtain ⟨peer, now, rfl⟩ := hop
        exact hs.creation peer now horder
      · have hother := globalCreations_apply_of_ne s.policy
          fun peer now heq => hop ⟨peer, now, heq⟩
        simpa [Accounted, next, hother.1, hother.2] using hs
  exact hacc.bounded x

/-- Ten creations of each of five peers at 1000. -/
def burst : List PolicyOp :=
  ["10.0.0.1", "10.0.0.2", "10.0.0.3", "10.0.0.4", "10.0.0.5"].flatMap fun peer =>
    List.replicate 10 (.allowAccountCreation (ascii peer) 1000)

def run (s : CreationLog) (ops : List PolicyOp) : CreationLog := ops.foldl next s

theorem creation_limit_first :
    SlidingWindow.within globalCreationWindowMs.toNat 0
      ((start.next (.allowAccountCreation (ascii "10.0.0.1") 1000)).accepted.map UInt64.toNat)
      ≤ globalCreationLimit := by
  apply creation_limit (.step (.init rfl) ⟨?_, rfl⟩) 0
  rintro peer now _
  exact .inr (by simp [start, securityPolicyCreate])

/-! ## Calls out of order -/

/-- After 50 creations at 1000, one call stamped 999 empties the window, and a
fifty-first creation at 1000 is accepted. -/
theorem creation_limit_exceeded : ∃ (ops : List PolicyOp) (x : Nat),
    (∀ op ∈ ops, ∃ peer now, op = .allowAccountCreation peer now) ∧
      globalCreationLimit < SlidingWindow.within globalCreationWindowMs.toNat x
        ((start.run ops).accepted.map UInt64.toNat) := by
  refine ⟨burst ++ [.allowAccountCreation (ascii "10.0.0.6") 999,
    .allowAccountCreation (ascii "10.0.0.6") 1000], 1000, ?_, ?_⟩
  · simp [burst]
  · decide +kernel

end CreationLog

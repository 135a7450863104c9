-- SUMMARY: A bounded sliding window of event times: what the stored times say about the whole accepted history.
import Mathlib.Data.List.Perm.Basic

/-!
# Sliding windows

A limiter keeps the times of the events it accepted, drops the ones that have
left the window of length `W`, and refuses when `limit` of them are still live.

`Accounts` ties the stored times to the complete accepted history. As long as
no event is stamped earlier than a stored one it is preserved, and it bounds the
accepted events of every interval of length `W`, wherever the interval lies.
-/

namespace SlidingWindow

def live (W now t : Nat) : Bool := decide (t ≤ now) && decide (now - t < W)

def prune (W now : Nat) (times : List Nat) : List Nat := times.filter (live W now)

/-- The answer and the times stored afterwards. -/
def offer (limit W now : Nat) (times : List Nat) : Bool × List Nat :=
  if limit ≤ (prune W now times).length then (false, prune W now times)
  else (true, prune W now times ++ [now])

/-- How many of the times lie in `[x, x + W)`. -/
def within (W x : Nat) (times : List Nat) : Nat := times.countP fun t => x ≤ t && t < x + W

/-- `times` is what a limiter stores after it has accepted `accepted`. -/
structure Accounts (limit W : Nat) (accepted times : List Nat) : Prop where
  length_le : times.length ≤ limit
  /-- What is not stored any more is a whole window older than something stored. -/
  split : ∃ gone, accepted.Perm (gone ++ times) ∧ ∀ u ∈ gone, ∃ m ∈ times, u + W ≤ m
  bounded : ∀ x, within W x accepted ≤ limit

theorem Accounts.nil (limit W : Nat) : Accounts limit W [] [] where
  length_le := by simp
  split := ⟨[], by simp, by simp⟩
  bounded := by simp [within]

theorem live_iff {W now t : Nat} : live W now t = true ↔ t ≤ now ∧ now - t < W := by
  simp [live]

/-! ## What is stored -/

theorem offer_length_le {limit : Nat} (W now : Nat) {times : List Nat} (h : times.length ≤ limit) :
    (offer limit W now times).2.length ≤ limit := by
  have hle : (prune W now times).length ≤ times.length := List.length_filter_le _ _
  unfold offer
  split
  · exact Nat.le_trans hle h
  · simp only [List.length_append, List.length_singleton]
    omega

/-- What is kept is no later than the new time, so the order needs no order of
the calls. -/
theorem offer_sorted (limit W now : Nat) {times : List Nat} (h : times.Pairwise (· ≤ ·)) :
    (offer limit W now times).2.Pairwise (· ≤ ·) := by
  have hpruned : (prune W now times).Pairwise (· ≤ ·) := h.sublist List.filter_sublist
  unfold offer
  split
  · exact hpruned
  · refine List.pairwise_append.mpr ⟨hpruned, List.pairwise_singleton _ _, ?_⟩
    intro t ht u hu
    rw [List.mem_singleton.mp hu]
    exact (live_iff.mp (List.mem_filter.mp ht).2).1

theorem Accounts.mem_accepted {limit W : Nat} {accepted times : List Nat}
    (h : Accounts limit W accepted times) {t : Nat} (ht : t ∈ times) : t ∈ accepted := by
  obtain ⟨gone, hperm, -⟩ := h.split
  exact hperm.mem_iff.mpr (List.mem_append_right gone ht)

theorem within_le_of_subperm {W x : Nat} {times times' : List Nat} (h : times.Subperm times') :
    within W x times ≤ within W x times' :=
  h.countP_le _

/-! ## What has been accepted -/

/-- A refusal drops nothing: the window was full of live times before. -/
theorem prune_eq_of_refused {limit W now : Nat} {times : List Nat} (hlen : times.length ≤ limit)
    (h : limit ≤ (prune W now times).length) : prune W now times = times := by
  have hle : (prune W now times).length ≤ times.length := List.length_filter_le _ _
  have heq : (prune W now times).length = times.length := by omega
  exact List.filter_sublist.eq_of_length heq

/-- As long as the oldest stored time is live, so are all of them, and a full window
refuses and stays as it is. -/
theorem offer_refused {limit W now : Nat} {oldest : Nat} {rest : List Nat}
    (hfull : limit ≤ (oldest :: rest).length) (hsorted : (oldest :: rest).Pairwise (· ≤ ·))
    (hnow : ∀ t ∈ oldest :: rest, t ≤ now) (hlive : now < oldest + W) :
    offer limit W now (oldest :: rest) = (false, oldest :: rest) := by
  have holdest : ∀ t ∈ oldest :: rest, oldest ≤ t := by
    intro t ht
    rcases List.mem_cons.mp ht with rfl | ht
    · exact Nat.le_refl _
    · exact (List.pairwise_cons.mp hsorted).1 t ht
  have hall : prune W now (oldest :: rest) = oldest :: rest := by
    refine List.filter_eq_self.mpr fun t ht => live_iff.mpr ⟨hnow t ht, ?_⟩
    have := holdest t ht
    have := hnow t ht
    omega
  rw [offer, hall, if_pos hfull]

/-- When the oldest stored time leaves the window there is room. -/
theorem offer_accepted (limit W oldest : Nat) (rest : List Nat)
    (hlen : (oldest :: rest).length ≤ limit) :
    (offer limit W (oldest + W) (oldest :: rest)).1 = true := by
  have hgone : ¬ live W (oldest + W) oldest = true := by
    rw [live_iff]
    omega
  have hshort : (prune W (oldest + W) (oldest :: rest)).length < limit := by
    have hrest : (prune W (oldest + W) rest).length ≤ rest.length := List.length_filter_le _ _
    rw [List.length_cons] at hlen
    rw [prune, List.filter_cons_of_neg hgone]
    exact Nat.lt_of_le_of_lt hrest hlen
  rw [offer, if_neg (Nat.not_le.mpr hshort)]

private theorem within_gone {W x now : Nat} {gone times : List Nat}
    (hgone : ∀ u ∈ gone, ∃ m ∈ times, u + W ≤ m) (hnow : ∀ t ∈ times, t ≤ now)
    (hx : now < x + W) : within W x gone = 0 := by
  unfold within
  rw [List.countP_eq_zero]
  intro u hu
  obtain ⟨m, hm, hle⟩ := hgone u hu
  have hmn := hnow m hm
  simp only [Bool.and_eq_true, decide_eq_true_eq, not_and]
  omega

private theorem within_le_prune {W x now : Nat} {times : List Nat}
    (hnow : ∀ t ∈ times, t ≤ now) (hx : now < x + W) :
    within W x times ≤ (prune W now times).length := by
  unfold within prune
  rw [← List.countP_eq_length_filter]
  apply List.countP_mono_left
  intro t ht hin
  have htn := hnow t ht
  simp only [Bool.and_eq_true, decide_eq_true_eq] at hin
  rw [live_iff]
  omega

/-- One call, stamped no earlier than any stored time. -/
theorem Accounts.offer {limit W : Nat} {accepted times : List Nat}
    (h : Accounts limit W accepted times) (now : Nat) (hnow : ∀ t ∈ times, t ≤ now) :
    Accounts limit W (if (SlidingWindow.offer limit W now times).1 then now :: accepted else accepted)
      (SlidingWindow.offer limit W now times).2 := by
  unfold SlidingWindow.offer
  split
  case isTrue hfull =>
    rw [prune_eq_of_refused h.length_le hfull]
    simpa using h
  case isFalse hroom =>
    simp only [if_true]
    have hroom' : (prune W now times).length < limit := by omega
    obtain ⟨gone, hperm, hgone⟩ := h.split
    refine ⟨?_, ⟨gone ++ times.filter (fun t => !live W now t), ?_, ?_⟩, ?_⟩
    · simp only [List.length_append, List.length_singleton]
      omega
    · -- The dropped times join the ones that were gone already.
      have hsplit : (times.filter (fun t => !live W now t) ++ prune W now times).Perm times :=
        List.perm_append_comm.trans (List.filter_append_perm (live W now) times)
      have hall : accepted.Perm
          ((gone ++ times.filter (fun t => !live W now t)) ++ prune W now times) := by
        rw [List.append_assoc]
        exact hperm.trans (hsplit.symm.append_left gone)
      rw [← List.append_assoc]
      exact (hall.cons now).trans (List.perm_append_singleton now _).symm
    · intro u hu
      refine ⟨now, by simp, ?_⟩
      rcases List.mem_append.mp hu with hu | hu
      · obtain ⟨m, hm, hle⟩ := hgone u hu
        have hmn := hnow m hm
        omega
      · obtain ⟨hmem, hdead⟩ := List.mem_filter.mp hu
        have hun := hnow u hmem
        have hdead' : ¬ (u ≤ now ∧ now - u < W) := by
          rw [← live_iff]
          simpa using hdead
        omega
    · intro x
      have hcons : within W x (now :: accepted)
          = within W x accepted + if x ≤ now && now < x + W then 1 else 0 := by
        simp [within, List.countP_cons]
      rw [hcons]
      split
      case isFalse hout => exact h.bounded x
      case isTrue hin =>
        simp only [Bool.and_eq_true, decide_eq_true_eq] at hin
        have hsum : within W x accepted = within W x gone + within W x times := by
          unfold within
          rw [hperm.countP_eq, List.countP_append]
        have hzero := within_gone hgone hnow hin.2
        have hle := within_le_prune hnow hin.2
        omega

end SlidingWindow

-- SUMMARY: Counters that start over after a period: what is taken in one epoch, and in any interval as long as the period.
import Mathlib.Algebra.Order.BigOperators.Group.List
import Mathlib.Algebra.Order.Group.Nat
import Mathlib.Algebra.Ring.Nat
import Mathlib.Data.List.Perm.Basic

/-!
# Fixed windows

A counter takes amounts up to a limit and starts over once a period has passed since it
started last. `Ledger` is such a counter with a record of what it took. Whatever the limit,
each epoch takes that much at most. An interval as long as the period meets two epochs at
most: one that started before it and one that starts in it.
-/

namespace FixedWindow

/-- An amount that was taken, with the epoch that took it and when that epoch started. -/
structure Entry where
  epoch : Nat
  start : Nat
  time : Nat
  amount : Nat
deriving DecidableEq, Repr

def total (entries : List Entry) : Nat := (entries.map Entry.amount).sum

theorem total_append (a b : List Entry) : total (a ++ b) = total a + total b := by
  rw [total, List.map_append, List.sum_append]
  rfl

theorem total_le_of_sublist {a b : List Entry} (h : a.Sublist b) : total a ≤ total b :=
  (h.map Entry.amount).sum_le_sum fun _ _ => Nat.zero_le _

/-- The counter has no start before its first epoch. -/
structure Ledger where
  epoch : Nat
  start : Option Nat
  used : Nat
  latest : Nat
  entries : List Entry

namespace Ledger

def empty : Ledger := ⟨0, none, 0, 0, []⟩

def renew (l : Ledger) (now : Nat) : Ledger :=
  { l with epoch := l.epoch + 1, start := some now, used := 0, latest := now }

def wait (l : Ledger) (now : Nat) : Ledger := { l with latest := now }

def take (l : Ledger) (now amount : Nat) : Ledger :=
  { l with
    used := l.used + amount
    entries := l.entries ++ [⟨l.epoch, l.start.getD 0, now, amount⟩] }

def ofEpoch (l : Ledger) (epoch : Nat) : List Entry := l.entries.filter (·.epoch = epoch)

/-- What was taken from `start` on, for `length`. -/
def during (l : Ledger) (start length : Nat) : List Entry :=
  l.entries.filter fun e => start ≤ e.time ∧ e.time < start + length

theorem ofEpoch_take (l : Ledger) (now amount epoch : Nat) :
    total ((l.take now amount).ofEpoch epoch) =
      total (l.ofEpoch epoch) + if epoch = l.epoch then amount else 0 := by
  rw [ofEpoch, take, List.filter_append, total_append, ofEpoch]
  by_cases h : epoch = l.epoch
  · simp [h, total]
  · simp [h, Ne.symm h, total]

/-- Where an entry stands to the epoch that is running. -/
inductive Placed (period : Nat) (l : Ledger) (e : Entry) : Prop where
  | now (hepoch : e.epoch = l.epoch) (hstart : l.start = some e.start)
  | before {start : Nat} (hepoch : e.epoch < l.epoch) (hstart : l.start = some start)
      (hover : e.start + period ≤ start)

structure Sound (limit period : Nat) (l : Ledger) : Prop where
  used_eq : l.used = total (l.ofEpoch l.epoch)
  epoch_le : ∀ epoch, total (l.ofEpoch epoch) ≤ limit
  start_le : ∀ start, l.start = some start → start ≤ l.latest
  placed : ∀ e ∈ l.entries, l.Placed period e
  /-- An amount is taken when its epoch starts, or before the period is over. -/
  timed : ∀ e ∈ l.entries, e.start ≤ e.time ∧ (e.time = e.start ∨ e.time < e.start + period)
  apart : ∀ e ∈ l.entries, ∀ e' ∈ l.entries, e.epoch < e'.epoch → e.start + period ≤ e'.start

namespace Sound

variable {limit period : Nat} {l : Ledger}

theorem empty (limit period : Nat) : Ledger.empty.Sound limit period where
  used_eq := rfl
  epoch_le _ := Nat.zero_le _
  start_le _ h := absurd h.symm (Option.some_ne_none _)
  placed _ h := absurd h List.not_mem_nil
  timed _ h := absurd h List.not_mem_nil
  apart _ h := absurd h List.not_mem_nil

theorem used_le (h : l.Sound limit period) : l.used ≤ limit := h.used_eq ▸ h.epoch_le l.epoch

theorem wait (h : l.Sound limit period) {now : Nat} (hnow : l.latest ≤ now) :
    (l.wait now).Sound limit period where
  used_eq := h.used_eq
  epoch_le := h.epoch_le
  start_le start hstart := (h.start_le start hstart).trans hnow
  placed e he := by
    rcases h.placed e he with ⟨hepoch, hstart⟩ | ⟨hepoch, hstart, hover⟩
    · exact .now hepoch hstart
    · exact .before hepoch hstart hover
  timed := h.timed
  apart := h.apart

theorem renew (h : l.Sound limit period) {now : Nat}
    (hover : ∀ start, l.start = some start → start + period ≤ now) :
    (l.renew now).Sound limit period where
  used_eq := by
    -- No entry belongs to the new epoch yet.
    have hnone : (l.renew now).ofEpoch (l.epoch + 1) = [] := by
      refine List.filter_eq_nil_iff.mpr fun e he hepoch => ?_
      have hepoch := of_decide_eq_true hepoch
      rcases h.placed e he with ⟨hnow, -⟩ | ⟨hbefore, -, -⟩ <;> omega
    exact (congrArg total hnone).symm
  epoch_le := h.epoch_le
  start_le start hstart := (Option.some.inj hstart).symm.le
  placed e he := by
    rcases h.placed e he with ⟨hepoch, hstart⟩ | ⟨hepoch, hstart, hbefore⟩
    · exact .before (hepoch ▸ Nat.lt_succ_self _) rfl (hover _ hstart)
    · have hlater := hover _ hstart
      exact .before (Nat.lt_succ_of_lt hepoch) rfl (by omega)
  timed := h.timed
  apart := h.apart

theorem take (h : l.Sound limit period) {start now amount : Nat} (hstart : l.start = some start)
    (hnow : start ≤ now ∧ (now = start ∨ now < start + period)) (hroom : l.used + amount ≤ limit) :
    (l.take now amount).Sound limit period where
  used_eq := by
    rw [show (l.take now amount).epoch = l.epoch from rfl, ofEpoch_take, if_pos rfl, ← h.used_eq]
    rfl
  epoch_le epoch := by
    rw [ofEpoch_take]
    split
    case isTrue heq => rwa [heq, ← h.used_eq]
    case isFalse => exact h.epoch_le epoch
  start_le := h.start_le
  placed e he := by
    rcases List.mem_append.mp he with he | he
    · rcases h.placed e he with ⟨hepoch, hthen⟩ | ⟨hepoch, hthen, hover⟩
      · exact .now hepoch hthen
      · exact .before hepoch hthen hover
    · obtain rfl := List.mem_singleton.mp he
      exact .now rfl (by simp [Ledger.take, hstart])
  timed e he := by
    rcases List.mem_append.mp he with he | he
    · exact h.timed e he
    · obtain rfl := List.mem_singleton.mp he
      simpa [hstart] using hnow
  apart e he e' he' hless := by
    rcases List.mem_append.mp he with he | he <;> rcases List.mem_append.mp he' with he' | he'
    · exact h.apart e he e' he' hless
    · obtain rfl := List.mem_singleton.mp he'
      rcases h.placed e he with ⟨hepoch, -⟩ | ⟨-, hthen, hover⟩
      · exact absurd hless (by simp [hepoch])
      · simpa [hthen] using hover
    · obtain rfl := List.mem_singleton.mp he
      rcases h.placed e' he' with ⟨hepoch, -⟩ | ⟨hepoch, -, -⟩
      · exact absurd hless (by simp [hepoch])
      · exact absurd hless (by simp only; omega)
    · obtain rfl := List.mem_singleton.mp he
      obtain rfl := List.mem_singleton.mp he'
      exact absurd hless (Nat.lt_irrefl _)

/-- Entries of one epoch. -/
theorem total_le_of_one_epoch (h : l.Sound limit period) {part : List Entry}
    (hpart : part.Sublist l.entries) (hone : ∀ e ∈ part, ∀ e' ∈ part, ¬ e.epoch < e'.epoch) :
    total part ≤ limit := by
  cases part with
  | nil => exact Nat.zero_le _
  | cons first rest =>
    have hall : (first :: rest).filter (·.epoch = first.epoch) = first :: rest := by
      refine List.filter_eq_self.mpr fun e he => decide_eq_true ?_
      exact Nat.le_antisymm (Nat.not_lt.mp (hone first List.mem_cons_self e he))
        (Nat.not_lt.mp (hone e he first List.mem_cons_self))
    calc total (first :: rest)
        = total ((first :: rest).filter (·.epoch = first.epoch)) := by rw [hall]
      _ ≤ total (l.ofEpoch first.epoch) := total_le_of_sublist (hpart.filter _)
      _ ≤ limit := h.epoch_le first.epoch

/-- An interval as long as the period takes no more than two epochs do. -/
theorem during_le (h : l.Sound limit period) (start : Nat) :
    total (l.during start period) ≤ 2 * limit := by
  let early : Entry → Bool := fun e => e.start ≤ start
  have hsub : ∀ p : Entry → Bool, ((l.during start period).filter p).Sublist l.entries := fun p =>
    List.filter_sublist.trans List.filter_sublist
  have hmem : ∀ {p : Entry → Bool} {e : Entry}, e ∈ (l.during start period).filter p →
      e ∈ l.entries ∧ (start ≤ e.time ∧ e.time < start + period) ∧ p e = true := by
    intro p e he
    obtain ⟨hduring, hp⟩ := List.mem_filter.mp he
    obtain ⟨hentry, htime⟩ := List.mem_filter.mp hduring
    exact ⟨hentry, of_decide_eq_true htime, hp⟩
  -- Two epochs that start before the interval: the first is over when the second starts.
  have hearly : total ((l.during start period).filter early) ≤ limit := by
    refine h.total_le_of_one_epoch (hsub early) fun e he e' he' hless => ?_
    obtain ⟨hentry, htime, hstart⟩ := hmem he
    obtain ⟨hentry', -, hstart'⟩ := hmem he'
    have hapart := h.apart e hentry e' hentry' hless
    have htimed := h.timed e hentry
    have hstart := of_decide_eq_true hstart
    have hstart' := of_decide_eq_true hstart'
    omega
  -- Two epochs that start in the interval: the second starts behind it.
  have hlate : total ((l.during start period).filter (! early ·)) ≤ limit := by
    refine h.total_le_of_one_epoch (hsub _) fun e he e' he' hless => ?_
    obtain ⟨hentry, -, hstart⟩ := hmem he
    obtain ⟨hentry', htime', -⟩ := hmem he'
    have hapart := h.apart e hentry e' hentry' hless
    have htimed' := h.timed e' hentry'
    have hstart : start < e.start := by simpa [early] using hstart
    omega
  have hsplit : total (l.during start period) =
      total ((l.during start period).filter early) +
        total ((l.during start period).filter (! early ·)) := by
    rw [← total_append]
    exact ((List.filter_append_perm early _).map Entry.amount).sum_eq.symm
  omega

end Sound

end Ledger

end FixedWindow

-- SUMMARY: The retry hint of a refusing event window is the first time at which it accepts again.
import TelnetTlsServer.Policy.Admission

/-!
# Retry hints

A window that refuses is full of live times, the oldest of them first. The hint counts
the milliseconds until that one is a window length old: up to then nothing changes, and
then there is room for one event.
-/

namespace EventWindow

/-- The window after calls at the given times, from the empty one. -/
def afterCalls (limit : Nat) (windowMs : UInt64) (calls : List UInt64) : EventWindow :=
  calls.foldl (fun w now => (windowAllow w limit windowMs now).window) ⟨[]⟩

theorem fits_afterCalls {limit : Nat} (hlimit : limit ≤ eventWindowEntries) (windowMs : UInt64)
    (calls : List UInt64) : (afterCalls limit windowMs calls).Fits limit := by
  induction calls using List.reverseRecOn with
  | nil => exact fits_nil limit
  | append_singleton calls now ih =>
    rw [afterCalls, List.foldl_append]
    exact ih.allow hlimit windowMs now

variable {limit : Nat} {w : EventWindow} {windowMs now : UInt64}

/-- A refusal: the window holds live times only, and the hint is what the oldest of them
still has. -/
theorem Fits.refused (hfits : w.Fits limit) (hlimit : 1 ≤ limit)
    (h : (windowAllow w limit windowMs now).allowed = false) :
    (windowAllow w limit windowMs now).window = w ∧ limit ≤ w.times.length ∧
      (∀ t ∈ w.times, t.toNat ≤ now.toNat) ∧
      ∃ oldest rest, w.times = oldest :: rest ∧ now.toNat < oldest.toNat + windowMs.toNat ∧
        now.toNat + (windowAllow w limit windowMs now).retryAfterMs.toNat =
          oldest.toNat + windowMs.toNat := by
  have hfull : limit ≤ (pruneWindow w now windowMs).times.length := by
    by_contra hroom
    rw [(windowAllow_of_room hroom).1] at h
    cases h
  -- Nothing was dropped: there were not more times than the limit before.
  have hsame : (pruneWindow w now windowMs).times = w.times :=
    List.filter_sublist.eq_of_length_le (hfits.count.trans hfull)
  have hlive : ∀ t ∈ w.times, t ≤ now ∧ now - t < windowMs := by
    intro t ht
    rw [← hsame] at ht
    simpa using (List.mem_filter.mp ht).2
  refine ⟨?_, hsame ▸ hfull, fun t ht => (hlive t ht).1, ?_⟩
  · rw [(windowAllow_of_full hfull).2]
    exact EventWindow.mk.injEq .. ▸ hsame
  · cases htimes : w.times with
    | nil =>
      rw [hsame, htimes, List.length_nil] at hfull
      omega
    | cons oldest rest =>
      obtain ⟨hle, hage⟩ := hlive oldest (htimes ▸ List.mem_cons_self)
      have hhint : (windowAllow w limit windowMs now).retryAfterMs =
          windowMs - (now - oldest) := by
        rw [hsame, htimes] at hfull
        simp only [windowAllow, if_true, hsame, htimes, hfull, List.headD_cons, hle,
          if_neg (not_le.mpr hage)]
      have hsub := UInt64.toNat_sub_of_le _ _ hle
      have hleft := UInt64.toNat_sub_of_le _ _ hage.le
      rw [UInt64.lt_iff_toNat_lt, hsub] at hage
      rw [UInt64.le_iff_toNat_le] at hle
      refine ⟨oldest, rest, rfl, by omega, ?_⟩
      rw [hhint, hleft, hsub]
      omega

/-- The answer and the times stored, from what the library says about them. -/
theorem allow_of_offer {allowed : Bool} {times : List UInt64} {t : UInt64}
    (h : SlidingWindow.offer limit windowMs.toNat t.toNat (w.times.map UInt64.toNat) =
      (allowed, times.map UInt64.toNat)) :
    (windowAllow w limit windowMs t).allowed = allowed ∧
      (windowAllow w limit windowMs t).window = ⟨times⟩ := by
  obtain ⟨hallowed, htimes⟩ := Prod.mk.inj ((windowAllow_offer w limit windowMs t).trans h)
  refine ⟨hallowed, EventWindow.mk.injEq .. ▸ ?_⟩
  exact List.map_injective_iff.mpr (fun _ _ => UInt64.toNat_inj.mp) htimes

/-- For every window reached by calls with one limit and one window length, whatever the
order of their times: a hint lies between one and the window length, every call before it
is over is refused and leaves the window as it is, and a call when it is over is accepted;
an accepted call gives no hint. -/
theorem retry_hint_exact (hlimit : 1 ≤ limit) (hentries : limit ≤ eventWindowEntries)
    (windowMs : UInt64) (calls : List UInt64) (now : UInt64)
    (hnow : now.toNat + windowMs.toNat < 2 ^ 64) :
    let answer := windowAllow (afterCalls limit windowMs calls) limit windowMs now
    (answer.allowed = false →
      (1 ≤ answer.retryAfterMs.toNat ∧ answer.retryAfterMs.toNat ≤ windowMs.toNat) ∧
      (∀ t : UInt64, now.toNat ≤ t.toNat → t.toNat < now.toNat + answer.retryAfterMs.toNat →
        (windowAllow answer.window limit windowMs t).allowed = false ∧
        (windowAllow answer.window limit windowMs t).window = answer.window) ∧
      (windowAllow answer.window limit windowMs (now + answer.retryAfterMs)).allowed = true) ∧
    (answer.allowed = true → answer.retryAfterMs = 0) := by
  have hfits := fits_afterCalls hentries windowMs calls
  generalize afterCalls limit windowMs calls = w at hfits
  dsimp only
  constructor
  · intro hrefused
    obtain ⟨hwindow, hfull, hpast, oldest, rest, htimes, hlive, hhint⟩ :=
      hfits.refused hlimit hrefused
    rw [hwindow]
    have holdest := hpast oldest (htimes ▸ List.mem_cons_self)
    generalize (windowAllow w limit windowMs now).retryAfterMs = hint at hhint
    have hsorted := (sorted_iff w).mp hfits.sorted
    have hcount := hfits.count
    obtain ⟨times⟩ := w
    obtain rfl : times = oldest :: rest := htimes
    refine ⟨by omega, fun t hle hlt => ?_, ?_⟩
    · apply allow_of_offer
      refine SlidingWindow.offer_refused (by simpa using hfull) hsorted ?_ (by omega)
      exact List.forall_mem_map.mpr fun u hu => (hpast u hu).trans hle
    · have hlater : (now + hint).toNat = oldest.toNat + windowMs.toNat := by
        rw [UInt64.toNat_add, Nat.mod_eq_of_lt (by omega), hhint]
      have haccepted := SlidingWindow.offer_accepted limit windowMs.toNat oldest.toNat
        (rest.map UInt64.toNat) (by simpa using hcount)
      rw [← hlater] at haccepted
      exact (congrArg Prod.fst (windowAllow_offer _ _ _ _)).trans haccepted
  · intro hallowed
    by_cases hfull : limit ≤ (pruneWindow w now windowMs).times.length
    · rw [(windowAllow_of_full hfull).1] at hallowed
      cases hallowed
    · simp [windowAllow, hfull]

/-- Two events in ten milliseconds, the third call at 7: its hint of 3 is over at 10. -/
theorem retry_hint_third :
    (windowAllow (afterCalls 2 10 [0, 4]) 2 10 7).retryAfterMs = 3 ∧
    (windowAllow (windowAllow (afterCalls 2 10 [0, 4]) 2 10 7).window 2 10 9).allowed = false ∧
    (windowAllow (windowAllow (afterCalls 2 10 [0, 4]) 2 10 7).window 2 10 (7 + 3)).allowed = true := by
  have hexact := (retry_hint_exact (show 1 ≤ 2 by decide) (by decide) 10 [0, 4] 7 (by decide)).1
    (by decide)
  exact ⟨by decide, (hexact.2.1 9 (by decide) (by decide)).1, hexact.2.2⟩

end EventWindow

-- SUMMARY: The life of each connection, and what the count of active connections has to do with it.
import Mathlib.Data.Finset.Card
import TelnetTlsServer.Server.Runtime

/-!
# The accounts of the server

`Life` lists the histories a connection can have. `Sound` says that every connection
has one of them and that `active_connections` counts those that were granted a
reservation and have not released it. An operation keeps this if the connection it is
for has come to the right point of its life.
-/

namespace ServerState

/-! ## Histories -/

/-- What has happened to connection `n`. -/
def eventsOf (s : ServerState) (n : Nat) : List ServerEvent :=
  s.history.filter fun e => e.connection = some n

theorem eventsOf_emit_self (s : ServerState) {e : ServerEvent} {n : Nat}
    (h : e.connection = some n) : (s.emit e).eventsOf n = s.eventsOf n ++ [e] := by
  simp [eventsOf, emit, h]

theorem eventsOf_emit_of_ne (s : ServerState) {e : ServerEvent} {n : Nat}
    (h : e.connection ≠ some n) : (s.emit e).eventsOf n = s.eventsOf n := by
  simp [eventsOf, emit, h]

theorem mem_eventsOf {s : ServerState} {e : ServerEvent} {n : Nat} (h : e.connection = some n) :
    e ∈ s.eventsOf n ↔ e ∈ s.history := by
  simp [eventsOf, h]

theorem count_eventsOf {s : ServerState} {e : ServerEvent} {n : Nat} (h : e.connection = some n) :
    (s.eventsOf n).count e = s.history.count e :=
  List.count_filter (by simp [h])

end ServerState

/-- The connection a reservation was granted to. -/
def ServerEvent.granted? : ServerEvent → Option Nat
  | .granted n => some n
  | _ => none

/-- The connections that were granted a reservation and have not released it. -/
def outstanding (history : List ServerEvent) : Finset Nat :=
  (history.filterMap ServerEvent.granted?).toFinset.filter fun n => .released n ∉ history

theorem mem_outstanding {history : List ServerEvent} {n : Nat} :
    n ∈ outstanding history ↔ .granted n ∈ history ∧ .released n ∉ history := by
  have hgranted : (∃ e ∈ history, e.granted? = some n) ↔ .granted n ∈ history := by
    constructor
    · rintro ⟨e, he, hn⟩
      cases e with
      | granted m =>
        obtain rfl := Option.some.inj hn
        exact he
      | _ => cases hn
    · exact fun h => ⟨_, h, rfl⟩
  simp [outstanding, hgranted]

theorem outstanding_granted {history : List ServerEvent} {n : Nat}
    (h : .released n ∉ history) :
    outstanding (history ++ [.granted n]) = insert n (outstanding history) := by
  ext m
  simp only [mem_outstanding, List.mem_append, List.mem_singleton, Finset.mem_insert,
    ServerEvent.granted.injEq, reduceCtorEq, or_false]
  constructor
  · rintro ⟨hm | rfl, hreleased⟩
    · exact .inr ⟨hm, hreleased⟩
    · exact .inl rfl
  · rintro (rfl | ⟨hm, hreleased⟩)
    · exact ⟨.inr rfl, h⟩
    · exact ⟨.inl hm, hreleased⟩

theorem outstanding_released (history : List ServerEvent) (n : Nat) :
    outstanding (history ++ [.released n]) = (outstanding history).erase n := by
  ext m
  simp only [mem_outstanding, List.mem_append, List.mem_singleton, Finset.mem_erase,
    ServerEvent.released.injEq, reduceCtorEq, or_false, not_or]
  tauto

theorem outstanding_of_ne {history : List ServerEvent} {e : ServerEvent}
    (hgranted : ∀ n, e ≠ .granted n) (hreleased : ∀ n, e ≠ .released n) :
    outstanding (history ++ [e]) = outstanding history := by
  ext m
  simp [mem_outstanding, (hgranted m).symm, (hreleased m).symm]

/-- The histories of a connection. The last one is that of a worker that leaves its
descriptor open. -/
inductive Life (leaks : Prop) (n : Nat) : List ServerEvent → Prop where
  | fresh : Life leaks n []
  | refused : Life leaks n [.closed n]
  | granted : Life leaks n [.granted n]
  | closed : Life leaks n [.granted n, .closed n]
  | released : Life leaks n [.granted n, .closed n, .released n]
  | leaked (h : leaks) : Life leaks n [.granted n, .released n]

theorem Life.counts {leaks : Prop} {n : Nat} {events : List ServerEvent} (h : Life leaks n events) :
    .underflow n ∉ events ∧ events.count (.released n) ≤ events.count (.granted n) ∧
      events.count (.granted n) ≤ 1 ∧ events.count (.closed n) ≤ 1 := by
  cases h <;> simp

/-- The histories of a connection that the listener is done with. -/
def Settled (n : Nat) (events : List ServerEvent) : Prop :=
  events = [.closed n] ∨ events = [.granted n, .closed n, .released n]

/-! ## Sound states -/

/-- No reservation was granted after the shutdown began. -/
def NoneLate (history : List ServerEvent) : Prop :=
  ∀ before after n, history = before ++ .granted n :: after → .shutdown ∉ before

theorem NoneLate.snoc {history : List ServerEvent} (h : NoneLate history) {e : ServerEvent}
    (he : (∃ n, e = .granted n) → .shutdown ∉ history) : NoneLate (history ++ [e]) := by
  intro before after n hsplit
  rcases List.eq_nil_or_concat' after with rfl | ⟨rest, last, rfl⟩
  · obtain ⟨rfl, hlast⟩ := List.append_inj' hsplit rfl
    exact he ⟨n, List.singleton_inj.mp hlast⟩
  · have hcut : history ++ [e] = (before ++ .granted n :: rest) ++ [last] := by simpa using hsplit
    exact h before rest n (List.append_inj' hcut rfl).1

namespace ServerState

/-- A thread still has to do with connection `n`, or it has not come yet. -/
def InHand (s : ServerState) (n : Nat) : Prop := s.accepted ≤ n + 1 ∨ s.args n ≠ none

structure Sound (leaks : Prop) (s : ServerState) : Prop where
  active : s.activeConnections = (outstanding s.history).card
  cap : s.activeConnections ≤ maxActiveConnections
  life : ∀ n, Life leaks n (s.eventsOf n)
  settled : ∀ n, ¬ s.InHand n → Settled n (s.eventsOf n)
  noneLate : NoneLate s.history
  stopped : .shutdown ∈ s.history → s.stopping = true

variable {leaks : Prop} {s s' : ServerState} {n : Nat}

theorem sound_initial (leaks : Prop) : Sound leaks initial where
  active := rfl
  cap := Nat.zero_le _
  life _ := .fresh
  settled n h := absurd (.inl (Nat.zero_le (n + 1))) h
  noneLate before after n h := by
    cases before <;> cases h
  stopped h := by cases h

/-- An event of a connection that is in somebody's hand. -/
theorem Sound.record (h : Sound leaks s) {e : ServerEvent} (hn : e.connection = some n)
    (hhand : s.InHand n) (hhistory : s'.history = s.history ++ [e]) (hargs : s'.args = s.args)
    (haccepted : s'.accepted = s.accepted) (hstopping : s'.stopping = s.stopping)
    (hlife : Life leaks n (s.eventsOf n ++ [e]))
    (hactive : s'.activeConnections = (outstanding (s.history ++ [e])).card)
    (hcap : s'.activeConnections ≤ maxActiveConnections)
    (hgrant : (∃ m, e = .granted m) → s.stopping = false) : Sound leaks s' := by
  have hself : s'.eventsOf n = s.eventsOf n ++ [e] := by
    rw [eventsOf, hhistory]
    exact s.eventsOf_emit_self hn
  have hother : ∀ m, m ≠ n → s'.eventsOf m = s.eventsOf m := by
    intro m hm
    rw [eventsOf, hhistory]
    exact s.eventsOf_emit_of_ne (by simpa [hn] using hm.symm)
  have hopen : s.stopping = false → .shutdown ∉ s.history := by
    intro hrunning hshutdown
    cases hrunning.symm.trans (h.stopped hshutdown)
  refine ⟨hhistory ▸ hactive, hcap, fun m => ?_, fun m hm => ?_, ?_, fun hshutdown => ?_⟩
  · by_cases hmn : m = n
    · rw [hmn, hself]
      exact hlife
    · rw [hother m hmn]
      exact h.life m
  · rw [InHand, haccepted, hargs] at hm
    have hmn : m ≠ n := by
      rintro rfl
      exact hm hhand
    rw [hother m hmn]
    exact h.settled m hm
  · rw [hhistory]
    exact h.noneLate.snoc fun hgranted => hopen (hgrant hgranted)
  · rw [hhistory, List.mem_append, List.mem_singleton] at hshutdown
    rw [hstopping]
    rcases hshutdown with hold | rfl
    · exact h.stopped hold
    · cases hn

theorem Sound.close (h : Sound leaks s) (hhand : s.InHand n)
    (hevents : s.eventsOf n = [] ∨ s.eventsOf n = [.granted n]) :
    Sound leaks (s.emit (.closed n)) := by
  have hactive : outstanding (s.history ++ [.closed n]) = outstanding s.history :=
    outstanding_of_ne (by simp) (by simp)
  refine h.record (e := .closed n) rfl hhand rfl rfl rfl rfl ?_ ?_ h.cap (by simp)
  · rcases hevents with hnil | hgranted
    · rw [hnil]
      exact .refused
    · rw [hgranted]
      exact .closed
  · rw [hactive]
    exact h.active

theorem Sound.reserve (h : Sound leaks s) (hhand : s.InHand n) (hevents : s.eventsOf n = []) :
    Sound leaks (s.runtimeReserveConnection n).2 := by
  unfold runtimeReserveConnection
  split
  case isFalse => exact h
  case isTrue hallowed =>
    simp only [Bool.and_eq_true, Bool.not_eq_true', decide_eq_true_eq] at hallowed
    obtain ⟨hrunning, hroom⟩ := hallowed
    have hreleased : .released n ∉ s.history := by
      rw [← mem_eventsOf (n := n) rfl, hevents]
      exact List.not_mem_nil
    have hnew : n ∉ outstanding s.history := by
      rw [mem_outstanding, ← mem_eventsOf (n := n) rfl, hevents]
      exact fun hmem => List.not_mem_nil hmem.1
    refine h.record (e := .granted n) rfl hhand rfl rfl rfl rfl ?_ ?_ hroom fun _ => hrunning
    · rw [hevents]
      exact .granted
    · rw [outstanding_granted hreleased, Finset.card_insert_of_notMem hnew, ← h.active]
      rfl

/-- A connection that releases its reservation is among the active ones. -/
theorem Sound.release (h : Sound leaks s) (hhand : s.InHand n)
    (hevents : s.eventsOf n = [.granted n, .closed n] ∨ leaks ∧ s.eventsOf n = [.granted n]) :
    Sound leaks (s.runtimeReleaseConnection n) ∧
      s.runtimeReleaseConnection n =
        { s with activeConnections := s.activeConnections - 1 }.emit (.released n) := by
  have hmem : n ∈ outstanding s.history := by
    rw [mem_outstanding, ← mem_eventsOf (n := n) rfl, ← mem_eventsOf (n := n) rfl]
    rcases hevents with hevents | ⟨-, hevents⟩ <;> simp [hevents]
  have hpos : s.activeConnections > 0 := h.active ▸ Finset.card_pos.mpr ⟨n, hmem⟩
  have heq : s.runtimeReleaseConnection n =
      { s with activeConnections := s.activeConnections - 1 }.emit (.released n) := if_pos hpos
  refine ⟨?_, heq⟩
  rw [heq]
  refine h.record (e := .released n) rfl hhand rfl rfl rfl rfl ?_ ?_
    ((Nat.sub_le _ _).trans h.cap) (by simp)
  · rcases hevents with hevents | ⟨hleaks, hevents⟩ <;> rw [hevents]
    · exact .released
    · exact .leaked hleaks
  · rw [outstanding_released, Finset.card_erase_of_mem hmem, ← h.active]
    rfl

theorem Sound.shutdown (h : Sound leaks s) : Sound leaks s.runtimeBeginShutdown := by
  have hevents : ∀ m, s.runtimeBeginShutdown.eventsOf m = s.eventsOf m :=
    fun m => s.eventsOf_emit_of_ne (by simp [ServerEvent.connection])
  refine ⟨?_, h.cap, fun m => hevents m ▸ h.life m, fun m hm => hevents m ▸ h.settled m hm,
    h.noneLate.snoc (by simp), fun _ => rfl⟩
  exact h.active.trans (congrArg Finset.card (outstanding_of_ne (by simp) (by simp)).symm)

end ServerState

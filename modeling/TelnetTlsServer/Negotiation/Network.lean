-- SUMMARY: Two endpoints running the option state machine over FIFO channels: they agree once the channels are quiet, and deliveries terminate.
import Mathlib.Algebra.Order.BigOperators.Group.Finset
import Mathlib.Data.FinEnum
import TelnetTlsServer.Negotiation.TelnetQ

/-!
# Two negotiating endpoints

Both endpoints run `telnet_q_request` and `telnet_q_receive`. Every command an
endpoint sends is appended to the channel towards the other one. Requests may
come at any time and `accept_fn` may answer differently at each call.

Each option and direction is its own small negotiation: `Network.pair` projects
a network to the Q-method pair of one option, and a step of the network is a
move of one pair and leaves every other pair alone.
-/

open Transition

structure Network where
  a : TelnetQ
  b : TelnetQ
  toA : List OptionCommand
  toB : List OptionCommand

inductive NetworkEvent where
  | requestA (direction : TelnetQDirection) (option : UInt8) (enable : Bool)
  | requestB (direction : TelnetQDirection) (option : UInt8) (enable : Bool)
  | deliverA (accept : TelnetQDirection → UInt8 → Bool)
  | deliverB (accept : TelnetQDirection → UInt8 → Bool)

namespace Network

def initial : Network := ⟨telnetQInit, telnetQInit, [], []⟩

/-- One step. Delivery from an empty channel is not possible. -/
def next : NetworkEvent → Network → Option Network
  | .requestA d o enable, n =>
      let r := telnetQRequest n.a d o enable
      some { n with a := r.1, toB := n.toB ++ r.2 }
  | .requestB d o enable, n =>
      let r := telnetQRequest n.b d o enable
      some { n with b := r.1, toA := n.toA ++ r.2 }
  | .deliverA accept, n =>
      match n.toA with
      | [] => none
      | (command, option) :: rest =>
          let r := telnetQReceive n.a command option accept
          some { n with a := r.1, toA := rest, toB := n.toB ++ r.2 }
  | .deliverB accept, n =>
      match n.toB with
      | [] => none
      | (command, option) :: rest =>
          let r := telnetQReceive n.b command option accept
          some { n with b := r.1, toB := rest, toA := n.toA ++ r.2 }

def system : System Network NetworkEvent where
  init n := n = initial
  step e n n' := n.next e = some n'

/-- A list of steps taken one after the other. -/
def run (events : List NetworkEvent) (n : Network) : Option Network :=
  events.foldlM (fun n e => n.next e) n

theorem Reachable.run (events : List NetworkEvent) {n n' : Network} (hn : system.Reachable n)
    (h : n.run events = some n') : system.Reachable n' := by
  induction events generalizing n with
  | nil =>
    simp only [Network.run, List.foldlM_nil, Option.pure_def, Option.some.injEq] at h
    exact h ▸ hn
  | cons e rest ih =>
    simp only [Network.run, List.foldlM_cons, Option.bind_eq_bind, Option.bind_eq_some_iff] at h
    obtain ⟨m, hm, hrest⟩ := h
    exact ih (.step hn hm) hrest

def swap (n : Network) : Network := ⟨n.b, n.a, n.toB, n.toA⟩

end Network

def NetworkEvent.swap : NetworkEvent → NetworkEvent
  | .requestA d o enable => .requestB d o enable
  | .requestB d o enable => .requestA d o enable
  | .deliverA accept => .deliverB accept
  | .deliverB accept => .deliverA accept

def NetworkEvent.IsDelivery : NetworkEvent → Prop
  | .requestA .. | .requestB .. => False
  | .deliverA .. | .deliverB .. => True

theorem Network.next_swap {e : NetworkEvent} {n n' : Network} (h : n.next e = some n') :
    n.swap.next e.swap = some n'.swap := by
  cases e with
  | requestA d o enable => simp only [next, Option.some.injEq] at h; subst h; rfl
  | requestB d o enable => simp only [next, Option.some.injEq] at h; subst h; rfl
  | deliverA accept =>
    obtain ⟨a, b, toA, toB⟩ := n
    cases toA with
    | nil => simp [next] at h
    | cons m rest => simp only [next, Option.some.injEq] at h; subst h; rfl
  | deliverB accept =>
    obtain ⟨a, b, toA, toB⟩ := n
    cases toB with
    | nil => simp [next] at h
    | cons m rest => simp only [next, Option.some.injEq] at h; subst h; rfl

/-! ## Commands of one option -/

/-- The direction at the other end: what is local here is remote there. -/
def TelnetQDirection.opposite : TelnetQDirection → TelnetQDirection
  | .local_ => .remote
  | .remote => .local_

@[simp] theorem TelnetQDirection.opposite_opposite (d : TelnetQDirection) :
    d.opposite.opposite = d := by
  cases d <;> rfl

theorem TelnetQDirection.opposite_inj {d d' : TelnetQDirection} :
    d.opposite = d'.opposite ↔ d = d' := by
  cases d <;> cases d' <;> simp [opposite]

/-- The sign a command carries in the negotiation of one option and of one
direction of its sender. -/
def signOf (d : TelnetQDirection) (o : UInt8) (m : OptionCommand) : Option Bool :=
  if m.2 = o then
    if m.1 = enableCommand d then some true
    else if m.1 = disableCommand d then some false
    else none
  else none

theorem signOf_signCommand (d d' : TelnetQDirection) (o o' : UInt8) (s : Bool) :
    signOf d o (signCommand d' s, o') = if d' = d ∧ o' = o then some s else none := by
  by_cases ho : o' = o
  · cases d <;> cases d' <;> cases s <;>
      simp [signOf, signCommand, enableCommand, disableCommand, ho, Telnet.will, Telnet.wont,
        Telnet.do_, Telnet.dont]
  · simp [signOf, ho]

/-- A command sent for the direction `d` is received on the opposite one. -/
theorem telnetQReceive_actsAs (q : TelnetQ) (d : TelnetQDirection) (s : Bool) (o : UInt8)
    (accept : TelnetQDirection → UInt8 → Bool) :
    ActsAs q d.opposite o (telnetQReceive q (signCommand d s) o accept)
      ((selectSide q d.opposite o).view.hear (accept d.opposite o) s) := by
  cases d with
  | local_ =>
    cases s with
    | true => exact receivePositive_actsAs q .remote o (accept .remote o)
    | false => exact receiveNegative_actsAs q .remote o (accept .remote o)
  | remote =>
    cases s with
    | true => exact receivePositive_actsAs q .local_ o (accept .local_ o)
    | false => exact receiveNegative_actsAs q .local_ o (accept .local_ o)

theorem ActsAs.filterMap_same {q : TelnetQ} {d : TelnetQDirection} {o : UInt8}
    {r : TelnetQ × List OptionCommand} {s : QMethod.Side × Option Bool} (h : ActsAs q d o r s) :
    r.2.filterMap (signOf d o) = s.2.toList := by
  rw [h.sent]
  cases s.2 <;> simp [signOf_signCommand]

theorem ActsAs.filterMap_other {q : TelnetQ} {d d' : TelnetQDirection} {o o' : UInt8}
    {r : TelnetQ × List OptionCommand} {s : QMethod.Side × Option Bool} (h : ActsAs q d o r s)
    (hne : ¬ (d' = d ∧ o' = o)) : r.2.filterMap (signOf d' o') = [] := by
  rw [h.sent]
  have hne' : ¬ (d = d' ∧ o = o') := fun heq => hne ⟨heq.1.symm, heq.2.symm⟩
  cases s.2 <;> simp [signOf_signCommand, hne']

/-! ## The pair of one option -/

namespace Network

/-- The negotiation of option `o` in the direction `d` of endpoint A. -/
def pair (d : TelnetQDirection) (o : UInt8) (n : Network) : QMethod.Pair where
  near := (selectSide n.a d o).view
  far := (selectSide n.b d.opposite o).view
  out := n.toB.filterMap (signOf d o)
  back := n.toA.filterMap (signOf d.opposite o)

theorem pair_swap (d : TelnetQDirection) (o : UInt8) (n : Network) :
    n.swap.pair d.opposite o = (n.pair d o).swap := by
  simp [pair, swap, QMethod.Pair.swap]

/-- What a step of the network is for the pair of `d` and `o`: no change, or a
move, which is a hearing exactly when the step is a delivery. -/
def PairMoves (delivery : Prop) (p p' : QMethod.Pair) : Prop :=
  ∃ m, QMethod.Pair.Step m p p' ∧
    (delivery ↔ ∃ accept, m = .hearNear accept ∨ m = .hearFar accept)

theorem PairMoves.swap {delivery : Prop} {p p' : QMethod.Pair} (h : PairMoves delivery p p') :
    PairMoves delivery p.swap p'.swap := by
  obtain ⟨m, hstep, hdel⟩ := h
  refine ⟨m.swap, hstep.swap, hdel.trans ?_⟩
  cases m <;> simp [QMethod.Move.swap]

private theorem pair_requestA (n : Network) (d d' : TelnetQDirection) (o o' : UInt8)
    (enable : Bool) {n' : Network} (h : n.next (.requestA d' o' enable) = some n') :
    if d = d' ∧ o = o' then PairMoves False (n.pair d o) (n'.pair d o)
    else n'.pair d o = n.pair d o := by
  have hacts := telnetQRequest_actsAs n.a d' o' enable
  simp only [next, Option.some.injEq] at h
  subst h
  split
  case isTrue heq =>
    obtain ⟨rfl, rfl⟩ := heq
    refine ⟨.askNear enable, ?_, by simp⟩
    have hmove := QMethod.Pair.Step.askNear (n.pair d o) enable
    simpa [pair, hacts.side, hacts.filterMap_same] using hmove
  case isFalse hne =>
    simp [pair, hacts.frame d o hne, hacts.filterMap_other hne]

private theorem pair_deliverA (n : Network) (d d' : TelnetQDirection) (o o' : UInt8) (s : Bool)
    (accept : TelnetQDirection → UInt8 → Bool) (rest : List OptionCommand)
    (hto : n.toA = (signCommand d'.opposite s, o') :: rest) {n' : Network}
    (h : n.next (.deliverA accept) = some n') :
    if d = d' ∧ o = o' then PairMoves True (n.pair d o) (n'.pair d o)
    else n'.pair d o = n.pair d o := by
  have hacts := telnetQReceive_actsAs n.a d'.opposite s o' accept
  rw [TelnetQDirection.opposite_opposite] at hacts
  simp only [next, hto, Option.some.injEq] at h
  subst h
  split
  case isTrue heq =>
    obtain ⟨rfl, rfl⟩ := heq
    refine ⟨.hearNear (accept d o), ?_, by simp⟩
    have hback : (n.pair d o).back = s :: rest.filterMap (signOf d.opposite o) := by
      simp [pair, hto, signOf_signCommand]
    have hmove := QMethod.Pair.Step.hearNear (n.pair d o) (accept d o) s _ hback
    simpa [pair, hacts.side, hacts.filterMap_same] using hmove
  case isFalse hne =>
    have hne' : ¬ (d'.opposite = d.opposite ∧ o' = o) := by
      rw [TelnetQDirection.opposite_inj]
      exact fun heq => hne ⟨heq.1.symm, heq.2.symm⟩
    simp [pair, hto, signOf_signCommand, hacts.frame d o hne, hacts.filterMap_other hne, hne']

/-- Only the four commands of the Q-method are in flight. -/
def Known (n : Network) : Prop := ∀ m ∈ n.toA ++ n.toB, ∃ d s, m.1 = signCommand d s

private theorem ActsAs.known {q : TelnetQ} {d : TelnetQDirection} {o : UInt8}
    {r : TelnetQ × List OptionCommand} {s : QMethod.Side × Option Bool} (h : ActsAs q d o r s) :
    ∀ m ∈ r.2, ∃ d s, m.1 = signCommand d s := by
  intro m hm
  rw [h.sent, List.mem_map] at hm
  obtain ⟨sign, _, rfl⟩ := hm
  exact ⟨d, sign, rfl⟩

theorem Known.swap {n : Network} (h : n.Known) : n.swap.Known := by
  intro m hm
  exact h m (by simpa [Network.swap, or_comm] using hm)

private theorem Known.requestA {n n' : Network} (hk : n.Known) {d : TelnetQDirection} {o : UInt8}
    {enable : Bool} (h : n.next (.requestA d o enable) = some n') : n'.Known := by
  have hsent := ActsAs.known (telnetQRequest_actsAs n.a d o enable)
  simp only [next, Option.some.injEq] at h
  subst h
  intro m hm
  simp only [List.mem_append] at hm
  rcases hm with hm | hm | hm
  · exact hk m (by simp [hm])
  · exact hk m (by simp [hm])
  · exact hsent m hm

private theorem Known.deliverA {n n' : Network} (hk : n.Known)
    {accept : TelnetQDirection → UInt8 → Bool}
    (h : n.next (.deliverA accept) = some n') : n'.Known := by
  cases hto : n.toA with
  | nil => simp [next, hto] at h
  | cons c rest =>
    obtain ⟨command, o⟩ := c
    obtain ⟨d, s, rfl⟩ := hk (command, o) (by simp [hto])
    have hsent := ActsAs.known (telnetQReceive_actsAs n.a d s o accept)
    simp only [next, hto, Option.some.injEq] at h
    subst h
    intro m hm
    simp only [List.mem_append] at hm
    rcases hm with hm | hm | hm
    · exact hk m (by simp [hto, hm])
    · exact hk m (by simp [hm])
    · exact hsent m hm

theorem known_of_reachable {n : Network} (h : system.Reachable n) : n.Known := by
  refine h.invariant (I := Known) ?_ ?_
  · rintro _ rfl m hm
    simp [initial] at hm
  · intro e n n' _ hk hstep
    cases e with
    | requestA d o enable => exact hk.requestA hstep
    | requestB d o enable => exact (hk.swap.requestA (next_swap hstep)).swap
    | deliverA accept => exact hk.deliverA hstep
    | deliverB accept => exact (hk.swap.deliverA (next_swap hstep)).swap

/-- A step moves one pair and leaves the others alone. -/
def MovesPair (delivery : Prop) (n n' : Network) : Prop :=
  ∃ d' o', PairMoves delivery (n.pair d' o') (n'.pair d' o') ∧
    ∀ d o, ¬ (d = d' ∧ o = o') → n'.pair d o = n.pair d o

theorem MovesPair.of_swap {delivery : Prop} {n n' : Network}
    (h : MovesPair delivery n.swap n'.swap) : MovesPair delivery n n' := by
  obtain ⟨d', o', hmove, hframe⟩ := h
  have hpair : ∀ (n : Network) d o, n.pair d o = (n.swap.pair d.opposite o).swap := by
    intro n d o
    rw [pair_swap]
    rfl
  refine ⟨d'.opposite, o', ?_, ?_⟩
  · rw [hpair, hpair n', TelnetQDirection.opposite_opposite]
    exact hmove.swap
  · intro d o hne
    rw [hpair, hpair n, hframe d.opposite o]
    rintro ⟨rfl, rfl⟩
    exact hne ⟨by simp, rfl⟩

private theorem movesPair_requestA {n n' : Network} {d : TelnetQDirection} {o : UInt8}
    {enable : Bool} (h : n.next (.requestA d o enable) = some n') : MovesPair False n n' := by
  refine ⟨d, o, ?_, ?_⟩
  · simpa using pair_requestA n d d o o enable h
  · intro d' o' hne
    simpa [hne] using pair_requestA n d' d o' o enable h

private theorem movesPair_deliverA {n n' : Network} (hk : n.Known)
    {accept : TelnetQDirection → UInt8 → Bool}
    (h : n.next (.deliverA accept) = some n') : MovesPair True n n' := by
  cases hto : n.toA with
  | nil => simp [next, hto] at h
  | cons c rest =>
    obtain ⟨command, o⟩ := c
    obtain ⟨d, s, hd⟩ := hk (command, o) (by simp [hto])
    have hhead : n.toA = (signCommand d.opposite.opposite s, o) :: rest := by
      simpa [← hd] using hto
    refine ⟨d.opposite, o, ?_, ?_⟩
    · simpa using pair_deliverA n d.opposite d.opposite o o s accept rest hhead h
    · intro d' o' hne
      simpa [hne] using pair_deliverA n d' d.opposite o' o s accept rest hhead h

theorem movesPair_of_next {e : NetworkEvent} {n n' : Network} (hk : n.Known)
    (h : n.next e = some n') : MovesPair e.IsDelivery n n' := by
  cases e with
  | requestA d o enable => exact movesPair_requestA h
  | requestB d o enable => exact (movesPair_requestA (next_swap h)).of_swap
  | deliverA accept => exact movesPair_deliverA hk h
  | deliverB accept => exact (movesPair_deliverA hk.swap (next_swap h)).of_swap

/-! ## Agreement -/

/-- Every pair of a network runs the Q-method. -/
theorem projects_pair (d : TelnetQDirection) (o : UInt8) :
    system.Projects QMethod.pairSystem (pair d o) where
  init := by
    rintro _ rfl
    simp [pair, initial, QMethod.pairSystem, TelnetQSide.view, TelnetQStateId.phase,
      QMethod.Side.initial]
  step := by
    intro e n n' hn hstep
    obtain ⟨d', o', ⟨m, hmove, _⟩, hframe⟩ := movesPair_of_next (known_of_reachable hn) hstep
    by_cases heq : d = d' ∧ o = o'
    · obtain ⟨rfl, rfl⟩ := heq
      exact .inr ⟨m, hmove⟩
    · exact .inl (hframe d o heq)

theorem coherent_pair {n : Network} (h : system.Reachable n) (d : TelnetQDirection) (o : UInt8) :
    QMethod.Coherent (n.pair d o) :=
  QMethod.coherent_of_reachable ((projects_pair d o).reachable h)

/-- Two sides that are settled on the same answer, with nothing remembered. -/
def Agreed (near far : TelnetQSide) : Prop :=
  (near.state = .no ∨ near.state = .yes) ∧ near.queuedOpposite = false ∧
  (far.state = .no ∨ far.state = .yes) ∧ far.queuedOpposite = false ∧
  near.state = far.state

private theorem agreed_of_view {near far : TelnetQSide} (hview : near.view = far.view)
    (hwait : near.view.phase.waiting = false) (hqueued : near.view.queued = false) :
    Agreed near far := by
  obtain ⟨st, q⟩ := near
  obtain ⟨st', q'⟩ := far
  simp only [TelnetQSide.view, QMethod.Side.mk.injEq] at hview hwait hqueued
  obtain ⟨hst, rfl⟩ := hview
  subst hqueued
  cases st <;> cases st' <;>
    simp_all [Agreed, TelnetQStateId.phase, QMethod.Phase.waiting]

private theorem filterMap_signOf_eq_nil {d : TelnetQDirection} {o : UInt8}
    {ms : List OptionCommand} (h : ∀ m ∈ ms, m.2 ≠ o) : ms.filterMap (signOf d o) = [] := by
  rw [List.filterMap_eq_nil_iff]
  intro m hm
  simp [signOf, h m hm]

/-- Whatever was requested and however the commands crossed: once no command of
an option is in flight, both endpoints have the same settled view of it. -/
theorem options_agree {n : Network} (h : system.Reachable n) (o : UInt8)
    (hA : ∀ m ∈ n.toA, m.2 ≠ o) (hB : ∀ m ∈ n.toB, m.2 ≠ o) :
    Agreed (n.a.local_ o) (n.b.remote o) ∧ Agreed (n.a.remote o) (n.b.local_ o) := by
  have hagree : ∀ d, Agreed (selectSide n.a d o) (selectSide n.b d.opposite o) := by
    intro d
    obtain ⟨hview, hwait, hqueued⟩ := (coherent_pair h d o).agree
      (filterMap_signOf_eq_nil hB) (filterMap_signOf_eq_nil hA)
    exact agreed_of_view hview hwait hqueued
  exact ⟨hagree .local_, hagree .remote⟩

/-- Two requests to enable BINARY that cross. -/
def crossedRequests : List NetworkEvent :=
  [.requestA .local_ Telnet.Opt.binary true, .requestB .remote Telnet.Opt.binary true,
    .deliverB fun _ _ => false, .deliverA fun _ _ => false]

theorem options_agree_crossed :
    ∃ n, initial.run crossedRequests = some n ∧
      (n.a.local_ Telnet.Opt.binary).state = .yes ∧
      Agreed (n.a.local_ Telnet.Opt.binary) (n.b.remote Telnet.Opt.binary) ∧
      Agreed (n.a.remote Telnet.Opt.binary) (n.b.local_ Telnet.Opt.binary) := by
  refine ⟨_, rfl, rfl, options_agree (Reachable.run crossedRequests (.init rfl) rfl) _ ?_ ?_⟩ <;>
  · intro m hm
    cases hm

/-! ## Termination -/

/-- The load of a network: the load of every pair. -/
def load (n : Network) : Nat := ∑ o : UInt8, ((n.pair .local_ o).load + (n.pair .remote o).load)

theorem load_lt_of_delivery {e : NetworkEvent} {n n' : Network} (hn : system.Reachable n)
    (he : e.IsDelivery) (h : n.next e = some n') : n'.load < n.load := by
  obtain ⟨d', o', ⟨m, hmove, hdel⟩, hframe⟩ := movesPair_of_next (known_of_reachable hn) h
  have hlt : (n'.pair d' o').load < (n.pair d' o').load :=
    (coherent_pair hn d' o').load_lt hmove (hdel.mp he)
  have hle : ∀ d o, (n'.pair d o).load ≤ (n.pair d o).load := by
    intro d o
    by_cases heq : d = d' ∧ o = o'
    · obtain ⟨rfl, rfl⟩ := heq
      exact hlt.le
    · rw [hframe d o heq]
  refine Finset.sum_lt_sum (fun o _ => add_le_add (hle .local_ o) (hle .remote o))
    ⟨o', Finset.mem_univ o', ?_⟩
  cases d' with
  | local_ => exact add_lt_add_of_lt_of_le hlt (hle .remote o')
  | remote => exact add_lt_add_of_le_of_lt (hle .local_ o') hlt

/-- Deliveries alone always come to an end: the load of the network decreases
with each one, so no sequence of deliveries is longer than the load and none is
infinite. -/
theorem deliveries_terminate {n : Network} (h : system.Reachable n) :
    system.Decreases NetworkEvent.IsDelivery load ∧
    (∀ k n', system.Run NetworkEvent.IsDelivery k n n' → k ≤ n.load) ∧
    ∀ f : Nat → Network, f 0 = n →
      ¬ ∀ i, ∃ e : NetworkEvent, e.IsDelivery ∧ (f i).next e = some (f (i + 1)) := by
  have hdec : system.Decreases NetworkEvent.IsDelivery load :=
    fun e n n' hn he hstep => load_lt_of_delivery hn he hstep
  refine ⟨hdec, ?_, ?_⟩
  · intro k n' hrun
    have hle := hdec.run_le h hrun
    omega
  · rintro f rfl
    exact hdec.not_infinite f h

/-- A request under way. -/
theorem deliveries_terminate_request :
    ∃ n, initial.run [.requestA .local_ Telnet.Opt.binary true] = some n ∧ n.toB ≠ [] ∧
      (∀ k n', system.Run NetworkEvent.IsDelivery k n n' → k ≤ n.load) := by
  refine ⟨_, rfl, by decide, ?_⟩
  exact (deliveries_terminate (Reachable.run [.requestA .local_ Telnet.Opt.binary true] (.init rfl) rfl)).2.1

end Network

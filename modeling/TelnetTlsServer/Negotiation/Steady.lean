-- SUMMARY: An endpoint that asks for options and a peer that only answers, always alike: an option settles where it was last asked to be, if the peer accepts it.
import TelnetTlsServer.Lib.QMethodPeer
import TelnetTlsServer.Negotiation.Network

/-!
# A peer that only answers

In `Network` both endpoints may ask and may answer as they like. Here endpoint B never
asks, and its answers are fixed: `accept` says what it accepts. Then what A has asked for
last decides the outcome of every option.
-/

open Transition

structure OptionRequest where
  direction : TelnetQDirection
  option : UInt8
  enable : Bool
deriving DecidableEq, Repr

namespace OptionRequest

/-- Requests one after the other, and what is sent for them. -/
def run (q : TelnetQ) : List OptionRequest → TelnetQ × List OptionCommand
  | [] => (q, [])
  | r :: rest =>
      let (q, sent) := telnetQRequest q r.direction r.option r.enable
      let (q, sentLater) := run q rest
      (q, sent ++ sentLater)

/-- What is wished for after a request. -/
def wished (wish : TelnetQDirection → UInt8 → Bool) (r : OptionRequest) :
    TelnetQDirection → UInt8 → Bool :=
  fun d o => if d = r.direction ∧ o = r.option then r.enable else wish d o

theorem run_singleton (q : TelnetQ) (r : OptionRequest) :
    run q [r] = telnetQRequest q r.direction r.option r.enable := by
  simp [run]

theorem run_append (q : TelnetQ) (requests requests' : List OptionRequest) :
    run q (requests ++ requests') =
      ((run (run q requests).1 requests').1,
        (run q requests).2 ++ (run (run q requests).1 requests').2) := by
  induction requests generalizing q with
  | nil => rfl
  | cons r rest ih => simp [run, ih]

end OptionRequest

namespace Network

/-- Every option fits what A wishes and B accepts. -/
def Steady (accept wish : TelnetQDirection → UInt8 → Bool) (n : Network) : Prop :=
  ∀ d o, QMethod.Steady (accept d.opposite o) (wish d o) (n.pair d o)

variable {accept wish : TelnetQDirection → UInt8 → Bool} {n : Network}

theorem steady_initial (accept : TelnetQDirection → UInt8 → Bool) :
    Steady accept (fun _ _ => false) initial := by
  intro d o
  have hpair : initial.pair d o = ⟨⟨.no, false⟩, ⟨.no, false⟩, [], []⟩ := by
    simp [pair, initial, TelnetQSide.view, TelnetQStateId.phase]
  rw [hpair]
  exact .initial _

/-! ## What a step does to the pair of an option -/

section Pairs

variable {q : TelnetQ} {d d' : TelnetQDirection} {o o' : UInt8}
  {r : TelnetQ × List OptionCommand} {s : QMethod.Side × Option Bool}

/-- A acts on one option. -/
theorem pair_actA (h : ActsAs n.a d o r s) (rest : List OptionCommand) :
    pair d o { n with a := r.1, toA := rest, toB := n.toB ++ r.2 } =
      { n.pair d o with
        near := s.1
        back := rest.filterMap (signOf d.opposite o)
        out := (n.pair d o).out ++ s.2.toList } := by
  simp [pair, h.side, h.filterMap_same]

theorem pair_actA_other (h : ActsAs n.a d o r s) (hne : ¬ (d' = d ∧ o' = o))
    (rest : List OptionCommand) :
    pair d' o' { n with a := r.1, toA := rest, toB := n.toB ++ r.2 } =
      { n.pair d' o' with back := rest.filterMap (signOf d'.opposite o') } := by
  simp [pair, h.frame d' o' hne, h.filterMap_other hne]

/-- B acts on one option, which is the other way round for it. -/
theorem pair_actB (h : ActsAs n.b d.opposite o r s) (rest : List OptionCommand) :
    pair d o { n with b := r.1, toB := rest, toA := n.toA ++ r.2 } =
      { n.pair d o with
        far := s.1
        out := rest.filterMap (signOf d o)
        back := (n.pair d o).back ++ s.2.toList } := by
  simp [pair, h.side, h.filterMap_same]

theorem pair_actB_other (h : ActsAs n.b d.opposite o r s) (hne : ¬ (d' = d ∧ o' = o))
    (rest : List OptionCommand) :
    pair d' o' { n with b := r.1, toB := rest, toA := n.toA ++ r.2 } =
      { n.pair d' o' with out := rest.filterMap (signOf d' o') } := by
  have hne' : ¬ (d'.opposite = d.opposite ∧ o' = o) := by
    rwa [TelnetQDirection.opposite_inj]
  simp [pair, h.frame _ o' hne', h.filterMap_other hne']

end Pairs

/-! ## Steps -/

namespace Steady

theorem request (h : n.Steady accept wish) (r : OptionRequest) :
    Steady accept (r.wished wish)
      { n with
        a := (telnetQRequest n.a r.direction r.option r.enable).1
        toB := n.toB ++ (telnetQRequest n.a r.direction r.option r.enable).2 } := by
  intro d o
  have hacts := telnetQRequest_actsAs n.a r.direction r.option r.enable
  by_cases hsame : d = r.direction ∧ o = r.option
  · obtain ⟨rfl, rfl⟩ := hsame
    rw [OptionRequest.wished, if_pos ⟨rfl, rfl⟩, pair_actA hacts n.toA]
    exact (h r.direction r.option).askNear r.enable
  · rw [OptionRequest.wished, if_neg hsame, pair_actA_other hacts hsame n.toA]
    exact h d o

theorem requests (h : n.Steady accept wish) (requests : List OptionRequest) :
    Steady accept (requests.foldl OptionRequest.wished wish)
      { n with
        a := (OptionRequest.run n.a requests).1
        toB := n.toB ++ (OptionRequest.run n.a requests).2 } := by
  induction requests generalizing n wish with
  | nil => simpa [OptionRequest.run] using h
  | cons r rest ih => simpa [OptionRequest.run] using ih (h.request r)

/-- A hears a command of B. -/
theorem hearA (h : n.Steady accept wish) {d : TelnetQDirection} {s : Bool} {o : UInt8}
    {rest : List OptionCommand} (hto : n.toA = (signCommand d.opposite s, o) :: rest)
    (acceptA : TelnetQDirection → UInt8 → Bool) :
    Steady accept wish
      { n with
        a := (telnetQReceive n.a (signCommand d.opposite s) o acceptA).1
        toA := rest
        toB := n.toB ++ (telnetQReceive n.a (signCommand d.opposite s) o acceptA).2 } := by
  intro d' o'
  have hacts := telnetQReceive_actsAs n.a d.opposite s o acceptA
  rw [TelnetQDirection.opposite_opposite] at hacts
  have hpair := h d' o'
  by_cases hsame : d' = d ∧ o' = o
  · obtain ⟨rfl, rfl⟩ := hsame
    have hback : (n.pair d' o').back = s :: rest.filterMap (signOf d'.opposite o') := by
      simp [pair, hto, signOf_signCommand]
    rw [pair_actA hacts rest]
    exact hpair.hearNear (acceptA d' o') hback
  · have hne : ¬ (d.opposite = d'.opposite ∧ o = o') := by
      rw [TelnetQDirection.opposite_inj]
      exact fun heq => hsame ⟨heq.1.symm, heq.2.symm⟩
    have hback : (n.pair d' o').back = rest.filterMap (signOf d'.opposite o') := by
      simp [pair, hto, signOf_signCommand, hne]
    rw [pair_actA_other hacts hsame rest, ← hback]
    exact hpair

/-- B hears a command of A, and answers as it always does. -/
theorem hearB (h : n.Steady accept wish) {d : TelnetQDirection} {s : Bool} {o : UInt8}
    {rest : List OptionCommand} (hto : n.toB = (signCommand d s, o) :: rest) :
    Steady accept wish
      { n with
        b := (telnetQReceive n.b (signCommand d s) o accept).1
        toB := rest
        toA := n.toA ++ (telnetQReceive n.b (signCommand d s) o accept).2 } := by
  intro d' o'
  have hacts := telnetQReceive_actsAs n.b d s o accept
  have hpair := h d' o'
  by_cases hsame : d' = d ∧ o' = o
  · obtain ⟨rfl, rfl⟩ := hsame
    have hout : (n.pair d' o').out = s :: rest.filterMap (signOf d' o') := by
      simp [pair, hto, signOf_signCommand]
    rw [pair_actB hacts rest]
    exact hpair.hearFar hout
  · have hne : ¬ (d = d' ∧ o = o') := fun heq => hsame ⟨heq.1.symm, heq.2.symm⟩
    have hout : (n.pair d' o').out = rest.filterMap (signOf d' o') := by
      simp [pair, hto, signOf_signCommand, hne]
    rw [pair_actB_other hacts hsame rest, ← hout]
    exact hpair

/-! ## What is on -/

theorem enabled_iff (q : TelnetQ) (d : TelnetQDirection) (o : UInt8) :
    telnetQEnabled q d o = true ↔ (selectSide q d o).view.phase = .yes := by
  rw [telnetQEnabled, decide_eq_true_eq, TelnetQSide.view]
  cases (selectSide q d o).state <;> simp [TelnetQStateId.phase]

/-- What B refuses is never on at A. -/
theorem refused (h : n.Steady accept wish) {d : TelnetQDirection} {o : UInt8}
    (haccept : accept d.opposite o = false) : telnetQEnabled n.a d o = false := by
  have hpair := h d o
  rw [haccept] at hpair
  exact Bool.eq_false_iff.mpr fun hon => hpair.near_ne_yes ((enabled_iff n.a d o).mp hon)

/-- With nothing on its way an option is on at both ends, or off at both. -/
theorem settled (h : n.Steady accept wish) (htoA : n.toA = []) (htoB : n.toB = [])
    (d : TelnetQDirection) (o : UInt8) :
    telnetQEnabled n.a d o = (wish d o && accept d.opposite o) ∧
      telnetQEnabled n.b d.opposite o = (wish d o && accept d.opposite o) := by
  obtain ⟨hnear, hfar⟩ := (h d o).settled (by simp [pair, htoB]) (by simp [pair, htoA])
  refine ⟨?_, ?_⟩
  · rw [Bool.eq_iff_iff, Bool.and_eq_true, enabled_iff]
    exact hnear
  · rw [Bool.eq_iff_iff, Bool.and_eq_true, enabled_iff]
    exact hfar

end Steady

end Network

-- SUMMARY: The Q-method for one option in one direction, run by two sides over two FIFO queues: coherence invariant and load measure.
import TelnetTlsServer.Lib.Transition

/-!
# The Q-method on one option

Two sides negotiate one yes/no question over a FIFO queue in each direction.
A message is a sign: `true` asks for or confirms "on", `false` asks for or
confirms "off". A side either has a settled answer or waits for one, and while
it waits it may remember one opposite wish.

`Coherent` lists every way the two answers and the two queues can fit together.
It is preserved by every move, it forces agreement once the queues are empty,
and on coherent pairs `Pair.load` decreases with every message that is heard.
-/

namespace QMethod

open Transition

inductive Phase where
  | no
  | yes
  | wantNo
  | wantYes
deriving DecidableEq, Repr

structure Side where
  phase : Phase
  queued : Bool
deriving DecidableEq, Repr

/-- Neither side of any option starts enabled. -/
def Side.initial : Side := ⟨.no, false⟩

def Phase.waiting : Phase → Bool
  | .no | .yes => false
  | .wantNo | .wantYes => true

/-- The owner of the side wishes the option on or off. The second component is
the message to send, if any. -/
def Side.ask (enable : Bool) (s : Side) : Side × Option Bool :=
  match enable, s.phase with
  | true, .no => (⟨.wantYes, false⟩, some true)
  | true, .yes => (s, none)
  | true, .wantNo => (⟨.wantNo, true⟩, none)
  | true, .wantYes => (⟨.wantYes, false⟩, none)
  | false, .no => (s, none)
  | false, .yes => (⟨.wantNo, false⟩, some false)
  | false, .wantNo => (⟨.wantNo, false⟩, none)
  | false, .wantYes => (⟨.wantYes, true⟩, none)

/-- The side hears a message. `accept` is its answer to an unsolicited request
to switch on. -/
def Side.hear (accept : Bool) (message : Bool) (s : Side) : Side × Option Bool :=
  match message, s.phase with
  | true, .no => if accept then (⟨.yes, false⟩, some true) else (s, some false)
  | true, .yes => (s, none)
  | true, .wantNo => if s.queued then (⟨.yes, false⟩, none) else (⟨.no, s.queued⟩, none)
  | true, .wantYes =>
      if s.queued then (⟨.wantNo, false⟩, some false) else (⟨.yes, s.queued⟩, none)
  | false, .no => (s, none)
  | false, .yes => (⟨.no, false⟩, some false)
  | false, .wantNo =>
      if s.queued then (⟨.wantYes, false⟩, some true) else (⟨.no, s.queued⟩, none)
  | false, .wantYes => (⟨.no, false⟩, none)

/-! ## A side and its owner's wish -/

/-- The side has what its owner wishes, is on the way to it, or was refused it:
whatever it waits for, and remembers, ends in the wish or in "off". -/
def Side.leans (wish : Bool) (s : Side) : Bool :=
  match wish, s.phase with
  | _, .no => true
  | true, .yes => true
  | false, .yes => false
  | true, .wantYes => !s.queued
  | true, .wantNo => s.queued
  | false, .wantYes => s.queued
  | false, .wantNo => !s.queued

theorem Side.leans_ask (wish : Bool) (s : Side) : (s.ask wish).1.leans wish = true := by
  obtain ⟨phase, queued⟩ := s
  cases wish <;> cases phase <;> rfl

/-- No message moves a side away from the wish, if an unsolicited request is
answered by it. -/
theorem Side.leans_hear {wish : Bool} {s : Side} (h : s.leans wish = true) (message : Bool) :
    (s.hear wish message).1.leans wish = true := by
  obtain ⟨phase, queued⟩ := s
  cases wish <;> cases phase <;> cases queued <;> cases message <;> first | rfl | cases h

theorem Side.phase_ask_true {s : Side} (h : (s.ask true).1.phase = .wantNo) :
    s.phase = .wantNo := by
  obtain ⟨phase, queued⟩ := s
  cases phase <;> first | rfl | cases h

/-- A side that leans to "on" does not begin to ask for "off". -/
theorem Side.phase_hear_ne_wantNo {s : Side} (h : s.leans true = true) (message : Bool) :
    (s.hear true message).1.phase ≠ .wantNo := by
  obtain ⟨phase, queued⟩ := s
  cases phase <;> cases queued <;> cases message <;> first | decide | cases h

/-! ## Two sides and two queues -/

structure Pair where
  near : Side
  far : Side
  out : List Bool
  back : List Bool
deriving DecidableEq, Repr

inductive Move where
  | askNear (enable : Bool)
  | askFar (enable : Bool)
  | hearNear (accept : Bool)
  | hearFar (accept : Bool)

inductive Pair.Step : Move → Pair → Pair → Prop where
  | askNear (p : Pair) (enable : Bool) :
      Step (.askNear enable) p
        { p with near := (p.near.ask enable).1, out := p.out ++ (p.near.ask enable).2.toList }
  | askFar (p : Pair) (enable : Bool) :
      Step (.askFar enable) p
        { p with far := (p.far.ask enable).1, back := p.back ++ (p.far.ask enable).2.toList }
  | hearNear (p : Pair) (accept message : Bool) (rest : List Bool) (h : p.back = message :: rest) :
      Step (.hearNear accept) p
        { p with
          near := (p.near.hear accept message).1
          back := rest
          out := p.out ++ (p.near.hear accept message).2.toList }
  | hearFar (p : Pair) (accept message : Bool) (rest : List Bool) (h : p.out = message :: rest) :
      Step (.hearFar accept) p
        { p with
          far := (p.far.hear accept message).1
          out := rest
          back := p.back ++ (p.far.hear accept message).2.toList }

def pairSystem : System Pair Move where
  init p := p = ⟨.initial, .initial, [], []⟩
  step := Pair.Step

def Pair.swap (p : Pair) : Pair := ⟨p.far, p.near, p.back, p.out⟩

def Move.swap : Move → Move
  | .askNear e => .askFar e
  | .askFar e => .askNear e
  | .hearNear a => .hearFar a
  | .hearFar a => .hearNear a

/-- The two sides play the same role. -/
theorem Pair.Step.swap {m : Move} {p p' : Pair} (h : Step m p p') :
    Step m.swap p.swap p'.swap := by
  cases h with
  | askNear p e => exact .askFar p.swap e
  | askFar p e => exact .askNear p.swap e
  | hearNear p a m rest h => exact .hearFar p.swap a m rest h
  | hearFar p a m rest h => exact .hearNear p.swap a m rest h

/-! ## Coherence -/

/-- The ways two phases and two queues fit together, written from the side that
asked first. -/
def shape : Phase → Phase → List Bool → List Bool → Bool
  -- settled and equal
  | .no, .no, [], [] => true
  | .yes, .yes, [], [] => true
  -- a request to switch on: under way, refused, granted
  | .wantYes, .no, [true], [] => true
  | .wantYes, .no, [], [false] => true
  | .wantYes, .yes, [], [true] => true
  -- the other side changed its mind after its answer
  | .wantYes, .wantNo, [], [true, false] => true
  | .wantYes, .wantYes, [], [false, true] => true
  -- a request to switch off: under way, confirmed, confirmed and reopened
  | .wantNo, .yes, [false], [] => true
  | .wantNo, .no, [], [false] => true
  | .wantNo, .wantYes, [], [false, true] => true
  -- two requests that cross
  | .wantYes, .wantYes, [true], [true] => true
  | .wantNo, .wantNo, [false], [false] => true
  | _, _, _, _ => false

def Pair.fits (p : Pair) : Bool := shape p.near.phase p.far.phase p.out p.back

/-- Only a waiting side remembers an opposite wish. -/
def Side.tidy (s : Side) : Bool := !s.queued || s.phase.waiting

structure Coherent (p : Pair) : Prop where
  fits : p.fits = true ∨ p.swap.fits = true
  near : p.near.tidy = true
  far : p.far.tidy = true

theorem Coherent.swap {p : Pair} (h : Coherent p) : Coherent p.swap :=
  ⟨h.fits.symm, h.far, h.near⟩

/-- The twelve shapes, as equations. -/
theorem shape_cases {n f : Phase} {out back : List Bool} (h : shape n f out back = true) :
    (n = .no ∧ f = .no ∧ out = [] ∧ back = []) ∨
    (n = .yes ∧ f = .yes ∧ out = [] ∧ back = []) ∨
    (n = .wantYes ∧ f = .no ∧ out = [true] ∧ back = []) ∨
    (n = .wantYes ∧ f = .no ∧ out = [] ∧ back = [false]) ∨
    (n = .wantYes ∧ f = .yes ∧ out = [] ∧ back = [true]) ∨
    (n = .wantYes ∧ f = .wantNo ∧ out = [] ∧ back = [true, false]) ∨
    (n = .wantYes ∧ f = .wantYes ∧ out = [] ∧ back = [false, true]) ∨
    (n = .wantNo ∧ f = .yes ∧ out = [false] ∧ back = []) ∨
    (n = .wantNo ∧ f = .no ∧ out = [] ∧ back = [false]) ∨
    (n = .wantNo ∧ f = .wantYes ∧ out = [] ∧ back = [false, true]) ∨
    (n = .wantYes ∧ f = .wantYes ∧ out = [true] ∧ back = [true]) ∨
    (n = .wantNo ∧ f = .wantNo ∧ out = [false] ∧ back = [false]) := by
  unfold shape at h
  split at h <;> simp_all

instance (p : Pair) : Decidable (Coherent p) :=
  decidable_of_iff ((p.fits = true ∨ p.swap.fits = true) ∧ p.near.tidy = true ∧ p.far.tidy = true)
    ⟨fun h => ⟨h.1, h.2.1, h.2.2⟩, fun h => ⟨h.fits, h.near, h.far⟩⟩

private theorem Coherent.step_of_fits {m : Move} {p p' : Pair} (hfits : p.fits = true)
    (hnear : p.near.tidy = true) (hfar : p.far.tidy = true) (h : Pair.Step m p p') :
    Coherent p' := by
  obtain ⟨⟨n, qn⟩, ⟨f, qf⟩, out, back⟩ := p
  -- Each shape fixes the phases and the queues; what is left is one move on a
  -- concrete pair, for each value of the two queue bits.
  rcases shape_cases hfits with ⟨rfl, rfl, rfl, rfl⟩ | ⟨rfl, rfl, rfl, rfl⟩ | ⟨rfl, rfl, rfl, rfl⟩ |
    ⟨rfl, rfl, rfl, rfl⟩ | ⟨rfl, rfl, rfl, rfl⟩ | ⟨rfl, rfl, rfl, rfl⟩ | ⟨rfl, rfl, rfl, rfl⟩ |
    ⟨rfl, rfl, rfl, rfl⟩ | ⟨rfl, rfl, rfl, rfl⟩ | ⟨rfl, rfl, rfl, rfl⟩ | ⟨rfl, rfl, rfl, rfl⟩ |
    ⟨rfl, rfl, rfl, rfl⟩ <;> clear hfits <;> cases h with
  | askNear _ e => revert qn qf e; decide
  | askFar _ e => revert qn qf e; decide
  | hearNear _ a m rest h => cases h; all_goals (revert qn qf a; decide)
  | hearFar _ a m rest h => cases h; all_goals (revert qn qf a; decide)

/-- Every move keeps a coherent pair coherent. -/
theorem Coherent.step {m : Move} {p p' : Pair} (hp : Coherent p) (h : Pair.Step m p p') :
    Coherent p' := by
  rcases hp.fits with hfits | hfits
  · exact step_of_fits hfits hp.near hp.far h
  · exact (step_of_fits hfits hp.far hp.near h.swap).swap

theorem coherent_of_reachable {p : Pair} (h : pairSystem.Reachable p) : Coherent p := by
  refine h.invariant (I := Coherent) ?_ ?_
  · rintro _ rfl
    decide
  · intro m p p' _ hp hstep
    exact hp.step hstep

/-- Once both queues are empty the two sides are settled and equal. -/
theorem Coherent.agree {p : Pair} (h : Coherent p) (hout : p.out = []) (hback : p.back = []) :
    p.near = p.far ∧ p.near.phase.waiting = false ∧ p.near.queued = false := by
  obtain ⟨⟨n, qn⟩, ⟨f, qf⟩, out, back⟩ := p
  subst hout hback
  cases n <;> cases f <;> (revert qn qf; decide)

/-! ## Load -/

/-- How many more messages a side can still cause to be heard: two for each
message coming in, one of them being the possible reply, except that the first
one to reach a waiting side is the reply it waits for; and two for a remembered
wish, which starts one more exchange. -/
def Side.load (s : Side) (incoming : List Bool) : Nat :=
  2 * incoming.length - (if s.phase.waiting && !incoming.isEmpty then 1 else 0)
    + (if s.queued then 2 else 0)

def Pair.load (p : Pair) : Nat := p.near.load p.back + p.far.load p.out

theorem Pair.load_swap (p : Pair) : p.swap.load = p.load := by
  simp only [load, swap]
  omega

private theorem load_hearNear_of_fits {p p' : Pair} {a : Bool}
    (hfits : p.fits = true ∨ p.swap.fits = true)
    (hnear : p.near.tidy = true) (hfar : p.far.tidy = true)
    (h : Pair.Step (.hearNear a) p p') : p'.load < p.load := by
  obtain ⟨⟨n, qn⟩, ⟨f, qf⟩, out, back⟩ := p
  rcases hfits with hfits | hfits <;>
  rcases shape_cases hfits with ⟨rfl, rfl, rfl, rfl⟩ | ⟨rfl, rfl, rfl, rfl⟩ | ⟨rfl, rfl, rfl, rfl⟩ |
    ⟨rfl, rfl, rfl, rfl⟩ | ⟨rfl, rfl, rfl, rfl⟩ | ⟨rfl, rfl, rfl, rfl⟩ | ⟨rfl, rfl, rfl, rfl⟩ |
    ⟨rfl, rfl, rfl, rfl⟩ | ⟨rfl, rfl, rfl, rfl⟩ | ⟨rfl, rfl, rfl, rfl⟩ | ⟨rfl, rfl, rfl, rfl⟩ |
    ⟨rfl, rfl, rfl, rfl⟩ <;> clear hfits <;> cases h with
  | hearNear _ a m rest h => cases h; all_goals (revert qn qf a; decide)

/-- Hearing a message lowers the load. The reply a settled side gives is paid
for because the other side is then waiting for it on an empty queue; that is the
part that needs coherence. -/
theorem Coherent.load_lt {p p' : Pair} {m : Move} (hp : Coherent p) (h : Pair.Step m p p')
    (hm : ∃ a, m = .hearNear a ∨ m = .hearFar a) : p'.load < p.load := by
  obtain ⟨a, rfl | rfl⟩ := hm
  · exact load_hearNear_of_fits hp.fits hp.near hp.far h
  · have hlt := load_hearNear_of_fits hp.swap.fits hp.far hp.near h.swap
    rwa [Pair.load_swap, Pair.load_swap] at hlt

end QMethod

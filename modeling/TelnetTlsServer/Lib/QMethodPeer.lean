-- SUMMARY: The Q-method against a peer that never asks: one that always accepts ends where the last wish was, one that never accepts is never switched on.
import TelnetTlsServer.Lib.QMethod

/-!
# Steady peers

`QMethod.Coherent` leaves open where two sides settle, since both may ask and refuse.
Here the far side only answers, always in the same way. Against a willing one the near
side settles where it was last asked to be; against an unwilling one it is never on.
-/

namespace QMethod

/-- How two sides and two queues fit together if the far side accepts whatever it is
asked and the near side wishes `wish`. -/
inductive Willing (wish : Bool) : Pair → Prop where
  | off (h : wish = false) : Willing wish ⟨⟨.no, false⟩, ⟨.no, false⟩, [], []⟩
  | on (h : wish = true) : Willing wish ⟨⟨.yes, false⟩, ⟨.yes, false⟩, [], []⟩
  | askingOn (queued : Bool) (h : wish = !queued) :
      Willing wish ⟨⟨.wantYes, queued⟩, ⟨.no, false⟩, [true], []⟩
  | granted (queued : Bool) (h : wish = !queued) :
      Willing wish ⟨⟨.wantYes, queued⟩, ⟨.yes, false⟩, [], [true]⟩
  | askingOff (queued : Bool) (h : wish = queued) :
      Willing wish ⟨⟨.wantNo, queued⟩, ⟨.yes, false⟩, [false], []⟩
  | confirmed (queued : Bool) (h : wish = queued) :
      Willing wish ⟨⟨.wantNo, queued⟩, ⟨.no, false⟩, [], [false]⟩

namespace Willing

variable {wish : Bool} {p : Pair}

/-- The near side is asked, and its wish is what it is asked for. -/
theorem askNear (h : Willing wish p) (wish' : Bool) :
    Willing wish' { p with
      near := (p.near.ask wish').1, out := p.out ++ (p.near.ask wish').2.toList } := by
  cases h with
  | off => cases wish' with
    | false => exact .off rfl
    | true => exact .askingOn false rfl
  | on => cases wish' with
    | false => exact .askingOff false rfl
    | true => exact .on rfl
  | askingOn => cases wish' with
    | false => exact .askingOn true rfl
    | true => exact .askingOn false rfl
  | granted => cases wish' with
    | false => exact .granted true rfl
    | true => exact .granted false rfl
  | askingOff => cases wish' with
    | false => exact .askingOff false rfl
    | true => exact .askingOff true rfl
  | confirmed => cases wish' with
    | false => exact .confirmed false rfl
    | true => exact .confirmed true rfl

/-- The near side hears an answer; what it remembers may make it ask again. -/
theorem hearNear (h : Willing wish p) (accept : Bool) {message : Bool} {rest : List Bool}
    (hback : p.back = message :: rest) :
    Willing wish { p with
      near := (p.near.hear accept message).1
      back := rest
      out := p.out ++ (p.near.hear accept message).2.toList } := by
  cases h with
  | off | on | askingOn | askingOff => cases hback
  | granted queued h =>
    cases hback
    cases queued with
    | false => exact .on h
    | true => exact .askingOff false h
  | confirmed queued h =>
    cases hback
    cases queued with
    | false => exact .off h
    | true => exact .askingOn false h

theorem hearFar (h : Willing wish p) {message : Bool} {rest : List Bool}
    (hout : p.out = message :: rest) :
    Willing wish { p with
      far := (p.far.hear true message).1
      out := rest
      back := p.back ++ (p.far.hear true message).2.toList } := by
  cases h with
  | off | on | granted | confirmed => cases hout
  | askingOn queued h =>
    cases hout
    exact .granted queued h
  | askingOff queued h =>
    cases hout
    exact .confirmed queued h

/-- Once the queues are empty both sides are where the near one wishes to be. -/
theorem settled (h : Willing wish p) (hout : p.out = []) (hback : p.back = []) :
    (p.near.phase = .yes ↔ wish = true) ∧ (p.far.phase = .yes ↔ wish = true) := by
  cases h with
  | off h | on h => simp [h]
  | askingOn | askingOff => cases hout
  | granted | confirmed => cases hback

end Willing

/-! ## An unwilling peer -/

/-- The same if the far side accepts nothing: it stays off, and the near side asks in vain. -/
inductive Unwilling : Pair → Prop where
  | off : Unwilling ⟨⟨.no, false⟩, ⟨.no, false⟩, [], []⟩
  | asking (queued : Bool) : Unwilling ⟨⟨.wantYes, queued⟩, ⟨.no, false⟩, [true], []⟩
  | refused (queued : Bool) : Unwilling ⟨⟨.wantYes, queued⟩, ⟨.no, false⟩, [], [false]⟩

namespace Unwilling

variable {p : Pair}

theorem askNear (h : Unwilling p) (enable : Bool) :
    Unwilling { p with
      near := (p.near.ask enable).1, out := p.out ++ (p.near.ask enable).2.toList } := by
  cases h with
  | off => cases enable with
    | false => exact .off
    | true => exact .asking false
  | asking queued => cases enable with
    | false => exact .asking true
    | true => exact .asking false
  | refused queued => cases enable with
    | false => exact .refused true
    | true => exact .refused false

theorem hearNear (h : Unwilling p) (accept : Bool) {message : Bool} {rest : List Bool}
    (hback : p.back = message :: rest) :
    Unwilling { p with
      near := (p.near.hear accept message).1
      back := rest
      out := p.out ++ (p.near.hear accept message).2.toList } := by
  cases h with
  | off | asking => cases hback
  | refused queued =>
    cases hback
    exact .off

theorem hearFar (h : Unwilling p) {message : Bool} {rest : List Bool}
    (hout : p.out = message :: rest) :
    Unwilling { p with
      far := (p.far.hear false message).1
      out := rest
      back := p.back ++ (p.far.hear false message).2.toList } := by
  cases h with
  | off | refused => cases hout
  | asking queued =>
    cases hout
    exact .refused queued

/-- Neither side is ever on. -/
theorem near_ne_yes (h : Unwilling p) : p.near.phase ≠ .yes := by
  cases h <;> simp

end Unwilling

/-! ## A steady peer -/

/-- The far side gives every request the same answer. -/
def Steady (accept wish : Bool) (p : Pair) : Prop :=
  if accept then Willing wish p else Unwilling p

namespace Steady

variable {accept wish : Bool} {p : Pair}

theorem initial (accept : Bool) : Steady accept false ⟨⟨.no, false⟩, ⟨.no, false⟩, [], []⟩ := by
  cases accept with
  | false => exact Unwilling.off
  | true => exact Willing.off rfl

theorem askNear (h : Steady accept wish p) (wish' : Bool) :
    Steady accept wish' { p with
      near := (p.near.ask wish').1, out := p.out ++ (p.near.ask wish').2.toList } := by
  cases accept with
  | false => exact Unwilling.askNear h wish'
  | true => exact Willing.askNear h wish'

theorem hearNear (h : Steady accept wish p) (acceptNear : Bool) {message : Bool} {rest : List Bool}
    (hback : p.back = message :: rest) :
    Steady accept wish { p with
      near := (p.near.hear acceptNear message).1
      back := rest
      out := p.out ++ (p.near.hear acceptNear message).2.toList } := by
  cases accept with
  | false => exact Unwilling.hearNear h acceptNear hback
  | true => exact Willing.hearNear h acceptNear hback

theorem hearFar (h : Steady accept wish p) {message : Bool} {rest : List Bool}
    (hout : p.out = message :: rest) :
    Steady accept wish { p with
      far := (p.far.hear accept message).1
      out := rest
      back := p.back ++ (p.far.hear accept message).2.toList } := by
  cases accept with
  | false => exact Unwilling.hearFar h hout
  | true => exact Willing.hearFar h hout

/-- Once the queues are empty both sides are on if that is wished for and accepted. -/
theorem settled (h : Steady accept wish p) (hout : p.out = []) (hback : p.back = []) :
    (p.near.phase = .yes ↔ wish = true ∧ accept = true) ∧
      (p.far.phase = .yes ↔ wish = true ∧ accept = true) := by
  cases accept with
  | true => simpa using Willing.settled h hout hback
  | false =>
    cases (show Unwilling p from h) with
    | off => simp
    | asking => cases hout
    | refused => cases hback

theorem near_ne_yes (h : Steady false wish p) : p.near.phase ≠ .yes := Unwilling.near_ne_yes h

end Steady

end QMethod

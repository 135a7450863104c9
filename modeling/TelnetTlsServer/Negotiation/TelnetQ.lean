-- SUMMARY: The option state machine of telnet_negotiation.c and its reading as a Q-method side.
import TelnetTlsServer.Codes
import TelnetTlsServer.Lib.QMethod

/-!
# Option state

`telnet_negotiation.c` keeps one side per option and direction. Every function
here follows its C counterpart; the callbacks become data: the answer of
`accept_fn` is an argument, and the calls of `send_fn` are the returned list.

The last section reads one side as a side of the Q-method of `Lib/QMethod`, so
that what is proved there about one option applies to the code.
-/

inductive TelnetQDirection where
  | local_
  | remote
deriving DecidableEq, Repr

inductive TelnetQStateId where
  | no
  | yes
  | wantNo
  | wantYes
deriving DecidableEq, Repr

structure TelnetQSide where
  state : TelnetQStateId
  queuedOpposite : Bool
deriving DecidableEq, Repr

/-- `local[256]` and `remote[256]`, indexed by the option byte. -/
structure TelnetQ where
  local_ : UInt8 → TelnetQSide
  remote : UInt8 → TelnetQSide

/-- A command and its option, as handed to `send_fn`. -/
abbrev OptionCommand := UInt8 × UInt8

def selectSide (q : TelnetQ) (direction : TelnetQDirection) (option : UInt8) : TelnetQSide :=
  match direction with
  | .local_ => q.local_ option
  | .remote => q.remote option

/-- Writing through the pointer `select_side` returns. -/
def TelnetQ.setSide (q : TelnetQ) (direction : TelnetQDirection) (option : UInt8)
    (side : TelnetQSide) : TelnetQ :=
  match direction with
  | .local_ => { q with local_ := Function.update q.local_ option side }
  | .remote => { q with remote := Function.update q.remote option side }

def enableCommand : TelnetQDirection → UInt8
  | .local_ => Telnet.will
  | .remote => Telnet.do_

def disableCommand : TelnetQDirection → UInt8
  | .local_ => Telnet.wont
  | .remote => Telnet.dont

def telnetQInit : TelnetQ := ⟨fun _ => ⟨.no, false⟩, fun _ => ⟨.no, false⟩⟩

def telnetQEnabled (q : TelnetQ) (direction : TelnetQDirection) (option : UInt8) : Bool :=
  (selectSide q direction option).state = .yes

def telnetQRequest (q : TelnetQ) (direction : TelnetQDirection) (option : UInt8)
    (enable : Bool) : TelnetQ × List OptionCommand :=
  let side := selectSide q direction option
  if enable then
    match side.state with
    | .no =>
        (q.setSide direction option ⟨.wantYes, false⟩, [(enableCommand direction, option)])
    | .yes => (q, [])
    | .wantNo =>
        if !side.queuedOpposite then
          (q.setSide direction option { side with queuedOpposite := true }, [])
        else
          (q, [])
    | .wantYes =>
        if side.queuedOpposite then
          (q.setSide direction option { side with queuedOpposite := false }, [])
        else
          (q, [])
  else
    match side.state with
    | .no => (q, [])
    | .yes =>
        (q.setSide direction option ⟨.wantNo, false⟩, [(disableCommand direction, option)])
    | .wantNo =>
        if side.queuedOpposite then
          (q.setSide direction option { side with queuedOpposite := false }, [])
        else
          (q, [])
    | .wantYes =>
        if !side.queuedOpposite then
          (q.setSide direction option { side with queuedOpposite := true }, [])
        else
          (q, [])

def receivePositive (q : TelnetQ) (direction : TelnetQDirection) (option : UInt8)
    (allowEnable : Bool) : TelnetQ × List OptionCommand :=
  let side := selectSide q direction option
  match side.state with
  | .no =>
      if allowEnable then
        (q.setSide direction option ⟨.yes, false⟩, [(enableCommand direction, option)])
      else
        (q, [(disableCommand direction, option)])
  | .yes => (q, [])
  | .wantNo =>
      if !side.queuedOpposite then
        (q.setSide direction option { side with state := .no }, [])
      else
        (q.setSide direction option ⟨.yes, false⟩, [])
  | .wantYes =>
      if !side.queuedOpposite then
        (q.setSide direction option { side with state := .yes }, [])
      else
        (q.setSide direction option ⟨.wantNo, false⟩, [(disableCommand direction, option)])

def receiveNegative (q : TelnetQ) (direction : TelnetQDirection) (option : UInt8) :
    TelnetQ × List OptionCommand :=
  let side := selectSide q direction option
  match side.state with
  | .no => (q, [])
  | .yes => (q.setSide direction option ⟨.no, false⟩, [(disableCommand direction, option)])
  | .wantNo =>
      if !side.queuedOpposite then
        (q.setSide direction option { side with state := .no }, [])
      else
        (q.setSide direction option ⟨.wantYes, false⟩, [(enableCommand direction, option)])
  | .wantYes => (q.setSide direction option ⟨.no, false⟩, [])

/-- `accept` is what `accept_fn` would answer for a direction and an option. It
is consulted for WILL and DO only, and any other command is ignored. -/
def telnetQReceive (q : TelnetQ) (command option : UInt8)
    (accept : TelnetQDirection → UInt8 → Bool) : TelnetQ × List OptionCommand :=
  if command = Telnet.will then
    receivePositive q .remote option (accept .remote option)
  else if command = Telnet.wont then
    receiveNegative q .remote option
  else if command = Telnet.do_ then
    receivePositive q .local_ option (accept .local_ option)
  else if command = Telnet.dont then
    receiveNegative q .local_ option
  else
    (q, [])

/-! ## Reading and writing sides -/

@[simp] theorem selectSide_setSide_same (q : TelnetQ) (d : TelnetQDirection) (o : UInt8)
    (side : TelnetQSide) : selectSide (q.setSide d o side) d o = side := by
  cases d <;> simp [selectSide, TelnetQ.setSide]

theorem selectSide_setSide_ne {q : TelnetQ} {d d' : TelnetQDirection} {o o' : UInt8}
    {side : TelnetQSide} (h : ¬ (d' = d ∧ o' = o)) :
    selectSide (q.setSide d o side) d' o' = selectSide q d' o' := by
  cases d <;> cases d' <;> simp_all [selectSide, TelnetQ.setSide]

@[simp] theorem selectSide_init (d : TelnetQDirection) (o : UInt8) :
    selectSide telnetQInit d o = ⟨.no, false⟩ := by
  cases d <;> rfl

/-! ## One side as a Q-method side -/

def TelnetQStateId.phase : TelnetQStateId → QMethod.Phase
  | .no => .no
  | .yes => .yes
  | .wantNo => .wantNo
  | .wantYes => .wantYes

def TelnetQSide.view (side : TelnetQSide) : QMethod.Side := ⟨side.state.phase, side.queuedOpposite⟩

/-- The command that carries a sign in a direction. -/
def signCommand (direction : TelnetQDirection) (sign : Bool) : UInt8 :=
  if sign then enableCommand direction else disableCommand direction

/-- `r` is `q` with the side of `direction` and `option` replaced by one that
reads as `s`, and sends what `s` sends. -/
structure ActsAs (q : TelnetQ) (direction : TelnetQDirection) (option : UInt8)
    (r : TelnetQ × List OptionCommand) (s : QMethod.Side × Option Bool) : Prop where
  side : (selectSide r.1 direction option).view = s.1
  frame : ∀ d o, ¬ (d = direction ∧ o = option) → selectSide r.1 d o = selectSide q d o
  sent : r.2 = s.2.toList.map fun sign => (signCommand direction sign, option)

private theorem actsAs_setSide {q : TelnetQ} {d : TelnetQDirection} {o : UInt8}
    {side : TelnetQSide} {sent : List OptionCommand} {s : QMethod.Side × Option Bool}
    (hside : side.view = s.1)
    (hsent : sent = s.2.toList.map fun sign => (signCommand d sign, o)) :
    ActsAs q d o (q.setSide d o side, sent) s where
  side := by simpa using hside
  frame _ _ h := selectSide_setSide_ne h
  sent := hsent

private theorem actsAs_same {q : TelnetQ} {d : TelnetQDirection} {o : UInt8}
    {sent : List OptionCommand} {s : QMethod.Side × Option Bool}
    (hside : (selectSide q d o).view = s.1)
    (hsent : sent = s.2.toList.map fun sign => (signCommand d sign, o)) :
    ActsAs q d o (q, sent) s where
  side := hside
  frame _ _ _ := rfl
  sent := hsent

theorem telnetQRequest_actsAs (q : TelnetQ) (d : TelnetQDirection) (o : UInt8) (enable : Bool) :
    ActsAs q d o (telnetQRequest q d o enable) ((selectSide q d o).view.ask enable) := by
  unfold telnetQRequest
  rcases hside : selectSide q d o with ⟨st, queued⟩
  cases enable <;> cases st <;> cases queued <;>
    first
    | exact actsAs_setSide rfl rfl
    | exact actsAs_same (by rw [hside]; rfl) rfl

theorem receivePositive_actsAs (q : TelnetQ) (d : TelnetQDirection) (o : UInt8) (allow : Bool) :
    ActsAs q d o (receivePositive q d o allow) ((selectSide q d o).view.hear allow true) := by
  unfold receivePositive
  rcases hside : selectSide q d o with ⟨st, queued⟩
  cases allow <;> cases st <;> cases queued <;>
    first
    | exact actsAs_setSide rfl rfl
    | exact actsAs_same (by rw [hside]; rfl) rfl

theorem receiveNegative_actsAs (q : TelnetQ) (d : TelnetQDirection) (o : UInt8) (allow : Bool) :
    ActsAs q d o (receiveNegative q d o) ((selectSide q d o).view.hear allow false) := by
  unfold receiveNegative
  rcases hside : selectSide q d o with ⟨st, queued⟩
  cases st <;> cases queued <;>
    first
    | exact actsAs_setSide rfl rfl
    | exact actsAs_same (by rw [hside]; rfl) rfl

theorem telnetQReceive_frame (q : TelnetQ) (command : UInt8) {option o : UInt8}
    (accept : TelnetQDirection → UInt8 → Bool) (d : TelnetQDirection) (h : o ≠ option) :
    selectSide (telnetQReceive q command option accept).1 d o = selectSide q d o := by
  have hside : ∀ direction, ¬ (d = direction ∧ o = option) := fun _ hsame => h hsame.2
  unfold telnetQReceive
  split_ifs
  · exact (receivePositive_actsAs q .remote option _).frame d o (hside _)
  · exact (receiveNegative_actsAs q .remote option false).frame d o (hside _)
  · exact (receivePositive_actsAs q .local_ option _).frame d o (hside _)
  · exact (receiveNegative_actsAs q .local_ option false).frame d o (hside _)
  · rfl

/-- What a peer has turned on, only it turns off, with WONT. -/
theorem telnetQEnabled_receive_remote {q : TelnetQ} {o : UInt8}
    (hon : telnetQEnabled q .remote o = true) (command option : UInt8)
    (accept : TelnetQDirection → UInt8 → Bool) :
    telnetQEnabled (telnetQReceive q command option accept).1 .remote o =
      !(decide (command = Telnet.wont) && decide (option = o)) := by
  have hstate : (selectSide q .remote o).state = .yes := by simpa [telnetQEnabled] using hon
  by_cases hoption : o = option
  case neg =>
    rw [telnetQEnabled, telnetQReceive_frame q command accept .remote hoption, hstate]
    simp [Ne.symm hoption]
  subst hoption
  unfold telnetQReceive
  split_ifs with hwill hwont hdo hdont
  · have hsign : Telnet.will ≠ Telnet.wont := by decide
    simp [hwill, hsign, receivePositive, hstate, telnetQEnabled]
  · simp [hwont, receiveNegative, hstate, telnetQEnabled]
  · rw [telnetQEnabled, (receivePositive_actsAs q .local_ o _).frame .remote o (by simp), hstate]
    simp [hwont]
  · rw [telnetQEnabled, (receiveNegative_actsAs q .local_ o false).frame .remote o (by simp), hstate]
    simp [hwont]
  · rw [hon]
    simp [hwont]

/-- A received command is heard by one side, and no other side changes. -/
theorem telnetQReceive_side (q : TelnetQ) (command option : UInt8)
    (accept : TelnetQDirection → UInt8 → Bool) (d : TelnetQDirection) (o : UInt8) :
    selectSide (telnetQReceive q command option accept).1 d o = selectSide q d o ∨
      ∃ message, (selectSide (telnetQReceive q command option accept).1 d o).view =
        ((selectSide q d o).view.hear (accept d o) message).1 := by
  have hpositive : ∀ direction, selectSide
      (receivePositive q direction option (accept direction option)).1 d o = selectSide q d o ∨
      ∃ message, (selectSide (receivePositive q direction option
        (accept direction option)).1 d o).view =
        ((selectSide q d o).view.hear (accept d o) message).1 := by
    intro direction
    have hacts := receivePositive_actsAs q direction option (accept direction option)
    by_cases hsame : d = direction ∧ o = option
    · obtain ⟨rfl, rfl⟩ := hsame
      exact .inr ⟨true, hacts.side⟩
    · exact .inl (hacts.frame d o hsame)
  have hnegative : ∀ direction, selectSide (receiveNegative q direction option).1 d o =
      selectSide q d o ∨ ∃ message, (selectSide (receiveNegative q direction option).1 d o).view =
        ((selectSide q d o).view.hear (accept d o) message).1 := by
    intro direction
    have hacts := receiveNegative_actsAs q direction option (accept d o)
    by_cases hsame : d = direction ∧ o = option
    · obtain ⟨rfl, rfl⟩ := hsame
      exact .inr ⟨false, hacts.side⟩
    · exact .inl (hacts.frame d o hsame)
  unfold telnetQReceive
  split_ifs
  · exact hpositive .remote
  · exact hnegative .remote
  · exact hpositive .local_
  · exact hnegative .local_
  · exact .inl rfl

-- SUMMARY: The rate windows: what a window takes in an epoch and in any interval, and what a Telnet session takes of bytes and lines.
import TelnetTlsServer.Lib.FixedWindow
import TelnetTlsServer.Session.Frame
import TelnetTlsServer.Session.LineAssembly

/-!
# Rate windows

`rate_consume` is a fixed window whose start is 0 before its first call. `Metered` runs it
beside a ledger of what it takes. A session keeps one window for its bytes and one for its
lines; what it takes of either is what the window takes, so the bounds of the window are
bounds of the session.
-/

open FixedWindow

/-- One call of `rate_consume`. -/
structure RateCall where
  nowMs : UInt64
  amount : Nat
deriving DecidableEq, Repr

/-- The clock works and does not go back. -/
def Timely (times : List UInt64) : Prop := (∀ nowMs ∈ times, 0 < nowMs) ∧ times.Pairwise (· ≤ ·)

theorem timely_of_all {times : List UInt64} (hclock : times.all (0 < ·) = true)
    (hsorted : times.Pairwise (· ≤ ·)) : Timely times :=
  ⟨fun nowMs hmem => of_decide_eq_true (List.all_eq_true.mp hclock nowMs hmem), hsorted⟩

theorem timely_cons {nowMs : UInt64} {times : List UInt64} (h : Timely (nowMs :: times)) :
    0 < nowMs ∧ Timely times ∧ ∀ later ∈ times, nowMs.toNat ≤ later.toNat := by
  obtain ⟨hclock, hsorted⟩ := h
  obtain ⟨hfirst, hrest⟩ := List.pairwise_cons.mp hsorted
  exact ⟨hclock nowMs List.mem_cons_self, ⟨fun later hlater => hclock later
    (List.mem_cons_of_mem _ hlater), hrest⟩, fun later hlater =>
      UInt64.le_iff_toNat_le.mp (hfirst later hlater)⟩

/-- What the calls sum to from `start` on, for `length` milliseconds. -/
def RateCall.amountIn (calls : List RateCall) (start length : Nat) : Nat :=
  ((calls.filter fun call => start ≤ call.nowMs.toNat ∧ call.nowMs.toNat < start + length).map
    RateCall.amount).sum

/-- The window starts over. -/
def RateWindow.ended (window : RateWindow) (windowMs nowMs : UInt64) : Bool :=
  window.startedMs = 0 || nowMs < window.startedMs || nowMs - window.startedMs ≥ windowMs

theorem RateWindow.roll_eq (window : RateWindow) (windowMs nowMs : UInt64) :
    window.roll windowMs nowMs = if window.ended windowMs nowMs then ⟨nowMs, 0⟩ else window := rfl

/-- Where the clock does not go back, the window starts over for the first call and after a
period. -/
theorem RateWindow.ended_iff {window : RateWindow} {windowMs nowMs : UInt64}
    (hlater : window.startedMs.toNat ≤ nowMs.toNat) :
    window.ended windowMs nowMs = true ↔
      window.startedMs = 0 ∨ window.startedMs.toNat + windowMs.toNat ≤ nowMs.toNat := by
  have hle : window.startedMs ≤ nowMs := UInt64.le_iff_toNat_le.mpr hlater
  simp only [ended, Bool.or_eq_true, decide_eq_true_eq, ge_iff_le]
  rw [or_assoc, or_iff_right_of_imp (fun hless => absurd hless (UInt64.not_lt.mpr hle)),
    UInt64.le_iff_toNat_le, UInt64.toNat_sub_of_le _ _ hle]
  exact or_congr_right (by omega)

theorem rateConsume_eq (window : RateWindow) (amount limit : Nat) (windowMs nowMs : UInt64) :
    rateConsume window amount limit windowMs nowMs =
      if (window.roll windowMs nowMs).used + amount ≤ limit then
        (true, { window.roll windowMs nowMs with
          used := (window.roll windowMs nowMs).used + amount })
      else (false, window.roll windowMs nowMs) := by
  simp only [rateConsume]
  split
  case isTrue hfull =>
    simp only [gt_iff_lt, Bool.or_eq_true, decide_eq_true_eq] at hfull
    exact (if_neg (by omega)).symm
  case isFalse hroom =>
    simp only [gt_iff_lt, Bool.or_eq_true, decide_eq_true_eq, not_or, Nat.not_lt] at hroom
    exact (if_pos (by omega)).symm

/-- Of two times a period apart, one is in a new window. -/
theorem rateConsume_renewed (window : RateWindow) {amount limit : Nat} (hamount : amount ≤ limit)
    {windowMs early late : UInt64} (hapart : early.toNat + windowMs.toNat ≤ late.toNat) :
    (rateConsume window amount limit windowMs early).1 = true ∨
      (rateConsume window amount limit windowMs late).1 = true := by
  have hnew : ∀ {nowMs : UInt64}, window.ended windowMs nowMs = true →
      (rateConsume window amount limit windowMs nowMs).1 = true := by
    intro nowMs hended
    rw [rateConsume_eq, RateWindow.roll_eq, if_pos hended, if_pos ((Nat.zero_add _).trans_le hamount)]
  by_cases hearly : early < window.startedMs
  · exact .inl (hnew (by simp [RateWindow.ended, hearly]))
  · have hstarted := UInt64.le_iff_toNat_le.mp (UInt64.not_lt.mp hearly)
    have hlater : window.startedMs.toNat ≤ late.toNat := by omega
    exact .inr (hnew ((RateWindow.ended_iff hlater).mpr (.inr (by omega))))

/-- A window, and what it has taken. -/
structure Metered where
  window : RateWindow
  ledger : Ledger

namespace Metered

def fresh : Metered := ⟨⟨0, 0⟩, .empty⟩

/-- The window as `rate_consume` finds it once it has looked at the time. -/
def roll (windowMs : UInt64) (m : Metered) (nowMs : UInt64) : Metered :=
  ⟨m.window.roll windowMs nowMs, if m.window.ended windowMs nowMs then m.ledger.renew nowMs.toNat
    else m.ledger.wait nowMs.toNat⟩

def consume (limit : Nat) (windowMs : UInt64) (m : Metered) (call : RateCall) : Metered :=
  let (accepted, window) := rateConsume m.window call.amount limit windowMs call.nowMs
  let ledger := (m.roll windowMs call.nowMs).ledger
  ⟨window, if accepted then ledger.take call.nowMs.toNat call.amount else ledger⟩

def consumeAll (limit : Nat) (windowMs : UInt64) (calls : List RateCall) : Metered :=
  calls.foldl (consume limit windowMs) fresh

/-- The ledger runs with the window. -/
structure Sound (limit : Nat) (windowMs : UInt64) (m : Metered) : Prop where
  start : m.ledger.start = if m.window.startedMs = 0 then none else some m.window.startedMs.toNat
  used : m.ledger.used = m.window.used
  ledger : m.ledger.Sound limit windowMs.toNat

variable {limit : Nat} {windowMs : UInt64} {m : Metered}

theorem Sound.fresh (limit : Nat) (windowMs : UInt64) : Metered.fresh.Sound limit windowMs :=
  ⟨rfl, rfl, .empty _ _⟩

theorem Sound.started_le (h : m.Sound limit windowMs) :
    m.window.startedMs.toNat ≤ m.ledger.latest := by
  by_cases hnone : m.window.startedMs = 0
  · rw [hnone]
    exact Nat.zero_le _
  · exact h.ledger.start_le _ (by rw [h.start, if_neg hnone])

theorem Sound.roll (h : m.Sound limit windowMs) {nowMs : UInt64} (hclock : 0 < nowMs)
    (hlater : m.ledger.latest ≤ nowMs.toNat) :
    (m.roll windowMs nowMs).Sound limit windowMs ∧
      (m.roll windowMs nowMs).ledger.latest = nowMs.toNat ∧
      ∃ start, (m.roll windowMs nowMs).ledger.start = some start ∧ start ≤ nowMs.toNat ∧
        (nowMs.toNat = start ∨ nowMs.toNat < start + windowMs.toNat) := by
  have hstarted := h.started_le.trans hlater
  have hnonzero : nowMs ≠ 0 := fun hzero => absurd hclock (by rw [hzero]; decide)
  unfold Metered.roll
  rw [RateWindow.roll_eq]
  by_cases hended : m.window.ended windowMs nowMs = true
  · rw [if_pos hended, if_pos hended]
    have hperiod : ∀ start, m.ledger.start = some start → start + windowMs.toNat ≤ nowMs.toNat := by
      intro start hstart
      rw [h.start] at hstart
      split at hstart
      · cases hstart
      case isFalse hne =>
        obtain rfl := Option.some.inj hstart
        exact ((RateWindow.ended_iff hstarted).mp hended).resolve_left hne
    exact ⟨⟨(if_neg hnonzero).symm, rfl, h.ledger.renew hperiod⟩, rfl, nowMs.toNat, rfl,
      Nat.le_refl _, .inl rfl⟩
  · rw [if_neg hended, if_neg hended]
    obtain ⟨hsome, hwithin⟩ := not_or.mp (mt (RateWindow.ended_iff hstarted).mpr hended)
    exact ⟨⟨h.start, h.used, h.ledger.wait hlater⟩, rfl, m.window.startedMs.toNat,
      h.start.trans (if_neg hsome), hstarted, .inr (Nat.not_le.mp hwithin)⟩

theorem Sound.consume (h : m.Sound limit windowMs) (call : RateCall) (hclock : 0 < call.nowMs)
    (hlater : m.ledger.latest ≤ call.nowMs.toNat) :
    (m.consume limit windowMs call).Sound limit windowMs ∧
      (m.consume limit windowMs call).ledger.latest = call.nowMs.toNat := by
  obtain ⟨hrolled, hlatest, start, hstart, hbegun, htimed⟩ := h.roll hclock hlater
  unfold Metered.consume
  rw [rateConsume_eq]
  by_cases hroom : (m.window.roll windowMs call.nowMs).used + call.amount ≤ limit
  · have htaken := hrolled.ledger.take hstart ⟨hbegun, htimed⟩ (hrolled.used ▸ hroom)
    rw [if_pos hroom]
    exact ⟨⟨hrolled.start, congrArg (· + call.amount) hrolled.used, htaken⟩, hlatest⟩
  · rw [if_neg hroom]
    exact ⟨hrolled, hlatest⟩

theorem Sound.foldl (h : m.Sound limit windowMs) {calls : List RateCall}
    (hcalls : Timely (calls.map RateCall.nowMs))
    (hlater : ∀ nowMs ∈ calls.map RateCall.nowMs, m.ledger.latest ≤ nowMs.toNat) :
    (calls.foldl (Metered.consume limit windowMs) m).Sound limit windowMs := by
  induction calls generalizing m with
  | nil => exact h
  | cons call rest ih =>
    obtain ⟨hclock, hrest, hfirst⟩ := timely_cons hcalls
    obtain ⟨hnext, hlatest⟩ := h.consume call hclock (hlater _ List.mem_cons_self)
    exact ih hnext hrest (hlatest ▸ hfirst)

theorem Sound.consumeAll (limit : Nat) (windowMs : UInt64) {calls : List RateCall}
    (hcalls : Timely (calls.map RateCall.nowMs)) :
    (Metered.consumeAll limit windowMs calls).Sound limit windowMs :=
  (Sound.fresh limit windowMs).foldl hcalls fun _ _ => Nat.zero_le _

end Metered

/-! ## A window among other things

A program calls `rate_consume` now and then. `Accounts` says that a window has taken the
calls of `log`, and no call later than `latest`. -/

namespace RateWindow

def Accounts (limit : Nat) (windowMs : UInt64) (window : RateWindow) (log : List RateCall)
    (latest : Nat) : Prop :=
  ∃ m : Metered, m.Sound limit windowMs ∧ m.window = window ∧ m.ledger.latest ≤ latest ∧
    m.ledger.entries.map (fun e => (e.time, e.amount)) =
      log.map fun call => (call.nowMs.toNat, call.amount)

/-- What one call of `rate_consume` takes. -/
def taken (limit : Nat) (windowMs : UInt64) (window : RateWindow) (call : RateCall) : List RateCall :=
  if (rateConsume window call.amount limit windowMs call.nowMs).1 then [call] else []

namespace Accounts

variable {limit : Nat} {windowMs : UInt64} {window : RateWindow} {log : List RateCall} {latest : Nat}

theorem fresh (limit : Nat) (windowMs : UInt64) : Accounts limit windowMs ⟨0, 0⟩ [] 0 :=
  ⟨.fresh, .fresh limit windowMs, rfl, Nat.le_refl _, rfl⟩

theorem idle (h : Accounts limit windowMs window log latest) {latest' : Nat}
    (hle : latest ≤ latest') : Accounts limit windowMs window (log ++ []) latest' := by
  obtain ⟨m, hsound, hwindow, hlatest, hlog⟩ := h
  rw [List.append_nil]
  exact ⟨m, hsound, hwindow, hlatest.trans hle, hlog⟩

theorem consume (h : Accounts limit windowMs window log latest) {nowMs : UInt64} (hclock : 0 < nowMs)
    (hlater : latest ≤ nowMs.toNat) (amount : Nat) :
    Accounts limit windowMs (rateConsume window amount limit windowMs nowMs).2
      (log ++ window.taken limit windowMs ⟨nowMs, amount⟩) nowMs.toNat := by
  obtain ⟨m, hsound, rfl, hlatest, hlog⟩ := h
  obtain ⟨hnext, hnow⟩ := hsound.consume ⟨nowMs, amount⟩ hclock (hlatest.trans hlater)
  refine ⟨_, hnext, rfl, hnow.le, ?_⟩
  have hrolled : (m.roll windowMs nowMs).ledger.entries = m.ledger.entries := by
    unfold Metered.roll
    split <;> rfl
  unfold Metered.consume taken
  dsimp only
  split
  · rw [Ledger.take, List.map_append, List.map_append, hrolled, hlog]
    rfl
  · rw [hrolled, hlog, List.append_nil]

/-- A step that calls `rate_consume` under a condition. -/
theorem consumeIf (h : Accounts limit windowMs window log latest) {nowMs : UInt64}
    (hclock : 0 < nowMs) (hlater : latest ≤ nowMs.toNat) (amount : Nat) (calls : Bool) :
    Accounts limit windowMs
      (if calls then (rateConsume window amount limit windowMs nowMs).2 else window)
      (log ++ if calls then window.taken limit windowMs ⟨nowMs, amount⟩ else []) nowMs.toNat := by
  cases calls with
  | true => exact h.consume hclock hlater amount
  | false => exact h.idle hlater

/-- No more than twice the limit in an interval as long as the window. -/
theorem amountIn_le (h : Accounts limit windowMs window log latest) (start : Nat) :
    RateCall.amountIn log start windowMs.toNat ≤ 2 * limit := by
  obtain ⟨m, hsound, -, -, hlog⟩ := h
  let timed : Nat × Nat → Bool := fun e => start ≤ e.1 ∧ e.1 < start + windowMs.toNat
  have hsame := congrArg (fun l => ((l.filter timed).map Prod.snd).sum) hlog
  simp only [List.filter_map, List.map_map] at hsame
  calc RateCall.amountIn log start windowMs.toNat
      = total (m.ledger.during start windowMs.toNat) := hsame.symm
    _ ≤ 2 * limit := hsound.ledger.during_le start

end Accounts

/-- What the steps of a program take of a window. -/
def takenAll {σ ι : Type} (step : σ → ι → σ) (taken : σ → ι → List RateCall) :
    σ → List ι → List RateCall
  | _, [] => []
  | s, l :: labels => taken s l ++ takenAll step taken (step s l) labels

section Run

variable {σ ι : Type} {step : σ → ι → σ} {taken : σ → ι → List RateCall} {window : σ → RateWindow}
  {time : ι → Option UInt64} {limit : Nat} {windowMs : UInt64}
  (hstep : ∀ s l log latest, Accounts limit windowMs (window s) log latest →
    (∀ nowMs, time l = some nowMs → 0 < nowMs ∧ latest ≤ nowMs.toNat) →
    Accounts limit windowMs (window (step s l)) (log ++ taken s l) ((time l).elim latest UInt64.toNat))

include hstep

/-- If each step accounts for its calls, so does a run. -/
theorem Accounts.run {labels : List ι} {s : σ} {log : List RateCall} {latest : Nat}
    (h : Accounts limit windowMs (window s) log latest) (htimes : Timely (labels.filterMap time))
    (hlater : ∀ nowMs ∈ labels.filterMap time, latest ≤ nowMs.toNat) :
    ∃ latest, Accounts limit windowMs (window (labels.foldl step s))
      (log ++ takenAll step taken s labels) latest := by
  induction labels generalizing s log latest with
  | nil => exact ⟨latest, by rwa [takenAll, List.append_nil]⟩
  | cons l labels ih =>
    rw [takenAll, ← List.append_assoc, List.foldl_cons]
    have hnext := hstep s l log latest h
    rcases htime : time l with _ | nowMs <;> rw [htime] at hnext
    · rw [List.filterMap_cons_none htime] at htimes hlater
      exact ih (hnext fun _ hsome => absurd hsome.symm (Option.some_ne_none _)) htimes hlater
    · rw [List.filterMap_cons_some htime] at htimes hlater
      obtain ⟨hclock, hrest, hfirst⟩ := timely_cons htimes
      refine ih (hnext ?_) hrest hfirst
      rintro _ ⟨⟩
      exact ⟨hclock, hlater nowMs List.mem_cons_self⟩

theorem amountIn_takenAll_le {s : σ} (hfresh : window s = ⟨0, 0⟩) {labels : List ι}
    (htimes : Timely (labels.filterMap time)) (start : Nat) :
    RateCall.amountIn (takenAll step taken s labels) start windowMs.toNat ≤ 2 * limit := by
  obtain ⟨_, hrun⟩ := Accounts.run hstep (hfresh ▸ Accounts.fresh limit windowMs) htimes
    fun _ _ => Nat.zero_le _
  exact hrun.amountIn_le start

end Run

end RateWindow

/-! ## Telnet sessions -/

namespace Conn

variable {β α : Type} (host : Host β α)

theorem keeps_lineWindow : Frame host True fun c c' => c'.lineWindow = c.lineWindow where
  trans h h' := h'.trans h
  fields _ _ h := h trivial
  text _ _ := rfl
  marker _ := rfl
  audit _ _ _ := rfl
  requestClose _ _ _ := rfl
  record _ _ _ := rfl
  passwordEchoOff _ := rfl
  passwordEchoOn _ := rfl
  negotiate _ := rfl
  hook _ _ _ _ := rfl
  attach _ _ := rfl
  replay _ := rfl

theorem lineWindow_processCompleteLine (c : Conn β α) (nowMs : UInt64) :
    (c.processCompleteLine host nowMs).lineWindow =
      (rateConsume c.lineWindow 1 inputLinesPerWindow inputLinesWindowMs nowMs).2 := by
  have hkeeps := keeps_lineWindow host
  unfold processCompleteLine
  dsimp only
  split
  · exact hkeeps.requestClose _ _ _
  · split
    · exact hkeeps.processOverflow (hkeeps.refl _)
    · exact hkeeps.processLine _ nowMs

theorem lineWindow_receiveDataByte (c : Conn β α) {byte : UInt8} (hbyte : byte ≠ 10)
    (nowMs : UInt64) : (c.receiveDataByte host byte nowMs).lineWindow = c.lineWindow := by
  have hplain : ∀ c : Conn β α, (c.receivePlainByte host byte nowMs).lineWindow = c.lineWindow := by
    intro c
    rw [receivePlainByte, if_neg hbyte]
    split_ifs <;> rfl
  rw [receiveDataByte, if_neg hbyte]
  dsimp only
  split_ifs
  · rfl
  · exact hplain _
  · exact hplain c

include host in
theorem lineWindow_handleControlCommand (c : Conn β α) (command : UInt8) :
    (c.handleControlCommand command).lineWindow = c.lineWindow := by
  have hkeeps := keeps_lineWindow host
  unfold handleControlCommand
  dsimp only
  split_ifs
  · exact hkeeps.writeCurrentPrompt (hkeeps.say (hkeeps.refl c) _)
  · exact hkeeps.interruptCurrentInput c
  all_goals rfl

include host in
theorem lineWindow_pushPayload (c : Conn β α) (byte : UInt8) (parser : ParserState) :
    (c.pushPayload byte parser).lineWindow = c.lineWindow := by
  unfold pushPayload
  split
  · exact (keeps_lineWindow host).requestClose _ _ _
  · rfl

/-- A byte that completes no line leaves the window alone. -/
theorem lineWindow_feedByte {c : Conn β α} (hopen : c.closed = false) (byte : UInt8) (nowMs : UInt64) :
    (c.feedByte host byte nowMs).lineWindow =
      if c.completes byte then
        (rateConsume c.lineWindow 1 inputLinesPerWindow inputLinesWindowMs nowMs).2
      else c.lineWindow := by
  split
  case isTrue hcompletes =>
    rw [← act_of_open hopen, act_of_completes hcompletes]
    exact lineWindow_processCompleteLine host _ nowMs
  case isFalse hnot =>
    unfold feedByte
    split
    case h_1 hparser =>
      have hbyte : byte ≠ 10 := fun h => hnot (by simp [completes, hopen, hparser, h])
      split
      · rfl
      · exact lineWindow_receiveDataByte host c hbyte nowMs
    case h_2 =>
      split_ifs
      · exact lineWindow_receiveDataByte host c (by decide) nowMs
      · rfl
      · rfl
      · exact lineWindow_handleControlCommand host c byte
    case h_3 => rfl
    case h_4 => rfl
    case h_5 =>
      split
      · rfl
      · exact lineWindow_pushPayload host c _ _
    case h_6 =>
      split_ifs
      · rfl
      · exact lineWindow_pushPayload host c _ _
      · rfl

/-- The lines a session takes of a chunk. -/
def linesTaken (nowMs : UInt64) : Conn β α → Bytes → List RateCall
  | _, [] => []
  | c, byte :: rest =>
      if c.closed then []
      else
        (if c.completes byte then
          c.lineWindow.taken inputLinesPerWindow inputLinesWindowMs ⟨nowMs, 1⟩ else []) ++
          linesTaken nowMs (c.feedByte host byte nowMs) rest

theorem accounts_feedBytes {nowMs : UInt64} (hclock : 0 < nowMs) {c : Conn β α} {log : List RateCall}
    {latest : Nat} (hlater : latest ≤ nowMs.toNat)
    (h : c.lineWindow.Accounts inputLinesPerWindow inputLinesWindowMs log latest) (data : Bytes) :
    (c.feedBytes host nowMs data).lineWindow.Accounts inputLinesPerWindow inputLinesWindowMs
      (log ++ c.linesTaken host nowMs data) nowMs.toNat := by
  induction data generalizing c log latest with
  | nil => exact h.idle hlater
  | cons byte rest ih =>
    unfold feedBytes linesTaken
    split
    case isTrue => exact h.idle hlater
    case isFalse hopen =>
      have hnext := h.consumeIf hclock hlater 1 (c.completes byte)
      rw [← lineWindow_feedByte host (eq_false_of_ne_true hopen)] at hnext
      rw [← List.append_assoc]
      exact ih (Nat.le_refl _) hnext

end Conn

namespace TelnetSession

variable {β α : Type} (host : Host β α)

def Call.time : Call → Option UInt64
  | .feedAt _ nowMs => some nowMs
  | .start | .poll => none

/-- The bytes a session takes with a call. -/
def bytesTaken (s : TelnetSession β α) : Call → List RateCall
  | .feedAt data nowMs =>
      if s.conn.closed then []
      else s.byteWindow.taken inputBytesPerWindow inputBytesWindowMs ⟨nowMs, data.length⟩
  | .start | .poll => []

/-- The lines a session takes with a call. -/
def linesTaken (s : TelnetSession β α) : Call → List RateCall
  | .feedAt data nowMs =>
      if s.conn.closed then []
      else if (rateConsume s.byteWindow data.length inputBytesPerWindow inputBytesWindowMs nowMs).1 then
        s.conn.linesTaken host nowMs data
      else []
  | .start | .poll => []

theorem accounts_bytes (s : TelnetSession β α) (call : Call) {log : List RateCall} {latest : Nat}
    (h : s.byteWindow.Accounts inputBytesPerWindow inputBytesWindowMs log latest)
    (htime : ∀ nowMs, call.time = some nowMs → 0 < nowMs ∧ latest ≤ nowMs.toNat) :
    (s.call host call).byteWindow.Accounts inputBytesPerWindow inputBytesWindowMs
      (log ++ s.bytesTaken call) (call.time.elim latest UInt64.toNat) := by
  cases call with
  | start | poll => exact h.idle (Nat.le_refl _)
  | feedAt data nowMs =>
    obtain ⟨hclock, hlater⟩ := htime nowMs rfl
    have hcounted := h.consume hclock hlater data.length
    show (s.feedAt host data nowMs).2.byteWindow.Accounts _ _ (log ++ ite _ _ _) nowMs.toNat
    unfold feedAt
    split
    · exact h.idle hlater
    · dsimp only
      split
      · exact hcounted
      · exact hcounted

theorem accounts_lines (s : TelnetSession β α) (call : Call) {log : List RateCall} {latest : Nat}
    (h : s.conn.lineWindow.Accounts Conn.inputLinesPerWindow Conn.inputLinesWindowMs log latest)
    (htime : ∀ nowMs, call.time = some nowMs → 0 < nowMs ∧ latest ≤ nowMs.toNat) :
    (s.call host call).conn.lineWindow.Accounts Conn.inputLinesPerWindow Conn.inputLinesWindowMs
      (log ++ s.linesTaken host call) (call.time.elim latest UInt64.toNat) := by
  have hkeeps := Conn.keeps_lineWindow host
  cases call with
  | start =>
    rw [show (s.call host .start).conn.lineWindow = s.conn.lineWindow from hkeeps.start s.conn]
    exact h.idle (Nat.le_refl _)
  | poll =>
    rw [show (s.call host .poll).conn.lineWindow = s.conn.lineWindow from hkeeps.poll s.conn]
    exact h.idle (Nat.le_refl _)
  | feedAt data nowMs =>
    obtain ⟨hclock, hlater⟩ := htime nowMs rfl
    show (s.feedAt host data nowMs).2.conn.lineWindow.Accounts _ _ (log ++ ite _ _ _) nowMs.toNat
    unfold feedAt
    split
    case isTrue => exact h.idle hlater
    case isFalse =>
      dsimp only
      cases (rateConsume s.byteWindow data.length inputBytesPerWindow inputBytesWindowMs nowMs).1 with
      | true => exact Conn.accounts_feedBytes host hclock hlater h data
      | false => exact h.idle hlater

variable {host}

/-- What a session takes in any interval as long as a window. -/
theorem taken_le {backend : β} {app : α} {s : TelnetSession β α}
    (hs : create host backend app = some s) {calls : List Call}
    (htimes : Timely (calls.filterMap Call.time)) (start : Nat) :
    RateCall.amountIn (RateWindow.takenAll (call host) bytesTaken s calls) start 5000 ≤ 131072 ∧
      RateCall.amountIn (RateWindow.takenAll (call host) (linesTaken host) s calls) start 10000 ≤
        60 := by
  have hfresh : s.byteWindow = ⟨0, 0⟩ ∧ s.conn.lineWindow = ⟨0, 0⟩ := by
    unfold create at hs
    split at hs
    · cases hs
    · obtain rfl := Option.some.inj hs
      exact ⟨rfl, rfl⟩
  exact ⟨RateWindow.amountIn_takenAll_le
      (fun s call _ _ h htime => accounts_bytes host s call h htime) hfresh.1 htimes start,
    RateWindow.amountIn_takenAll_le
      (fun s call _ _ h htime => accounts_lines host s call h htime) hfresh.2 htimes start⟩

end TelnetSession

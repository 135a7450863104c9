-- SUMMARY: The rate windows of the SSH adapter, and the bounds of both transports.
import TelnetTlsServer.Session.Rates
import TelnetTlsServer.Ssh.SameLine

/-!
# Rates on both transports

The SSH adapter has its own copy of `rate_consume` and its own windows. A line counts when
its end has been echoed, so a channel that cannot write takes no lines.
-/

/-- One call of the data callback. -/
structure SshData where
  data : Bytes
  isStderr : Bool
  nowMs : UInt64
deriving DecidableEq, Repr

namespace SshConnection

variable {χ α : Type} (lib : SshLibrary χ) (application : Application α)

def onData (c : SshConnection χ α) (d : SshData) : SshConnection χ α :=
  c.channelDataCallback lib application d.data d.isStderr d.nowMs

/-- `complete_input_line` is called for this byte. -/
def completes (c : SshConnection χ α) (byte : UInt8) : Bool :=
  (byte = 13 || byte = 10) && !(c.pendingCr && byte = 10) && (c.wire.channelWriteAll lib [13, 10]).1

theorem windows_handleTypedByte (c : SshConnection χ α) (byte : UInt8) :
    (c.handleTypedByte lib byte).2.lineWindow = c.lineWindow ∧
      (c.handleTypedByte lib byte).2.byteWindow = c.byteWindow := by
  unfold handleTypedByte
  split_ifs
  case pos => exact ⟨rfl, rfl⟩
  case pos =>
    unfold handleEscape
    split_ifs <;> exact ⟨rfl, rfl⟩
  all_goals exact ⟨rfl, rfl⟩

theorem windows_completeInputLine (c : SshConnection χ α) (nowMs : UInt64) :
    (c.completeInputLine lib application nowMs).2.lineWindow =
        (rateConsume c.lineWindow 1 sshInputLinesPerWindow sshInputLinesWindowMs nowMs).2 ∧
      (c.completeInputLine lib application nowMs).2.byteWindow = c.byteWindow := by
  unfold completeInputLine
  dsimp only
  split
  · exact ⟨rfl, rfl⟩
  · split_ifs <;> exact ⟨rfl, rfl⟩

/-- A byte calls `rate_consume` for the lines if it completes one, and never for the bytes. -/
theorem windows_handleInputByte (c : SshConnection χ α) (byte : UInt8) (nowMs : UInt64) :
    ((c.handleInputByte lib application byte nowMs).2.lineWindow =
      if c.completes lib byte then
        (rateConsume c.lineWindow 1 sshInputLinesPerWindow sshInputLinesWindowMs nowMs).2
      else c.lineWindow) ∧
      (c.handleInputByte lib application byte nowMs).2.byteWindow = c.byteWindow := by
  unfold handleInputByte completes
  by_cases hlf : (c.pendingCr && byte = 10) = true
  · rw [if_pos hlf, hlf, Bool.not_true, Bool.and_false]
    exact ⟨rfl, rfl⟩
  · rw [if_neg hlf, eq_false_of_ne_true hlf]
    dsimp only
    by_cases hend : (byte = 13 || byte = 10) = true
    · rw [if_pos hend, hend, handleLineEnd, write]
      dsimp only
      cases hok : (c.wire.channelWriteAll lib [13, 10]).1 with
      | false => exact ⟨rfl, rfl⟩
      | true =>
        have hwindows := windows_completeInputLine lib application
          { c with pendingCr := false, wire := (c.wire.channelWriteAll lib [13, 10]).2 } nowMs
        change _ = (rateConsume c.lineWindow 1 sshInputLinesPerWindow sshInputLinesWindowMs nowMs).2 ∧ _
        rw [Bool.not_true, if_neg Bool.false_ne_true]
        split_ifs
        all_goals exact hwindows
    · rw [if_neg hend, eq_false_of_ne_true hend]
      exact windows_handleTypedByte lib _ byte

/-! ## What a connection takes -/

def bytesTaken (c : SshConnection χ α) (d : SshData) : List RateCall :=
  if d.isStderr || !c.shellStarted || c.applicationSession.isNone then []
  else if d.nowMs = 0 then []
  else c.byteWindow.taken sshInputBytesPerWindow sshInputBytesWindowMs ⟨d.nowMs, d.data.length⟩

/-- The lines of the loop of the data callback. -/
def linesRead (nowMs : UInt64) : SshConnection χ α → Bytes → List RateCall
  | _, [] => []
  | c, byte :: rest =>
      if c.wire.closeRequested then []
      else
        let (ok, next) := c.handleInputByte lib application byte nowMs
        (if c.completes lib byte then
          c.lineWindow.taken sshInputLinesPerWindow sshInputLinesWindowMs ⟨nowMs, 1⟩ else []) ++
          if !ok then [] else linesRead nowMs next rest

def linesTaken (c : SshConnection χ α) (d : SshData) : List RateCall :=
  if d.isStderr || !c.shellStarted || c.applicationSession.isNone then []
  else if d.nowMs = 0 then []
  else
    let (accepted, window) := rateConsume c.byteWindow d.data.length sshInputBytesPerWindow
      sshInputBytesWindowMs d.nowMs
    if !accepted then []
    else { c with byteWindow := window, lastActivityMs := d.nowMs }.linesRead lib application d.nowMs
      d.data

theorem accounts_handleInput {nowMs : UInt64} (hclock : 0 < nowMs) {c : SshConnection χ α}
    {log : List RateCall} {latest : Nat} (hlater : latest ≤ nowMs.toNat)
    (h : c.lineWindow.Accounts sshInputLinesPerWindow sshInputLinesWindowMs log latest) (data : Bytes) :
    (c.handleInput lib application nowMs data).lineWindow.Accounts sshInputLinesPerWindow
      sshInputLinesWindowMs (log ++ c.linesRead lib application nowMs data) nowMs.toNat := by
  induction data generalizing c log latest with
  | nil => exact h.idle hlater
  | cons byte rest ih =>
    unfold handleInput linesRead
    split
    case isTrue => exact h.idle hlater
    case isFalse =>
      have hnext := h.consumeIf hclock hlater 1 (c.completes lib byte)
      rw [← (windows_handleInputByte lib application c byte nowMs).1] at hnext
      dsimp only
      rw [← List.append_assoc]
      split
      · exact hnext.idle (Nat.le_refl _)
      · exact ih (Nat.le_refl _) hnext

theorem byteWindow_handleInput (c : SshConnection χ α) (nowMs : UInt64) (data : Bytes) :
    (c.handleInput lib application nowMs data).byteWindow = c.byteWindow := by
  induction data generalizing c with
  | nil => rfl
  | cons byte rest ih =>
    have hbyte := (windows_handleInputByte lib application c byte nowMs).2
    unfold handleInput
    dsimp only
    split_ifs
    · rfl
    · exact hbyte
    · exact (ih _).trans hbyte

theorem accounts_bytes (c : SshConnection χ α) (d : SshData) {log : List RateCall} {latest : Nat}
    (h : c.byteWindow.Accounts sshInputBytesPerWindow sshInputBytesWindowMs log latest)
    (hclock : 0 < d.nowMs) (hlater : latest ≤ d.nowMs.toNat) :
    (c.onData lib application d).byteWindow.Accounts sshInputBytesPerWindow sshInputBytesWindowMs
      (log ++ c.bytesTaken d) d.nowMs.toNat := by
  have hcounted := h.consume hclock hlater d.data.length
  unfold onData channelDataCallback bytesTaken
  dsimp only
  split_ifs with hdeaf hzero hrefused
  · exact h.idle hlater
  · exact h.idle hlater
  · exact hcounted
  · rw [byteWindow_handleInput]
    exact hcounted

theorem accounts_lines (c : SshConnection χ α) (d : SshData) {log : List RateCall} {latest : Nat}
    (h : c.lineWindow.Accounts sshInputLinesPerWindow sshInputLinesWindowMs log latest)
    (hclock : 0 < d.nowMs) (hlater : latest ≤ d.nowMs.toNat) :
    (c.onData lib application d).lineWindow.Accounts sshInputLinesPerWindow sshInputLinesWindowMs
      (log ++ c.linesTaken lib application d) d.nowMs.toNat := by
  have hsame := h.idle hlater
  unfold onData channelDataCallback linesTaken
  dsimp only
  split_ifs
  · exact hsame
  · exact hsame
  · exact hsame
  · refine accounts_handleInput lib application hclock hlater ?_ d.data
    exact h

variable {lib application}

theorem taken_le {c : SshConnection χ α} (hbytes : c.byteWindow = ⟨0, 0⟩)
    (hlines : c.lineWindow = ⟨0, 0⟩) {pieces : List SshData} (htimes : Timely (pieces.map SshData.nowMs)) (start : Nat) :
    RateCall.amountIn (RateWindow.takenAll (onData lib application) bytesTaken c pieces) start 5000 ≤
        131072 ∧
      RateCall.amountIn (RateWindow.takenAll (onData lib application) (linesTaken lib application) c
        pieces) start 10000 ≤ 60 := by
  have htimed : Timely (pieces.filterMap fun d => some d.nowMs) := by
    rwa [List.filterMap_eq_map']
  exact ⟨RateWindow.amountIn_takenAll_le (fun c d _ _ h htime => accounts_bytes lib application c d h
      (htime d.nowMs rfl).1 (htime d.nowMs rfl).2) hbytes htimed start,
    RateWindow.amountIn_takenAll_le (fun c d _ _ h htime => accounts_lines lib application c d h
      (htime d.nowMs rfl).1 (htime d.nowMs rfl).2) hlines htimed start⟩

end SshConnection

/-! ## Both transports -/

open FixedWindow in
/-- A window never counts past its limit, takes its limit at most in each epoch, and twice its
limit at most in an interval as long as the window. So neither transport takes more than 131072
bytes in 5 seconds or 60 lines in 10. -/
theorem fixed_window_bounds {β χ α : Type} (host : Host β α) (lib : SshLibrary χ)
    (application : Application α) :
    (∀ (limit : Nat) (windowMs : UInt64) (calls : List RateCall), limit < 2 ^ 64 →
      Timely (calls.map RateCall.nowMs) →
      let m := Metered.consumeAll limit windowMs calls
      m.window.used ≤ limit ∧
        (∀ nowMs amount, (rateConsume m.window amount limit windowMs nowMs).1 = true →
          (m.window.roll windowMs nowMs).used + amount < 2 ^ 64) ∧
        (∀ epoch, total (m.ledger.ofEpoch epoch) ≤ limit) ∧
        ∀ start, total (m.ledger.during start windowMs.toNat) ≤ 2 * limit) ∧
      (∀ backend app s, TelnetSession.create host backend app = some s →
        ∀ calls, Timely (calls.filterMap TelnetSession.Call.time) → ∀ start,
          RateCall.amountIn (RateWindow.takenAll (TelnetSession.call host) TelnetSession.bytesTaken s
            calls) start 5000 ≤ 131072 ∧
          RateCall.amountIn (RateWindow.takenAll (TelnetSession.call host)
            (TelnetSession.linesTaken host) s calls) start 10000 ≤ 60) ∧
      ∀ c : SshConnection χ α, c.byteWindow = ⟨0, 0⟩ → c.lineWindow = ⟨0, 0⟩ →
        ∀ pieces, Timely (pieces.map SshData.nowMs) → ∀ start,
          RateCall.amountIn (RateWindow.takenAll (SshConnection.onData lib application)
            SshConnection.bytesTaken c pieces) start 5000 ≤ 131072 ∧
          RateCall.amountIn (RateWindow.takenAll (SshConnection.onData lib application)
            (SshConnection.linesTaken lib application) c pieces) start 10000 ≤ 60 := by
  refine ⟨fun limit windowMs calls hlimit htimes => ?_,
    fun backend app s hs calls htimes start => TelnetSession.taken_le hs htimes start,
    fun c hbytes hlines pieces htimes start => SshConnection.taken_le hbytes hlines htimes start⟩
  have hsound := Metered.Sound.consumeAll limit windowMs htimes
  refine ⟨hsound.used ▸ hsound.ledger.used_le, fun nowMs amount haccepted => ?_,
    hsound.ledger.epoch_le, hsound.ledger.during_le⟩
  rw [rateConsume_eq] at haccepted
  split at haccepted
  case isTrue hroom => exact Nat.lt_of_le_of_lt hroom hlimit
  case isFalse => cases haccepted

open FixedWindow in
/-- Two amounts just before a window is over and one just after. -/
theorem fixed_window_bounds_boundary :
    let calls : List RateCall := [⟨1, 1⟩, ⟨10, 2⟩, ⟨10, 1⟩, ⟨11, 3⟩]
    (total ((Metered.consumeAll 3 10 calls).ledger.during 10 10) = 5 ∧
        total ((Metered.consumeAll 3 10 calls).ledger.during 10 10) ≤ 6) ∧
      RateCall.amountIn (RateWindow.takenAll (TelnetSession.call .granting) TelnetSession.bytesTaken
        .granted [.start, .feedAt (ascii "zoe\n") 1, .feedAt (ascii "secret\n") 2]) 2 5000 ≤ 131072 ∧
      RateCall.amountIn (RateWindow.takenAll (SshConnection.onData .willing .idle)
        SshConnection.bytesTaken SshConnection.playing [⟨[97, 13], false, 1⟩]) 1 5000 ≤ 131072 := by
  have hbounds := fixed_window_bounds Host.granting SshLibrary.willing Application.idle
  refine ⟨⟨by decide, ?_⟩, ?_, ?_⟩
  · exact (hbounds.1 3 10 _ (by decide) (timely_of_all (by decide) (by decide))).2.2.2 10
  · exact (hbounds.2.1 () () _ rfl _ (timely_of_all (by decide) (by decide)) 2).1
  · exact (hbounds.2.2 _ rfl rfl _ (timely_of_all (by decide) (by decide)) 1).1

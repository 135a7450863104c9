-- SUMMARY: What typing does to an SSH channel that can write: the line it holds, byte by byte, and the call it ends with.
import TelnetTlsServer.Ssh.Channel

/-!
# Typing into an SSH channel

`SshLine.put` is the line editor on the bytes of the line alone. A channel whose
writes succeed holds the line of the bytes it was fed, in whatever pieces they came,
and a CR hands it to the application in one call.
-/

/-- Every write takes at least a byte. -/
def SshLibrary.Writes {χ : Type} (lib : SshLibrary χ) : Prop :=
  ∀ channel data, data ≠ [] → 0 < (lib.channelWrite channel data).1

/-- A library that takes every byte. -/
def SshLibrary.willing : SshLibrary Unit := ⟨fun _ data => (data.length, ())⟩

theorem SshLibrary.writes_willing : willing.Writes :=
  fun _ _ h => List.length_pos_iff.mpr h

namespace SshWire

variable {χ α : Type} (lib : SshLibrary χ)

/-! ## Terminal text is a list of chunks -/

/-- The runs between line feeds, each line feed as CR LF. -/
def textChunks (run : Bytes) (previous : Option UInt8) : Bytes → List Bytes
  | [] => Wire.runChunk run
  | ch :: rest =>
      if ch = 10 ∧ previous ≠ some 13 then
        Wire.runChunk run ++ [[13, 10]] ++ textChunks [] (some ch) rest
      else textChunks (run ++ [ch]) (some ch) rest

/-- Write one chunk after the other, up to the first that fails. -/
def writeChunks (w : SshWire χ α) : List Bytes → Bool × SshWire χ α
  | [] => (true, w)
  | chunk :: chunks =>
      let (ok, w) := w.channelWriteAll lib chunk
      if !ok then (false, w) else writeChunks w chunks

theorem writeTerminalTextFrom_eq (w : SshWire χ α) (run : Bytes) (previous : Option UInt8)
    (text : Bytes) :
    w.writeTerminalTextFrom lib run previous text =
      w.writeChunks lib (textChunks run previous text) := by
  have hlast : ∀ (w : SshWire χ α) (data : Bytes),
      w.writeChunks lib [data] = w.channelWriteAll lib data := by
    intro w data
    unfold writeChunks
    rcases w.channelWriteAll lib data with ⟨_ | _, w'⟩ <;> rfl
  induction text generalizing w run previous with
  | nil =>
    unfold writeTerminalTextFrom textChunks Wire.runChunk
    split
    · exact (hlast w run).symm
    · rfl
  | cons ch rest ih =>
    unfold writeTerminalTextFrom textChunks
    split
    · by_cases hrun : run = []
      · simp [hrun, Wire.runChunk, writeChunks, ih]
      · simp [hrun, Wire.runChunk, writeChunks, ih]
    · exact ih w _ _

/-! ## Only the application's hooks are calls -/

theorem applicationCalls_emit (w : SshWire χ α) (e : Event) :
    (w.emit e).applicationCalls = w.applicationCalls ++ e.application?.toList := by
  rw [applicationCalls, emit, List.filterMap_append]
  cases h : e.application? <;> simp [h, applicationCalls]

theorem applicationCalls_setCloseRequested (w : SshWire χ α) :
    w.setCloseRequested.applicationCalls = w.applicationCalls :=
  (applicationCalls_emit w .closeRequest).trans (List.append_nil _)

theorem applicationCalls_channelWriteFrom (w : SshWire χ α) (rounds : Nat) (channel : χ)
    (data : Bytes) :
    (w.channelWriteFrom lib rounds channel data).2.applicationCalls = w.applicationCalls := by
  induction rounds generalizing w channel data with
  | zero => cases data <;> rfl
  | succ rounds ih =>
    cases data with
    | nil => rfl
    | cons byte rest =>
      unfold channelWriteFrom
      dsimp only
      split
      · exact (applicationCalls_emit _ _).trans (by simp [Event.application?, applicationCalls])
      · rw [ih, applicationCalls_emit]
        simp [Event.application?]

theorem applicationCalls_channelWriteAll (w : SshWire χ α) (data : Bytes) :
    (w.channelWriteAll lib data).2.applicationCalls = w.applicationCalls := by
  unfold channelWriteAll
  split
  · rfl
  · split
    · rfl
    · exact applicationCalls_channelWriteFrom lib w _ _ _

theorem applicationCalls_writeTerminalText (w : SshWire χ α) (text : Bytes) :
    (w.writeTerminalText lib text).2.applicationCalls = w.applicationCalls := by
  rw [writeTerminalText, writeTerminalTextFrom_eq]
  generalize textChunks [] none text = chunks
  induction chunks generalizing w with
  | nil => rfl
  | cons chunk chunks ih =>
    have hchunk := applicationCalls_channelWriteAll lib w chunk
    unfold writeChunks
    rcases hwrite : w.channelWriteAll lib chunk with ⟨_ | _, written⟩ <;> rw [hwrite] at hchunk
    · exact hchunk
    · exact (ih written).trans hchunk

theorem applicationCalls_output (w : SshWire χ α) (call : Wire.OutputCall) :
    (w.output lib call).2.applicationCalls = w.applicationCalls := by
  cases call with
  | writeText text | writePrompt text | writeLink uri text =>
    exact applicationCalls_writeTerminalText lib w text
  | requestClose message =>
    refine (applicationCalls_setCloseRequested _).trans ?_
    cases message with
    | none => rfl
    | some text => exact applicationCalls_writeTerminalText lib w text
  | sendGmcp => rfl

theorem applicationCalls_callHook {ρ : Type} (w : SshWire χ α) (call : ApplicationCall)
    (hook : α → Wire.HookProgram (ρ × α)) :
    (w.callHook lib call hook).2.applicationCalls = w.applicationCalls ++ [call] := by
  have hrun : ∀ (program : Wire.HookProgram (ρ × α)) (w : SshWire χ α),
      (w.runHook lib program).2.applicationCalls = w.applicationCalls := by
    intro program
    induction program with
    | ret result => exact fun _ => rfl
    | call c next ih => exact fun w => (ih _ _).trans (applicationCalls_output lib w c)
  exact (hrun _ _).trans (applicationCalls_emit w (.application call))

/-! ## Writes that succeed -/

/-- The channel is there, no write has failed and nobody wants to close. -/
structure Live (w : SshWire χ α) : Prop where
  channel : w.channel.isSome = true
  writeFailed : w.writeFailed = false
  closeRequested : w.closeRequested = false

variable {lib}

/-- The channel is there and no write has failed. -/
structure Writable (w : SshWire χ α) : Prop where
  channel : w.channel.isSome = true
  writeFailed : w.writeFailed = false

theorem Live.writable {w : SshWire χ α} (h : w.Live) : w.Writable := ⟨h.channel, h.writeFailed⟩

theorem writable_channelWriteFrom (hlib : lib.Writes) {w : SshWire χ α}
    (hfailed : w.writeFailed = false) (rounds : Nat) (channel : χ) (data : Bytes) :
    (w.channelWriteFrom lib rounds channel data).1 = true ∧
      (w.channelWriteFrom lib rounds channel data).2.Writable ∧
      (w.channelWriteFrom lib rounds channel data).2.closeRequested = w.closeRequested := by
  induction rounds generalizing w channel data with
  | zero => cases data <;> exact ⟨rfl, ⟨rfl, hfailed⟩, rfl⟩
  | succ rounds ih =>
    cases data with
    | nil => exact ⟨rfl, ⟨rfl, hfailed⟩, rfl⟩
    | cons byte rest =>
      have hchunk : (byte :: rest).take sshWriteChunkMax ≠ [] := by simp [sshWriteChunkMax]
      have htaken := Nat.pos_iff_ne_zero.mp (hlib channel _ hchunk)
      unfold channelWriteFrom
      dsimp only
      rw [if_neg htaken]
      exact ih (w := w.emit _) hfailed _ _

theorem writable_channelWriteAll (hlib : lib.Writes) {w : SshWire χ α} (h : w.Writable)
    (data : Bytes) :
    (w.channelWriteAll lib data).1 = true ∧ (w.channelWriteAll lib data).2.Writable ∧
      (w.channelWriteAll lib data).2.closeRequested = w.closeRequested := by
  obtain ⟨channel, hchannel⟩ := Option.isSome_iff_exists.mp h.channel
  simp only [channelWriteAll, hchannel, h.writeFailed, Bool.false_eq_true, if_false]
  exact writable_channelWriteFrom hlib h.writeFailed _ _ _

theorem live_channelWriteAll (hlib : lib.Writes) {w : SshWire χ α} (h : w.Live) (data : Bytes) :
    (w.channelWriteAll lib data).1 = true ∧ (w.channelWriteAll lib data).2.Live := by
  obtain ⟨hok, hwritable, hclose⟩ := writable_channelWriteAll hlib h.writable data
  exact ⟨hok, hwritable.channel, hwritable.writeFailed, hclose.trans h.closeRequested⟩

end SshWire

/-! ## The line on its bytes -/

namespace SshLine

open SshConnection

def put (text : Bytes) (byte : UInt8) : Bytes :=
  if byte = 8 || byte = 127 then text.take (previousStart text (text.length - 1))
  else text ++ [byte]

/-- Bytes that edit the line: no control but the two that rub out. -/
def Plain (byte : UInt8) : Prop := byte = 8 ∨ 32 ≤ byte

theorem previousStart_le (line : Bytes) (n : Nat) : previousStart line n ≤ n := by
  induction n with
  | zero => exact Nat.le_refl _
  | succ n ih =>
    unfold previousStart
    split
    · exact Nat.le_succ_of_le ih
    · exact Nat.le_refl _

theorem previousStart_congr {line line' : Bytes} {n : Nat}
    (h : ∀ i, 0 < i → i ≤ n → line.getD i 0 = line'.getD i 0) :
    previousStart line n = previousStart line' n := by
  induction n with
  | zero => rfl
  | succ n ih =>
    unfold previousStart
    rw [h (n + 1) (Nat.succ_pos n) (Nat.le_refl _),
      ih fun i hpos hi => h i hpos (Nat.le_succ_of_le hi)]

end SshLine

namespace SshConnection

variable {χ α : Type}

/-- The channel holds `text` and is otherwise as `c₀` was, as far as the next line is
concerned. -/
structure Typed (c₀ : SshConnection χ α) (text : Bytes) (c : SshConnection χ α) : Prop where
  live : c.wire.Live
  calls : c.wire.applicationCalls = c₀.wire.applicationCalls
  session : c.applicationSession = c₀.applicationSession
  shell : c.shellStarted = c₀.shellStarted
  lineWindow : c.lineWindow = c₀.lineWindow
  ground : c.escapeState = .ground
  length : c.lineLength = text.length
  text : c.text = text

variable {lib : SshLibrary χ} {c₀ c : SshConnection χ α} {text : Bytes}

theorem Typed.write (hlib : lib.Writes) (h : Typed c₀ text c) (data : Bytes) :
    (c.write lib data).1 = true ∧ Typed c₀ text (c.write lib data).2 := by
  obtain ⟨hok, hlive⟩ := SshWire.live_channelWriteAll hlib h.live data
  exact ⟨hok, hlive, (SshWire.applicationCalls_channelWriteAll lib c.wire data).trans h.calls,
    h.session, h.shell, h.lineWindow, h.ground, h.length, h.text⟩

theorem Typed.push (h : Typed c₀ text c) (hroom : text.length < 513) (byte : UInt8) :
    Typed c₀ (text ++ [byte])
      { c with line := c.line.set c.lineLength byte, lineLength := c.lineLength + 1 } := by
  have hsize := c.line.size
  have htext : c.line.bytes.take text.length = text := by rw [← h.length]; exact h.text
  refine ⟨h.live, h.calls, h.session, h.shell, h.lineWindow, h.ground, by simp [h.length], ?_⟩
  simp only [SshConnection.text, Buffer.set, h.length]
  rw [List.take_add_one, List.take_set_of_le (Nat.le_refl _), htext, List.getElem?_set_self (by omega)]
  rfl

theorem Typed.eraseCharacter (h : Typed c₀ text c) :
    Typed c₀ (text.take (previousStart text (text.length - 1))) c.eraseCharacter := by
  have htext : c.line.bytes.take text.length = text := by rw [← h.length]; exact h.text
  have hstart : previousStart c.line.bytes (c.lineLength - 1) =
      previousStart text (text.length - 1) := by
    rw [h.length]
    refine SshLine.previousStart_congr fun i hpos hi => ?_
    rw [← htext, List.getD_eq_getElem?_getD, List.getD_eq_getElem?_getD,
      List.getElem?_take_of_lt (by omega)]
  have hle := SshLine.previousStart_le text (text.length - 1)
  refine ⟨h.live, h.calls, h.session, h.shell, h.lineWindow, h.ground, ?_, ?_⟩
  · simp only [SshConnection.eraseCharacter, hstart, List.length_take]
    omega
  · simp only [SshConnection.text, SshConnection.eraseCharacter, hstart, Buffer.set]
    generalize previousStart text (text.length - 1) = start at hle ⊢
    rw [List.take_set_of_le (Nat.le_refl _), ← htext, List.take_take, Nat.min_eq_left]
    exact hle.trans (Nat.sub_le _ _)

/-- A byte that edits is put into the line. -/
theorem Typed.handleInputByte (hlib : lib.Writes) (application : Application α)
    (h : Typed c₀ text c) {byte : UInt8} (hplain : SshLine.Plain byte)
    (hroom : (SshLine.put text byte).length ≤ sshInputLineMax) (nowMs : UInt64) :
    (c.handleInputByte lib application byte nowMs).1 = true ∧
      Typed c₀ (SshLine.put text byte) (c.handleInputByte lib application byte nowMs).2 := by
  have hnotEnd : byte ≠ 13 ∧ byte ≠ 10 ∧ byte ≠ 4 ∧ byte ≠ 27 := by
    rcases hplain with rfl | hprintable
    · decide
    · exact ⟨by rintro rfl; exact absurd hprintable (by decide),
        by rintro rfl; exact absurd hprintable (by decide),
        by rintro rfl; exact absurd hprintable (by decide),
        by rintro rfl; exact absurd hprintable (by decide)⟩
  obtain ⟨hcr, hlf, heot, hesc⟩ := hnotEnd
  have hready : Typed c₀ text { c with pendingCr := false } :=
    ⟨h.live, h.calls, h.session, h.shell, h.lineWindow, h.ground, h.length, h.text⟩
  rw [SshConnection.handleInputByte, if_neg (by simp [hlf])]
  dsimp only
  rw [if_neg (by simp [hcr, hlf]), handleTypedByte, if_neg heot, if_neg (by simp [h.ground]),
    if_neg hesc]
  unfold SshLine.put at hroom ⊢
  split
  case isTrue herase =>
    split
    case isTrue hsome => exact hready.eraseCharacter.write hlib _
    case isFalse hnone =>
      have hempty : text = [] := List.eq_nil_of_length_eq_zero (by simpa [h.length] using hnone)
      subst hempty
      exact ⟨rfl, hready⟩
  case isFalse herase =>
    rw [if_neg herase, List.length_append, List.length_singleton] at hroom
    have hprintable : ¬ byte < 0x20 := by
      rcases hplain with rfl | hprintable
      · simp at herase
      · exact UInt8.not_lt.mpr hprintable
    have hshort : ¬ c.lineLength ≥ sshInputLineMax := by rw [h.length]; omega
    have hfits : text.length < 513 := by unfold sshInputLineMax at hroom; omega
    rw [if_neg hprintable, if_neg hshort]
    exact (hready.push hfits byte).write hlib _

/-- The line never outgrows the buffer while these bytes are typed. -/
def Fits (text bytes : Bytes) : Prop :=
  ∀ before, before <+: bytes → (before.foldl SshLine.put text).length ≤ sshInputLineMax

theorem Fits.tail {byte : UInt8} {rest : Bytes} (h : Fits text (byte :: rest)) :
    Fits (SshLine.put text byte) rest :=
  fun before hbefore => h (byte :: before) (List.prefix_cons_inj byte |>.mpr hbefore)

theorem Fits.split {bytes rest : Bytes} (h : Fits text (bytes ++ rest)) :
    Fits text bytes ∧ Fits (bytes.foldl SshLine.put text) rest := by
  refine ⟨fun before hbefore => h before (hbefore.trans (List.prefix_append _ _)),
    fun before hbefore => ?_⟩
  rw [← List.foldl_append]
  exact h _ ((List.prefix_append_right_inj bytes).mpr hbefore)

/-- Bytes that edit are put into the line, and the loop goes on with the rest. -/
theorem Typed.handleInput (hlib : lib.Writes) (application : Application α) (nowMs : UInt64)
    {bytes : Bytes} (h : Typed c₀ text c) (hplain : ∀ b ∈ bytes, SshLine.Plain b)
    (hfits : Fits text bytes) :
    ∃ c', Typed c₀ (bytes.foldl SshLine.put text) c' ∧ ∀ rest,
      c.handleInput lib application nowMs (bytes ++ rest) =
        c'.handleInput lib application nowMs rest := by
  induction bytes generalizing c text with
  | nil => exact ⟨c, h, fun _ => rfl⟩
  | cons byte bytes ih =>
    obtain ⟨hok, hnext⟩ := h.handleInputByte hlib application (hplain byte (by simp))
      (hfits [byte] (List.prefix_append [byte] bytes)) nowMs
    obtain ⟨c', htyped, hrest⟩ := ih hnext (fun b hb => hplain b (by simp [hb])) hfits.tail
    refine ⟨c', htyped, fun rest => ?_⟩
    rw [List.cons_append, SshConnection.handleInput, h.live.closeRequested, if_neg (by simp)]
    dsimp only
    rw [hok, if_neg (by simp), hrest rest]

/-- The byte window takes the data and the clock works. -/
def Admits (c : SshConnection χ α) (data : Bytes) (nowMs : UInt64) : Prop :=
  nowMs ≠ 0 ∧ (rateConsume c.byteWindow data.length sshInputBytesPerWindow sshInputBytesWindowMs
    nowMs).1 = true

theorem channelDataCallback_of_admits {c : SshConnection χ α} (application : Application α)
    (hshell : c.shellStarted = true) (hsession : c.applicationSession.isSome = true) {data : Bytes}
    {nowMs : UInt64} (hadmits : c.Admits data nowMs) :
    c.channelDataCallback lib application data false nowMs =
      { c with
        byteWindow := (rateConsume c.byteWindow data.length sshInputBytesPerWindow
          sshInputBytesWindowMs nowMs).2
        lastActivityMs := nowMs }.handleInput lib application nowMs data := by
  obtain ⟨hclock, haccepted⟩ := hadmits
  have hnone : c.applicationSession.isNone = false := by
    cases hsession' : c.applicationSession with
    | none => simp [hsession'] at hsession
    | some session => rfl
  rw [channelDataCallback, hshell, hnone, if_neg (by simp), if_neg hclock]
  dsimp only
  rw [haccepted, if_neg (by simp)]

/-- The data callbacks of a list of pieces, each with its time. -/
def receive (lib : SshLibrary χ) (application : Application α) (c : SshConnection χ α)
    (pieces : List (Bytes × UInt64)) : SshConnection χ α :=
  pieces.foldl (fun c piece => c.channelDataCallback lib application piece.1 false piece.2) c

/-- Every piece is admitted when it comes. -/
def AdmitsAll (lib : SshLibrary χ) (application : Application α) (c : SshConnection χ α)
    (pieces : List (Bytes × UInt64)) : Prop :=
  ∀ before piece, before ++ [piece] <+: pieces →
    (c.receive lib application before).Admits piece.1 piece.2

theorem Typed.withActivity (h : Typed c₀ text c) (window : RateWindow) (nowMs : UInt64) :
    Typed c₀ text { c with byteWindow := window, lastActivityMs := nowMs } :=
  ⟨h.live, h.calls, h.session, h.shell, h.lineWindow, h.ground, h.length, h.text⟩

theorem Typed.receive (hlib : lib.Writes) (application : Application α)
    (hshell : c₀.shellStarted = true) (hsession : c₀.applicationSession.isSome = true)
    {pieces : List (Bytes × UInt64)} (h : Typed c₀ text c)
    (hplain : ∀ b ∈ pieces.flatMap Prod.fst, SshLine.Plain b)
    (hfits : Fits text (pieces.flatMap Prod.fst)) (hadmits : AdmitsAll lib application c pieces) :
    Typed c₀ ((pieces.flatMap Prod.fst).foldl SshLine.put text)
      (c.receive lib application pieces) := by
  induction pieces generalizing c text with
  | nil => exact h
  | cons piece pieces ih =>
    rw [List.flatMap_cons] at hplain hfits ⊢
    obtain ⟨hfirst, hrest⟩ := hfits.split
    have hnow := hadmits [] piece (List.prefix_append [piece] pieces)
    obtain ⟨c', htyped, hloop⟩ := (h.withActivity _ piece.2).handleInput hlib application piece.2
      (fun b hb => hplain b (by simp [hb])) hfirst
    have hcallback : c.channelDataCallback lib application piece.1 false piece.2 = c' := by
      rw [channelDataCallback_of_admits application (h.shell.trans hshell)
        (by rw [h.session, hsession]) hnow]
      have hdone := hloop []
      rw [List.append_nil] at hdone
      exact hdone
    have hthen : AdmitsAll lib application c' pieces := by
      intro before next hbefore
      have hlater := hadmits (piece :: before) next (List.prefix_cons_inj piece |>.mpr hbefore)
      rw [SshConnection.receive, List.foldl_cons, hcallback] at hlater
      exact hlater
    rw [List.foldl_append, SshConnection.receive, List.foldl_cons, hcallback]
    exact ih htyped (fun b hb => hplain b (List.mem_append_right _ hb)) hrest hthen

theorem text_terminated (c : SshConnection χ α) :
    ({ c with line := c.line.set c.lineLength 0 } : SshConnection χ α).text = c.text :=
  List.take_set_of_le (Nat.le_refl _)

theorem applicationCalls_completeInputLine (lib : SshLibrary χ) (c : SshConnection χ α)
    {application : Application α}
    {hook : Nat → Bytes → α → Wire.HookProgram (Int × α)} {session : Nat}
    (hhook : application.line = some hook) (hsession : c.applicationSession = some session)
    {nowMs : UInt64} (haccepted : (rateConsume c.lineWindow 1 sshInputLinesPerWindow
      sshInputLinesWindowMs nowMs).1 = true) :
    (c.completeInputLine lib application nowMs).1 = true ∧
      (c.completeInputLine lib application nowMs).2.wire.applicationCalls =
        c.wire.applicationCalls ++ [.line session c.text] := by
  unfold completeInputLine
  dsimp only
  rw [haccepted, if_neg (by simp)]
  refine ⟨rfl, ?_⟩
  have hclosing : ∀ (closeRequested : Int) (c : SshConnection χ α),
      (if closeRequested ≠ 0 then c.onWire .setCloseRequested else c).wire.applicationCalls =
        c.wire.applicationCalls := by
    intro closeRequested c
    split
    · exact SshWire.applicationCalls_setCloseRequested c.wire
    · rfl
  rw [hclosing]
  simp only [hsession, hhook]
  rw [SshWire.applicationCalls_callHook]
  exact congrArg (fun line => c.wire.applicationCalls ++ [.line session line]) (text_terminated c)

/-- A CR hands the line over. -/
theorem Typed.complete (hlib : lib.Writes) {application : Application α}
    {hook : Nat → Bytes → α → Wire.HookProgram (Int × α)} {session : Nat}
    (hhook : application.line = some hook) (hsession : c₀.applicationSession = some session)
    {nowMs : UInt64} (haccepted : (rateConsume c₀.lineWindow 1 sshInputLinesPerWindow
      sshInputLinesWindowMs nowMs).1 = true) (h : Typed c₀ text c) :
    (c.handleInput lib application nowMs [13]).wire.applicationCalls =
      c₀.wire.applicationCalls ++ [.line session text] := by
  have hready : Typed c₀ text { c with pendingCr := false } :=
    ⟨h.live, h.calls, h.session, h.shell, h.lineWindow, h.ground, h.length, h.text⟩
  obtain ⟨hwritten, hechoed⟩ := hready.write hlib [13, 10]
  obtain ⟨hcompleted, hcalls⟩ := applicationCalls_completeInputLine lib
    ({ c with pendingCr := false }.write lib [13, 10]).2 hhook
    (hechoed.session.trans hsession) (hechoed.lineWindow ▸ haccepted)
  rw [hechoed.calls, hechoed.text] at hcalls
  have hend : c.handleInputByte lib application 13 nowMs =
      (true, { (({ c with pendingCr := false }.write lib [13, 10]).2.completeInputLine lib
        application nowMs).2 with pendingCr := true }) := by
    rw [SshConnection.handleInputByte, if_neg (by simp)]
    dsimp only
    rw [if_pos (by simp), handleLineEnd]
    dsimp only
    rw [hwritten, if_neg (by simp), hcompleted, if_neg (by simp), if_pos rfl]
  rw [SshConnection.handleInput, h.live.closeRequested, if_neg (by simp), hend]
  exact hcalls

end SshConnection

-- SUMMARY: Two SSH connections side by side, which a library and an application do not tell apart.
import TelnetTlsServer.Ssh.SameLine

/-!
# Two connections side by side

`Twins` relates two connections whose editors are in the same state while their channels and
applications may have a different past. Neither the library nor the application tells the
pasts apart, so whatever comes next does the same to both.
-/

/-! ## Environments -/

/-- The library takes as many bytes on related channels, and leaves them related. -/
def SshLibrary.TreatsAlike {χ : Type} (lib : SshLibrary χ) (S : χ → χ → Prop) : Prop :=
  ∀ ⦃channel channel'⦄, S channel channel' → ∀ data,
    (lib.channelWrite channel data).1 = (lib.channelWrite channel' data).1 ∧
      S (lib.channelWrite channel data).2 (lib.channelWrite channel' data).2

theorem SshLibrary.treatsAlike_eq {χ : Type} (lib : SshLibrary χ) : lib.TreatsAlike Eq := by
  rintro channel _ rfl data
  exact ⟨rfl, rfl⟩

namespace Wire.HookProgram

/-- Two programs that make the same calls and give the same result, and leave the application
in states related by `R`. -/
inductive Alike {ρ α : Type} (R : α → α → Prop) :
    HookProgram (ρ × α) → HookProgram (ρ × α) → Prop where
  | ret {result : ρ} {a a' : α} (h : R a a') : Alike R (.ret (result, a)) (.ret (result, a'))
  | call {c : OutputCall} {next next' : Int → HookProgram (ρ × α)}
      (h : ∀ answer, Alike R (next answer) (next' answer)) : Alike R (.call c next) (.call c next')

theorem alike_self {ρ α : Type} : ∀ program : HookProgram (ρ × α), Alike Eq program program
  | .ret _ => .ret rfl
  | .call _ next => .call fun answer => alike_self (next answer)

end Wire.HookProgram

/-- The application treats a line alike in related states. -/
def Application.TreatsAlike {α : Type} (application : Application α) (R : α → α → Prop) : Prop :=
  ∀ hook, application.line = some hook → ∀ session line a a', R a a' →
    Wire.HookProgram.Alike R (hook session line a) (hook session line a')

theorem Application.treatsAlike_eq {α : Type} (application : Application α) :
    application.TreatsAlike Eq := by
  rintro hook - session line a _ rfl
  exact Wire.HookProgram.alike_self _

/-! ## Two channels side by side -/

namespace SshWire

variable {χ α : Type} {lib : SshLibrary χ} {S : χ → χ → Prop} {R : α → α → Prop}

/-- The channels answer alike, the applications are in related states, and since the calls
`seen` and `seen'` the applications got the same ones. -/
structure Twin (S : χ → χ → Prop) (R : α → α → Prop) (seen seen' : List ApplicationCall)
    (w w' : SshWire χ α) : Prop where
  channel : Option.Rel S w.channel w'.channel
  writeFailed : w.writeFailed = w'.writeFailed
  closeRequested : w.closeRequested = w'.closeRequested
  app : R w.app w'.app
  calls : ∃ new, w.applicationCalls = seen ++ new ∧ w'.applicationCalls = seen' ++ new

namespace Twin

variable {seen seen' : List ApplicationCall} {w w' : SshWire χ α}

theorem emit (h : Twin S R seen seen' w w') (e : Event) :
    Twin S R seen seen' (w.emit e) (w'.emit e) := by
  obtain ⟨new, hw, hw'⟩ := h.calls
  refine ⟨h.channel, h.writeFailed, h.closeRequested, h.app, new ++ e.application?.toList, ?_, ?_⟩
  · rw [applicationCalls_emit, hw, List.append_assoc]
  · rw [applicationCalls_emit, hw', List.append_assoc]

theorem withChannel (h : Twin S R seen seen' w w') {channel channel' : χ}
    (hchannel : S channel channel') :
    Twin S R seen seen' { w with channel := some channel } { w' with channel := some channel' } :=
  ⟨.some hchannel, h.writeFailed, h.closeRequested, h.app, h.calls⟩

theorem fail (h : Twin S R seen seen' w w') :
    Twin S R seen seen' { w with writeFailed := true } { w' with writeFailed := true } :=
  ⟨h.channel, rfl, h.closeRequested, h.app, h.calls⟩

theorem setCloseRequested (h : Twin S R seen seen' w w') :
    Twin S R seen seen' w.setCloseRequested w'.setCloseRequested :=
  ⟨h.channel, h.writeFailed, rfl, h.app, (h.emit .closeRequest).calls⟩

variable (hlib : lib.TreatsAlike S)

include hlib

theorem channelWriteFrom (h : Twin S R seen seen' w w') (rounds : Nat) {channel channel' : χ}
    (hchannel : S channel channel') (data : Bytes) :
    (w.channelWriteFrom lib rounds channel data).1 = (w'.channelWriteFrom lib rounds channel' data).1 ∧
      Twin S R seen seen' (w.channelWriteFrom lib rounds channel data).2
        (w'.channelWriteFrom lib rounds channel' data).2 := by
  induction rounds generalizing w w' channel channel' data with
  | zero => cases data <;> exact ⟨rfl, h.withChannel hchannel⟩
  | succ rounds ih =>
    cases data with
    | nil => exact ⟨rfl, h.withChannel hchannel⟩
    | cons byte rest =>
      obtain ⟨htaken, hnext⟩ := hlib hchannel ((byte :: rest).take sshWriteChunkMax)
      unfold SshWire.channelWriteFrom
      simp only [htaken]
      split
      · exact ⟨rfl, (h.withChannel hnext).fail.emit _⟩
      · exact ih (h.emit _) hnext _

theorem channelWriteAll (h : Twin S R seen seen' w w') (data : Bytes) :
    (w.channelWriteAll lib data).1 = (w'.channelWriteAll lib data).1 ∧
      Twin S R seen seen' (w.channelWriteAll lib data).2 (w'.channelWriteAll lib data).2 := by
  unfold SshWire.channelWriteAll
  rw [h.writeFailed]
  have hrel := h.channel
  rcases hchannel : w.channel with _ | channel <;> rcases hchannel' : w'.channel with _ | channel' <;>
    rw [hchannel, hchannel'] at hrel
  · exact ⟨rfl, h⟩
  · cases hrel
  · cases hrel
  · obtain ⟨hsame⟩ := hrel
    dsimp only
    split
    · exact ⟨rfl, h⟩
    · exact h.channelWriteFrom hlib _ hsame _

theorem writeTerminalText (h : Twin S R seen seen' w w') (text : Bytes) :
    (w.writeTerminalText lib text).1 = (w'.writeTerminalText lib text).1 ∧
      Twin S R seen seen' (w.writeTerminalText lib text).2 (w'.writeTerminalText lib text).2 := by
  rw [SshWire.writeTerminalText, SshWire.writeTerminalText, writeTerminalTextFrom_eq,
    writeTerminalTextFrom_eq]
  generalize textChunks [] none text = chunks
  induction chunks generalizing w w' with
  | nil => exact ⟨rfl, h⟩
  | cons chunk chunks ih =>
    obtain ⟨hok, hnext⟩ := h.channelWriteAll hlib chunk
    unfold writeChunks
    dsimp only
    rw [hok]
    split
    · exact ⟨rfl, hnext⟩
    · exact ih hnext

theorem output (h : Twin S R seen seen' w w') (call : Wire.OutputCall) :
    (w.output lib call).1 = (w'.output lib call).1 ∧
      Twin S R seen seen' (w.output lib call).2 (w'.output lib call).2 := by
  cases call with
  | writeText text | writePrompt text => exact ⟨rfl, (h.writeTerminalText hlib text).2⟩
  | requestClose message =>
    cases message with
    | none => exact ⟨rfl, h.setCloseRequested⟩
    | some text => exact ⟨rfl, (h.writeTerminalText hlib text).2.setCloseRequested⟩
  | sendGmcp => exact ⟨rfl, h⟩
  | writeLink uri label =>
    obtain ⟨hok, hnext⟩ := h.writeTerminalText hlib label
    refine ⟨?_, hnext⟩
    simp only [SshWire.output, hok]

theorem runHook {ρ : Type} {program program' : Wire.HookProgram (ρ × α)}
    (hprogram : program.Alike R program') (h : Twin S R seen seen' w w') :
    (w.runHook lib program).1.1 = (w'.runHook lib program').1.1 ∧
      R (w.runHook lib program).1.2 (w'.runHook lib program').1.2 ∧
      Twin S R seen seen' (w.runHook lib program).2 (w'.runHook lib program').2 := by
  induction hprogram generalizing w w' with
  | ret happ => exact ⟨rfl, happ, h⟩
  | @call c next next' _ ih =>
    obtain ⟨hanswer, hnext⟩ := h.output hlib c
    have hrest := ih (w'.output lib c).1 hnext
    simp only [SshWire.runHook, hanswer]
    exact hrest

theorem callHook {ρ : Type} {hook : α → Wire.HookProgram (ρ × α)}
    (hhook : ∀ a a', R a a' → (hook a).Alike R (hook a')) (h : Twin S R seen seen' w w')
    (call : ApplicationCall) :
    (w.callHook lib call hook).1 = (w'.callHook lib call hook).1 ∧
      Twin S R seen seen' (w.callHook lib call hook).2 (w'.callHook lib call hook).2 := by
  obtain ⟨hresult, happ, hwire⟩ := (h.emit (.application call)).runHook hlib (hhook _ _ h.app)
  exact ⟨hresult, hwire.channel, hwire.writeFailed, hwire.closeRequested, happ, hwire.calls⟩

end Twin

end SshWire

/-! ## Two editors side by side -/

namespace SshConnection

variable {χ α : Type} (lib : SshLibrary χ)

/-- The call a completed line makes, with the application's answer. -/
def handOver (application : Application α) (session : Option Nat) (w : SshWire χ α) (text : Bytes) :
    Int × SshWire χ α :=
  match session, application.line with
  | some session, some hook => w.callHook lib (.line session text) (hook session text)
  | _, _ => (0, w)

/-- The editor behind a completed line, which obeys the application's answer. -/
def cleared (c : SshConnection χ α) (window : RateWindow) (answer : Int × SshWire χ α) :
    SshConnection χ α :=
  let c := { c with lineWindow := window, wire := answer.2, line := .zero 513, lineLength := 0 }
  if answer.1 ≠ 0 then c.onWire .setCloseRequested else c

theorem completeInputLine_accepted (application : Application α) {c : SshConnection χ α}
    {nowMs : UInt64} {window : RateWindow} (h : rateConsume c.lineWindow 1 sshInputLinesPerWindow
      sshInputLinesWindowMs nowMs = (true, window)) :
    c.completeInputLine lib application nowMs =
      (true, c.cleared window (handOver lib application c.applicationSession c.wire c.text)) := by
  have htext := text_terminated { c with lineWindow := window }
  unfold completeInputLine
  rw [h]
  dsimp only at htext ⊢
  rw [if_neg (by decide), htext]
  rfl

/-- The connections differ in their channels' histories and in when they were last active
only. -/
def Twins (S : χ → χ → Prop) (R : α → α → Prop) (seen seen' : List ApplicationCall)
    (c d : SshConnection χ α) : Prop :=
  SshWire.Twin S R seen seen' c.wire d.wire ∧
    { c with wire := d.wire, lastActivityMs := d.lastActivityMs } = d

/-- The same answer, and twins again. -/
def TwinResults (S : χ → χ → Prop) (R : α → α → Prop) (seen seen' : List ApplicationCall)
    (x y : Bool × SshConnection χ α) : Prop :=
  x.1 = y.1 ∧ Twins S R seen seen' x.2 y.2

namespace Twins

variable {lib : SshLibrary χ} {S : χ → χ → Prop} {R : α → α → Prop}
  {seen seen' : List ApplicationCall} {c d : SshConnection χ α}

/-- A step that does the same to both and leaves the wires alone. -/
theorem update (h : Twins S R seen seen' c d) (f : SshConnection χ α → SshConnection χ α)
    (hf : ∀ (c : SshConnection χ α) (w : SshWire χ α) (t : UInt64),
      f { c with wire := w, lastActivityMs := t } =
        { f c with wire := w, lastActivityMs := t } ∧ (f c).wire = c.wire) :
    Twins S R seen seen' (f c) (f d) := by
  obtain ⟨hwire, hrest⟩ := h
  have hstep := (hf c d.wire d.lastActivityMs).1
  rw [hrest] at hstep
  rw [hstep]
  exact ⟨(hf c d.wire d.lastActivityMs).2 ▸ hwire, rfl⟩

theorem onWire (h : Twins S R seen seen' c d) {f : SshWire χ α → SshWire χ α}
    (hf : ∀ w w', SshWire.Twin S R seen seen' w w' → SshWire.Twin S R seen seen' (f w) (f w')) :
    Twins S R seen seen' (c.onWire f) (d.onWire f) := by
  obtain ⟨hwire, hrest⟩ := h
  refine ⟨hf _ _ hwire, ?_⟩
  rw [← hrest]
  rfl

theorem audit (h : Twins S R seen seen' c d) (event detail : String) :
    Twins S R seen seen' (c.onWire (·.auditConnection event detail))
      (d.onWire (·.auditConnection event detail)) :=
  h.onWire fun _ _ hwire => hwire.emit _

theorem setCloseRequested (h : Twins S R seen seen' c d) :
    Twins S R seen seen' (c.onWire .setCloseRequested) (d.onWire .setCloseRequested) :=
  h.onWire fun _ _ hwire => hwire.setCloseRequested

theorem exists_eq (h : Twins S R seen seen' c d) :
    ∃ w t, d = { c with wire := w, lastActivityMs := t } :=
  ⟨d.wire, d.lastActivityMs, h.2.symm⟩

/-- What the editor reads is the same in both. -/
theorem reads (h : Twins S R seen seen' c d) : c.applicationSession = d.applicationSession ∧
    c.line = d.line ∧ c.lineLength = d.lineLength ∧ c.pendingCr = d.pendingCr ∧
    c.escapeState = d.escapeState ∧ c.shellStarted = d.shellStarted ∧
    c.byteWindow = d.byteWindow ∧ c.lineWindow = d.lineWindow := by
  rw [← h.2]
  exact ⟨rfl, rfl, rfl, rfl, rfl, rfl, rfl, rfl⟩

variable (hlib : lib.TreatsAlike S) {application : Application α} (happ : application.TreatsAlike R)

include hlib

theorem write (h : Twins S R seen seen' c d) (data : Bytes) :
    TwinResults S R seen seen' (c.write lib data) (d.write lib data) := by
  obtain ⟨hwire, hrest⟩ := h
  obtain ⟨hok, hnext⟩ := hwire.channelWriteAll hlib data
  refine ⟨hok, hnext, ?_⟩
  rw [← hrest]
  rfl

theorem tell (h : Twins S R seen seen' c d) (text : String) :
    Twins S R seen seen' (c.tell lib text) (d.tell lib text) :=
  h.onWire fun _ _ hwire => (hwire.writeTerminalText hlib (ascii text)).2

include happ

theorem completeInputLine (h : Twins S R seen seen' c d) (nowMs : UInt64) :
    TwinResults S R seen seen' (c.completeInputLine lib application nowMs)
      (d.completeInputLine lib application nowMs) := by
  obtain ⟨hsession, hline, hlength, -, -, -, -, hwindow⟩ := h.reads
  rcases hanswer : rateConsume c.lineWindow 1 sshInputLinesPerWindow sshInputLinesWindowMs nowMs with
    ⟨_ | _, window⟩
  · have hcounted := h.update (fun c => { c with lineWindow := window }) fun _ _ _ => ⟨rfl, rfl⟩
    unfold SshConnection.completeInputLine
    rw [← hwindow, hanswer]
    exact ⟨rfl, ((hcounted.audit _ _).tell hlib _).setCloseRequested⟩
  · have htext : c.text = d.text := by rw [SshConnection.text, SshConnection.text, hline, hlength]
    have hgiven : (handOver lib application d.applicationSession c.wire d.text).1 =
          (handOver lib application d.applicationSession d.wire d.text).1 ∧
        SshWire.Twin S R seen seen' (handOver lib application d.applicationSession c.wire d.text).2
          (handOver lib application d.applicationSession d.wire d.text).2 := by
      unfold handOver
      split
      case h_1 session hook _ hhook =>
        exact h.1.callHook hlib (happ hook hhook session d.text) (.line session d.text)
      case h_2 => exact ⟨rfl, h.1⟩
    rw [completeInputLine_accepted lib application hanswer,
      completeInputLine_accepted lib application (hwindow ▸ hanswer), hsession, htext]
    refine ⟨rfl, ?_⟩
    simp only [cleared, hgiven.1]
    have hcleared : ∀ {w w' : SshWire χ α}, SshWire.Twin S R seen seen' w w' → Twins S R seen seen'
        { c with lineWindow := window, wire := w, line := .zero 513, lineLength := 0 }
        { d with lineWindow := window, wire := w', line := .zero 513, lineLength := 0 } :=
      fun hwire => ⟨hwire, by rw [← h.2]⟩
    split
    · exact (hcleared hgiven.2).setCloseRequested
    · exact hcleared hgiven.2

theorem handleLineEnd (h : Twins S R seen seen' c d) (byte : UInt8) (nowMs : UInt64) :
    TwinResults S R seen seen' (c.handleLineEnd lib application byte nowMs)
      (d.handleLineEnd lib application byte nowMs) := by
  obtain ⟨hok, hechoed⟩ := h.write hlib [13, 10]
  obtain ⟨hdone, hnext⟩ := hechoed.completeInputLine hlib happ nowMs
  unfold SshConnection.handleLineEnd
  dsimp only
  rw [hok, hdone]
  split_ifs
  · exact ⟨rfl, hechoed⟩
  · exact ⟨rfl, hnext⟩
  · exact ⟨rfl, hnext.update (fun c => { c with pendingCr := true }) fun _ _ _ => ⟨rfl, rfl⟩⟩
  · exact ⟨rfl, hnext⟩

omit happ in
theorem handleTypedByte (h : Twins S R seen seen' c d) (byte : UInt8) :
    TwinResults S R seen seen' (c.handleTypedByte lib byte) (d.handleTypedByte lib byte) := by
  obtain ⟨w, t, rfl⟩ := h.exists_eq
  unfold SshConnection.handleTypedByte
  dsimp only
  split_ifs
  · exact ⟨rfl, h.setCloseRequested⟩
  · refine ⟨rfl, h.update (·.handleEscape byte) fun c w t => ?_⟩
    unfold handleEscape
    split_ifs <;> exact ⟨rfl, rfl⟩
  · exact ⟨rfl, h.update (fun c => { c with escapeState := .escape }) fun _ _ _ => ⟨rfl, rfl⟩⟩
  · exact (h.update eraseCharacter fun _ _ _ => ⟨rfl, rfl⟩).write hlib _
  · exact ⟨rfl, h⟩
  · exact ⟨rfl, h⟩
  · exact ⟨rfl, ((h.audit _ _).tell hlib _).setCloseRequested⟩
  · exact (h.update
      (fun c => { c with line := c.line.set c.lineLength byte, lineLength := c.lineLength + 1 })
      fun _ _ _ => ⟨rfl, rfl⟩).write hlib _

theorem handleInputByte (h : Twins S R seen seen' c d) (byte : UInt8) (nowMs : UInt64) :
    TwinResults S R seen seen' (c.handleInputByte lib application byte nowMs)
      (d.handleInputByte lib application byte nowMs) := by
  have hready := h.update (fun c => { c with pendingCr := false }) fun _ _ _ => ⟨rfl, rfl⟩
  unfold SshConnection.handleInputByte
  rw [h.reads.2.2.2.1]
  split_ifs
  · exact ⟨rfl, hready⟩
  · exact hready.handleLineEnd hlib happ byte nowMs
  · exact hready.handleTypedByte hlib byte

theorem handleInput (h : Twins S R seen seen' c d) (nowMs : UInt64) (data : Bytes) :
    Twins S R seen seen' (c.handleInput lib application nowMs data)
      (d.handleInput lib application nowMs data) := by
  induction data generalizing c d with
  | nil => exact h
  | cons byte rest ih =>
    obtain ⟨hok, hnext⟩ := h.handleInputByte hlib happ byte nowMs
    unfold SshConnection.handleInput
    dsimp only
    rw [h.1.closeRequested, hok]
    split_ifs
    · exact h
    · exact hnext
    · exact ih hnext

theorem channelDataCallback (h : Twins S R seen seen' c d) (data : Bytes) (nowMs : UInt64) :
    Twins S R seen seen' (c.channelDataCallback lib application data false nowMs)
      (d.channelDataCallback lib application data false nowMs) := by
  obtain ⟨w, t, rfl⟩ := h.exists_eq
  unfold SshConnection.channelDataCallback
  dsimp only
  generalize rateConsume c.byteWindow data.length sshInputBytesPerWindow sshInputBytesWindowMs
    nowMs = answer
  have hcounted := h.update (fun c => { c with byteWindow := answer.2 }) fun _ _ _ => ⟨rfl, rfl⟩
  have hactive : Twins S R seen seen' { c with byteWindow := answer.2, lastActivityMs := nowMs }
      { c with byteWindow := answer.2, lastActivityMs := nowMs, wire := w } :=
    ⟨h.1, rfl⟩
  split_ifs
  · exact h
  · exact (h.audit _ _).setCloseRequested
  · exact (hcounted.audit _ _).setCloseRequested
  · exact hactive.handleInput hlib happ nowMs data

theorem receive (h : Twins S R seen seen' c d) (pieces : List (Bytes × UInt64)) :
    Twins S R seen seen' (c.receive lib application pieces) (d.receive lib application pieces) := by
  induction pieces generalizing c d with
  | nil => exact h
  | cons piece pieces ih => exact ih (h.channelDataCallback hlib happ piece.1 piece.2)

end Twins

end SshConnection

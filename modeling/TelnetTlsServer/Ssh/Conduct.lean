-- SUMMARY: What each function of the SSH adapter does to the outside: calls of store, policy and application, the channel, and closing.
import TelnetTlsServer.Ssh.Session

/-!
# Conduct of an SSH connection

`SshWire.Does made w w'` says what a function did between two states of the wire: it made
the calls `made` to store, policy and application and no others, in an order in which no
line follows the request to close, and there is a channel exactly if there was one. A
connection that reads typed bytes adds lines for its own application session.
-/

/-- A call of the store or the policy, or one of the application. -/
inductive OutwardCall where
  | backend (call : BackendCall)
  | application (call : ApplicationCall)
deriving DecidableEq, Repr

namespace Event

def outward? : Event → Option OutwardCall
  | backend call => some (.backend call)
  | application call => some (.application call)
  | write _ | audit .. | msspQuery | closeRequest => none

/-- Whether a close is requested after an event that may come: a line may not, once one is. -/
def sshAfter (closed : Bool) : Event → Option Bool
  | closeRequest => some true
  | application (.line ..) => if closed then none else some closed
  | application _ | write _ | audit .. | backend _ | msspQuery => some closed

/-- A close is requested exactly if the request is on record. -/
theorem foldlM_sshAfter {events : List Event} {closed closed' : Bool}
    (h : events.foldlM sshAfter closed = some closed') :
    closed' = true ↔ closed = true ∨ closeRequest ∈ events := by
  induction events generalizing closed with
  | nil => simp [← Option.some.inj h]
  | cons e rest ih =>
    rw [List.foldlM_cons] at h
    obtain ⟨mid, he, hrest⟩ := Option.bind_eq_some_iff.mp h
    rw [ih hrest]
    revert he
    fun_cases sshAfter closed e <;> simp_all

theorem no_line_of_closed {events : List Event} {closed : Bool}
    (h : events.foldlM sshAfter true = some closed) (session : Nat) (text : Bytes) :
    .application (.line session text) ∉ events := by
  intro hline
  obtain ⟨before, after, rfl⟩ := List.append_of_mem hline
  rw [List.foldlM_append] at h
  obtain ⟨mid, hbefore, h⟩ := Option.bind_eq_some_iff.mp h
  obtain rfl : mid = true := (foldlM_sshAfter hbefore).mpr (.inl rfl)
  cases h

theorem no_line_of_orderly {events before after : List Event} {closed : Bool}
    (h : events.foldlM sshAfter false = some closed)
    (hsplit : events = before ++ closeRequest :: after) (session : Nat) (text : Bytes) :
    .application (.line session text) ∉ after := by
  rw [hsplit, List.foldlM_append] at h
  obtain ⟨mid, -, h⟩ := Option.bind_eq_some_iff.mp h
  exact no_line_of_closed h session text

end Event

namespace SshWire

variable {χ α : Type}

/-- The calls to the outside so far. -/
def outward (w : SshWire χ α) : List OutwardCall := w.trace.filterMap Event.outward?

structure Does (made : List OutwardCall) (w w' : SshWire χ α) : Prop where
  events : ∃ events, w'.trace = w.trace ++ events ∧ events.filterMap Event.outward? = made ∧
    events.foldlM Event.sshAfter w.closeRequested = some w'.closeRequested
  channel : w'.channel.isSome = w.channel.isSome

namespace Does

variable {made made' : List OutwardCall} {w w' w'' : SshWire χ α} (lib : SshLibrary χ)

theorem calls (h : Does made w w') : w'.outward = w.outward ++ made := by
  obtain ⟨events, htrace, rfl, -⟩ := h.events
  rw [outward, htrace, List.filterMap_append, outward]

/-- Nothing of it shows. -/
theorem hidden (htrace : w'.trace = w.trace) (hclosed : w'.closeRequested = w.closeRequested)
    (hchannel : w'.channel.isSome = w.channel.isSome) : Does [] w w' where
  events := ⟨[], by rw [htrace, List.append_nil], rfl, by rw [hclosed]; rfl⟩
  channel := hchannel

theorem refl (w : SshWire χ α) : Does [] w w := hidden rfl rfl rfl

theorem trans (h : Does made w w') (h' : Does made' w' w'') : Does (made ++ made') w w'' where
  events := by
    obtain ⟨events, htrace, hmade, hclosed⟩ := h.events
    obtain ⟨later, htrace', hmade', hclosed'⟩ := h'.events
    refine ⟨events ++ later, by rw [htrace', htrace, List.append_assoc],
      by rw [List.filterMap_append, hmade, hmade'], ?_⟩
    rw [List.foldlM_append, hclosed]
    exact hclosed'
  channel := h'.channel.trans h.channel

/-- Nothing is called afterwards. -/
theorem andThen (h : Does made w w') (h' : Does [] w' w'') : Does made w w'' := by
  simpa using h.trans h'

theorem emit (w : SshWire χ α) {e : Event}
    (he : Event.sshAfter w.closeRequested e = some w.closeRequested) :
    Does e.outward?.toList w (w.emit e) where
  events := by
    refine ⟨[e], rfl, by cases h : e.outward? <;> simp [h], ?_⟩
    rw [List.foldlM_cons, he]
    rfl
  channel := rfl

theorem auditConnection (w : SshWire χ α) (event detail : String) :
    Does [] w (w.auditConnection event detail) :=
  emit w (e := .audit (ascii event) (ascii detail)) rfl

theorem setCloseRequested (w : SshWire χ α) : Does [] w w.setCloseRequested :=
  ⟨⟨[.closeRequest], rfl, rfl, rfl⟩, rfl⟩

theorem setApp (h : Does made w w') (app : α) : Does made w { w' with app := app } :=
  ⟨h.events, h.channel⟩

theorem channelWriteFrom {w : SshWire χ α} (hchannel : w.channel.isSome = true) (rounds : Nat)
    (channel : χ) (data : Bytes) : Does [] w (w.channelWriteFrom lib rounds channel data).2 := by
  induction rounds generalizing w channel data with
  | zero => cases data <;> exact hidden rfl rfl hchannel.symm
  | succ rounds ih =>
    cases data with
    | nil => exact hidden rfl rfl hchannel.symm
    | cons byte rest =>
      unfold SshWire.channelWriteFrom
      dsimp only
      split
      · have hfailed : Does [] w { w with
            channel := some (lib.channelWrite channel ((byte :: rest).take sshWriteChunkMax)).2,
            writeFailed := true } := hidden rfl rfl hchannel.symm
        exact hfailed.andThen (auditConnection _ _ _)
      · exact (emit w (e := .write _) rfl).trans (ih (w := w.emit _) hchannel _ _)

theorem channelWriteAll (w : SshWire χ α) (data : Bytes) :
    Does [] w (w.channelWriteAll lib data).2 := by
  unfold SshWire.channelWriteAll
  split
  · exact refl w
  case h_2 channel hchannel =>
    split
    · exact refl w
    · exact channelWriteFrom lib (by rw [hchannel]; rfl) _ _ _

theorem writeTerminalText (w : SshWire χ α) (text : Bytes) :
    Does [] w (w.writeTerminalText lib text).2 := by
  rw [SshWire.writeTerminalText, writeTerminalTextFrom_eq]
  generalize textChunks [] none text = chunks
  induction chunks generalizing w with
  | nil => exact refl w
  | cons chunk chunks ih =>
    have hchunk := channelWriteAll lib w chunk
    unfold writeChunks
    rcases hwrite : w.channelWriteAll lib chunk with ⟨_ | _, written⟩ <;> rw [hwrite] at hchunk
    · exact hchunk
    · exact hchunk.trans (ih written)

theorem output (w : SshWire χ α) (call : Wire.OutputCall) : Does [] w (w.output lib call).2 := by
  cases call with
  | writeText text | writePrompt text | writeLink uri text => exact writeTerminalText lib w text
  | requestClose message =>
    cases message with
    | none => exact setCloseRequested w
    | some text => exact (writeTerminalText lib w text).trans (setCloseRequested _)
  | sendGmcp => exact refl w

theorem runHook {ρ : Type} (w : SshWire χ α) (program : Wire.HookProgram ρ) :
    Does [] w (w.runHook lib program).2 := by
  induction program generalizing w with
  | ret result => exact refl w
  | call c next ih => exact (output lib w c).trans (ih _ _)

theorem callHook {ρ : Type} (w : SshWire χ α) {call : ApplicationCall}
    (hcall : Event.sshAfter w.closeRequested (.application call) = some w.closeRequested)
    (hook : α → Wire.HookProgram (ρ × α)) :
    Does [.application call] w (w.callHook lib call hook).2 :=
  ((emit w hcall).andThen (runHook lib _ (hook w.app))).setApp _

end Does

/-- No line follows the request to close. -/
def Orderly (w : SshWire χ α) : Prop :=
  w.trace.foldlM Event.sshAfter false = some w.closeRequested

theorem Orderly.does {made : List OutwardCall} {w w' : SshWire χ α} (hw : w.Orderly)
    (h : Does made w w') : w'.Orderly := by
  obtain ⟨events, htrace, -, hclosed⟩ := h.events
  rw [Orderly, htrace, List.foldlM_append, hw]
  exact hclosed

theorem closeRequested_channelWriteFrom (lib : SshLibrary χ) (w : SshWire χ α) (rounds : Nat)
    (channel : χ) (data : Bytes) :
    (w.channelWriteFrom lib rounds channel data).2.closeRequested = w.closeRequested := by
  induction rounds generalizing w channel data with
  | zero => cases data <;> rfl
  | succ rounds ih =>
    cases data with
    | nil => rfl
    | cons byte rest =>
      unfold channelWriteFrom
      dsimp only
      split
      · rfl
      · exact ih _ _ _

theorem closeRequested_channelWriteAll (lib : SshLibrary χ) (w : SshWire χ α) (data : Bytes) :
    (w.channelWriteAll lib data).2.closeRequested = w.closeRequested := by
  unfold channelWriteAll
  split
  · rfl
  · split
    · rfl
    · exact closeRequested_channelWriteFrom lib w _ _ _

end SshWire

/-! ## Typed bytes -/

/-- What an application may get as a line: within the bound, and no control among it. -/
structure CleanLine (line : Bytes) : Prop where
  short : line.length ≤ sshInputLineMax
  typable : ∀ byte ∈ line, 32 ≤ byte ∧ byte ≠ 127

namespace SshConnection

variable {χ α : Type} (lib : SshLibrary χ) (application : Application α)

/-- The line so far could be handed on. -/
structure Tidy (c : SshConnection χ α) : Prop where
  bound : c.lineLength ≤ sshInputLineMax
  typable : ∀ byte ∈ c.text, 32 ≤ byte ∧ byte ≠ 127

theorem Tidy.cleanLine {c : SshConnection χ α} (h : c.Tidy) : CleanLine c.text :=
  ⟨(List.length_take_le _ _).trans h.bound, h.typable⟩

/-- The calls that hand lines to an application session. -/
def lineCalls (session : Option Nat) (lines : List Bytes) : List OutwardCall :=
  match session with
  | some session => lines.map fun line => .application (.line session line)
  | none => []

theorem lineCalls_nil (session : Option Nat) : lineCalls session [] = [] := by
  cases session <;> rfl

theorem lineCalls_append (session : Option Nat) (lines lines' : List Bytes) :
    lineCalls session (lines ++ lines') = lineCalls session lines ++ lineCalls session lines' := by
  cases session with
  | none => rfl
  | some session => exact List.map_append

/-- What typed bytes do: `lines` go to the application session, if there is one with a
hook for them, and the line stays tidy. -/
structure Reads (lines : List Bytes) (c c' : SshConnection χ α) : Prop where
  wire : c.wire.Does (lineCalls c.applicationSession lines) c'.wire
  session : c'.applicationSession = c.applicationSession
  shell : c'.shellStarted = c.shellStarted
  hooked : lines ≠ [] → application.line.isSome = true ∧ c.applicationSession.isSome = true
  tidy : c.Tidy → c'.Tidy ∧ ∀ line ∈ lines, CleanLine line

namespace Reads

variable {application} {lines lines' : List Bytes} {c c' c'' : SshConnection χ α}

/-- Nothing is handed on. -/
theorem quiet (hwire : c.wire.Does [] c'.wire)
    (hsession : c'.applicationSession = c.applicationSession)
    (hshell : c'.shellStarted = c.shellStarted) (htidy : c.Tidy → c'.Tidy) :
    Reads application [] c c' where
  wire := by rw [lineCalls_nil]; exact hwire
  session := hsession
  shell := hshell
  hooked := fun h => absurd rfl h
  tidy h := ⟨htidy h, List.forall_mem_nil _⟩

theorem refl (c : SshConnection χ α) : Reads application [] c c :=
  quiet (.refl _) rfl rfl id

/-- What the data callback has for itself changes, apart from the line. -/
theorem keep (hwire : c'.wire = c.wire) (hsession : c'.applicationSession = c.applicationSession)
    (hshell : c'.shellStarted = c.shellStarted) (hline : c'.line = c.line)
    (hlength : c'.lineLength = c.lineLength) : Reads application [] c c' := by
  refine quiet (hwire ▸ .refl _) hsession hshell fun ht => ⟨hlength ▸ ht.bound, ?_⟩
  rw [text, hline, hlength]
  exact ht.typable

theorem trans (h : Reads application lines c c') (h' : Reads application lines' c' c'') :
    Reads application (lines ++ lines') c c'' where
  wire := by
    have hwire := h.wire.trans h'.wire
    rwa [h.session, ← lineCalls_append] at hwire
  session := h'.session.trans h.session
  shell := h'.shell.trans h.shell
  hooked hne := by
    by_cases hlines : lines = []
    · have hlater := h'.hooked (by simpa [hlines] using hne)
      rwa [h.session] at hlater
    · exact h.hooked hlines
  tidy htidy := by
    obtain ⟨hmid, hfirst⟩ := h.tidy htidy
    obtain ⟨hend, hsecond⟩ := h'.tidy hmid
    exact ⟨hend, List.forall_mem_append.mpr ⟨hfirst, hsecond⟩⟩

theorem andThen (h : Reads application lines c c') (h' : Reads application [] c' c'') :
    Reads application lines c c'' := by
  simpa using h.trans h'

/-- Only the wire changes, without a call. -/
theorem onWire (c : SshConnection χ α) {f : SshWire χ α → SshWire χ α}
    (h : c.wire.Does [] (f c.wire)) : Reads application [] c (c.onWire f) :=
  quiet h rfl rfl fun ht => ⟨ht.bound, ht.typable⟩

theorem write (c : SshConnection χ α) (data : Bytes) :
    Reads application [] c (c.write lib data).2 :=
  quiet (.channelWriteAll lib c.wire data) rfl rfl fun ht => ⟨ht.bound, ht.typable⟩

/-- A message and the request to close, after a line of the audit log. -/
theorem dismiss (c : SshConnection χ α) (event detail text : String) :
    Reads application [] c
      (((c.onWire (·.auditConnection event detail)).tell lib text).onWire .setCloseRequested) :=
  (onWire c (.auditConnection _ _ _)).trans
    ((onWire _ (.writeTerminalText lib _ _)).trans (onWire _ (.setCloseRequested _)))

end Reads

namespace Tidy

variable {c : SshConnection χ α}

theorem push (h : c.Tidy) (hroom : c.lineLength < sshInputLineMax) {byte : UInt8}
    (hcontrol : ¬ byte < 32) (herase : byte ≠ 127) :
    Tidy { c with line := c.line.set c.lineLength byte, lineLength := c.lineLength + 1 } where
  bound := hroom
  typable := by
    have hsize := c.line.size
    have htext : SshConnection.text
        { c with line := c.line.set c.lineLength byte, lineLength := c.lineLength + 1 } =
          c.text ++ [byte] := by
      simp only [SshConnection.text, Buffer.set]
      rw [List.take_add_one, List.take_set_of_le (Nat.le_refl _),
        List.getElem?_set_self (by rw [hsize]; exact hroom.trans (by decide))]
      rfl
    rw [htext]
    refine List.forall_mem_append.mpr ⟨h.typable, fun b hb => ?_⟩
    rw [List.mem_singleton.mp hb]
    exact ⟨UInt8.not_lt.mp hcontrol, herase⟩

theorem eraseCharacter (h : c.Tidy) : c.eraseCharacter.Tidy := by
  have hle := SshLine.previousStart_le c.line.bytes (c.lineLength - 1)
  refine ⟨(hle.trans (Nat.sub_le _ _)).trans h.bound, fun byte hbyte => h.typable byte ?_⟩
  rw [show c.eraseCharacter.text = _ from List.take_set_of_le (Nat.le_refl _)] at hbyte
  exact List.take_subset_take_left _ (hle.trans (Nat.sub_le _ _)) hbyte

end Tidy

namespace Reads

variable {application}

theorem handleTypedByte (c : SshConnection χ α) (byte : UInt8) :
    Reads application [] c (c.handleTypedByte lib byte).2 := by
  unfold SshConnection.handleTypedByte
  split_ifs with hend hescape hesc herase hlength hcontrol hlong
  · exact onWire c (.setCloseRequested _)
  · unfold handleEscape
    split_ifs <;> exact keep rfl rfl rfl rfl rfl
  · exact keep rfl rfl rfl rfl rfl
  · have herased : Reads application [] c c.eraseCharacter :=
      quiet (.refl _) rfl rfl Tidy.eraseCharacter
    exact herased.trans (write lib _ _)
  · exact refl c
  · exact refl c
  · exact dismiss lib c _ _ _
  · have hpushed : Reads application [] c
        { c with line := c.line.set c.lineLength byte, lineLength := c.lineLength + 1 } :=
      quiet (.refl _) rfl rfl fun ht =>
        ht.push (Nat.lt_of_not_le hlong) hcontrol fun hdel => herase (by simp [hdel])
    exact hpushed.trans (write lib _ _)

/-- The line is empty afterwards. -/
theorem cleared {lines : List Bytes} {c : SshConnection χ α} {wire : SshWire χ α}
    (window : RateWindow) (hwire : c.wire.Does (lineCalls c.applicationSession lines) wire)
    (hhooked : lines ≠ [] → application.line.isSome = true ∧ c.applicationSession.isSome = true)
    (hclean : c.Tidy → ∀ line ∈ lines, CleanLine line) :
    Reads application lines c
      { c with lineWindow := window, wire := wire, line := .zero 513, lineLength := 0 } where
  wire := hwire
  session := rfl
  shell := rfl
  hooked := hhooked
  tidy htidy := ⟨⟨Nat.zero_le _, List.forall_mem_nil _⟩, hclean htidy⟩

/-- The call at the end of a line, if there is somebody to call. -/
theorem delivered (application : Application α) (c : SshConnection χ α)
    (hopen : c.wire.closeRequested = false) :
    let called : Int × SshWire χ α :=
      match c.applicationSession, application.line with
      | some session, some hook => c.wire.callHook lib (.line session c.text) (hook session c.text)
      | _, _ => (0, c.wire)
    ∃ lines, c.wire.Does (lineCalls c.applicationSession lines) called.2 ∧
      (lines ≠ [] → application.line.isSome = true ∧ c.applicationSession.isSome = true) ∧
      (c.Tidy → ∀ line ∈ lines, CleanLine line) := by
  dsimp only
  split
  case h_1 session hook hsession hhook =>
    refine ⟨[c.text], ?_, fun _ => ⟨by rw [hhook]; rfl, by rw [hsession]; rfl⟩,
      fun htidy => List.forall_mem_singleton.mpr htidy.cleanLine⟩
    rw [hsession]
    exact .callHook lib c.wire (by rw [hopen]; rfl) _
  case h_2 =>
    refine ⟨[], ?_, absurd rfl, fun _ => List.forall_mem_nil _⟩
    rw [lineCalls_nil]
    exact .refl c.wire

/-- The line goes to the application, unless there are too many. -/
theorem completeInputLine (application : Application α) (c : SshConnection χ α)
    (hopen : c.wire.closeRequested = false) (nowMs : UInt64) :
    ∃ lines, Reads application lines c (c.completeInputLine lib application nowMs).2 := by
  unfold SshConnection.completeInputLine
  rcases rateConsume c.lineWindow 1 sshInputLinesPerWindow sshInputLinesWindowMs nowMs with
    ⟨accepted, window⟩
  dsimp only
  split
  · have hwindow : Reads application [] c { c with lineWindow := window } :=
      keep rfl rfl rfl rfl rfl
    exact ⟨[], hwindow.trans (dismiss lib _ _ _ _)⟩
  · obtain ⟨lines, hwire, hhooked, hclean⟩ := delivered lib application c hopen
    have hcleared := cleared window hwire hhooked hclean
    refine ⟨lines, ?_⟩
    rw [text_terminated { c with lineWindow := window }]
    split
    · exact hcleared.andThen (onWire _ (.setCloseRequested _))
    · exact hcleared

theorem handleLineEnd (application : Application α) (c : SshConnection χ α)
    (hopen : c.wire.closeRequested = false) (byte : UInt8) (nowMs : UInt64) :
    ∃ lines, Reads application lines c (c.handleLineEnd lib application byte nowMs).2 := by
  have hecho : Reads application [] c (c.write lib [13, 10]).2 := write lib c _
  have hstill : (c.write lib [13, 10]).2.wire.closeRequested = false :=
    (SshWire.closeRequested_channelWriteAll lib c.wire [13, 10]).trans hopen
  unfold SshConnection.handleLineEnd
  rcases hwrite : c.write lib [13, 10] with ⟨_ | _, written⟩ <;> rw [hwrite] at hecho hstill
  · exact ⟨[], hecho⟩
  · obtain ⟨lines, hline⟩ := completeInputLine lib application written hstill nowMs
    dsimp only
    rcases hcomplete : written.completeInputLine lib application nowMs with ⟨_ | _, completed⟩ <;>
      rw [hcomplete] at hline
    · exact ⟨lines, hecho.trans hline⟩
    · refine ⟨lines, (hecho.trans hline).andThen ?_⟩
      simp only [Bool.not_true, Bool.false_eq_true, if_false]
      split_ifs <;> exact keep rfl rfl rfl rfl rfl

theorem handleInputByte (application : Application α) (c : SshConnection χ α)
    (hopen : c.wire.closeRequested = false) (byte : UInt8) (nowMs : UInt64) :
    ∃ lines, Reads application lines c (c.handleInputByte lib application byte nowMs).2 := by
  have hpending : Reads application [] c { c with pendingCr := false } := keep rfl rfl rfl rfl rfl
  unfold SshConnection.handleInputByte
  dsimp only
  split_ifs
  · exact ⟨[], hpending⟩
  · obtain ⟨lines, hline⟩ := handleLineEnd lib application
      { c with pendingCr := false } hopen byte nowMs
    exact ⟨lines, hpending.trans hline⟩
  · exact ⟨[], hpending.trans (handleTypedByte lib _ byte)⟩

theorem handleInput (application : Application α) (c : SshConnection χ α)
    (nowMs : UInt64) (data : Bytes) :
    ∃ lines, Reads application lines c (c.handleInput lib application nowMs data) := by
  induction data generalizing c with
  | nil => exact ⟨[], refl c⟩
  | cons byte rest ih =>
    unfold SshConnection.handleInput
    split
    · exact ⟨[], refl c⟩
    case isFalse hopen =>
      obtain ⟨lines, hbyte⟩ := handleInputByte lib application c
        (Bool.not_eq_true _ ▸ hopen) byte nowMs
      rcases hnext : c.handleInputByte lib application byte nowMs with ⟨_ | _, next⟩ <;>
        rw [hnext] at hbyte
      · exact ⟨lines, hbyte⟩
      · obtain ⟨later, hrest⟩ := ih next
        exact ⟨lines ++ later, hbyte.trans hrest⟩

theorem channelDataCallback (application : Application α) (c : SshConnection χ α)
    (data : Bytes) (isStderr : Bool) (nowMs : UInt64) :
    ∃ lines, Reads application lines c
      (c.channelDataCallback lib application data isStderr nowMs) := by
  have hflood : ∀ c : SshConnection χ α, Reads application [] c
      ((c.onWire (·.auditConnection "ssh_input_flood" "byte rate limit exceeded")).onWire
        .setCloseRequested) :=
    fun c => (onWire c (.auditConnection _ _ _)).trans (onWire _ (.setCloseRequested _))
  unfold SshConnection.channelDataCallback
  rcases rateConsume c.byteWindow data.length sshInputBytesPerWindow sshInputBytesWindowMs nowMs
    with ⟨accepted, window⟩
  have hwindow : Reads application [] c { c with byteWindow := window } := keep rfl rfl rfl rfl rfl
  dsimp only
  split_ifs
  · exact ⟨[], refl c⟩
  · exact ⟨[], hflood c⟩
  · exact ⟨[], hwindow.trans (hflood _)⟩
  · have hactive : Reads application [] c
        { c with byteWindow := window, lastActivityMs := nowMs } := keep rfl rfl rfl rfl rfl
    obtain ⟨lines, hinput⟩ := handleInput lib application
      { c with byteWindow := window, lastActivityMs := nowMs } nowMs data
    exact ⟨lines, hactive.trans hinput⟩

end Reads

end SshConnection

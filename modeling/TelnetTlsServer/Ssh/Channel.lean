-- SUMMARY: The channel of the SSH adapter: what it writes, and the line editor behind its data callback.
import TelnetTlsServer.Session.Conduct
import TelnetTlsServer.Session.Login

/-!
# The SSH channel

The adapter has no terminal driver behind it. It echoes what is typed, edits the
line itself and hands complete lines to the application. Writes go through
`ssh_channel_write`, which may take a part of the bytes or fail; after a failure
nothing more is written.
-/

def sshInputLineMax : Nat := 512
def sshInputBytesPerWindow : Nat := 65536
def sshInputBytesWindowMs : UInt64 := 5000
def sshInputLinesPerWindow : Nat := 30
def sshInputLinesWindowMs : UInt64 := 10000
def sshWriteChunkMax : Nat := 16384

/-- What the channel needs of libssh: how many of the bytes `ssh_channel_write`
takes, none if it fails. -/
structure SshLibrary (χ : Type) where
  channelWrite : χ → Bytes → Nat × χ

/-- What the output functions change. The channel is there once the client has
opened it. -/
structure SshWire (χ α : Type) where
  channel : Option χ
  writeFailed : Bool
  closeRequested : Bool
  app : α
  trace : List Event

namespace SshWire

variable {χ α : Type}

def emit (w : SshWire χ α) (e : Event) : SshWire χ α := { w with trace := w.trace ++ [e] }

def auditConnection (w : SshWire χ α) (event detail : String) : SshWire χ α :=
  w.emit (.audit (ascii event) (ascii detail))

def setCloseRequested (w : SshWire χ α) : SshWire χ α :=
  { w.emit .closeRequest with closeRequested := true }

/-- The loop of `channel_write_all` over what is left, with a bound on its rounds;
every round takes a byte, so there are at most as many as bytes. -/
def channelWriteFrom (lib : SshLibrary χ) (w : SshWire χ α) : Nat → χ → Bytes → Bool × SshWire χ α
  | _, channel, [] => (true, { w with channel := some channel })
  | 0, channel, _ => (true, { w with channel := some channel })
  | rounds + 1, channel, data =>
      let chunk := data.take sshWriteChunkMax
      let (written, channel) := lib.channelWrite channel chunk
      if written = 0 then
        (false, { w with channel := some channel, writeFailed := true }.auditConnection
          "ssh_write_failure" "channel write failed")
      else
        channelWriteFrom lib (w.emit (.write (chunk.take written))) rounds channel
          (data.drop written)

/-- Whether all bytes were written. -/
def channelWriteAll (lib : SshLibrary χ) (w : SshWire χ α) (data : Bytes) : Bool × SshWire χ α :=
  match w.channel with
  | none => (false, w)
  | some channel =>
      if w.writeFailed then (false, w) else w.channelWriteFrom lib data.length channel data

/-- The loop of `write_terminal_text` with the run before the cursor and the byte
before it. -/
def writeTerminalTextFrom (lib : SshLibrary χ) (w : SshWire χ α) (run : Bytes)
    (previous : Option UInt8) : Bytes → Bool × SshWire χ α
  | [] => if run ≠ [] then w.channelWriteAll lib run else (true, w)
  | ch :: rest =>
      if ch = 10 ∧ previous ≠ some 13 then
        let (ok, w) := if run ≠ [] then w.channelWriteAll lib run else (true, w)
        if !ok then (false, w)
        else
          let (ok, w) := w.channelWriteAll lib [13, 10]
          if !ok then (false, w) else writeTerminalTextFrom lib w [] (some ch) rest
      else writeTerminalTextFrom lib w (run ++ [ch]) (some ch) rest

def writeTerminalText (lib : SshLibrary χ) (w : SshWire χ α) (text : Bytes) :
    Bool × SshWire χ α :=
  w.writeTerminalTextFrom lib [] none text

/-! ## Output for applications -/

def outputRequestClose (lib : SshLibrary χ) (w : SshWire χ α) (message : Option Bytes) :
    SshWire χ α :=
  let w := match message with
    | some text => (w.writeTerminalText lib text).2
    | none => w
  w.setCloseRequested

/-- GMCP is an option of Telnet, and links are written as their label. -/
def output (lib : SshLibrary χ) (w : SshWire χ α) : Wire.OutputCall → Int × SshWire χ α
  | .writeText text | .writePrompt text => (0, (w.writeTerminalText lib text).2)
  | .requestClose message => (0, w.outputRequestClose lib message)
  | .sendGmcp _ _ => (-1, w)
  | .writeLink _ label =>
      let (ok, w) := w.writeTerminalText lib label
      (if ok then 0 else -1, w)

def runHook {ρ : Type} (lib : SshLibrary χ) (w : SshWire χ α) :
    Wire.HookProgram ρ → ρ × SshWire χ α
  | .ret result => (result, w)
  | .call c next =>
      let (answer, w) := w.output lib c
      runHook lib w (next answer)

def callHook {ρ : Type} (lib : SshLibrary χ) (w : SshWire χ α) (call : ApplicationCall)
    (hook : α → Wire.HookProgram (ρ × α)) : ρ × SshWire χ α :=
  let w := w.emit (.application call)
  let ((result, app), w) := w.runHook lib (hook w.app)
  (result, { w with app := app })

/-- The calls the application has got so far. -/
def applicationCalls (w : SshWire χ α) : List ApplicationCall :=
  w.trace.filterMap Event.application?

end SshWire

/-! ## The line editor -/

/-- `escape_state`: 0, after ESC, and within a key sequence. -/
inductive EscapeState where
  | ground
  | escape
  | sequence
deriving DecidableEq, Repr

/-- The fields of `struct ssh_connection` that the data callback uses. -/
structure SshConnection (χ α : Type) where
  wire : SshWire χ α
  applicationSession : Option Nat
  line : Buffer 513
  lineLength : Nat
  pendingCr : Bool
  escapeState : EscapeState
  shellStarted : Bool
  lastActivityMs : UInt64
  byteWindow : RateWindow
  lineWindow : RateWindow

namespace SshConnection

variable {χ α : Type}

/-- The line so far, `line[0..line_length)`. -/
def text (c : SshConnection χ α) : Bytes := c.line.bytes.take c.lineLength

def onWire (c : SshConnection χ α) (f : SshWire χ α → SshWire χ α) : SshConnection χ α :=
  { c with wire := f c.wire }

/-- A write, with its success. -/
def write (lib : SshLibrary χ) (c : SshConnection χ α) (data : Bytes) : Bool × SshConnection χ α :=
  let (ok, wire) := c.wire.channelWriteAll lib data
  (ok, { c with wire := wire })

def tell (lib : SshLibrary χ) (c : SshConnection χ α) (text : String) : SshConnection χ α :=
  c.onWire fun w => (w.writeTerminalText lib (ascii text)).2

def completeInputLine (lib : SshLibrary χ) (application : Application α) (c : SshConnection χ α)
    (nowMs : UInt64) : Bool × SshConnection χ α :=
  let (accepted, window) :=
    rateConsume c.lineWindow 1 sshInputLinesPerWindow sshInputLinesWindowMs nowMs
  let c := { c with lineWindow := window }
  if !accepted then
    let c := c.onWire (·.auditConnection "ssh_line_flood" "line rate limit exceeded")
    (false, (c.tell lib "Input rate limit exceeded.\n").onWire .setCloseRequested)
  else
    let c := { c with line := c.line.set c.lineLength 0 }
    let (closeRequested, wire) : Int × SshWire χ α :=
      match c.applicationSession, application.line with
      | some session, some hook => c.wire.callHook lib (.line session c.text) (hook session c.text)
      | _, _ => (0, c.wire)
    let c := { c with wire := wire, line := Buffer.zero 513, lineLength := 0 }
    (true, if closeRequested ≠ 0 then c.onWire .setCloseRequested else c)

/-- Where the last character begins: back over continuation bytes, but not beyond
the start of the line. -/
def previousStart (line : Bytes) : Nat → Nat
  | 0 => 0
  | previous + 1 =>
      if isContinuation (line.getD (previous + 1) 0) then previousStart line previous
      else previous + 1

/-- Rub the last character out. -/
def eraseCharacter (c : SshConnection χ α) : SshConnection χ α :=
  let previous := previousStart c.line.bytes (c.lineLength - 1)
  { c with lineLength := previous, line := c.line.set previous 0 }

/-- The escape sequences of keys are dropped. -/
def handleEscape (c : SshConnection χ α) (byte : UInt8) : SshConnection χ α :=
  if c.escapeState = .escape then
    { c with escapeState := if byte = 91 || byte = 79 then .sequence else .ground }
  else if 0x40 ≤ byte && byte ≤ 0x7e then { c with escapeState := .ground }
  else c

/-- The end of a line: the new line is echoed before the application sees the text. -/
def handleLineEnd (lib : SshLibrary χ) (application : Application α) (c : SshConnection χ α)
    (byte : UInt8) (nowMs : UInt64) : Bool × SshConnection χ α :=
  let (ok, c) := c.write lib [13, 10]
  if !ok then (false, c)
  else
    let (ok, c) := c.completeInputLine lib application nowMs
    if !ok then (false, c)
    else (true, if byte = 13 then { c with pendingCr := true } else c)

/-- A byte that is neither the end of a line nor the LF after a CR. -/
def handleTypedByte (lib : SshLibrary χ) (c : SshConnection χ α) (byte : UInt8) :
    Bool × SshConnection χ α :=
  if byte = 4 then (true, c.onWire .setCloseRequested)
  else if c.escapeState ≠ .ground then (true, c.handleEscape byte)
  else if byte = 0x1b then (true, { c with escapeState := .escape })
  else if byte = 8 || byte = 127 then
    if c.lineLength > 0 then c.eraseCharacter.write lib [8, 32, 8] else (true, c)
  else if byte < 0x20 then (true, c)
  else if c.lineLength ≥ sshInputLineMax then
    let c := c.onWire (·.auditConnection "ssh_input_overflow"
      "application input line exceeded bound")
    (false, (c.tell lib "\r\nInput line is too long.\n").onWire .setCloseRequested)
  else
    { c with line := c.line.set c.lineLength byte, lineLength := c.lineLength + 1 }.write lib [byte]

def handleInputByte (lib : SshLibrary χ) (application : Application α) (c : SshConnection χ α)
    (byte : UInt8) (nowMs : UInt64) : Bool × SshConnection χ α :=
  if c.pendingCr && byte = 10 then (true, { c with pendingCr := false })
  else
    let c := { c with pendingCr := false }
    if byte = 13 || byte = 10 then c.handleLineEnd lib application byte nowMs
    else c.handleTypedByte lib byte

/-- The loop of the data callback. -/
def handleInput (lib : SshLibrary χ) (application : Application α) (nowMs : UInt64) :
    SshConnection χ α → Bytes → SshConnection χ α
  | c, [] => c
  | c, byte :: rest =>
      if c.wire.closeRequested then c
      else
        let (ok, c) := c.handleInputByte lib application byte nowMs
        if !ok then c else handleInput lib application nowMs c rest

/-- `nowMs` is the clock's answer, 0 if it failed. -/
def channelDataCallback (lib : SshLibrary χ) (application : Application α)
    (c : SshConnection χ α) (data : Bytes) (isStderr : Bool) (nowMs : UInt64) :
    SshConnection χ α :=
  if isStderr || !c.shellStarted || c.applicationSession.isNone then c
  else if nowMs = 0 then
    (c.onWire (·.auditConnection "ssh_input_flood" "byte rate limit exceeded")).onWire
      .setCloseRequested
  else
    let (accepted, window) := rateConsume c.byteWindow data.length sshInputBytesPerWindow
      sshInputBytesWindowMs nowMs
    let c := { c with byteWindow := window }
    if !accepted then
      (c.onWire (·.auditConnection "ssh_input_flood" "byte rate limit exceeded")).onWire
        .setCloseRequested
    else { c with lastActivityMs := nowMs }.handleInput lib application nowMs data

end SshConnection

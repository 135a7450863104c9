-- SUMMARY: Everything a Telnet session sends: the writer, quoting, frames, closing, GMCP and links, and the output an application may use.
import TelnetTlsServer.Session.Terminal
import TelnetTlsServer.Text.TerminalText

/-!
# Output

The output functions of `telnet_protocol.c` change three things of a session:
whether a close was requested, the state of the application, and the record of
calls to the outside. They read the terminal facts and change none of them, so
they take those as an argument and a `Wire` as their state.

An application hook is a program that calls the output functions it was given
and goes on with their answers. It can close the session and write to it, and it
can do nothing else to it.
-/

/-! ## Calls to the outside -/

/-- `player_password_token`. -/
abbrev PasswordToken := Buffer 256

/-- A call of the credential store or the security policy, with its answer. -/
inductive BackendCall where
  | exists_ (name : Bytes) (answer : Int)
  | verifyPassword (name password : Bytes) (answer : Int)
  | preparePassword (password : Bytes) (answer : Int) (token : PasswordToken)
  | passwordMatches (token : PasswordToken) (password : Bytes) (answer : Int)
  | create (name : Bytes) (token : PasswordToken) (answer : Int)
  | allowAuthAttempt (peer name : Bytes) (nowMs : UInt64) (allowed : Bool)
  | noteAuthFailure (peer name : Bytes) (nowMs : UInt64)
  | noteAuthSuccess (peer name : Bytes) (nowMs : UInt64)
  | allowAccountCreation (peer : Bytes) (nowMs : UInt64) (allowed : Bool)
deriving DecidableEq, Repr

inductive ApplicationCall where
  | open_ (name : Bytes) (capabilities : TerminalCapabilities)
  | line (session : Nat) (line : Bytes)
  | capabilitiesChanged (session : Nat) (capabilities : TerminalCapabilities)
  | gmcp (session : Nat) (packageName jsonPayload : Bytes)
  | poll (session : Nat)
  | close (session : Nat)
deriving DecidableEq, Repr

inductive Event where
  | write (data : Bytes)
  | audit (event detail : Bytes)
  | backend (call : BackendCall)
  | application (call : ApplicationCall)
  | msspQuery
  /-- `close_requested` is set over SSH, where no call goes with it. -/
  | closeRequest
deriving DecidableEq, Repr

/-- The calls an authentication decision rests on, and the one it guards. -/
inductive GatedCall where
  | backend (call : BackendCall)
  | open_ (name : Bytes)
deriving DecidableEq, Repr

def Event.gated? : Event → Option GatedCall
  | backend call => some (.backend call)
  | application (.open_ name _) => some (.open_ name)
  | _ => none

def Event.bytes : Event → Bytes
  | write data => data
  | _ => []

/-- What the output functions change: the close request, the application's state
and the record of calls. -/
structure Wire (α : Type) where
  closeRequested : Bool
  app : α
  trace : List Event

namespace Wire

variable {α : Type}

/-- All bytes handed to the writer so far. -/
def written (w : Wire α) : Bytes := w.trace.flatMap Event.bytes

def calls (w : Wire α) : List GatedCall := w.trace.filterMap Event.gated?

def emit (w : Wire α) (e : Event) : Wire α := { w with trace := w.trace ++ [e] }

/-! ## Writing -/

def audit (w : Wire α) (event : String) (detail : Bytes) : Wire α :=
  w.emit (.audit (ascii event) detail)

def writeRaw (w : Wire α) (data : Bytes) : Wire α :=
  if data ≠ [] ∧ !w.closeRequested then w.emit (.write data) else w

/-- The loop of `write_telnet_data` with the run `data[start..i)` before it. -/
def writeTelnetDataFrom (w : Wire α) (run : Bytes) : Bytes → Wire α
  | [] => if run ≠ [] then w.writeRaw run else w
  | b :: rest =>
      if b ≠ Telnet.iac then writeTelnetDataFrom w (run ++ [b]) rest
      else
        let w := if run ≠ [] then w.writeRaw run else w
        writeTelnetDataFrom (w.writeRaw [Telnet.iac, Telnet.iac]) [] rest

def writeTelnetData (w : Wire α) (data : Bytes) : Wire α := w.writeTelnetDataFrom [] data

def writeText (w : Wire α) (text : Bytes) : Wire α := w.writeTelnetData text

/-- The prompt marker both kinds of prompt end with. -/
def writeMarker (w : Wire α) (t : TelnetTerminalInfo) : Wire α :=
  if t.localEor then w.writeRaw [Telnet.iac, Telnet.eor]
  else if !t.localSuppressGoAhead then w.writeRaw [Telnet.iac, Telnet.ga]
  else w

def writePromptText (w : Wire α) (t : TelnetTerminalInfo) (text : Bytes) : Wire α :=
  (w.writeText text).writeMarker t

def writeUntrustedText (w : Wire α) (text : Bytes) : Wire α :=
  w.writeText (terminalTextSanitize text 256)

def writeTelnetOptionRaw (w : Wire α) (command option : UInt8) : Wire α :=
  w.writeRaw [Telnet.iac, command, option]

/-- One byte of a subnegotiation payload. -/
def writePayloadByte (w : Wire α) (b : UInt8) : Wire α :=
  if b = Telnet.iac then w.writeRaw [Telnet.iac, Telnet.iac] else w.writeRaw [b]

def sendSubnegotiation (w : Wire α) (option : UInt8) (payload : Bytes) : Wire α :=
  (payload.foldl writePayloadByte (w.writeRaw [Telnet.iac, Telnet.sb, option])).writeRaw
    [Telnet.iac, Telnet.se]

def setCloseRequested (w : Wire α) : Wire α := { w with closeRequested := true }

def requestClose (w : Wire α) (event : String) (message : Option Bytes) : Wire α :=
  if w.closeRequested then w
  else
    let w := match message with
      | some text => w.writeText text
      | none => w
    w.setCloseRequested.audit event (ascii "session close requested")

/-! ## Output for applications -/

def gmcpPackageMaxBytes : Nat := 96
def gmcpJsonMaxBytes : Nat := 3968
def subnegotiationMaxBytes : Nat := 4096

def gmcpPackageByteValid (ch : UInt8) : Bool :=
  let letter := (65 ≤ ch && ch ≤ 90) || (97 ≤ ch && ch ≤ 122)
  let digit := 48 ≤ ch && ch ≤ 57
  letter || digit || ch = 46 || ch = 95 || ch = 45

def gmcpPackageValid (packageName : Bytes) : Bool :=
  if packageName.length = 0 || packageName.length > gmcpPackageMaxBytes then false
  else packageName.all gmcpPackageByteValid

def gmcpPayload (packageName json : Bytes) : Bytes :=
  packageName ++ if json ≠ [] then 32 :: json else []

/-- The answer of `send_gmcp_message` and the wire after it. -/
def sendGmcpMessage (w : Wire α) (t : TelnetTerminalInfo) (packageName : Bytes)
    (jsonPayload : Option Bytes) : Int × Wire α :=
  let json := jsonPayload.getD []
  if !t.gmcp || !gmcpPackageValid packageName then (-1, w)
  else if json ≠ [] && (json.length > gmcpJsonMaxBytes || !terminalTextUtf8Valid json) then (-1, w)
  else if (gmcpPayload packageName json).length > subnegotiationMaxBytes then (-1, w)
  else (0, w.sendSubnegotiation Telnet.Opt.gmcp (gmcpPayload packageName json))

/-- The loop of `write_application_text` with the run before the cursor and the
byte before it. -/
def writeApplicationTextFrom (w : Wire α) (run : Bytes) (previous : Option UInt8) :
    Bytes → Wire α
  | [] => if run ≠ [] then w.writeTelnetData run else w
  | ch :: rest =>
      if ch = 10 ∧ previous ≠ some 13 then
        let w := if run ≠ [] then w.writeTelnetData run else w
        writeApplicationTextFrom (w.writeTelnetData [13, 10]) [] (some ch) rest
      else writeApplicationTextFrom w (run ++ [ch]) (some ch) rest

def writeApplicationText (w : Wire α) (text : Bytes) : Wire α :=
  w.writeApplicationTextFrom [] none text

def oscUriSafe (uri : Bytes) : Bool :=
  if uri = [] then false
  else if uri.length > 1024 || !terminalTextUtf8Valid uri then false
  else uri.all fun ch => !(ch < 0x20 || ch = 0x7f || ch = 0x1b)

/-- Whether a link can be sent as one: the client has OSC 8 and the scheme. -/
def linkAllowed (t : TelnetTerminalInfo) (uri : Option Bytes) : Option Bytes :=
  match uri with
  | none => none
  | some uri =>
      if !t.osc8 || !oscUriSafe uri || ((ascii "send:").isPrefixOf uri && !t.osc8Send) ||
          ((ascii "prompt:").isPrefixOf uri && !t.osc8Prompt) then none
      else some uri

def applicationWriteLink (w : Wire α) (t : TelnetTerminalInfo) (uri : Option Bytes)
    (label : Bytes) : Int × Wire α :=
  let safeLabel := terminalTextSanitize label 512
  match linkAllowed t uri with
  | none => (0, w.writeText safeLabel)
  | some uri =>
      let w := w.writeTelnetData [27, 93, 56, 59, 59]
      let w := w.writeTelnetData uri
      let w := w.writeTelnetData [27, 92]
      let w := w.writeText safeLabel
      (0, w.writeTelnetData [27, 93, 56, 59, 59, 27, 92])

/-- A call of one of the functions of `terminal_output`. -/
inductive OutputCall where
  | writeText (text : Bytes)
  | writePrompt (text : Bytes)
  | requestClose (message : Option Bytes)
  | sendGmcp (packageName : Bytes) (jsonPayload : Option Bytes)
  | writeLink (uri : Option Bytes) (label : Bytes)

def output (w : Wire α) (t : TelnetTerminalInfo) : OutputCall → Int × Wire α
  | .writeText text => (0, w.writeApplicationText text)
  | .writePrompt text => (0, (w.writeApplicationText text).writeMarker t)
  | .requestClose message => (0, w.requestClose "application_close" message)
  | .sendGmcp packageName jsonPayload => w.sendGmcpMessage t packageName jsonPayload
  | .writeLink uri label => w.applicationWriteLink t uri label

/-- A hook of the application: calls of output functions, then a result. -/
inductive HookProgram (ρ : Type) where
  | ret (result : ρ)
  | call (c : OutputCall) (next : Int → HookProgram ρ)

def runHook {ρ : Type} (w : Wire α) (t : TelnetTerminalInfo) : HookProgram ρ → ρ × Wire α
  | .ret result => (result, w)
  | .call c next =>
      let (answer, w) := w.output t c
      runHook w t (next answer)

/-- Call a hook: it starts from the application's state and leaves a new one. -/
def callHook {ρ : Type} (w : Wire α) (t : TelnetTerminalInfo) (call : ApplicationCall)
    (hook : α → HookProgram (ρ × α)) : ρ × Wire α :=
  let w := w.emit (.application call)
  let ((result, app), w) := w.runHook t (hook w.app)
  (result, { w with app := app })

/-! ## Every write is a list of chunks

The functions that only write hand a list of chunks to the writer, or nothing
once a close was requested. -/

/-- Hand the chunks to the writer, one call each. -/
def sends (w : Wire α) (chunks : List Bytes) : Wire α :=
  if w.closeRequested then w else { w with trace := w.trace ++ chunks.map Event.write }

@[simp] theorem closeRequested_sends (w : Wire α) (chunks : List Bytes) :
    (w.sends chunks).closeRequested = w.closeRequested := by
  unfold sends
  split <;> rfl

@[simp] theorem calls_sends (w : Wire α) (chunks : List Bytes) :
    (w.sends chunks).calls = w.calls := by
  have hnone : (chunks.map Event.write).filterMap Event.gated? = [] := by
    simp [List.filterMap_eq_nil_iff, Event.gated?]
  unfold sends calls
  split
  · rfl
  · simp [hnone]

@[simp] theorem sends_nil (w : Wire α) : w.sends [] = w := by
  unfold sends
  split <;> simp

@[simp] theorem sends_sends (w : Wire α) (a b : List Bytes) :
    (w.sends a).sends b = w.sends (a ++ b) := by
  by_cases hclosed : w.closeRequested <;> simp [sends, hclosed]

theorem written_sends {w : Wire α} (hopen : w.closeRequested = false) (chunks : List Bytes) :
    (w.sends chunks).written = w.written ++ chunks.flatten := by
  have hbytes : (chunks.map Event.write).flatMap Event.bytes = chunks.flatten := by
    rw [List.flatMap_map]
    exact List.flatMap_id
  simp [sends, hopen, written, hbytes]

/-- A run of data, which is left out when it is empty. -/
def runChunk (run : Bytes) : List Bytes := if run ≠ [] then [run] else []

theorem flatten_runChunk (run : Bytes) : (runChunk run).flatten = run := by
  by_cases h : run = [] <;> simp [runChunk, h]

def dataChunksFrom (run : Bytes) : Bytes → List Bytes
  | [] => runChunk run
  | b :: rest =>
      if b ≠ Telnet.iac then dataChunksFrom (run ++ [b]) rest
      else runChunk run ++ [[Telnet.iac, Telnet.iac]] ++ dataChunksFrom [] rest

def dataChunks (data : Bytes) : List Bytes := dataChunksFrom [] data

def markerChunks (t : TelnetTerminalInfo) : List Bytes :=
  if t.localEor then [[Telnet.iac, Telnet.eor]]
  else if !t.localSuppressGoAhead then [[Telnet.iac, Telnet.ga]]
  else []

def payloadChunk (b : UInt8) : Bytes := if b = Telnet.iac then [Telnet.iac, Telnet.iac] else [b]

def subnegotiationChunks (option : UInt8) (payload : Bytes) : List Bytes :=
  [[Telnet.iac, Telnet.sb, option]] ++ payload.map payloadChunk ++ [[Telnet.iac, Telnet.se]]

theorem writeRaw_eq_sends (w : Wire α) (data : Bytes) :
    w.writeRaw data = w.sends (runChunk data) := by
  by_cases hdata : data = []
  · simp [writeRaw, runChunk, hdata]
  · cases hclosed : w.closeRequested <;> simp [writeRaw, runChunk, hdata, sends, hclosed, emit]

theorem flush_eq_sends (w : Wire α) (run : Bytes) :
    (if run ≠ [] then w.writeRaw run else w) = w.sends (runChunk run) := by
  by_cases hrun : run = [] <;> simp [hrun, runChunk, writeRaw_eq_sends]

theorem writeTelnetDataFrom_eq_sends (w : Wire α) (run data : Bytes) :
    w.writeTelnetDataFrom run data = w.sends (dataChunksFrom run data) := by
  induction data generalizing w run with
  | nil => exact flush_eq_sends w run
  | cons b rest ih =>
    unfold writeTelnetDataFrom dataChunksFrom
    split
    case isTrue hb => exact ih w (run ++ [b])
    case isFalse hb =>
      rw [flush_eq_sends]
      simp [ih, writeRaw_eq_sends, runChunk]

@[simp] theorem writeTelnetData_eq_sends (w : Wire α) (data : Bytes) :
    w.writeTelnetData data = w.sends (dataChunks data) :=
  writeTelnetDataFrom_eq_sends w [] data

@[simp] theorem writeText_eq_sends (w : Wire α) (text : Bytes) :
    w.writeText text = w.sends (dataChunks text) :=
  writeTelnetData_eq_sends w text

@[simp] theorem writeMarker_eq_sends (w : Wire α) (t : TelnetTerminalInfo) :
    w.writeMarker t = w.sends (markerChunks t) := by
  unfold writeMarker markerChunks
  split
  · simp [writeRaw_eq_sends, runChunk]
  · split <;> simp [writeRaw_eq_sends, runChunk]

@[simp] theorem writePromptText_eq_sends (w : Wire α) (t : TelnetTerminalInfo) (text : Bytes) :
    w.writePromptText t text = w.sends (dataChunks text ++ markerChunks t) := by
  simp [writePromptText]

@[simp] theorem writeUntrustedText_eq_sends (w : Wire α) (text : Bytes) :
    w.writeUntrustedText text = w.sends (dataChunks (terminalTextSanitize text 256)) := by
  simp [writeUntrustedText]

@[simp] theorem writeTelnetOptionRaw_eq_sends (w : Wire α) (command option : UInt8) :
    w.writeTelnetOptionRaw command option = w.sends [[Telnet.iac, command, option]] := by
  simp [writeTelnetOptionRaw, writeRaw_eq_sends, runChunk]

theorem foldl_writePayloadByte (w : Wire α) (payload : Bytes) :
    payload.foldl writePayloadByte w = w.sends (payload.map payloadChunk) := by
  induction payload generalizing w with
  | nil => simp
  | cons b rest ih =>
    have hbyte : w.writePayloadByte b = w.sends [payloadChunk b] := by
      unfold writePayloadByte payloadChunk
      split <;> simp [writeRaw_eq_sends, runChunk]
    simp [ih, hbyte]

@[simp] theorem sendSubnegotiation_eq_sends (w : Wire α) (option : UInt8) (payload : Bytes) :
    w.sendSubnegotiation option payload = w.sends (subnegotiationChunks option payload) := by
  simp [sendSubnegotiation, foldl_writePayloadByte, writeRaw_eq_sends, runChunk,
    subnegotiationChunks]

/-! ## What closing leaves alone -/

@[simp] theorem closeRequested_requestClose (w : Wire α) (event : String)
    (message : Option Bytes) : (w.requestClose event message).closeRequested = true := by
  unfold requestClose
  split
  · assumption
  · rfl

@[simp] theorem calls_audit (w : Wire α) (event : String) (detail : Bytes) :
    (w.audit event detail).calls = w.calls := by
  simp [audit, emit, calls, Event.gated?]

@[simp] theorem closeRequested_audit (w : Wire α) (event : String) (detail : Bytes) :
    (w.audit event detail).closeRequested = w.closeRequested := rfl

@[simp] theorem calls_requestClose (w : Wire α) (event : String) (message : Option Bytes) :
    (w.requestClose event message).calls = w.calls := by
  have hset : ∀ w : Wire α, w.setCloseRequested.calls = w.calls := fun _ => rfl
  unfold requestClose
  split
  · rfl
  · cases message <;> simp [hset]

theorem calls_emit (w : Wire α) (e : Event) : (w.emit e).calls = w.calls ++ e.gated?.toList := by
  cases h : e.gated? <;> simp [emit, calls, h]

end Wire

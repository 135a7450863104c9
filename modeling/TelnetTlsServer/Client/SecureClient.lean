-- SUMMARY: The development client: its Telnet parser, what it answers, and what it writes to its terminal.
import TelnetTlsServer.Session.Capability

/-!
# The development client

`tools/secure_client.c` from the end of the TLS handshake on, and what it does to its
terminal from the start to its exit. The client parses what the server sends, answers
option commands and subnegotiations, and writes the rest to standard output, where a
partial UTF-8 character is kept until it is complete or interrupted.

A function that returns 0 or -1 in C returns whether it returned 0.
-/

inductive ClientParseState where
  | data
  | iac
  | option
  | sbOption
  | sbData
  | sbIac
deriving DecidableEq, Repr

/-- The attributes of a terminal: the flag `ECHO`, and all the others. -/
structure Termios where
  echo : Bool
  others : Nat
deriving DecidableEq, Repr

/-- What the client needs of TLS, of its terminal and of the environment. -/
structure ClientHost (σ : Type) where
  /-- How many of the bytes `SSL_write_ex` takes once it is no longer retried, none if it
  fails. -/
  sslWrite : σ → Bytes → Nat × σ
  /-- How many of the bytes `write` takes on standard output. -/
  terminalWrite : σ → Bytes → Nat × σ
  /-- The columns and rows of `TIOCGWINSZ`, if there is an answer. -/
  windowSize : σ → Option (UInt16 × UInt16) × σ
  isatty : σ → Bool
  /-- The attributes of the terminal, if they can be read. -/
  tcgetattr : σ → Option Termios
  /-- Whether the attributes could be set. -/
  tcsetattr : σ → Termios → Bool × σ
  /-- `getenv("TERM")`. -/
  term : Option Bytes

/-- Every write to standard output takes all of its bytes. -/
def ClientHost.TerminalWrites {σ : Type} (host : ClientHost σ) : Prop :=
  ∀ world data, (host.terminalWrite world data).1 = data.length

/-- What `prepare_terminal` has saved when it returns 0, if anything. There is room for one
more function at `atexit`. -/
def ClientHost.prepareTerminal {σ : Type} (host : ClientHost σ) (world : σ) :
    Option (Option Termios) :=
  if !host.isatty world then some none else (host.tcgetattr world).map some

/-- `struct client_state` with the static variables about the terminal. What has gone out
over TLS is kept as bytes, what has gone to standard output as one entry a write. -/
structure ClientState (σ : Type) where
  world : σ
  parser : ClientParseState
  command : UInt8
  subOption : UInt8
  subData : Bytes
  options : TelnetQ
  utf8Enabled : Bool
  charsetRequested : Bool
  ttypeRequestsReceived : UInt32
  writeFailed : Bool
  utf8Pending : Bytes
  utf8Expected : Nat
  /-- `saved_terminal`, if `terminal_saved`. -/
  savedTerminal : Option Termios
  localEchoEnabled : Bool
  sent : Bytes
  shown : List Bytes

namespace ClientState

def terminalTypeIs : UInt8 := 0
def terminalTypeSend : UInt8 := 1
def subDataMax : Nat := 256
def environPayloadMax : Nat := 192
def terminalNameMax : Nat := 40
def convertedMax : Nat := 8192

variable {σ : Type}

/-- The state `main` starts with. -/
def initial (world : σ) (savedTerminal : Option Termios) : ClientState σ where
  world := world
  parser := .data
  command := 0
  subOption := 0
  subData := []
  options := telnetQInit
  utf8Enabled := false
  charsetRequested := false
  ttypeRequestsReceived := 0
  writeFailed := false
  utf8Pending := []
  utf8Expected := 0
  savedTerminal := savedTerminal
  localEchoEnabled := true
  sent := []
  shown := []

def enabled (c : ClientState σ) (direction : TelnetQDirection) (option : UInt8) : Bool :=
  telnetQEnabled c.options direction option

/-- The next step after one that returned 0; any other result is returned at once. -/
def andThen (result : Bool × ClientState σ) (next : ClientState σ → Bool × ClientState σ) :
    Bool × ClientState σ :=
  if result.1 then next result.2 else result

/-! ## Calls of the host -/

/-- The loop of `tls_write_all` over what is left, with a bound on its rounds; every round
takes a byte, so there are at most as many as bytes. -/
def tlsWriteFrom (host : ClientHost σ) : Nat → ClientState σ → Bytes → Bool × ClientState σ
  | _, c, [] => (true, c)
  | 0, c, _ => (true, c)
  | rounds + 1, c, data =>
      let (written, world) := host.sslWrite c.world data
      if written = 0 then (false, { c with world := world })
      else
        tlsWriteFrom host rounds
          { c with world := world, sent := c.sent ++ data.take written } (data.drop written)

def tlsWriteAll (host : ClientHost σ) (c : ClientState σ) (data : Bytes) : Bool × ClientState σ :=
  tlsWriteFrom host data.length c data

/-- `write` to standard output, and whether it took all of the bytes. -/
def terminalWrite (host : ClientHost σ) (c : ClientState σ) (data : Bytes) :
    Bool × ClientState σ :=
  let (written, world) := host.terminalWrite c.world data
  (written = data.length, { c with world := world, shown := c.shown ++ [data.take written] })

def setLocalEcho (host : ClientHost σ) (c : ClientState σ) (enabled : Bool) : ClientState σ :=
  if c.savedTerminal.isNone || c.localEchoEnabled = enabled then c
  else
    match host.tcgetattr c.world with
    | none => c
    | some current =>
        let (set, world) := host.tcsetattr c.world { current with echo := enabled }
        let c := { c with world := world }
        if set then { c with localEchoEnabled := enabled } else c

def restoreTerminal (host : ClientHost σ) (c : ClientState σ) : ClientState σ :=
  match c.savedTerminal with
  | none => c
  | some saved => { c with world := (host.tcsetattr c.world saved).2 }

/-- The end of `main` as far as the terminal goes: its cleanup, then what was registered
with `atexit`. -/
def finish (host : ClientHost σ) (c : ClientState σ) : ClientState σ :=
  (c.setLocalEcho host true).restoreTerminal host

/-! ## What the client sends -/

def qSendCallback (host : ClientHost σ) (c : ClientState σ) (sent : OptionCommand) :
    ClientState σ :=
  let (ok, c) := c.tlsWriteAll host [Telnet.iac, sent.1, sent.2]
  if !ok then { c with writeFailed := true } else c

def qAcceptCallback : TelnetQDirection → UInt8 → Bool
  | .local_, option =>
      option ∈ [Telnet.Opt.binary, Telnet.Opt.suppressGoAhead, Telnet.Opt.naws,
        Telnet.Opt.terminalType, Telnet.Opt.charset, Telnet.Opt.newEnviron]
  | .remote, option =>
      option ∈ [Telnet.Opt.binary, Telnet.Opt.suppressGoAhead, Telnet.Opt.echo,
        Telnet.Opt.endOfRecord, Telnet.Opt.charset]

/-- The loop of `send_subnegotiation` over the payload. -/
def sendPayload (host : ClientHost σ) (c : ClientState σ) : Bytes → Bool × ClientState σ
  | [] => (true, c)
  | b :: rest =>
      andThen (c.tlsWriteAll host (if b = Telnet.iac then [Telnet.iac, Telnet.iac] else [b]))
        fun c => sendPayload host c rest

def sendSubnegotiation (host : ClientHost σ) (c : ClientState σ) (option : UInt8)
    (payload : Bytes) : Bool × ClientState σ :=
  andThen (c.tlsWriteAll host [Telnet.iac, Telnet.sb, option]) fun c =>
    andThen (c.sendPayload host payload) fun c => c.tlsWriteAll host [Telnet.iac, Telnet.se]

def sendWindowSize (host : ClientHost σ) (c : ClientState σ) : Bool × ClientState σ :=
  if !c.enabled .local_ Telnet.Opt.naws then (true, c)
  else
    let (size, world) := host.windowSize c.world
    let (columns, rows) := size.getD (0, 0)
    let width := if columns ≠ 0 then columns else 80
    let height := if rows ≠ 0 then rows else 24
    sendSubnegotiation host { c with world := world } Telnet.Opt.naws
      [(width >>> 8).toUInt8, (width &&& 0xff).toUInt8, (height >>> 8).toUInt8,
        (height &&& 0xff).toUInt8]

def asciiUpper (ch : UInt8) : UInt8 := if 97 ≤ ch ∧ ch ≤ 122 then ch - 32 else ch

def terminalTypeName (host : ClientHost σ) : Bytes :=
  let term := ((host.term.getD []).take terminalNameMax).takeWhile isPrintableAscii
  if term = [] then ascii "UNKNOWN" else term.map asciiUpper

def sendTerminalType (host : ClientHost σ) (c : ClientState σ) : Bool × ClientState σ :=
  let c := { c with ttypeRequestsReceived := c.ttypeRequestsReceived + 1 }
  let text :=
    if c.ttypeRequestsReceived = 1 then ascii "TELNET-CLIENT"
    else if c.ttypeRequestsReceived = 2 then terminalTypeName host
    else ascii "MTTS 4"
  c.sendSubnegotiation host Telnet.Opt.terminalType (terminalTypeIs :: text)

/-- `APPEND_BYTE` and `APPEND_TEXT`. -/
def appendWithin (payload piece : Bytes) : Option Bytes :=
  if piece.length > environPayloadMax - payload.length then none else some (payload ++ piece)

def environPieces (host : ClientHost σ) (c : ClientState σ) : List Bytes :=
  [[newEnvironIs],
    [newEnvironVar], ascii "CLIENT_NAME", [newEnvironVal], ascii "TELNET-CLIENT",
    [newEnvironVar], ascii "CLIENT_VERSION", [newEnvironVal], ascii "development",
    [newEnvironVar], ascii "CHARSET",
    [newEnvironVal], if c.utf8Enabled then ascii "UTF-8" else ascii "ASCII",
    [newEnvironVar], ascii "MTTS", [newEnvironVal], if c.utf8Enabled then ascii "4" else ascii "0",
    [newEnvironVar], ascii "TERMINAL_TYPE", [newEnvironVal], terminalTypeName host]

def sendNewEnviron (host : ClientHost σ) (c : ClientState σ) : Bool × ClientState σ :=
  match (c.environPieces host).foldlM appendWithin [] with
  | none => (false, c)
  | some payload => c.sendSubnegotiation host Telnet.Opt.newEnviron payload

/-- The loop of `charset_request_contains_utf8` over what is left of the payload. -/
def containsUtf8From : Bytes → Bool
  | [] => false
  | b :: rest =>
      if (b :: rest).length < 5 then false
      else if bytesEqualIgnoreCase ((b :: rest).take 5) (ascii "UTF-8") then true
      else containsUtf8From rest

def charsetRequestContainsUtf8 (payload : Bytes) : Bool :=
  if payload.length < 3 || payload.head? ≠ some charsetRequestCode then false
  else containsUtf8From (payload.drop 2)

def maybeRequestUtf8 (host : ClientHost σ) (c : ClientState σ) : Bool × ClientState σ :=
  if c.charsetRequested || !c.enabled .local_ Telnet.Opt.charset ||
      !c.enabled .local_ Telnet.Opt.binary || !c.enabled .remote Telnet.Opt.binary then
    (true, c)
  else
    sendSubnegotiation host { c with charsetRequested := true } Telnet.Opt.charset
      (charsetRequestCode :: ascii ";UTF-8")

/-- What is typed goes to the server with line feeds as CR LF and IAC doubled. -/
def sendTerminalInput (host : ClientHost σ) (c : ClientState σ) (input : Bytes) :
    Bool × ClientState σ :=
  if input.length > convertedMax / 2 then (false, c)
  else
    c.tlsWriteAll host (input.flatMap fun b =>
      if b = 10 then [13, 10] else if b = Telnet.iac then [Telnet.iac, Telnet.iac] else [b])

/-! ## What the client shows -/

def writeDisplayAscii (host : ClientHost σ) (c : ClientState σ) (byte : UInt8) :
    Bool × ClientState σ :=
  if (32 ≤ byte && byte ≤ 126) || byte = 13 || byte = 10 || byte = 9 then
    c.terminalWrite host [byte]
  else (true, c)

/-- `write_display_byte` with no character pending. -/
def writeDisplayStart (host : ClientHost σ) (c : ClientState σ) (byte : UInt8) :
    Bool × ClientState σ :=
  if byte < 0x80 then c.writeDisplayAscii host byte
  else if !c.utf8Enabled then c.terminalWrite host [63]
  else if 0xc2 ≤ byte && byte ≤ 0xdf then
    (true, { c with utf8Pending := [byte], utf8Expected := 2 })
  else if 0xe0 ≤ byte && byte ≤ 0xef then
    (true, { c with utf8Pending := [byte], utf8Expected := 3 })
  else if 0xf0 ≤ byte && byte ≤ 0xf4 then
    (true, { c with utf8Pending := [byte], utf8Expected := 4 })
  else c.terminalWrite host [63]

def clearPending (c : ClientState σ) : ClientState σ :=
  { c with utf8Pending := [], utf8Expected := 0 }

/-- The bytes of `safe` that are written for a pending sequence of the expected length.
The array is not initialised, but only what the sanitiser fills in is written. -/
def safeBytes (pending : Bytes) : Bytes :=
  if !terminalTextUtf8Valid pending then [63]
  else
    let (length, safe) := terminalTextSanitizeUtf8 (some pending) (Buffer.zero 16)
    safe.bytes.take length

def writeDisplayByte (host : ClientHost σ) (c : ClientState σ) (byte : UInt8) :
    Bool × ClientState σ :=
  if c.utf8Pending ≠ [] then
    if byte &&& 0xc0 ≠ 0x80 then
      -- The function calls itself, now with nothing pending.
      andThen (c.clearPending.terminalWrite host [63]) fun c => c.writeDisplayStart host byte
    else
      let c := { c with utf8Pending := c.utf8Pending ++ [byte] }
      if c.utf8Pending.length = c.utf8Expected then
        let safe := safeBytes c.utf8Pending
        andThen (if safe.length > 0 then c.terminalWrite host safe else (true, c)) fun c =>
          (true, c.clearPending)
      else (true, c)
  else c.writeDisplayStart host byte

/-! ## The parser -/

def handleSubnegotiation (host : ClientHost σ) (c : ClientState σ) : Bool × ClientState σ :=
  if c.subOption = Telnet.Opt.terminalType && c.subData = [terminalTypeSend] &&
      c.enabled .local_ Telnet.Opt.terminalType then
    c.sendTerminalType host
  else if c.subOption = Telnet.Opt.charset && c.subData.head? = some charsetRequestCode &&
      c.enabled .remote Telnet.Opt.charset then
    if charsetRequestContainsUtf8 c.subData then
      sendSubnegotiation host { c with utf8Enabled := true } Telnet.Opt.charset
        (charsetAcceptedCode :: ascii "UTF-8")
    else c.sendSubnegotiation host Telnet.Opt.charset [charsetRejectedCode]
  else if c.subOption = Telnet.Opt.charset then
    if c.subData.head? = some charsetAcceptedCode && c.subData.length = 6 &&
        bytesEqualIgnoreCase (c.subData.drop 1) (ascii "UTF-8") then
      (true, { c with utf8Enabled := true })
    else if c.subData.head? = some charsetRejectedCode then (true, { c with utf8Enabled := false })
    else (true, c)
  else if c.subOption = Telnet.Opt.newEnviron && c.subData.head? = some newEnvironSend &&
      c.enabled .local_ Telnet.Opt.newEnviron then
    c.sendNewEnviron host
  else (true, c)

/-- An option command is complete. -/
def receiveOption (host : ClientHost σ) (c : ClientState σ) (option : UInt8) :
    Bool × ClientState σ :=
  let echoBefore := c.enabled .remote Telnet.Opt.echo
  let nawsBefore := c.enabled .local_ Telnet.Opt.naws
  let (options, sent) := telnetQReceive c.options c.command option qAcceptCallback
  let c := sent.foldl (qSendCallback host) { c with options := options }
  if c.writeFailed then (false, c)
  else
    let echo := c.enabled .remote Telnet.Opt.echo
    let c := if echoBefore ≠ echo then c.setLocalEcho host (!echo) else c
    andThen (if !nawsBefore && c.enabled .local_ Telnet.Opt.naws then c.sendWindowSize host
      else (true, c)) fun c =>
        andThen (c.maybeRequestUtf8 host) fun c => (true, { c with parser := .data })

def pushSubData (c : ClientState σ) (byte : UInt8) : Bool × ClientState σ :=
  if c.subData.length ≥ subDataMax then (false, c)
  else (true, { c with subData := c.subData ++ [byte] })

def isOptionCommand (byte : UInt8) : Bool :=
  byte ∈ [Telnet.will, Telnet.wont, Telnet.do_, Telnet.dont]

/-- One round of the loop of `process_server_bytes`. -/
def processServerByte (host : ClientHost σ) (c : ClientState σ) (byte : UInt8) :
    Bool × ClientState σ :=
  match c.parser with
  | .data =>
      if byte = Telnet.iac then (true, { c with parser := .iac })
      else c.writeDisplayByte host byte
  | .iac =>
      if byte = Telnet.iac then
        andThen (c.writeDisplayByte host Telnet.iac) fun c => (true, { c with parser := .data })
      else if isOptionCommand byte then (true, { c with command := byte, parser := .option })
      else if byte = Telnet.sb then (true, { c with parser := .sbOption })
      else (true, { c with parser := .data })
  | .option => c.receiveOption host byte
  | .sbOption => (true, { c with subOption := byte, subData := [], parser := .sbData })
  | .sbData =>
      if byte = Telnet.iac then (true, { c with parser := .sbIac }) else c.pushSubData byte
  | .sbIac =>
      if byte = Telnet.se then
        andThen (c.handleSubnegotiation host) fun c =>
          (true, { c with subData := [], parser := .data })
      else if byte = Telnet.iac then
        andThen (c.pushSubData Telnet.iac) fun c => (true, { c with parser := .sbData })
      else (true, { c with parser := .sbData })

def processServerBytes (host : ClientHost σ) (c : ClientState σ) : Bytes → Bool × ClientState σ
  | [] => (true, c)
  | byte :: rest => andThen (c.processServerByte host byte) fun c => processServerBytes host c rest

/-! ## The loop of main -/

/-- What one round of the loop of `main` may have to deal with. -/
inductive Input where
  | windowChanged
  | received (data : Bytes)
  | typed (input : Bytes)
deriving DecidableEq, Repr

def handleInput (host : ClientHost σ) (c : ClientState σ) : Input → Bool × ClientState σ
  | .windowChanged => c.sendWindowSize host
  | .received data => c.processServerBytes host data
  | .typed input => c.sendTerminalInput host input

/-- The loop ends with the first failure or when there is no more input. -/
def run (host : ClientHost σ) (c : ClientState σ) : List Input → ClientState σ
  | [] => c.finish host
  | input :: rest =>
      let (ok, c) := c.handleInput host input
      if !ok then c.finish host else run host c rest

end ClientState

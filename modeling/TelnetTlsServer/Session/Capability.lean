-- SUMMARY: Option negotiation and capability discovery of a session: the handlers of option commands and of every subnegotiation.
import TelnetTlsServer.Negotiation.TelnetQ
import TelnetTlsServer.Session.Wire

/-!
# Capabilities

The part of `telnet_protocol.c` that negotiates options and learns what the
peer's terminal can do. Its functions change the capability fields of a session
and what the output functions change, and nothing else: they know neither the
typed line nor the login dialogue. Their state is a `Link`.
-/

def protocolViolationLimit : Nat := 8
def terminalTypeRequestLimit : Nat := 4
def pendingGmcpCoreMax : Nat := 4
def msspPayloadMaxBytes : Nat := 2048

/-- `struct pending_gmcp_core_message`. -/
structure PendingGmcpCoreMessage where
  packageName : Bytes
  jsonPayload : Bytes
deriving DecidableEq, Repr

structure TelnetMsspStatus where
  name : Bytes
  players : UInt32
  uptime : UInt64
  telnetPort : UInt16
  telnetTlsPort : UInt16
  codebase : Bytes
deriving DecidableEq, Repr

/-- `terminal_application_hooks` and the MSSP callback. Each may be missing. -/
structure Application (α : Type) where
  open_ : Option (Bytes → TerminalCapabilities → α → Wire.HookProgram (Option Nat × α))
  line : Option (Nat → Bytes → α → Wire.HookProgram (Int × α))
  capabilitiesChanged : Option (Nat → TerminalCapabilities → α → Wire.HookProgram (Unit × α))
  gmcp : Option (Nat → Bytes → Bytes → α → Wire.HookProgram (Unit × α))
  poll : Option (Nat → α → Wire.HookProgram (Int × α))
  close : Option (Nat → α → Wire.HookProgram (Unit × α))
  msspQuery : Option (α → TelnetMsspStatus × α)

/-- The capability fields of `struct telnet_session`. -/
structure Capability where
  options : TelnetQ
  echoDesired : Bool
  terminalTypeRequestsSent : Nat
  terminalTypeWaiting : Bool
  lastTerminalType : Bytes
  charsetRequestSent : Bool
  charsetUtf8 : Bool
  newEnvironRequested : Bool
  mnesObserved : Bool
  msspSent : Bool
  pendingGmcpCore : List PendingGmcpCoreMessage
  protocolViolations : Nat
  applicationSession : Option Nat
  terminal : TelnetTerminalInfo

def Capability.initial (transportSecure : Bool) : Capability where
  options := telnetQInit
  echoDesired := false
  terminalTypeRequestsSent := 0
  terminalTypeWaiting := false
  lastTerminalType := []
  charsetRequestSent := false
  charsetUtf8 := false
  newEnvironRequested := false
  mnesObserved := false
  msspSent := false
  pendingGmcpCore := []
  protocolViolations := 0
  applicationSession := none
  terminal := .initial transportSecure

/-- What the capability handlers change. -/
structure Link (α : Type) where
  caps : Capability
  wire : Wire α

/-! ## Text helpers -/

def bytesEqualIgnoreCase (bytes text : Bytes) : Bool :=
  bytes.length = text.length && (bytes.zip text).all fun (a, b) => asciiLower a = asciiLower b

theorem bytesEqualIgnoreCase_iff {a b : Bytes} :
    bytesEqualIgnoreCase a b = true ↔ a.map asciiLower = b.map asciiLower := by
  induction a generalizing b with
  | nil => cases b <;> simp [bytesEqualIgnoreCase]
  | cons x a ih =>
    cases b with
    | nil => simp [bytesEqualIgnoreCase]
    | cons y b =>
      simp only [bytesEqualIgnoreCase, Bool.and_eq_true, decide_eq_true_eq] at ih
      simp only [bytesEqualIgnoreCase, Bool.and_eq_true, decide_eq_true_eq, List.length_cons,
        List.zip_cons_cons, List.all_cons, List.map_cons, List.cons.injEq, ← ih,
        Nat.add_right_cancel_iff]
      tauto

def isPrintableAscii (b : UInt8) : Bool := 32 ≤ b && b ≤ 126

/-- Whether all of the input was copied, and the buffer, which a rejected input
can leave partly overwritten. -/
def copyPrintableAscii {n : Nat} (output : Buffer n) (input : Bytes) : Bool × Buffer n :=
  if input.length ≥ n then (false, output)
  else
    let copied := input.takeWhile isPrintableAscii
    if copied.length < input.length then (false, output.copy copied)
    else (true, output.copyString copied)

def parseDecimalFrom (parsed : UInt32) : Bytes → Option UInt32
  | [] => some parsed
  | b :: rest =>
      if b < 48 || b > 57 then none
      else
        let digit := (b - 48).toUInt32
        if parsed > (0xFFFFFFFF - digit) / 10 then none
        else parseDecimalFrom (parsed * 10 + digit) rest

def parseDecimalU32 (bytes : Bytes) : Option UInt32 :=
  if bytes = [] then none else parseDecimalFrom 0 bytes

/-! ## Terminal facts from reports -/

def mttsAnsi : UInt32 := 1
def mttsVt100 : UInt32 := 2
def mttsUtf8 : UInt32 := 4
def mtts256Colors : UInt32 := 8
def mttsScreenReader : UInt32 := 64
def mttsTruecolor : UInt32 := 256
def mttsMnes : UInt32 := 512

def applyMttsFlags (t : TelnetTerminalInfo) (flags : UInt32) : TelnetTerminalInfo :=
  { t with
    mttsFlags := flags
    ansi := flags &&& mttsAnsi ≠ 0
    vt100 := flags &&& mttsVt100 ≠ 0
    color256 := flags &&& mtts256Colors ≠ 0
    truecolor := flags &&& mttsTruecolor ≠ 0
    screenReader := flags &&& mttsScreenReader ≠ 0
    mnes := flags &&& mttsMnes ≠ 0 }

def clampDimension (value minimum maximum fallback : Nat) : Nat :=
  if value = 0 then fallback
  else if value < minimum then minimum
  else if value > maximum then maximum
  else value

/-- The text ends in `suffix`, ignoring case. -/
def endsIgnoreCase (text suffix : Bytes) : Bool :=
  text.length ≥ suffix.length &&
    asciiEqualIgnoreCase (text.drop (text.length - suffix.length)) suffix

def inferTerminalTypeCapabilities (t : TelnetTerminalInfo) (terminalType : Bytes) :
    TelnetTerminalInfo :=
  let t :=
    if asciiEqualIgnoreCase terminalType (ascii "ANSI") then { t with ansi := true }
    else if asciiEqualIgnoreCase terminalType (ascii "VT100") then
      { t with ansi := true, vt100 := true }
    else if asciiEqualIgnoreCase terminalType (ascii "XTERM") then
      { t with ansi := true, vt100 := true }
    else t
  let t := if endsIgnoreCase terminalType (ascii "-256COLOR") then { t with color256 := true } else t
  if endsIgnoreCase terminalType (ascii "-TRUECOLOR") then
    { t with color256 := true, truecolor := true }
  else t

namespace Capability

def enabled (c : Capability) (direction : TelnetQDirection) (option : UInt8) : Bool :=
  telnetQEnabled c.options direction option

def refreshUtf8Metadata (c : Capability) : Capability :=
  { c with terminal.utf8Enabled := c.charsetUtf8 || c.terminal.mttsFlags &&& mttsUtf8 ≠ 0 }

/-- The flags of an MTTS report, if the text is one. -/
def parseMttsReport (c : Capability) (bytes : Bytes) : Option Capability :=
  if bytes.length > 5 && bytesEqualIgnoreCase (bytes.take 5) (ascii "MTTS ") then
    (parseDecimalU32 (bytes.drop 5)).map fun flags =>
      { c with terminal := applyMttsFlags c.terminal flags }.refreshUtf8Metadata
  else none

def envValueEnabled (value : Bytes) : Bool :=
  value = [49] || bytesEqualIgnoreCase value (ascii "TRUE") ||
    bytesEqualIgnoreCase value (ascii "YES") || bytesEqualIgnoreCase value (ascii "ON")

end Capability

def newEnvironIs : UInt8 := 0
def newEnvironSend : UInt8 := 1
def newEnvironInfo : UInt8 := 2
def newEnvironVar : UInt8 := 0
def newEnvironVal : UInt8 := 1
def newEnvironEsc : UInt8 := 2
def newEnvironUservar : UInt8 := 3

namespace Capability

/-- The five names of the compact MNES vocabulary are known as VAR and as
USERVAR; seeing one as VAR is remembered. -/
def observeMnes (c : Capability) (token : UInt8) : Capability :=
  if token = newEnvironVar then { c with mnesObserved := true } else c

def applyNewEnvironValue (c : Capability) (token : UInt8) (name value : Bytes) : Capability :=
  if bytesEqualIgnoreCase name (ascii "CLIENT_NAME") then
    let c := c.observeMnes token
    { c with terminal.clientName := (copyPrintableAscii c.terminal.clientName value).2 }
  else if bytesEqualIgnoreCase name (ascii "CLIENT_VERSION") then
    let c := c.observeMnes token
    { c with terminal.clientVersion := (copyPrintableAscii c.terminal.clientVersion value).2 }
  else if bytesEqualIgnoreCase name (ascii "TERMINAL_TYPE") then
    let c := c.observeMnes token
    let (copied, buffer) := copyPrintableAscii c.terminal.terminalType value
    let c := { c with terminal.terminalType := buffer }
    if copied then { c with terminal := inferTerminalTypeCapabilities c.terminal buffer.string }
    else c
  else if bytesEqualIgnoreCase name (ascii "CHARSET") then
    let c := c.observeMnes token
    if bytesEqualIgnoreCase value (ascii "UTF-8") then
      { c with charsetUtf8 := true }.refreshUtf8Metadata
    else c
  else if bytesEqualIgnoreCase name (ascii "MTTS") then
    let c := c.observeMnes token
    match parseDecimalU32 value with
    | some flags => { c with terminal := applyMttsFlags c.terminal flags }.refreshUtf8Metadata
    | none => c
  else if token ≠ newEnvironUservar then c
  else if bytesEqualIgnoreCase name (ascii "SCREEN_READER") then
    { c with terminal.screenReader := envValueEnabled value }
  else if bytesEqualIgnoreCase name (ascii "OSC_HYPERLINKS") then
    { c with terminal.osc8 := envValueEnabled value }
  else if bytesEqualIgnoreCase name (ascii "OSC_HYPERLINKS_SEND") then
    { c with terminal.osc8Send := envValueEnabled value }
  else if bytesEqualIgnoreCase name (ascii "OSC_HYPERLINKS_PROMPT") then
    { c with terminal.osc8Prompt := envValueEnabled value }
  else if bytesEqualIgnoreCase name (ascii "OSC_HYPERLINKS_TOOLTIP") then
    { c with terminal.osc8Tooltip := envValueEnabled value }
  else c

end Capability

/-! ## Parsers of subnegotiation payloads -/

/-- The name loop of `handle_new_environ`: the name, whether a value follows and
the bytes after it, or nothing when the handler returns. -/
def environName (name : Bytes) : Bytes → Option (Bytes × Bool × Bytes)
  | [] => some (name, false, [])
  | b :: rest =>
      if b = newEnvironEsc then
        match rest with
        | [] => none
        | quoted :: rest => if name.length ≥ 64 then none else environName (name ++ [quoted]) rest
      else if b = newEnvironVal then some (name, true, rest)
      else if b = newEnvironVar || b = newEnvironUservar then some (name, false, b :: rest)
      else if name.length ≥ 64 then none
      else environName (name ++ [b]) rest

/-- The value loop. A second unescaped VAL is malformed. -/
def environValue (value : Bytes) : Bytes → Option (Bytes × Bytes)
  | [] => some (value, [])
  | b :: rest =>
      if b = newEnvironEsc then
        match rest with
        | [] => none
        | quoted :: rest =>
            if value.length ≥ 128 then none else environValue (value ++ [quoted]) rest
      else if b = newEnvironVar || b = newEnvironUservar then some (value, b :: rest)
      else if b = newEnvironVal || value.length ≥ 128 then none
      else environValue (value ++ [b]) rest

/-- The entries of a report, applied one by one, and whether the report was read
to its end. An entry takes at least its type byte, so the length of the report
bounds the rounds. -/
def environEntries : Nat → Bytes → Capability → Capability × Bool
  | _, [], c => (c, true)
  | 0, _, c => (c, false)
  | rounds + 1, token :: rest, c =>
      if token ≠ newEnvironVar && token ≠ newEnvironUservar then (c, false)
      else
        match environName [] rest with
        | none => (c, false)
        | some (name, hasValue, rest) =>
            match if hasValue then environValue [] rest else some ([], rest) with
            | none => (c, false)
            | some (value, rest) =>
                environEntries rounds rest
                  (if name ≠ [] then c.applyNewEnvironValue token name value else c)

/-- The list loop of `charset_list_contains_utf8` within one segment. -/
def charsetScan (separator : UInt8) (segment : Bytes) : Bytes → Bool
  | [] => segment ≠ [] && bytesEqualIgnoreCase segment (ascii "UTF-8")
  | b :: rest =>
      if b = separator then
        if segment ≠ [] && bytesEqualIgnoreCase segment (ascii "UTF-8") then true
        else charsetScan separator [] rest
      else if b < 32 || b > 126 then false
      else charsetScan separator (segment ++ [b]) rest

def charsetRequestCode : UInt8 := 1
def charsetAcceptedCode : UInt8 := 2
def charsetRejectedCode : UInt8 := 3

def charsetListContainsUtf8 (payload : Bytes) : Bool :=
  match payload with
  | kind :: separator :: list =>
      if payload.length < 3 || kind ≠ charsetRequestCode then false
      else if separator = Telnet.iac || separator < 32 then false
      else charsetScan separator [] list
  | _ => false

/-! ## MSSP -/

def decimal (n : Nat) : Bytes := ascii (toString n)

def msspValueByte (ch : UInt8) : Bool := !(ch = 0 || ch = 1 || ch = 2 || ch = Telnet.iac)

def msspAppendPair (payload name value : Bytes) : Option Bytes :=
  if name = [] || payload.length + 2 + name.length + value.length > msspPayloadMaxBytes then none
  else if !name.all (fun ch => (65 ≤ ch && ch ≤ 90) || ch = 32) then none
  else if !value.all msspValueByte then none
  else some (payload ++ 1 :: name ++ 2 :: value)

/-- The payload of a snapshot: nothing when a pair cannot be encoded, and then
whether that is reported. -/
def msspPayload (status : TelnetMsspStatus) : Except Bool Bytes :=
  let name := if status.name = [] then ascii "mud-terminal-core" else status.name
  let codebase := if status.codebase = [] then ascii "mud-terminal-core" else status.codebase
  let required := do
    let payload ← msspAppendPair [] (ascii "NAME") name
    let payload ← msspAppendPair payload (ascii "PLAYERS") (decimal status.players.toNat)
    let payload ← msspAppendPair payload (ascii "UPTIME") (decimal status.uptime.toNat)
    let payload ← msspAppendPair payload (ascii "CHARSET") (ascii "UTF-8")
    msspAppendPair payload (ascii "CODEBASE") codebase
  let optional := fun (payload : Bytes) => do
    let payload ←
      if status.telnetPort ≠ 0 then
        msspAppendPair payload (ascii "PORT") (decimal status.telnetPort.toNat)
      else some payload
    if status.telnetTlsPort ≠ 0 then
      msspAppendPair payload (ascii "SSL") (decimal status.telnetTlsPort.toNat)
    else some payload
  match required with
  | none => .error true
  | some payload =>
      match optional payload with
      | none => .error false
      | some payload => .ok payload

/-! ## Handlers -/

namespace Link

variable {α : Type}

def audit (l : Link α) (event : String) (detail : String) : Link α :=
  { l with wire := l.wire.audit event (ascii detail) }

def sendSubnegotiation (l : Link α) (option : UInt8) (payload : Bytes) : Link α :=
  { l with wire := l.wire.sendSubnegotiation option payload }

def requestClose (l : Link α) (event : String) (message : Option Bytes) : Link α :=
  { l with wire := l.wire.requestClose event message }

/-- Call a hook with the terminal facts as they are now. -/
def callHook {ρ : Type} (l : Link α) (call : ApplicationCall)
    (hook : α → Wire.HookProgram (ρ × α)) : ρ × Link α :=
  let (result, wire) := l.wire.callHook l.caps.terminal call hook
  (result, { l with wire := wire })

/-- The option state machine with `q_send_callback`. -/
def sendOptionCommands (l : Link α) (result : TelnetQ × List OptionCommand) : Link α where
  caps := { l.caps with options := result.1 }
  wire := result.2.foldl (fun w (command, option) => w.writeTelnetOptionRaw command option) l.wire

def qRequest (l : Link α) (direction : TelnetQDirection) (option : UInt8) (enable : Bool) :
    Link α :=
  l.sendOptionCommands (telnetQRequest l.caps.options direction option enable)

def noteProtocolViolation (l : Link α) (detail : String) : Link α :=
  let l := { l with caps.protocolViolations := l.caps.protocolViolations + 1 }
  let l := l.audit "telnet_protocol_violation" detail
  if l.caps.protocolViolations ≥ protocolViolationLimit then
    l.requestClose "telnet_protocol_abuse" (some (ascii "Protocol error.\r\n"))
  else l

def notifyApplicationCapabilities (hooks : Application α) (l : Link α) : Link α :=
  match l.caps.applicationSession, hooks.capabilitiesChanged with
  | some session, some hook =>
      let capabilities := copyTerminalCapabilities l.caps.terminal
      (l.callHook (.capabilitiesChanged session capabilities) (hook session capabilities)).2
  | _, _ => l

def requestTerminalType (l : Link α) : Link α :=
  if l.caps.terminalTypeWaiting ||
      l.caps.terminalTypeRequestsSent ≥ terminalTypeRequestLimit ||
      !l.caps.enabled .remote Telnet.Opt.terminalType then l
  else
    { l with
      caps.terminalTypeRequestsSent := l.caps.terminalTypeRequestsSent + 1
      caps.terminalTypeWaiting := true }.sendSubnegotiation Telnet.Opt.terminalType [1]

def requestCharset (l : Link α) : Link α :=
  if l.caps.charsetRequestSent || !l.caps.terminal.localBinary ||
      !l.caps.terminal.remoteBinary || !l.caps.enabled .local_ Telnet.Opt.charset then l
  else
    { l with caps.charsetRequestSent := true }.sendSubnegotiation Telnet.Opt.charset
      (charsetRequestCode :: ascii ";UTF-8")

def newEnvironRequest : Bytes :=
  let mnes := ["CLIENT_NAME", "CLIENT_VERSION", "CHARSET", "MTTS", "TERMINAL_TYPE"]
  let modern := ["SCREEN_READER", "OSC_HYPERLINKS", "OSC_HYPERLINKS_SEND",
    "OSC_HYPERLINKS_PROMPT", "OSC_HYPERLINKS_TOOLTIP"]
  newEnvironSend :: (mnes.flatMap fun name => newEnvironVar :: ascii name) ++
    (mnes ++ modern).flatMap fun name => newEnvironUservar :: ascii name

def requestNewEnviron (l : Link α) : Link α :=
  if l.caps.newEnvironRequested || !l.caps.enabled .remote Telnet.Opt.newEnviron then l
  else
    { l with caps.newEnvironRequested := true }.sendSubnegotiation Telnet.Opt.newEnviron
      newEnvironRequest

/-- The fields `update_option_metadata` copies from the option state. -/
def copyOptionMetadata (c : Capability) : Capability :=
  { c with
    terminal.localBinary := c.enabled .local_ Telnet.Opt.binary
    terminal.remoteBinary := c.enabled .remote Telnet.Opt.binary
    terminal.localSuppressGoAhead := c.enabled .local_ Telnet.Opt.suppressGoAhead
    terminal.remoteSuppressGoAhead := c.enabled .remote Telnet.Opt.suppressGoAhead
    terminal.localEor := c.enabled .local_ Telnet.Opt.endOfRecord
    terminal.newEnviron := c.enabled .remote Telnet.Opt.newEnviron
    terminal.mssp := c.enabled .local_ Telnet.Opt.mssp
    terminal.gmcp := c.enabled .local_ Telnet.Opt.gmcp
    terminal.mnes := c.terminal.mttsFlags &&& mttsMnes ≠ 0 || c.mnesObserved }

def updateOptionMetadata (hooks : Application α) (l : Link α) : Link α :=
  let l := { l with caps := (copyOptionMetadata l.caps).refreshUtf8Metadata }
  l.requestTerminalType.requestCharset.requestNewEnviron.notifyApplicationCapabilities hooks

def sendMsspStatus (hooks : Application α) (l : Link α) : Link α :=
  match hooks.msspQuery with
  | none => l
  | some query =>
      if l.caps.msspSent || !l.caps.enabled .local_ Telnet.Opt.mssp then l
      else
        let (status, app) := query l.wire.app
        let l := { l with wire := { l.wire with app := app }.emit .msspQuery }
        match msspPayload status with
        | .error true => l.audit "mssp_status_error" "unable to encode MSSP snapshot"
        | .error false => l
        | .ok payload =>
            { l with caps.msspSent := true }.sendSubnegotiation Telnet.Opt.mssp payload

end Link

namespace Link

variable {α : Type}

def handleNaws (l : Link α) (payload : Bytes) : Link α :=
  if !l.caps.enabled .remote Telnet.Opt.naws then l
  else
    match payload with
    | [w1, w0, h1, h0] =>
        { l with
          caps.terminal.width := clampDimension (w1.toNat * 256 + w0.toNat) minTerminalWidth
            maxTerminalWidth defaultTerminalWidth
          caps.terminal.height := clampDimension (h1.toNat * 256 + h0.toNat) minTerminalHeight
            maxTerminalHeight defaultTerminalHeight }
    | _ => l.noteProtocolViolation "malformed NAWS payload"

/-- The terminal facts a TERMINAL-TYPE report that is not an MTTS report gives:
the first one is the client's name and the fallback for its type. -/
def applyTerminalType (c : Capability) (reported : Bytes) : Capability :=
  if c.terminalTypeRequestsSent = 1 then
    let t := { c.terminal with
      clientName := c.terminal.clientName.copyString reported
      terminalType := c.terminal.terminalType.copyString reported }
    { c with terminal := inferTerminalTypeCapabilities t reported }
  else if c.terminalTypeRequestsSent = 2 then
    let t := { c.terminal with terminalType := c.terminal.terminalType.copyString reported }
    { c with terminal := inferTerminalTypeCapabilities t reported }
  else c

/-- The report of a TERMINAL-TYPE payload: too short, not printable, or a text. -/
def terminalTypeReport (payload : Bytes) : Except String Bytes :=
  match payload with
  | kind :: text =>
      if payload.length < 2 || kind ≠ 0 then .error "malformed terminal type payload"
      else
        let (copied, reported) := copyPrintableAscii (Buffer.zero (terminalTypeMax + 1)) text
        if text.length > terminalTypeMax || !copied then .error "invalid terminal type payload"
        else .ok (if reported.string = [] then ascii "UNKNOWN" else reported.string)
  | [] => .error "malformed terminal type payload"

def handleTerminalType (l : Link α) (payload : Bytes) : Link α :=
  if !l.caps.enabled .remote Telnet.Opt.terminalType then l
  else
    let l := { l with caps.terminalTypeWaiting := false }
    match terminalTypeReport payload with
    | .error detail => l.noteProtocolViolation detail
    | .ok reported =>
        let repeated := l.caps.lastTerminalType ≠ [] &&
          asciiEqualIgnoreCase l.caps.lastTerminalType reported
        let caps := (l.caps.parseMttsReport reported).getD (applyTerminalType l.caps reported)
        let l := { l with caps := { caps with lastTerminalType := reported } }
        -- A bare ANSI answer to the first probe ends the discovery.
        if l.caps.terminalTypeRequestsSent = 1 &&
            asciiEqualIgnoreCase reported (ascii "ANSI") then l
        else if !repeated then l.requestTerminalType
        else l

/-- UTF-8 has been agreed on. -/
def acceptUtf8 (l : Link α) : Link α :=
  { l with caps := { l.caps with charsetUtf8 := true }.refreshUtf8Metadata }.audit
    "telnet_charset" "UTF-8 accepted"

def handleCharset (l : Link α) (payload : Bytes) : Link α :=
  if !l.caps.enabled .remote Telnet.Opt.charset && !l.caps.enabled .local_ Telnet.Opt.charset then l
  else
    match payload with
    | [] => l.noteProtocolViolation "empty CHARSET payload"
    | kind :: rest =>
        if kind = charsetRequestCode then
          if !l.caps.enabled .remote Telnet.Opt.charset then l
          else if l.caps.terminal.localBinary && l.caps.terminal.remoteBinary &&
              charsetListContainsUtf8 payload then
            (l.sendSubnegotiation Telnet.Opt.charset
              (charsetAcceptedCode :: ascii "UTF-8")).acceptUtf8
          else l.sendSubnegotiation Telnet.Opt.charset [charsetRejectedCode]
        else if !l.caps.enabled .local_ Telnet.Opt.charset || !l.caps.charsetRequestSent then l
        else if kind = charsetAcceptedCode && payload.length = 6 &&
            bytesEqualIgnoreCase rest (ascii "UTF-8") then l.acceptUtf8
        else if kind = charsetRejectedCode then
          { l with caps := { l.caps with charsetUtf8 := false }.refreshUtf8Metadata }
        else l.noteProtocolViolation "malformed CHARSET response"

def handleNewEnviron (hooks : Application α) (l : Link α) (payload : Bytes) : Link α :=
  if !l.caps.enabled .remote Telnet.Opt.newEnviron then l
  else
    match payload with
    | [] => l
    | command :: report =>
        if command ≠ newEnvironIs && command ≠ newEnvironInfo then l
        else
          let (caps, complete) := environEntries report.length report l.caps
          let l := { l with caps := caps }
          if complete then l.updateOptionMetadata hooks else l

/-! ### GMCP -/

def gmcpPackageEqual (left right : Bytes) : Bool := asciiEqualIgnoreCase left right

def gmcpCoreHandshakePackage (packageName : Bytes) : Bool :=
  gmcpPackageEqual packageName (ascii "Core.Hello") ||
    gmcpPackageEqual packageName (ascii "Core.Supports.Set") ||
    gmcpPackageEqual packageName (ascii "Core.Supports.Add") ||
    gmcpPackageEqual packageName (ascii "Core.Supports.Remove")

def queuePreAuthGmcpCore (hooks : Application α) (l : Link α) (packageName jsonPayload : Bytes) :
    Link α :=
  if hooks.gmcp.isNone || !gmcpCoreHandshakePackage packageName then l
  else if l.caps.pendingGmcpCore.length ≥ pendingGmcpCoreMax then
    l.audit "gmcp_core_queue_full" "early Core handshake message dropped"
  else { l with caps.pendingGmcpCore := l.caps.pendingGmcpCore ++ [⟨packageName, jsonPayload⟩] }

def callGmcp (l : Link α) (session : Nat)
    (hook : Nat → Bytes → Bytes → α → Wire.HookProgram (Unit × α))
    (message : PendingGmcpCoreMessage) : Link α :=
  (l.callHook (.gmcp session message.packageName message.jsonPayload)
    (hook session message.packageName message.jsonPayload)).2

def replayPreAuthGmcpCore (hooks : Application α) (l : Link α) : Link α :=
  let l := match l.caps.applicationSession, hooks.gmcp with
    | some session, some hook =>
        l.caps.pendingGmcpCore.foldl (fun l message => callGmcp l session hook message) l
    | _, _ => l
  { l with caps.pendingGmcpCore := [] }

/-- The message of a GMCP payload, or the reason it is invalid. -/
def gmcpMessage (payload : Bytes) : Except String PendingGmcpCoreMessage :=
  let packageName := payload.takeWhile (· ≠ 32)
  let body := payload.drop packageName.length
  if packageName.length > Wire.gmcpPackageMaxBytes then .error "package name too long"
  else if !Wire.gmcpPackageValid (cString packageName) then .error "invalid package name"
  else
    let json := body.drop 1
    if json.length > Wire.gmcpJsonMaxBytes || !terminalTextUtf8Valid json then
      .error "invalid or oversized UTF-8 body"
    else .ok ⟨cString packageName, json⟩

def handleGmcp (hooks : Application α) (l : Link α) (payload : Bytes) : Link α :=
  if !l.caps.enabled .local_ Telnet.Opt.gmcp || payload = [] then l
  else
    match gmcpMessage payload with
    | .error detail => l.audit "gmcp_invalid_message" detail
    | .ok message =>
        let l :=
          if gmcpPackageEqual message.packageName (ascii "Core.Ping") then
            { l with
              wire := (l.wire.sendGmcpMessage l.caps.terminal (ascii "Core.Ping") none).2 }
          else l
        match l.caps.applicationSession, hooks.gmcp with
        | some session, some hook => l.callGmcp session hook message
        | _, _ => l.queuePreAuthGmcpCore hooks message.packageName message.jsonPayload

/-! ### Option commands -/

def qAccept (hooks : Application α) (c : Capability) (direction : TelnetQDirection)
    (option : UInt8) : Bool :=
  match direction with
  | .local_ =>
      if option = Telnet.Opt.mssp then hooks.msspQuery.isSome
      else if option = Telnet.Opt.echo then c.echoDesired
      else [Telnet.Opt.binary, Telnet.Opt.suppressGoAhead, Telnet.Opt.endOfRecord,
        Telnet.Opt.charset, Telnet.Opt.gmcp].contains option
  | .remote => [Telnet.Opt.binary, Telnet.Opt.suppressGoAhead, Telnet.Opt.terminalType,
      Telnet.Opt.naws, Telnet.Opt.newEnviron, Telnet.Opt.charset].contains option

/-- What is forgotten when an option that was on before goes off. -/
def resetDisabled (before : Capability) (c : Capability) : Capability :=
  let wentOff := fun direction option =>
    before.enabled direction option && !c.enabled direction option
  let c :=
    if wentOff .remote Telnet.Opt.terminalType then
      { c with
        terminalTypeRequestsSent := 0
        terminalTypeWaiting := false
        lastTerminalType := []
        terminal.terminalType := c.terminal.terminalType.copyString (ascii "UNKNOWN") }
    else c
  let c := if wentOff .local_ Telnet.Opt.charset then { c with charsetRequestSent := false } else c
  let c :=
    if wentOff .remote Telnet.Opt.newEnviron then
      { c with
        newEnvironRequested := false
        mnesObserved := false
        terminal.osc8 := false
        terminal.osc8Send := false
        terminal.osc8Prompt := false
        terminal.osc8Tooltip := false }
    else c
  let c := if wentOff .local_ Telnet.Opt.mssp then { c with msspSent := false } else c
  if !c.enabled .local_ Telnet.Opt.charset && !c.enabled .remote Telnet.Opt.charset then
    { c with charsetUtf8 := false }
  else c

def receiveTelnetOption (hooks : Application α) (l : Link α) (command option : UInt8) : Link α :=
  let before := l.caps
  let l := l.sendOptionCommands
    (telnetQReceive l.caps.options command option (qAccept hooks l.caps))
  let l := { l with caps := resetDisabled before l.caps }.updateOptionMetadata hooks
  if !before.enabled .local_ Telnet.Opt.mssp && l.caps.terminal.mssp then l.sendMsspStatus hooks
  else l

def finishSubnegotiation (hooks : Application α) (l : Link α) (option : UInt8)
    (payload : Bytes) : Link α :=
  if option = Telnet.Opt.naws then l.handleNaws payload
  else if option = Telnet.Opt.terminalType then l.handleTerminalType payload
  else if option = Telnet.Opt.charset then l.handleCharset payload
  else if option = Telnet.Opt.newEnviron then l.handleNewEnviron hooks payload
  else if option = Telnet.Opt.gmcp then l.handleGmcp hooks payload
  else l

def negotiateOperationalOptions (hooks : Application α) (l : Link α) : Link α :=
  let l := l.qRequest .local_ Telnet.Opt.binary true
  let l := l.qRequest .remote Telnet.Opt.binary true
  let l := l.qRequest .local_ Telnet.Opt.suppressGoAhead true
  let l := l.qRequest .remote Telnet.Opt.suppressGoAhead true
  let l := l.qRequest .local_ Telnet.Opt.endOfRecord true
  let l := l.qRequest .remote Telnet.Opt.naws true
  let l := l.qRequest .remote Telnet.Opt.terminalType true
  let l := l.qRequest .local_ Telnet.Opt.charset true
  let l := l.qRequest .remote Telnet.Opt.charset true
  let l := l.qRequest .remote Telnet.Opt.newEnviron true
  let l := if hooks.msspQuery.isSome then l.qRequest .local_ Telnet.Opt.mssp true else l
  l.qRequest .local_ Telnet.Opt.gmcp true

def passwordEchoOff (l : Link α) : Link α :=
  { l with caps.echoDesired := true }.qRequest .local_ Telnet.Opt.echo true

def passwordEchoOn (l : Link α) : Link α :=
  { l with caps.echoDesired := false }.qRequest .local_ Telnet.Opt.echo false

end Link

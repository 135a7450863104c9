-- SUMMARY: What a Telnet session knows about its peer's terminal, and the snapshot of it an application gets.
import TelnetTlsServer.Codes
import TelnetTlsServer.Lib.Buffer

/-!
# Terminal facts

`telnet_terminal_info` and `terminal_capabilities`. The three name fields are
buffers of 41 bytes: a rejected value can leave one partly overwritten.
-/

def terminalTypeMax : Nat := 40

def defaultTerminalWidth : Nat := 80
def defaultTerminalHeight : Nat := 24
def minTerminalWidth : Nat := 20
def maxTerminalWidth : Nat := 500
def minTerminalHeight : Nat := 5
def maxTerminalHeight : Nat := 200

/-- A name field, `char[TELNET_TERMINAL_TYPE_MAX + 1]`. -/
abbrev NameBuffer := Buffer (terminalTypeMax + 1)

structure TelnetTerminalInfo where
  width : Nat
  height : Nat
  localBinary : Bool
  remoteBinary : Bool
  localSuppressGoAhead : Bool
  remoteSuppressGoAhead : Bool
  localEor : Bool
  newEnviron : Bool
  utf8Enabled : Bool
  secureTransport : Bool
  mttsFlags : UInt32
  ansi : Bool
  vt100 : Bool
  color256 : Bool
  truecolor : Bool
  screenReader : Bool
  mnes : Bool
  mssp : Bool
  gmcp : Bool
  osc8 : Bool
  osc8Send : Bool
  osc8Prompt : Bool
  osc8Tooltip : Bool
  terminalType : NameBuffer
  clientName : NameBuffer
  clientVersion : NameBuffer
deriving DecidableEq, Repr

structure TerminalCapabilities where
  width : Nat
  height : Nat
  utf8 : Bool
  ansi : Bool
  color256 : Bool
  truecolor : Bool
  screenReader : Bool
  secureTransport : Bool
  gmcp : Bool
  osc8 : Bool
  osc8Send : Bool
  osc8Prompt : Bool
  osc8Tooltip : Bool
  terminalType : NameBuffer
  clientName : NameBuffer
  clientVersion : NameBuffer
deriving DecidableEq, Repr

def copyTerminalCapabilities (t : TelnetTerminalInfo) : TerminalCapabilities where
  width := t.width
  height := t.height
  utf8 := t.utf8Enabled
  ansi := t.ansi
  color256 := t.color256
  truecolor := t.truecolor
  screenReader := t.screenReader
  secureTransport := t.secureTransport
  gmcp := t.gmcp
  osc8 := t.osc8
  osc8Send := t.osc8Send
  osc8Prompt := t.osc8Prompt
  osc8Tooltip := t.osc8Tooltip
  terminalType := t.terminalType
  clientName := t.clientName
  clientVersion := t.clientVersion

/-- The zeroed record of `calloc` with the defaults of `telnet_session_create`. -/
def TelnetTerminalInfo.initial (transportSecure : Bool) : TelnetTerminalInfo where
  width := defaultTerminalWidth
  height := defaultTerminalHeight
  localBinary := false
  remoteBinary := false
  localSuppressGoAhead := false
  remoteSuppressGoAhead := false
  localEor := false
  newEnviron := false
  utf8Enabled := false
  secureTransport := transportSecure
  mttsFlags := 0
  ansi := false
  vt100 := false
  color256 := false
  truecolor := false
  screenReader := false
  mnes := false
  mssp := false
  gmcp := false
  osc8 := false
  osc8Send := false
  osc8Prompt := false
  osc8Tooltip := false
  terminalType := (Buffer.zero _).copyString (ascii "UNKNOWN")
  clientName := (Buffer.zero _).copyString (ascii "UNKNOWN")
  clientVersion := Buffer.zero _

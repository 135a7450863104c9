-- SUMMARY: What a session knows about its peer, and what a subnegotiation report makes of it when the application is not told.
import TelnetTlsServer.Session.Conduct

/-!
# Reports

The facts a session derives from negotiation hang together by `Known`: the
options, the terminal, whether UTF-8 was agreed on, and whether the peer has used
the MNES vocabulary. The handlers of NAWS, TERMINAL-TYPE and CHARSET change what is
known and do not tell the application, and the one of NEW-ENVIRON tells it
only of a report it has read to its end. `untold` is the terminal after such a
report, as a function of the payload and of what was known before. What a handler
sends and counts on the way is left out.
-/

structure Known where
  options : TelnetQ
  terminal : TelnetTerminalInfo
  charsetUtf8 : Bool
  mnesObserved : Bool

namespace Capability

def known (c : Capability) : Known := ⟨c.options, c.terminal, c.charsetUtf8, c.mnesObserved⟩

theorem options_of_known {c c' : Capability} (h : c'.known = c.known) : c'.options = c.options :=
  congrArg Known.options h

theorem enabled_of_known {c c' : Capability} (h : c'.known = c.known) : c'.enabled = c.enabled := by
  funext direction option
  simp only [enabled, options_of_known h]

theorem terminal_of_known {c c' : Capability} (h : c'.known = c.known) : c'.terminal = c.terminal :=
  congrArg Known.terminal h

theorem charsetUtf8_of_known {c c' : Capability} (h : c'.known = c.known) :
    c'.charsetUtf8 = c.charsetUtf8 :=
  congrArg Known.charsetUtf8 h

theorem mnesObserved_of_known {c c' : Capability} (h : c'.known = c.known) :
    c'.mnesObserved = c.mnesObserved :=
  congrArg Known.mnesObserved h

end Capability

namespace Capability

/-- The geometry of a NAWS report. -/
def untoldNaws (c : Capability) (payload : Bytes) : Option TelnetTerminalInfo :=
  if !c.enabled .remote Telnet.Opt.naws then none
  else
    match payload with
    | [w1, w0, h1, h0] => some { c.terminal with
        width := clampDimension (w1.toNat * 256 + w0.toNat) minTerminalWidth maxTerminalWidth
          defaultTerminalWidth
        height := clampDimension (h1.toNat * 256 + h0.toNat) minTerminalHeight maxTerminalHeight
          defaultTerminalHeight }
    | _ => none

/-- The type, name and colours of a TERMINAL-TYPE report, or the flags of an MTTS one. -/
def untoldTerminalType (c : Capability) (payload : Bytes) : Option TelnetTerminalInfo :=
  if !c.enabled .remote Telnet.Opt.terminalType then none
  else
    match Link.terminalTypeReport payload with
    | .error _ => none
    | .ok reported =>
        some ((c.parseMttsReport reported).getD (Link.applyTerminalType c reported)).terminal

/-- Whether a CHARSET message settles on UTF-8 or against it. -/
def charsetOutcome (c : Capability) (payload : Bytes) : Option Bool :=
  match payload with
  | [] => none
  | kind :: rest =>
      if kind = charsetRequestCode then
        if c.enabled .remote Telnet.Opt.charset && c.terminal.localBinary &&
          c.terminal.remoteBinary && charsetListContainsUtf8 payload then some true else none
      else if !c.enabled .local_ Telnet.Opt.charset || !c.charsetRequestSent then none
      else if kind = charsetAcceptedCode && payload.length = 6 &&
          bytesEqualIgnoreCase rest (ascii "UTF-8") then some true
      else if kind = charsetRejectedCode then some false
      else none

def untoldCharset (c : Capability) (payload : Bytes) : Option TelnetTerminalInfo :=
  (c.charsetOutcome payload).map fun utf8 =>
    ({ c with charsetUtf8 := utf8 }.refreshUtf8Metadata).terminal

/-- The entries of a NEW-ENVIRON report before the place where it is given up. -/
def untoldNewEnviron (c : Capability) (payload : Bytes) : Option TelnetTerminalInfo :=
  if !c.enabled .remote Telnet.Opt.newEnviron then none
  else
    match payload with
    | [] => none
    | command :: report =>
        if command ≠ newEnvironIs && command ≠ newEnvironInfo then none
        else
          let (caps, complete) := environEntries report.length report c
          if complete then none else some caps.terminal

def untold (c : Capability) (option : UInt8) (payload : Bytes) : Option TelnetTerminalInfo :=
  if option = Telnet.Opt.naws then c.untoldNaws payload
  else if option = Telnet.Opt.terminalType then c.untoldTerminalType payload
  else if option = Telnet.Opt.charset then c.untoldCharset payload
  else if option = Telnet.Opt.newEnviron then c.untoldNewEnviron payload
  else none

end Capability

namespace Link

variable {α : Type}

theorem known_noteProtocolViolation (l : Link α) (detail : String) :
    (l.noteProtocolViolation detail).caps.known = l.caps.known := by
  unfold noteProtocolViolation
  dsimp only
  split <;> rfl

theorem known_requestTerminalType (l : Link α) :
    l.requestTerminalType.caps.known = l.caps.known := by
  unfold requestTerminalType
  split <;> rfl

theorem known_handleNaws (l : Link α) (payload : Bytes) :
    (l.handleNaws payload).caps.known =
      { l.caps.known with terminal := (l.caps.untoldNaws payload).getD l.caps.terminal } := by
  unfold handleNaws Capability.untoldNaws
  split
  · rfl
  · match payload with
    | [w1, w0, h1, h0] => rfl
    | [] | [_] | [_, _] | [_, _, _] | _ :: _ :: _ :: _ :: _ :: _ =>
      exact known_noteProtocolViolation l _

/-- A report on the terminal changes the terminal only, and does not depend on whether one
was awaited. -/
theorem known_reported (c : Capability) (reported : Bytes) (waiting : Bool) :
    (({ c with terminalTypeWaiting := waiting }.parseMttsReport reported).getD
      (applyTerminalType { c with terminalTypeWaiting := waiting } reported)).known =
      { c.known with
        terminal := ((c.parseMttsReport reported).getD (applyTerminalType c reported)).terminal } := by
  have happlied : (applyTerminalType { c with terminalTypeWaiting := waiting } reported).known =
      { c.known with terminal := (applyTerminalType c reported).terminal } := by
    unfold applyTerminalType
    dsimp only
    split_ifs <;> rfl
  unfold Capability.parseMttsReport
  split
  · cases parseDecimalU32 (reported.drop 5) with
    | none => exact happlied
    | some flags => rfl
  · exact happlied

theorem known_handleTerminalType (l : Link α) (payload : Bytes) :
    (l.handleTerminalType payload).caps.known =
      { l.caps.known with terminal := (l.caps.untoldTerminalType payload).getD l.caps.terminal } := by
  unfold handleTerminalType Capability.untoldTerminalType
  split
  · rfl
  · dsimp only
    cases terminalTypeReport payload with
    | error detail => exact known_noteProtocolViolation _ detail
    | ok reported =>
      have hknown := known_reported l.caps reported false
      dsimp only
      split_ifs
      · exact hknown
      · exact (known_requestTerminalType _).trans hknown
      · exact hknown

theorem known_handleCharset (l : Link α) (payload : Bytes) :
    (l.handleCharset payload).caps.known =
      { l.caps.known with
        terminal := (l.caps.untoldCharset payload).getD l.caps.terminal
        charsetUtf8 := (l.caps.charsetOutcome payload).getD l.caps.charsetUtf8 } := by
  unfold handleCharset Capability.untoldCharset Capability.charsetOutcome
  cases payload with
  | nil =>
    dsimp only
    split
    · rfl
    · exact known_noteProtocolViolation l _
  | cons kind rest =>
    have hnoted := known_noteProtocolViolation l "malformed CHARSET response"
    simp only [Capability.known, Known.mk.injEq] at hnoted
    dsimp only
    split_ifs <;> simp_all [acceptUtf8, audit, sendSubnegotiation, Capability.known,
      Capability.refreshUtf8Metadata]

/-- A report that is read to its end is told to the application, and no other. -/
theorem handleNewEnviron_conduct (hooks : Application α) (l : Link α) (payload : Bytes) :
    (l.caps.untoldNewEnviron payload = none ∧
      Acts (notices hooks (l.handleNewEnviron hooks payload).caps) l
        (l.handleNewEnviron hooks payload)) ∨
    (l.Still (l.handleNewEnviron hooks payload) ∧
      (l.handleNewEnviron hooks payload).caps.terminal =
        (l.caps.untoldNewEnviron payload).getD l.caps.terminal) := by
  unfold handleNewEnviron Capability.untoldNewEnviron
  split
  · exact .inr ⟨(Serves.refl l).toActs, rfl⟩
  cases payload with
  | nil => exact .inr ⟨(Serves.refl l).toActs, rfl⟩
  | cons command report =>
    have hentries := Serves.ofCaps l
      (Capability.environEntries_learns report.length report l.caps)
    dsimp only
    split_ifs
    · exact .inr ⟨(Serves.refl l).toActs, rfl⟩
    · exact .inl ⟨rfl, (hentries.andThen (serves_updateOptionMetadata hooks _)).toActs⟩
    · exact .inr ⟨hentries.toActs, rfl⟩

/-- What a payload does if no GMCP message is in it: the application is told of
the terminal as it is in the end, or it is not, and then the terminal is as
`untold` says. -/
theorem finishSubnegotiation_conduct (hooks : Application α) (l : Link α) {option : UInt8}
    (hoption : option ≠ Telnet.Opt.gmcp) (payload : Bytes) :
    (l.caps.untold option payload = none ∧
      Acts (notices hooks (l.finishSubnegotiation hooks option payload).caps) l
        (l.finishSubnegotiation hooks option payload)) ∨
    (l.Still (l.finishSubnegotiation hooks option payload) ∧
      (l.finishSubnegotiation hooks option payload).caps.terminal =
        (l.caps.untold option payload).getD l.caps.terminal) := by
  unfold finishSubnegotiation Capability.untold
  split_ifs
  · exact .inr ⟨(noted_handleNaws l payload).still,
      congrArg Known.terminal (known_handleNaws l payload)⟩
  · exact .inr ⟨(noted_handleTerminalType l payload).still,
      congrArg Known.terminal (known_handleTerminalType l payload)⟩
  · exact .inr ⟨(noted_handleCharset l payload).still,
      congrArg Known.terminal (known_handleCharset l payload)⟩
  · exact handleNewEnviron_conduct hooks l payload
  · exact .inr ⟨(Serves.refl l).toActs, rfl⟩

end Link

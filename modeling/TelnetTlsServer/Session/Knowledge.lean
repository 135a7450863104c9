-- SUMMARY: What option commands, environment reports and GMCP messages make of what a session knows about its peer.
import TelnetTlsServer.Session.Probes
import TelnetTlsServer.Session.Reports

/-!
# What a session knows

An option command leaves a copy of the option sides and forgets what the options that
went off had brought. Each handler has one lemma that gives the knowledge it leaves as a
function of the payload and of the knowledge before.

A NEW-ENVIRON report is a list of entries, read up to the first place where it is
malformed and applied one by one.
-/

/-! ## NEW-ENVIRON reports -/

structure EnvironEntry where
  token : UInt8
  name : Bytes
  value : Bytes
deriving DecidableEq, Repr

/-- The entries of a report up to where it is given up, and whether that is its
end. An entry without a name is skipped. -/
def environReport : Nat → Bytes → List EnvironEntry × Bool
  | _, [] => ([], true)
  | 0, _ => ([], false)
  | rounds + 1, token :: rest =>
      if token ≠ newEnvironVar && token ≠ newEnvironUservar then ([], false)
      else
        match environName [] rest with
        | none => ([], false)
        | some (name, hasValue, rest) =>
            match if hasValue then environValue [] rest else some ([], rest) with
            | none => ([], false)
            | some (value, rest) =>
                let (entries, complete) := environReport rounds rest
                (if name ≠ [] then ⟨token, name, value⟩ :: entries else entries, complete)

namespace Capability

def applyEntry (c : Capability) (entry : EnvironEntry) : Capability :=
  c.applyNewEnvironValue entry.token entry.name entry.value

theorem environEntries_eq (rounds : Nat) (report : Bytes) (c : Capability) :
    environEntries rounds report c =
      ((environReport rounds report).1.foldl applyEntry c, (environReport rounds report).2) := by
  induction rounds generalizing report c with
  | zero => cases report <;> rfl
  | succ rounds ih =>
    cases report with
    | nil => rfl
    | cons token rest =>
      unfold environEntries environReport
      split
      · rfl
      rcases environName [] rest with _ | ⟨name, hasValue, rest⟩
      · rfl
      dsimp only
      rcases (if hasValue = true then environValue [] rest else some ([], rest)) with
        _ | ⟨value, rest⟩
      · rfl
      dsimp only
      rw [ih]
      split <;> rfl

end Capability

/-! ## Handlers -/

namespace Link

variable {α : Type}

theorem known_requestCharset (l : Link α) : l.requestCharset.caps.known = l.caps.known := by
  unfold requestCharset
  split <;> rfl

theorem known_requestNewEnviron (l : Link α) : l.requestNewEnviron.caps.known = l.caps.known := by
  unfold requestNewEnviron
  split <;> rfl

theorem caps_notifyApplicationCapabilities (hooks : Application α) (l : Link α) :
    (l.notifyApplicationCapabilities hooks).caps = l.caps := by
  unfold notifyApplicationCapabilities
  split <;> rfl

/-- The copied option sides and the two facts that depend on more than one report. -/
theorem known_updateOptionMetadata (hooks : Application α) (l : Link α) :
    (l.updateOptionMetadata hooks).caps.known =
      (copyOptionMetadata l.caps).refreshUtf8Metadata.known := by
  unfold updateOptionMetadata
  rw [caps_notifyApplicationCapabilities, known_requestNewEnviron, known_requestCharset,
    known_requestTerminalType]

theorem known_sendMsspStatus (hooks : Application α) (l : Link α) :
    (l.sendMsspStatus hooks).caps.known = l.caps.known := by
  unfold sendMsspStatus
  split
  · rfl
  · split
    · rfl
    · dsimp only
      split <;> rfl

/-- The option side was on and is off. -/
def wentOff (before c : Capability) (direction : TelnetQDirection) (option : UInt8) : Bool :=
  before.enabled direction option && !c.enabled direction option

/-- Each field that `reset_disabled` touches, by the option it belongs to. -/
theorem resetDisabled_eq (before c : Capability) : resetDisabled before c = { c with
    terminalTypeRequestsSent :=
      if wentOff before c .remote Telnet.Opt.terminalType then 0 else c.terminalTypeRequestsSent
    terminalTypeWaiting :=
      if wentOff before c .remote Telnet.Opt.terminalType then false else c.terminalTypeWaiting
    lastTerminalType :=
      if wentOff before c .remote Telnet.Opt.terminalType then [] else c.lastTerminalType
    charsetRequestSent :=
      if wentOff before c .local_ Telnet.Opt.charset then false else c.charsetRequestSent
    charsetUtf8 :=
      if !c.enabled .local_ Telnet.Opt.charset && !c.enabled .remote Telnet.Opt.charset then false
      else c.charsetUtf8
    newEnvironRequested :=
      if wentOff before c .remote Telnet.Opt.newEnviron then false else c.newEnvironRequested
    mnesObserved :=
      if wentOff before c .remote Telnet.Opt.newEnviron then false else c.mnesObserved
    msspSent := if wentOff before c .local_ Telnet.Opt.mssp then false else c.msspSent
    terminal := { c.terminal with
      terminalType := if wentOff before c .remote Telnet.Opt.terminalType then
        c.terminal.terminalType.copyString (ascii "UNKNOWN") else c.terminal.terminalType
      osc8 := !wentOff before c .remote Telnet.Opt.newEnviron && c.terminal.osc8
      osc8Send := !wentOff before c .remote Telnet.Opt.newEnviron && c.terminal.osc8Send
      osc8Prompt := !wentOff before c .remote Telnet.Opt.newEnviron && c.terminal.osc8Prompt
      osc8Tooltip := !wentOff before c .remote Telnet.Opt.newEnviron && c.terminal.osc8Tooltip } } := by
  have hlast : ∀ (m : Capability) (b : Bool), (if b then { m with charsetUtf8 := false } else m) =
      { m with charsetUtf8 := if b then false else m.charsetUtf8 } := by
    intro m b
    cases b <;> rfl
  unfold resetDisabled wentOff
  dsimp only
  by_cases htype : (before.enabled .remote Telnet.Opt.terminalType &&
    !c.enabled .remote Telnet.Opt.terminalType) = true <;>
  by_cases hcharset : (before.enabled .local_ Telnet.Opt.charset &&
    !c.enabled .local_ Telnet.Opt.charset) = true <;>
  by_cases henviron : (before.enabled .remote Telnet.Opt.newEnviron &&
    !c.enabled .remote Telnet.Opt.newEnviron) = true <;>
  by_cases hmssp : (before.enabled .local_ Telnet.Opt.mssp &&
    !c.enabled .local_ Telnet.Opt.mssp) = true <;>
  simp only [htype, hcharset, henviron, hmssp, if_true] <;> exact hlast _ _

/-- The options after a command, with what is forgotten at once. -/
def heard (hooks : Application α) (c : Capability) (command option : UInt8) : Capability :=
  resetDisabled c
    { c with options := (telnetQReceive c.options command option (qAccept hooks c)).1 }

theorem known_receiveTelnetOption (hooks : Application α) (l : Link α) (command option : UInt8) :
    (l.receiveTelnetOption hooks command option).caps.known =
      (copyOptionMetadata (heard hooks l.caps command option)).refreshUtf8Metadata.known := by
  have hupdated := known_updateOptionMetadata hooks { l.sendOptionCommands
    (telnetQReceive l.caps.options command option (qAccept hooks l.caps)) with
      caps := heard hooks l.caps command option }
  unfold receiveTelnetOption
  dsimp only
  split
  · rw [known_sendMsspStatus]
    exact hupdated
  · exact hupdated

/-! ## Subnegotiations -/

/-- The entries of a NEW-ENVIRON payload that is looked at. -/
def environPayload (c : Capability) (payload : Bytes) : Option (List EnvironEntry × Bool) :=
  if !c.enabled .remote Telnet.Opt.newEnviron then none
  else
    match payload with
    | [] => none
    | command :: report =>
        if command ≠ newEnvironIs && command ≠ newEnvironInfo then none
        else some (environReport report.length report)

theorem enabled_of_environPayload {c : Capability} {payload : Bytes}
    {report : List EnvironEntry × Bool} (h : environPayload c payload = some report) :
    c.enabled .remote Telnet.Opt.newEnviron = true := by
  unfold environPayload at h
  split at h
  case isTrue => cases h
  case isFalse hon => simpa using hon

/-- The knowledge after a NEW-ENVIRON payload: the entries are applied, and a
report that was read to its end is followed by the refresh. -/
def environed (c : Capability) (payload : Bytes) : Capability :=
  match environPayload c payload with
  | none => c
  | some (entries, true) => (copyOptionMetadata (entries.foldl .applyEntry c)).refreshUtf8Metadata
  | some (entries, false) => entries.foldl .applyEntry c

theorem known_handleNewEnviron (hooks : Application α) (l : Link α) (payload : Bytes) :
    (l.handleNewEnviron hooks payload).caps.known = (environed l.caps payload).known := by
  unfold handleNewEnviron environed environPayload
  split
  · rfl
  cases payload with
  | nil => rfl
  | cons command report =>
    dsimp only
    split
    · rfl
    · rw [Capability.environEntries_eq]
      rcases environReport report.length report with ⟨entries, _ | _⟩
      · rfl
      · exact known_updateOptionMetadata hooks _

theorem caps_handleGmcp (hooks : Application α) (l : Link α) (payload : Bytes) :
    (l.handleGmcp hooks payload).caps.known = l.caps.known ∧
      (l.handleGmcp hooks payload).caps.findings = l.caps.findings := by
  have hqueue : ∀ (m : Link α) (packageName json : Bytes),
      (m.queuePreAuthGmcpCore hooks packageName json).caps.known = m.caps.known ∧
        (m.queuePreAuthGmcpCore hooks packageName json).caps.findings = m.caps.findings := by
    intro m packageName json
    unfold queuePreAuthGmcpCore
    split_ifs <;> exact ⟨rfl, rfl⟩
  unfold handleGmcp
  split
  · exact ⟨rfl, rfl⟩
  cases gmcpMessage payload with
  | error detail => exact ⟨rfl, rfl⟩
  | ok message =>
    dsimp only
    split_ifs <;> split
    · exact ⟨rfl, rfl⟩
    · exact hqueue _ _ _
    · exact ⟨rfl, rfl⟩
    · exact hqueue _ _ _

end Link

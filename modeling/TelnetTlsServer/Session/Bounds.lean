-- SUMMARY: The bounds on the capability fields of a session, and that every report and every reset keeps them.
import Mathlib.Data.List.TakeWhile
import TelnetTlsServer.Session.Capability

/-!
# Bounds on the capability fields

`Capability.Bounded` bounds the counters, the terminal size and the three name
buffers. A change of the fields that reports cannot touch at all is recognised
by comparing `boundedFields`; the others are the reports about names and size.
What is learnt about the terminal leaves the fields alone that the life of a session
hangs on, which `Capability.Learns` says with it.
-/

/-! ## Name buffers -/

/-- Zero and printable bytes only, and the last byte is zero. A value that is
rejected half way leaves the old bytes behind the copied ones, so this speaks
about all bytes of the buffer and not only about the string at its start. -/
structure PrintableName (b : NameBuffer) : Prop where
  bytes : ∀ x ∈ b.bytes, x = 0 ∨ isPrintableAscii x = true
  last : b.bytes[terminalTypeMax]? = some 0

namespace PrintableName

theorem zero : PrintableName (Buffer.zero _) where
  bytes x hx := .inl (List.eq_of_mem_replicate hx)
  last := by simp [Buffer.zero]

theorem copy {b : NameBuffer} (hb : PrintableName b) {data : Bytes}
    (hlen : data.length ≤ terminalTypeMax + 1)
    (hdata : ∀ x ∈ data, x = 0 ∨ isPrintableAscii x = true)
    (hlast : data.length = terminalTypeMax + 1 → data[terminalTypeMax]? = some 0) :
    PrintableName (b.copy data) := by
  have hbytes : (b.copy data).bytes = data ++ b.bytes.drop data.length := Buffer.copy_bytes hlen
  constructor
  · intro x hx
    rw [hbytes] at hx
    rcases List.mem_append.mp hx with hx | hx
    · exact hdata x hx
    · exact hb.bytes x (List.mem_of_mem_drop hx)
  · rw [hbytes]
    rcases Nat.lt_or_eq_of_le hlen with hlt | heq
    · have hle : data.length ≤ terminalTypeMax := by omega
      rw [List.getElem?_append_right hle, List.getElem?_drop]
      rw [Nat.add_sub_cancel' hle]
      exact hb.last
    · rw [List.getElem?_append_left (by omega)]
      exact hlast heq

theorem copyPart {b : NameBuffer} (hb : PrintableName b) {text : Bytes}
    (hlen : text.length ≤ terminalTypeMax) (htext : ∀ x ∈ text, isPrintableAscii x = true) :
    PrintableName (b.copy text) :=
  hb.copy (by omega) (fun x hx => .inr (htext x hx)) (fun heq => by omega)

theorem copyString {b : NameBuffer} (hb : PrintableName b) {text : Bytes}
    (hlen : text.length ≤ terminalTypeMax) (htext : ∀ x ∈ text, isPrintableAscii x = true) :
    PrintableName (b.copyString text) := by
  apply hb.copy
  · simpa using hlen
  · intro x hx
    rcases List.mem_append.mp hx with hx | hx
    · exact .inr (htext x hx)
    · exact .inl (List.mem_singleton.mp hx)
  · intro heq
    have hfull : text.length = terminalTypeMax := by simpa using heq
    simp [← hfull]

/-- A value that is too long changes nothing, one that is not printable changes
the bytes before the first bad one, and any other is copied whole. -/
theorem copyPrintable {b : NameBuffer} (hb : PrintableName b) (input : Bytes) :
    PrintableName (copyPrintableAscii b input).2 := by
  have hall : ∀ x ∈ input.takeWhile isPrintableAscii, isPrintableAscii x = true :=
    fun x hx => List.mem_takeWhile_imp hx
  have hle : (input.takeWhile isPrintableAscii).length ≤ input.length :=
    (List.takeWhile_sublist _).length_le
  unfold copyPrintableAscii
  split
  case isTrue hlong => exact hb
  case isFalse hfits =>
    dsimp only
    split
    · exact hb.copyPart (by omega) hall
    · exact hb.copyString (by omega) hall

theorem zero_mem {b : NameBuffer} (hb : PrintableName b) : 0 ∈ b.bytes :=
  List.mem_of_getElem? hb.last

theorem string_printable {b : NameBuffer} (hb : PrintableName b) :
    ∀ x ∈ b.string, isPrintableAscii x = true := by
  intro x hx
  have hne : x ≠ 0 := by simpa using List.mem_takeWhile_imp hx
  have hmem : x ∈ b.bytes := (List.takeWhile_sublist _).mem hx
  exact (hb.bytes x hmem).resolve_left hne

theorem string_length {b : NameBuffer} (hb : PrintableName b) :
    b.string.length ≤ terminalTypeMax := by
  by_contra hlong
  have hsize := b.size
  have hsub : b.string.Sublist b.bytes := List.takeWhile_sublist _
  -- A string as long as the buffer would be the buffer, which holds a zero.
  have heq : b.string = b.bytes := hsub.eq_of_length_le (by omega)
  have hzero : 0 ∈ b.string := heq ▸ hb.zero_mem
  simpa using List.mem_takeWhile_imp hzero

end PrintableName

theorem printable_unknown : ∀ x ∈ ascii "UNKNOWN", isPrintableAscii x = true :=
  List.all_eq_true.mp rfl

/-! ## The bounds -/

namespace Capability

structure Bounded (c : Capability) : Prop where
  pendingGmcpCore : c.pendingGmcpCore.length ≤ pendingGmcpCoreMax
  terminalTypeRequests : c.terminalTypeRequestsSent ≤ terminalTypeRequestLimit
  width : minTerminalWidth ≤ c.terminal.width ∧ c.terminal.width ≤ maxTerminalWidth
  height : minTerminalHeight ≤ c.terminal.height ∧ c.terminal.height ≤ maxTerminalHeight
  terminalType : PrintableName c.terminal.terminalType
  clientName : PrintableName c.terminal.clientName
  clientVersion : PrintableName c.terminal.clientVersion

/-- A change that counts no protocol violation and keeps the bounds. -/
structure Keeps (c c' : Capability) : Prop where
  violations : c'.protocolViolations = c.protocolViolations
  bounded : c.Bounded → c'.Bounded

theorem Keeps.refl (c : Capability) : c.Keeps c := ⟨rfl, id⟩

theorem Keeps.trans {c c' c'' : Capability} (h : c.Keeps c') (h' : c'.Keeps c'') : c.Keeps c'' :=
  ⟨h'.violations.trans h.violations, h'.bounded ∘ h.bounded⟩

/-- All that `Bounded` and the violation count read. -/
def boundedFields (c : Capability) :=
  (c.pendingGmcpCore, c.terminalTypeRequestsSent, c.protocolViolations, c.terminal.width,
    c.terminal.height, c.terminal.terminalType, c.terminal.clientName, c.terminal.clientVersion)

theorem Keeps.of_fields {c c' : Capability} (h : c'.boundedFields = c.boundedFields) :
    c.Keeps c' := by
  simp only [boundedFields, Prod.mk.injEq] at h
  obtain ⟨hgmcp, hrequests, hviolations, hwidth, hheight, htype, hname, hversion⟩ := h
  refine ⟨hviolations, fun hc => ⟨?_, ?_, ?_, ?_, ?_, ?_, ?_⟩⟩
  · exact hgmcp ▸ hc.pendingGmcpCore
  · exact hrequests ▸ hc.terminalTypeRequests
  · exact hwidth ▸ hc.width
  · exact hheight ▸ hc.height
  · exact htype ▸ hc.terminalType
  · exact hname ▸ hc.clientName
  · exact hversion ▸ hc.clientVersion

end Capability

/-- The capability fields that the life of a session hangs on. -/
structure Core where
  options : TelnetQ
  echoDesired : Bool
  applicationSession : Option Nat
  pendingGmcpCore : List PendingGmcpCoreMessage

namespace Capability

def core (c : Capability) : Core :=
  ⟨c.options, c.echoDesired, c.applicationSession, c.pendingGmcpCore⟩

/-- What is learnt about the terminal has no part in the core, and does not say whether the
client takes GMCP messages. -/
structure Learns (c c' : Capability) : Prop extends Keeps c c' where
  voice : (c'.core, c'.terminal.gmcp) = (c.core, c.terminal.gmcp)

namespace Learns

variable {c a b : Capability}

theorem refl (c : Capability) : c.Learns c := ⟨.refl c, rfl⟩

theorem trans (h : c.Learns a) (h' : a.Learns b) : c.Learns b :=
  ⟨h.toKeeps.trans h'.toKeeps, h'.voice.trans h.voice⟩

theorem ite {p : Prop} [Decidable p] (ha : c.Learns a) (hb : c.Learns b) :
    c.Learns (if p then a else b) := by
  split
  · exact ha
  · exact hb

theorem of_fields (h : a.boundedFields = c.boundedFields)
    (hvoice : (a.core, a.terminal.gmcp) = (c.core, c.terminal.gmcp)) : c.Learns a :=
  ⟨.of_fields h, hvoice⟩

theorem core (h : c.Learns a) : a.core = c.core := congrArg Prod.fst h.voice

theorem gmcp (h : c.Learns a) : a.terminal.gmcp = c.terminal.gmcp := congrArg Prod.snd h.voice

end Learns

theorem initial_bounded (transportSecure : Bool) : (initial transportSecure).Bounded where
  pendingGmcpCore := Nat.zero_le _
  terminalTypeRequests := Nat.zero_le _
  width := ⟨by decide +revert, by decide +revert⟩
  height := ⟨by decide +revert, by decide +revert⟩
  terminalType := PrintableName.zero.copyString (by decide) printable_unknown
  clientName := PrintableName.zero.copyString (by decide) printable_unknown
  clientVersion := PrintableName.zero

/-! ## Reports -/

theorem inferTerminalTypeCapabilities_learns (c : Capability) (t : TelnetTerminalInfo)
    (terminalType : Bytes) :
    { c with terminal := t }.Learns
      { c with terminal := inferTerminalTypeCapabilities t terminalType } := by
  unfold inferTerminalTypeCapabilities
  dsimp only
  split_ifs <;> exact .of_fields rfl rfl

theorem observeMnes_learns (c : Capability) (token : UInt8) : c.Learns (c.observeMnes token) :=
  .ite (.of_fields rfl rfl) (.refl c)

theorem parseMttsReport_learns {c c' : Capability} {bytes : Bytes}
    (h : c.parseMttsReport bytes = some c') : c.Learns c' := by
  unfold parseMttsReport at h
  split at h
  · obtain ⟨flags, -, rfl⟩ := Option.map_eq_some_iff.mp h
    exact .of_fields rfl rfl
  · cases h

theorem setTerminalType_learns (c : Capability) {b : NameBuffer}
    (hb : PrintableName c.terminal.terminalType → PrintableName b) :
    c.Learns { c with terminal.terminalType := b } :=
  ⟨⟨rfl, fun hc => { hc with terminalType := hb hc.terminalType }⟩, rfl⟩

theorem setClientName_learns (c : Capability) {b : NameBuffer}
    (hb : PrintableName c.terminal.clientName → PrintableName b) :
    c.Learns { c with terminal.clientName := b } :=
  ⟨⟨rfl, fun hc => { hc with clientName := hb hc.clientName }⟩, rfl⟩

theorem setClientVersion_learns (c : Capability) {b : NameBuffer}
    (hb : PrintableName c.terminal.clientVersion → PrintableName b) :
    c.Learns { c with terminal.clientVersion := b } :=
  ⟨⟨rfl, fun hc => { hc with clientVersion := hb hc.clientVersion }⟩, rfl⟩

theorem applyNewEnvironValue_learns (c : Capability) (token : UInt8) (name value : Bytes) :
    c.Learns (c.applyNewEnvironValue token name value) := by
  have hmnes := c.observeMnes_learns token
  have hflag : ∀ t : TelnetTerminalInfo,
      { c with terminal := t }.boundedFields = c.boundedFields →
        t.gmcp = c.terminal.gmcp → c.Learns { c with terminal := t } :=
    fun _ hfields hgmcp => .of_fields hfields (congrArg (Prod.mk _) hgmcp)
  unfold applyNewEnvironValue
  refine .ite ?clientName (.ite ?clientVersion (.ite ?terminalType (.ite ?charset (.ite ?mtts
    (.ite (.refl c) (.ite (hflag _ rfl rfl) (.ite (hflag _ rfl rfl) (.ite (hflag _ rfl rfl)
      (.ite (hflag _ rfl rfl) (.ite (hflag _ rfl rfl) (.refl c)))))))))))
  case clientName => exact hmnes.trans (setClientName_learns _ fun h => h.copyPrintable value)
  case clientVersion =>
    exact hmnes.trans (setClientVersion_learns _ fun h => h.copyPrintable value)
  case terminalType =>
    have hcopied := hmnes.trans (setTerminalType_learns _ fun h => h.copyPrintable value)
    exact .ite (hcopied.trans (inferTerminalTypeCapabilities_learns _ _ _)) hcopied
  case charset => exact .ite (hmnes.trans (.of_fields rfl rfl)) hmnes
  case mtts =>
    dsimp only
    cases parseDecimalU32 value with
    | some flags => exact hmnes.trans (.of_fields rfl rfl)
    | none => exact hmnes

theorem environEntries_learns (rounds : Nat) (report : Bytes) (c : Capability) :
    c.Learns (environEntries rounds report c).1 := by
  induction rounds generalizing report c with
  | zero => cases report <;> exact .refl c
  | succ rounds ih =>
    cases report with
    | nil => exact .refl c
    | cons token rest =>
      unfold environEntries
      split
      · exact .refl c
      split
      · exact .refl c
      split
      · exact .refl c
      · exact .trans (.ite (applyNewEnvironValue_learns c token _ _) (.refl c)) (ih _ _)

theorem terminalTypeReport_printable {payload reported : Bytes}
    (h : Link.terminalTypeReport payload = .ok reported) :
    reported.length ≤ terminalTypeMax ∧ ∀ x ∈ reported, isPrintableAscii x = true := by
  unfold Link.terminalTypeReport at h
  split at h
  case h_2 => cases h
  case h_1 kind text =>
    have hname := PrintableName.zero.copyPrintable text
    split at h
    · cases h
    dsimp only at h
    split at h
    · cases h
    · obtain rfl := Except.ok.inj h
      split
      · exact ⟨by decide, printable_unknown⟩
      · exact ⟨hname.string_length, hname.string_printable⟩

theorem applyTerminalType_learns (c : Capability) {reported : Bytes}
    (hlen : reported.length ≤ terminalTypeMax)
    (hprintable : ∀ x ∈ reported, isPrintableAscii x = true) :
    c.Learns (Link.applyTerminalType c reported) := by
  have htype : c.Learns { c with
      terminal.terminalType := c.terminal.terminalType.copyString reported } :=
    setTerminalType_learns c fun h => h.copyString hlen hprintable
  have hname := htype.trans (setClientName_learns _ fun h => h.copyString hlen hprintable)
  unfold Link.applyTerminalType
  exact .ite (hname.trans (inferTerminalTypeCapabilities_learns _ _ _))
    (.ite (htype.trans (inferTerminalTypeCapabilities_learns _ _ _)) (.refl c))

/-! ## Option changes -/

theorem resetTerminalType_learns (c : Capability) :
    c.Learns { c with
      terminalTypeRequestsSent := 0
      terminalTypeWaiting := false
      lastTerminalType := []
      terminal.terminalType := c.terminal.terminalType.copyString (ascii "UNKNOWN") } :=
  ⟨⟨rfl, fun hc => { hc with
    terminalTypeRequests := Nat.zero_le _
    terminalType := hc.terminalType.copyString (by decide) printable_unknown }⟩, rfl⟩

theorem resetDisabled_learns (before c : Capability) : c.Learns (Link.resetDisabled before c) := by
  -- Only the first of the resets touches a bounded field.
  have hreset : ∀ {a b : Capability} {p : Prop} [Decidable p], c.Learns a → a.Learns b →
      c.Learns (if p then b else a) := fun ha hb => .ite (ha.trans hb) ha
  have hplain : ∀ {a b : Capability}, b.boundedFields = a.boundedFields →
      (b.core, b.terminal.gmcp) = (a.core, a.terminal.gmcp) → a.Learns b := .of_fields
  unfold Link.resetDisabled
  exact hreset (hreset (hreset (hreset (hreset (.refl c) (resetTerminalType_learns c))
    (hplain rfl rfl)) (hplain rfl rfl)) (hplain rfl rfl)) (hplain rfl rfl)

end Capability

-- SUMMARY: The facts a session derives from negotiation agree with what they are derived from, in every state; where MNES and UTF-8 do not.
import TelnetTlsServer.Session.Knowledge

/-!
# Coherence of derived facts

The terminal record of a session holds copies of option sides, the UTF-8 and MNES
facts that two kinds of report feed, and the OSC 8 facts that are valid only while
NEW-ENVIRON is on. Options change in one place and reports arrive in several, so
that the copies agree is an invariant of the whole session.

The copies, UTF-8 and OSC 8 are coherent in every state. MNES is not: the MTTS
path writes it without looking at the vocabulary the peer has used, and a report
that is given up leaves it behind. And UTF-8, although coherent, is lost to
commands that have nothing to do with it.
-/

/-! ## What reports leave alone -/

/-- The fields that are derived from options or from more than one report. -/
structure Derived where
  copies : List Bool
  links : List Bool
  utf8Enabled : Bool
  mttsFlags : UInt32
  mnes : Bool

namespace TelnetTerminalInfo

/-- The copies of option sides. -/
def copies (t : TelnetTerminalInfo) : List Bool :=
  [t.localBinary, t.remoteBinary, t.localSuppressGoAhead, t.remoteSuppressGoAhead, t.localEor,
    t.newEnviron, t.mssp, t.gmcp]

def links (t : TelnetTerminalInfo) : List Bool :=
  [t.osc8, t.osc8Send, t.osc8Prompt, t.osc8Tooltip]

def derived (t : TelnetTerminalInfo) : Derived :=
  ⟨t.copies, t.links, t.utf8Enabled, t.mttsFlags, t.mnes⟩

theorem derived_infer (t : TelnetTerminalInfo) (terminalType : Bytes) :
    (inferTerminalTypeCapabilities t terminalType).derived = t.derived := by
  unfold inferTerminalTypeCapabilities
  dsimp only
  split_ifs <;> rfl

end TelnetTerminalInfo

namespace Capability

/-- The flags of an MTTS report in a TERMINAL-TYPE payload that is looked at. -/
def mttsPayload (c : Capability) (payload : Bytes) : Option UInt32 :=
  if !c.enabled .remote Telnet.Opt.terminalType then none
  else
    match Link.terminalTypeReport payload with
    | .error _ => none
    | .ok reported =>
        if reported.length > 5 && bytesEqualIgnoreCase (reported.take 5) (ascii "MTTS ") then
          parseDecimalU32 (reported.drop 5)
        else none

/-- The option sides that are copied, in the order of `copies`. -/
def sides (c : Capability) : List Bool :=
  [c.enabled .local_ Telnet.Opt.binary, c.enabled .remote Telnet.Opt.binary,
    c.enabled .local_ Telnet.Opt.suppressGoAhead, c.enabled .remote Telnet.Opt.suppressGoAhead,
    c.enabled .local_ Telnet.Opt.endOfRecord, c.enabled .remote Telnet.Opt.newEnviron,
    c.enabled .local_ Telnet.Opt.mssp, c.enabled .local_ Telnet.Opt.gmcp]

def hasUtf8 (c : Capability) : Bool := c.charsetUtf8 || c.terminal.mttsFlags &&& mttsUtf8 ≠ 0

structure Coherent (c : Capability) : Prop where
  copies : c.terminal.copies = c.sides
  utf8 : c.terminal.utf8Enabled = c.hasUtf8
  links : c.enabled .remote Telnet.Opt.newEnviron = false →
    c.terminal.links = [false, false, false, false]

namespace Coherent

variable {c c' : Capability}

theorem of_known (h : c.Coherent) (hknown : c'.known = c.known) : c'.Coherent := by
  have henabled := enabled_of_known hknown
  have hterminal := terminal_of_known hknown
  refine ⟨?_, ?_, ?_⟩
  · simpa only [sides, henabled, hterminal] using h.copies
  · simpa only [hasUtf8, charsetUtf8_of_known hknown, hterminal] using h.utf8
  · simpa only [henabled, hterminal] using h.links

/-- Other fields of the terminal may change. -/
theorem of_derived (h : c.Coherent) {t : TelnetTerminalInfo}
    (hknown : c'.known = { c.known with terminal := t }) (ht : t.derived = c.terminal.derived) :
    c'.Coherent := by
  have hoptions : c'.options = c.options := congrArg Known.options hknown
  have henabled : c'.enabled = c.enabled := by
    funext direction option
    simp only [enabled, hoptions]
  have hterminal : c'.terminal = t := congrArg Known.terminal hknown
  have hutf8 : c'.charsetUtf8 = c.charsetUtf8 := congrArg Known.charsetUtf8 hknown
  have hcopies : t.copies = c.terminal.copies := congrArg Derived.copies ht
  have hlinks : t.links = c.terminal.links := congrArg Derived.links ht
  have hflag : t.utf8Enabled = c.terminal.utf8Enabled := congrArg Derived.utf8Enabled ht
  have hmtts : t.mttsFlags = c.terminal.mttsFlags := congrArg Derived.mttsFlags ht
  refine ⟨?_, ?_, ?_⟩
  · simpa only [sides, henabled, hterminal, hcopies] using h.copies
  · simpa only [hasUtf8, hterminal, hutf8, hflag, hmtts] using h.utf8
  · simpa only [henabled, hterminal, hlinks] using h.links

/-- The refresh of UTF-8 needs the other two clauses only. -/
theorem refreshUtf8Metadata (hcopies : c.terminal.copies = c.sides)
    (hlinks : c.enabled .remote Telnet.Opt.newEnviron = false →
      c.terminal.links = [false, false, false, false]) : c.refreshUtf8Metadata.Coherent :=
  ⟨hcopies, rfl, hlinks⟩

theorem initial (transportSecure : Bool) : (Capability.initial transportSecure).Coherent :=
  ⟨rfl, show false = (false || decide (0 &&& mttsUtf8 ≠ 0)) by decide, fun _ => rfl⟩

theorem aside {α : Type} {l l' : Link α} (h : l.caps.Coherent) (haside : l.Aside l') :
    l'.caps.Coherent := by
  have hterminal : l'.caps.terminal = l.caps.terminal :=
    congrArg Findings.terminal haside.findings
  have hutf8 : l'.caps.charsetUtf8 = l.caps.charsetUtf8 :=
    congrArg Findings.charsetUtf8 haside.findings
  have hsides : l'.caps.sides = l.caps.sides := by
    unfold sides
    congr 1
    · exact haside.enabled _ _ (by decide)
    iterate 7
      congr 1
      · exact haside.enabled _ _ (by decide)
  refine ⟨?_, ?_, ?_⟩
  · rw [hterminal, hsides]
    exact h.copies
  · simpa only [hasUtf8, hterminal, hutf8] using h.utf8
  · rw [haside.enabled _ _ (by decide), hterminal]
    exact h.links

end Coherent

/-! ## Entries of a report -/

end Capability

namespace EnvironEntry

/-- The compact MNES vocabulary. -/
def vocabulary : List Bytes :=
  [ascii "CLIENT_NAME", ascii "CLIENT_VERSION", ascii "TERMINAL_TYPE", ascii "CHARSET",
    ascii "MTTS"]

/-- The peer uses the vocabulary as MNES has it, with VAR. -/
def speaksMnes (entry : EnvironEntry) : Bool :=
  entry.token = newEnvironVar && vocabulary.any (bytesEqualIgnoreCase entry.name)

/-- The flags an entry brings. -/
def mtts? (entry : EnvironEntry) : Option UInt32 :=
  if bytesEqualIgnoreCase entry.name (ascii "MTTS") then parseDecimalU32 entry.value else none

end EnvironEntry

/-- Texts of two lengths are not both equal to a name. -/
theorem bytesEqualIgnoreCase_ne {name a b : Bytes} (h : bytesEqualIgnoreCase name a = true)
    (hlength : a.length ≠ b.length) : bytesEqualIgnoreCase name b = false := by
  simp only [bytesEqualIgnoreCase, Bool.and_eq_true, decide_eq_true_eq] at h
  simp [bytesEqualIgnoreCase, h.1, hlength]

namespace Capability

/-- What an entry does to the knowledge of a session. -/
inductive Applied (c : Capability) (entry : EnvironEntry) : Capability → Prop where
  /-- A name, a version or a type: no derived fact changes. -/
  | told {t : TelnetTerminalInfo} (hmnes : entry.speaksMnes = decide (entry.token = newEnvironVar))
      (hmtts : entry.mtts? = none) (ht : t.derived = c.terminal.derived) :
      Applied c entry { c.observeMnes entry.token with terminal := t }
  | utf8 (hmnes : entry.speaksMnes = decide (entry.token = newEnvironVar))
      (hmtts : entry.mtts? = none) :
      Applied c entry { c.observeMnes entry.token with charsetUtf8 := true }.refreshUtf8Metadata
  | flags {flags : UInt32} (hmnes : entry.speaksMnes = decide (entry.token = newEnvironVar))
      (hmtts : entry.mtts? = some flags) :
      Applied c entry { c.observeMnes entry.token with
        terminal := applyMttsFlags c.terminal flags }.refreshUtf8Metadata
  /-- No word of the MNES vocabulary. -/
  | other {t : TelnetTerminalInfo} (hmnes : entry.speaksMnes = false) (hmtts : entry.mtts? = none)
      (ht : t.derived = { c.terminal.derived with links := t.links }) :
      Applied c entry { c with terminal := t }

theorem Applied.ite {c a b : Capability} {entry : EnvironEntry} {p : Prop} [Decidable p]
    (ha : p → Applied c entry a) (hb : ¬ p → Applied c entry b) :
    Applied c entry (if p then a else b) := by
  split
  case isTrue h => exact ha h
  case isFalse h => exact hb h

theorem terminal_observeMnes (c : Capability) (token : UInt8) :
    (c.observeMnes token).terminal = c.terminal := by
  unfold observeMnes
  split <;> rfl

theorem applied_applyEntry (c : Capability) (entry : EnvironEntry) :
    Applied c entry (c.applyEntry entry) := by
  have hspeaks : ∀ text ∈ EnvironEntry.vocabulary, bytesEqualIgnoreCase entry.name text = true →
      entry.speaksMnes = decide (entry.token = newEnvironVar) := by
    intro text hmem htext
    have hany : EnvironEntry.vocabulary.any (bytesEqualIgnoreCase entry.name) = true :=
      List.any_eq_true.mpr ⟨text, hmem, htext⟩
    simp [EnvironEntry.speaksMnes, hany]
  have hmtts : ∀ {text : Bytes}, bytesEqualIgnoreCase entry.name text = true →
      text.length ≠ (ascii "MTTS").length → entry.mtts? = none := by
    intro text htext hlength
    simp [EnvironEntry.mtts?, bytesEqualIgnoreCase_ne htext hlength]
  have hterminal := terminal_observeMnes c entry.token
  have htold : ∀ {text : Bytes}, text ∈ EnvironEntry.vocabulary →
      bytesEqualIgnoreCase entry.name text = true → text.length ≠ (ascii "MTTS").length →
      ∀ {t : TelnetTerminalInfo}, t.derived = (c.observeMnes entry.token).terminal.derived →
        Applied c entry { c.observeMnes entry.token with terminal := t } :=
    fun hmem h hlength _ ht => .told (hspeaks _ hmem h) (hmtts h hlength) (hterminal ▸ ht)
  refine .ite (fun h => htold (by decide) h (by decide) rfl) fun hname =>
    .ite (fun h => htold (by decide) h (by decide) rfl) fun hversion =>
    .ite (fun h => .ite
      (fun _ => htold (by decide) h (by decide) (TelnetTerminalInfo.derived_infer _ _))
      fun _ => htold (by decide) h (by decide) rfl) fun htype =>
    .ite (fun h => .ite (fun _ => .utf8 (hspeaks _ (by decide) h) (hmtts h (by decide)))
      fun _ => htold (by decide) h (by decide) rfl) fun hcharset =>
    .ite (fun h => ?flags) fun hother => ?rest
  case flags =>
    have hspoken := hspeaks _ (by decide) h
    dsimp only
    cases hvalue : parseDecimalU32 entry.value with
    | some flags =>
      rw [hterminal]
      exact .flags hspoken (by simp only [EnvironEntry.mtts?, h, hvalue, if_true])
    | none =>
      exact Applied.told (t := (c.observeMnes entry.token).terminal) hspoken
        (by simp only [EnvironEntry.mtts?, h, hvalue, if_true]) (congrArg _ hterminal)
  case rest =>
    have hnone : entry.mtts? = none := if_neg hother
    have hsilent : entry.speaksMnes = false := by
      simp only [EnvironEntry.speaksMnes, EnvironEntry.vocabulary, List.any_cons, List.any_nil,
        hname, hversion, htype, hcharset, hother, Bool.or_false, Bool.and_false]
    have hlinks : ∀ t : TelnetTerminalInfo, t.derived = { c.terminal.derived with links := t.links } →
        Applied c entry { c with terminal := t } := fun _ ht => .other hsilent hnone ht
    exact .ite (fun _ => hlinks _ rfl) fun _ => .ite (fun _ => hlinks _ rfl) fun _ =>
      .ite (fun _ => hlinks _ rfl) fun _ => .ite (fun _ => hlinks _ rfl) fun _ =>
      .ite (fun _ => hlinks _ rfl) fun _ => .ite (fun _ => hlinks _ rfl) fun _ => hlinks _ rfl

end Capability

/-! ## Coherent in every state -/

namespace Capability

variable {c : Capability}

theorem options_observeMnes (c : Capability) (token : UInt8) :
    (c.observeMnes token).options = c.options := by
  unfold observeMnes
  split <;> rfl

theorem charsetUtf8_observeMnes (c : Capability) (token : UInt8) :
    (c.observeMnes token).charsetUtf8 = c.charsetUtf8 := by
  unfold observeMnes
  split <;> rfl

theorem sides_of_options {c' : Capability} (h : c'.options = c.options) : c'.sides = c.sides := by
  simp only [sides, enabled, h]

/-- Entries are only read while NEW-ENVIRON is on, when the OSC 8 facts are free. -/
theorem Coherent.applied {entry : EnvironEntry} {c' : Capability} (h : c.Coherent)
    (hon : c.enabled .remote Telnet.Opt.newEnviron = true) (happlied : Applied c entry c') :
    c'.Coherent ∧ c'.options = c.options := by
  have hoptions := options_observeMnes c entry.token
  have hfree : ∀ {m : Capability} {links : List Bool}, m.options = c.options →
      m.enabled .remote Telnet.Opt.newEnviron = false → links = [false, false, false, false] := by
    intro m links hm hoff
    simp only [enabled, hm] at hoff hon
    cases hon.symm.trans hoff
  cases happlied with
  | @told t hmnes hmtts ht =>
    have hcopies : t.copies = c.terminal.copies := congrArg Derived.copies ht
    have hflag : t.utf8Enabled = c.terminal.utf8Enabled := congrArg Derived.utf8Enabled ht
    have hflags : t.mttsFlags = c.terminal.mttsFlags := congrArg Derived.mttsFlags ht
    refine ⟨⟨?_, ?_, hfree hoptions⟩, hoptions⟩
    · rw [sides_of_options (show ({ c.observeMnes entry.token with terminal := t } :
        Capability).options = c.options from hoptions)]
      exact hcopies.trans h.copies
    · simpa only [hasUtf8, charsetUtf8_observeMnes, hflag, hflags] using h.utf8
  | utf8 =>
    refine ⟨.refreshUtf8Metadata ?_ (hfree hoptions), hoptions⟩
    rw [sides_of_options (show ({ c.observeMnes entry.token with charsetUtf8 := true } :
      Capability).options = c.options from hoptions), terminal_observeMnes]
    exact h.copies
  | @flags flags =>
    refine ⟨.refreshUtf8Metadata ?_ (hfree hoptions), hoptions⟩
    rw [sides_of_options (show ({ c.observeMnes entry.token with
      terminal := applyMttsFlags c.terminal flags } : Capability).options = c.options from hoptions)]
    exact h.copies
  | @other t hmnes hmtts ht =>
    have hcopies : t.copies = c.terminal.copies := congrArg Derived.copies ht
    have hflag : t.utf8Enabled = c.terminal.utf8Enabled := congrArg Derived.utf8Enabled ht
    have hflags : t.mttsFlags = c.terminal.mttsFlags := congrArg Derived.mttsFlags ht
    refine ⟨⟨hcopies.trans h.copies, ?_, hfree rfl⟩, rfl⟩
    simpa only [hasUtf8, hflag, hflags] using h.utf8

theorem Coherent.entries (h : c.Coherent)
    (hon : c.enabled .remote Telnet.Opt.newEnviron = true) (entries : List EnvironEntry) :
    (entries.foldl applyEntry c).Coherent := by
  induction entries generalizing c with
  | nil => exact h
  | cons entry rest ih =>
    obtain ⟨hnext, hoptions⟩ := h.applied hon (applied_applyEntry c entry)
    refine ih hnext ?_
    simpa only [enabled, hoptions] using hon

/-- The refresh makes the copies right whatever they were. -/
theorem Coherent.copyOptionMetadata (hlinks : c.enabled .remote Telnet.Opt.newEnviron = false →
    c.terminal.links = [false, false, false, false]) :
    (Link.copyOptionMetadata c).refreshUtf8Metadata.Coherent :=
  .refreshUtf8Metadata rfl hlinks

/-- What NEW-ENVIRON advertised is forgotten when it goes off. -/
theorem links_heard {α : Type} (hooks : Application α) (command option : UInt8) (h : c.Coherent)
    (hoff : (Link.heard hooks c command option).enabled .remote Telnet.Opt.newEnviron = false) :
    (Link.heard hooks c command option).terminal.links = [false, false, false, false] := by
  unfold Link.heard at hoff ⊢
  rw [Link.resetDisabled_eq] at hoff ⊢
  have hnow : ({ c with options := (telnetQReceive c.options command option
      (Link.qAccept hooks c)).1 } : Capability).enabled .remote Telnet.Opt.newEnviron = false := hoff
  cases hbefore : c.enabled .remote Telnet.Opt.newEnviron with
  | true => simp [TelnetTerminalInfo.links, Link.wentOff, hbefore, hnow]
  | false =>
    have hlinks := h.links hbefore
    simp only [TelnetTerminalInfo.links, List.cons.injEq, and_true] at hlinks
    simp [TelnetTerminalInfo.links, hlinks]

end Capability

namespace Link

variable {α : Type}

open Capability

theorem coherent_receiveTelnetOption (hooks : Application α) {l : Link α} (h : l.caps.Coherent)
    (command option : UInt8) : (l.receiveTelnetOption hooks command option).caps.Coherent :=
  (Coherent.copyOptionMetadata (links_heard hooks command option h)).of_known
    (known_receiveTelnetOption hooks l command option)

theorem derived_applyTerminalType (c : Capability) (reported : Bytes) :
    (applyTerminalType c reported).terminal.derived = c.terminal.derived := by
  unfold applyTerminalType
  dsimp only
  split
  · exact TelnetTerminalInfo.derived_infer _ _
  split
  · exact TelnetTerminalInfo.derived_infer _ _
  · rfl

/-- The terminal after a TERMINAL-TYPE payload: as it was, with the flags of an
MTTS report, or with facts nothing is derived from. -/
theorem untoldTerminalType_cases (c : Capability) (payload : Bytes) :
    (c.mttsPayload payload = none ∧ c.untoldTerminalType payload = none) ∨
      (∃ flags, c.mttsPayload payload = some flags ∧ c.untoldTerminalType payload =
        some ({ c with terminal := applyMttsFlags c.terminal flags }.refreshUtf8Metadata).terminal) ∨
      c.mttsPayload payload = none ∧ ∃ t, c.untoldTerminalType payload = some t ∧
        t.derived = c.terminal.derived := by
  unfold untoldTerminalType mttsPayload
  split
  · exact .inl ⟨rfl, rfl⟩
  cases terminalTypeReport payload with
  | error detail => exact .inl ⟨rfl, rfl⟩
  | ok reported =>
    unfold parseMttsReport
    dsimp only
    split
    · cases parseDecimalU32 (reported.drop 5) with
      | some flags => exact .inr (.inl ⟨flags, rfl, rfl⟩)
      | none => exact .inr (.inr ⟨rfl, _, rfl, derived_applyTerminalType c reported⟩)
    · exact .inr (.inr ⟨rfl, _, rfl, derived_applyTerminalType c reported⟩)

theorem coherent_handleTerminalType {l : Link α} (h : l.caps.Coherent) (payload : Bytes) :
    (l.handleTerminalType payload).caps.Coherent := by
  have hknown := known_handleTerminalType l payload
  rcases untoldTerminalType_cases l.caps payload with
    ⟨-, hnone⟩ | ⟨flags, -, hflags⟩ | ⟨-, t, ht, hderived⟩
  · rw [hnone] at hknown
    exact h.of_known hknown
  · rw [hflags] at hknown
    have hrefreshed : ({ l.caps with terminal := applyMttsFlags l.caps.terminal flags } :
        Capability).refreshUtf8Metadata.Coherent := .refreshUtf8Metadata h.copies h.links
    exact hrefreshed.of_known hknown
  · rw [ht] at hknown
    exact h.of_derived hknown hderived

theorem coherent_handleCharset {l : Link α} (h : l.caps.Coherent) (payload : Bytes) :
    (l.handleCharset payload).caps.Coherent := by
  have hknown := known_handleCharset l payload
  unfold untoldCharset at hknown
  cases houtcome : l.caps.charsetOutcome payload with
  | none =>
    rw [houtcome] at hknown
    exact h.of_known hknown
  | some utf8 =>
    rw [houtcome] at hknown
    have hrefreshed : ({ l.caps with charsetUtf8 := utf8 } : Capability).refreshUtf8Metadata.Coherent :=
      .refreshUtf8Metadata h.copies h.links
    exact hrefreshed.of_known hknown

theorem coherent_handleNewEnviron (hooks : Application α) {l : Link α} (h : l.caps.Coherent)
    (payload : Bytes) : (l.handleNewEnviron hooks payload).caps.Coherent := by
  refine Coherent.of_known ?_ (known_handleNewEnviron hooks l payload)
  unfold environed
  split
  case h_1 => exact h
  case h_2 entries hreport =>
    have hentries := h.entries (enabled_of_environPayload hreport) entries
    exact .copyOptionMetadata hentries.links
  case h_3 entries hreport => exact h.entries (enabled_of_environPayload hreport) entries

end Link

namespace Link

variable {α : Type}

open Capability

theorem derived_untoldNaws (c : Capability) (payload : Bytes) :
    ((c.untoldNaws payload).getD c.terminal).derived = c.terminal.derived := by
  unfold untoldNaws
  split
  · rfl
  · split <;> rfl

theorem coherent_handleNaws {l : Link α} (h : l.caps.Coherent) (payload : Bytes) :
    (l.handleNaws payload).caps.Coherent :=
  h.of_derived (known_handleNaws l payload) (derived_untoldNaws l.caps payload)

theorem coherent_finishSubnegotiation (hooks : Application α) {l : Link α} (h : l.caps.Coherent)
    (option : UInt8) (payload : Bytes) :
    (l.finishSubnegotiation hooks option payload).caps.Coherent := by
  unfold finishSubnegotiation
  split_ifs
  · exact coherent_handleNaws h payload
  · exact coherent_handleTerminalType h payload
  · exact coherent_handleCharset h payload
  · exact coherent_handleNewEnviron hooks h payload
  · exact h.of_known (caps_handleGmcp hooks l payload).1
  · exact h

end Link

namespace Conn

variable {β α : Type}

theorem coherent_act (host : Host β α) {c : Conn β α} (h : c.link.caps.Coherent)
    (action : Action) : (c.act host action).link.caps.Coherent := by
  have hturn := turn_act host c action
  generalize (c.act host action).link = link at hturn ⊢
  cases hturn with
  | aside _ _ haside => exact h.aside haside
  | option => exact Link.coherent_receiveTelnetOption host.application h _ _
  | subnegotiation => exact Link.coherent_finishSubnegotiation host.application h _ _

theorem coherent_of_reachable {host : Host β α} {c : Conn β α} (hc : (system host).Reachable c) :
    c.link.caps.Coherent := by
  refine hc.invariant (I := fun c => c.link.caps.Coherent) ?_ ?_
  · rintro c ⟨backend, app, rfl⟩
    exact .initial _
  · rintro action c c' - h rfl
    exact coherent_act host h action

/-- What the terminal record says, against the option state and the reports. -/
structure DerivedFacts (c : Conn β α) : Prop where
  localBinary : c.terminal.localBinary = c.link.caps.enabled .local_ Telnet.Opt.binary
  remoteBinary : c.terminal.remoteBinary = c.link.caps.enabled .remote Telnet.Opt.binary
  localSuppressGoAhead :
    c.terminal.localSuppressGoAhead = c.link.caps.enabled .local_ Telnet.Opt.suppressGoAhead
  remoteSuppressGoAhead :
    c.terminal.remoteSuppressGoAhead = c.link.caps.enabled .remote Telnet.Opt.suppressGoAhead
  localEor : c.terminal.localEor = c.link.caps.enabled .local_ Telnet.Opt.endOfRecord
  newEnviron : c.terminal.newEnviron = c.link.caps.enabled .remote Telnet.Opt.newEnviron
  mssp : c.terminal.mssp = c.link.caps.enabled .local_ Telnet.Opt.mssp
  gmcp : c.terminal.gmcp = c.link.caps.enabled .local_ Telnet.Opt.gmcp
  utf8Enabled : c.terminal.utf8Enabled =
    (c.link.caps.charsetUtf8 || c.terminal.mttsFlags &&& mttsUtf8 ≠ 0)
  osc8 : c.link.caps.enabled .remote Telnet.Opt.newEnviron = false →
    c.terminal.osc8 = false ∧ c.terminal.osc8Send = false ∧ c.terminal.osc8Prompt = false ∧
      c.terminal.osc8Tooltip = false
  /-- Without NEW-ENVIRON a link is written as its label. -/
  labels : c.link.caps.enabled .remote Telnet.Opt.newEnviron = false →
    ∀ (w : Wire α) uri label, w.applicationWriteLink c.terminal uri label =
      (0, w.writeText (terminalTextSanitize label 512))

theorem derivedFacts_of_coherent {c : Conn β α} (h : c.link.caps.Coherent) : c.DerivedFacts := by
  have hcopies := h.copies
  simp only [TelnetTerminalInfo.copies, Capability.sides, List.cons.injEq, and_true] at hcopies
  obtain ⟨hlb, hrb, hls, hrs, heor, henv, hmssp, hgmcp⟩ := hcopies
  have hosc : c.link.caps.enabled .remote Telnet.Opt.newEnviron = false →
      c.terminal.osc8 = false ∧ c.terminal.osc8Send = false ∧ c.terminal.osc8Prompt = false ∧
        c.terminal.osc8Tooltip = false := by
    intro hoff
    have hlinks := h.links hoff
    simp only [TelnetTerminalInfo.links, List.cons.injEq, and_true] at hlinks
    exact hlinks
  refine ⟨hlb, hrb, hls, hrs, heor, henv, hmssp, hgmcp, h.utf8, hosc, fun hoff w uri label => ?_⟩
  have hnone : Wire.linkAllowed c.terminal uri = none := by
    cases uri with
    | none => rfl
    | some uri => simp [Wire.linkAllowed, (hosc hoff).1]
  simp only [Wire.applicationWriteLink, hnone]

/-- Between any two bytes of any run, and so after every public call. -/
theorem derived_coherent (host : Host β α) :
    (∀ c, (system host).Reachable c → c.DerivedFacts) ∧
      ∀ s, (TelnetSession.system host).Reachable s → s.conn.DerivedFacts :=
  ⟨fun _ hc => derivedFacts_of_coherent (coherent_of_reachable hc),
    fun _ hs => derivedFacts_of_coherent (coherent_of_reachable (TelnetSession.reachable_conn hs))⟩

/-- The peer offers NEW-ENVIRON and says that it shows links. -/
def linking : Bytes :=
  [255, 251, 39] ++ [255, 250, 39, 0, 3] ++ ascii "OSC_HYPERLINKS" ++ [1, 49, 255, 240]

theorem derived_coherent_linking :
    let c := (Conn.initial .granting () ()).feedBytes .granting 1 linking
    c.terminal.osc8 = true ∧ c.DerivedFacts :=
  ⟨by decide +kernel, (derived_coherent .granting).1 _
    (reachable_feedBytes (.init ⟨(), (), rfl⟩) 1 linking)⟩

end Conn

/-! ## UTF-8 and commands for other options -/

namespace Link

variable {α : Type}

/-- UTF-8 after a command: it is lost when CHARSET is off on both sides, whichever
option the command is for. -/
theorem utf8_receiveTelnetOption (hooks : Application α) (l : Link α) (command : UInt8)
    {option : UInt8} (hoption : option ≠ Telnet.Opt.charset) :
    let caps := (l.receiveTelnetOption hooks command option).caps
    caps.charsetUtf8 = (l.caps.charsetUtf8 &&
        (l.caps.enabled .local_ Telnet.Opt.charset || l.caps.enabled .remote Telnet.Opt.charset)) ∧
      caps.terminal.utf8Enabled =
        (caps.charsetUtf8 || l.caps.terminal.mttsFlags &&& mttsUtf8 ≠ 0) := by
  have hknown := known_receiveTelnetOption hooks l command option
  have hsame : ∀ direction, ({ l.caps with options := (telnetQReceive l.caps.options command option
      (qAccept hooks l.caps)).1 } : Capability).enabled direction Telnet.Opt.charset =
      l.caps.enabled direction Telnet.Opt.charset := by
    intro direction
    simp only [Capability.enabled, telnetQEnabled,
      telnetQReceive_frame _ _ _ direction (Ne.symm hoption)]
  have hutf8 := Capability.charsetUtf8_of_known hknown
  have hterminal := Capability.terminal_of_known hknown
  have hheard : (heard hooks l.caps command option).charsetUtf8 = (l.caps.charsetUtf8 &&
      (l.caps.enabled .local_ Telnet.Opt.charset || l.caps.enabled .remote Telnet.Opt.charset)) := by
    unfold heard
    rw [resetDisabled_eq]
    simp only [hsame]
    cases l.caps.enabled .local_ Telnet.Opt.charset <;>
      cases l.caps.enabled .remote Telnet.Opt.charset <;> simp
  have hflags : (heard hooks l.caps command option).terminal.mttsFlags =
      l.caps.terminal.mttsFlags := by
    unfold heard
    rw [resetDisabled_eq]
  have hcopied : ∀ c : Capability,
      (copyOptionMetadata c).refreshUtf8Metadata.charsetUtf8 = c.charsetUtf8 ∧
        (copyOptionMetadata c).refreshUtf8Metadata.terminal.utf8Enabled =
          (c.charsetUtf8 || c.terminal.mttsFlags &&& mttsUtf8 ≠ 0) := fun _ => ⟨rfl, rfl⟩
  rw [(hcopied _).1] at hutf8
  dsimp only
  constructor
  · rw [hutf8, hheard]
  · rw [hterminal, (hcopied _).2, hutf8, hflags]

end Link

namespace Conn

variable {β α : Type}

/-- A command for another option leaves UTF-8 as it was if and only if UTF-8 was
not learnt outside MTTS, or CHARSET is on for one side. -/
theorem charset_kept_iff {host : Host β α} {c : Conn β α} (hc : (system host).Reachable c)
    (command : UInt8) {option : UInt8} (hoption : option ≠ Telnet.Opt.charset) :
    ((c.link.receiveTelnetOption host.application command option).caps.charsetUtf8 =
        c.link.caps.charsetUtf8 ∧
      (c.link.receiveTelnetOption host.application command option).caps.terminal.utf8Enabled =
        c.terminal.utf8Enabled) ↔
      (c.link.caps.charsetUtf8 = false ∨
        c.link.caps.enabled .local_ Telnet.Opt.charset = true ∨
        c.link.caps.enabled .remote Telnet.Opt.charset = true) := by
  obtain ⟨hutf8, henabled⟩ := Link.utf8_receiveTelnetOption host.application c.link command hoption
  have hbefore : c.terminal.utf8Enabled = c.link.caps.hasUtf8 := (coherent_of_reachable hc).utf8
  constructor
  · rintro ⟨hsame, -⟩
    rw [hutf8] at hsame
    revert hsame
    cases c.link.caps.charsetUtf8 <;> simp
  · intro hcondition
    have hsame : (c.link.caps.charsetUtf8 && (c.link.caps.enabled .local_ Telnet.Opt.charset ||
        c.link.caps.enabled .remote Telnet.Opt.charset)) = c.link.caps.charsetUtf8 := by
      rcases hcondition with hoff | hlocal | hremote
      · simp [hoff]
      · simp [hlocal]
      · simp [hremote]
    refine ⟨hutf8.trans hsame, ?_⟩
    rw [henabled, hutf8, hsame, hbefore]
    rfl

/-- The peer offers NEW-ENVIRON and reports its character set there. -/
def reportingUtf8 : Bytes :=
  [255, 251, 39] ++ [255, 250, 39, 0, 0] ++ ascii "CHARSET" ++ [1] ++ ascii "UTF-8" ++ [255, 240]

def utf8Reported : Conn Unit Unit :=
  (Conn.initial .granting () ()).feedBytes .granting 1 reportingUtf8

theorem reachable_utf8Reported : (system Host.granting).Reachable utf8Reported :=
  reachable_feedBytes (.init ⟨(), (), rfl⟩) 1 reportingUtf8

theorem charset_kept_iff_reported :
    Telnet.Opt.naws ≠ Telnet.Opt.charset ∧
      (((utf8Reported.link.receiveTelnetOption Host.granting.application Telnet.will
          Telnet.Opt.naws).caps.charsetUtf8 = utf8Reported.link.caps.charsetUtf8 ∧
        (utf8Reported.link.receiveTelnetOption Host.granting.application Telnet.will
          Telnet.Opt.naws).caps.terminal.utf8Enabled = utf8Reported.terminal.utf8Enabled) ↔
      (utf8Reported.link.caps.charsetUtf8 = false ∨
        utf8Reported.link.caps.enabled .local_ Telnet.Opt.charset = true ∨
        utf8Reported.link.caps.enabled .remote Telnet.Opt.charset = true)) :=
  ⟨by decide, charset_kept_iff reachable_utf8Reported Telnet.will (by decide)⟩

/-- Then it offers to report its window size, and UTF-8 is forgotten. -/
theorem charset_lost_to_naws :
    utf8Reported.terminal.utf8Enabled = true ∧
      let c := utf8Reported.feedBytes .granting 1 [255, 251, 31]
      c.link.caps.charsetUtf8 = false ∧ c.terminal.utf8Enabled = false := by
  decide +kernel

end Conn

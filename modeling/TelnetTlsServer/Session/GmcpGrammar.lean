-- SUMMARY: The grammar of GMCP messages: what is sent is read back, and which payloads are accepted outside of it.
import TelnetTlsServer.Session.Lifecycle
import TelnetTlsServer.Session.Subnegotiation
import TelnetTlsServer.Text.Utf8

/-!
# The grammar of GMCP messages

A message is a package name, and a text after a space if there is one. The sender
and the receiver check it separately. The receiver copies the package name into a
C string and checks that string, so it does not see what stands behind a zero byte
in the field.
-/

/-- The characters of a package name. -/
def gmcpAlphabet : Bytes :=
  ascii "ABCDEFGHIJKLMNOPQRSTUVWXYZabcdefghijklmnopqrstuvwxyz0123456789._-"

/-- The bytes before the first space. -/
def gmcpPackageField (payload : Bytes) : Bytes := payload.takeWhile (· ≠ 32)

/-- The bytes after the first space. -/
def gmcpJsonField (payload : Bytes) : Bytes := (payload.dropWhile (· ≠ 32)).drop 1

structure GmcpPackage (name : Bytes) : Prop where
  nonempty : 1 ≤ name.length
  short : name.length ≤ 96
  alphabet : ∀ b ∈ name, b ∈ gmcpAlphabet

structure GmcpJson (json : Bytes) : Prop where
  short : json.length ≤ 3968
  utf8 : ∃ text : List Char, json = text.flatMap String.utf8EncodeChar

structure GmcpGrammar (payload : Bytes) : Prop where
  package : GmcpPackage (gmcpPackageField payload)
  json : GmcpJson (gmcpJsonField payload)

theorem gmcpPackageByteValid_iff (b : UInt8) :
    Wire.gmcpPackageByteValid b = true ↔ b ∈ gmcpAlphabet := by
  have hmem : Wire.gmcpPackageByteValid b = true → b ∈ gmcpAlphabet :=
    forall_byte (by decide +kernel) b
  have hvalid : gmcpAlphabet.all Wire.gmcpPackageByteValid = true := by decide
  exact ⟨hmem, List.all_eq_true.mp hvalid b⟩

theorem gmcpPackageValid_iff (name : Bytes) :
    Wire.gmcpPackageValid name = true ↔ GmcpPackage name := by
  unfold Wire.gmcpPackageValid
  split
  case isTrue h =>
    simp only [gt_iff_lt, Bool.or_eq_true, decide_eq_true_eq] at h
    refine ⟨fun hfalse => by simp at hfalse, fun hname => ?_⟩
    have hnonempty := hname.nonempty
    have hshort : name.length ≤ Wire.gmcpPackageMaxBytes := hname.short
    omega
  case isFalse h =>
    simp only [gt_iff_lt, Bool.or_eq_true, decide_eq_true_eq, not_or, Nat.not_lt] at h
    simp only [List.all_eq_true, gmcpPackageByteValid_iff]
    exact ⟨fun hname => ⟨Nat.one_le_iff_ne_zero.mpr h.1, h.2, hname⟩, GmcpPackage.alphabet⟩

theorem gmcpJson_iff (json : Bytes) :
    GmcpJson json ↔ json.length ≤ Wire.gmcpJsonMaxBytes ∧ terminalTextUtf8Valid json = true := by
  rw [terminalTextUtf8Valid_iff]
  exact ⟨fun h => ⟨h.short, h.utf8⟩, fun h => ⟨h.1, h.2⟩⟩

/-- A package name has neither a space nor a zero byte. -/
theorem GmcpPackage.byte_ne {name : Bytes} (h : GmcpPackage name) :
    ∀ b ∈ name, b ≠ 32 ∧ b ≠ 0 := by
  have hspace : (32 : UInt8) ∉ gmcpAlphabet := by decide
  have hzero : (0 : UInt8) ∉ gmcpAlphabet := by decide
  exact fun b hb => ⟨ne_of_mem_of_not_mem (h.alphabet b hb) hspace,
    ne_of_mem_of_not_mem (h.alphabet b hb) hzero⟩

/-! ## What the receiver checks -/

theorem drop_gmcpPackageField (payload : Bytes) :
    (payload.drop (gmcpPackageField payload).length).drop 1 = gmcpJsonField payload := by
  have hsplit : gmcpPackageField payload ++ payload.dropWhile (· ≠ 32) = payload :=
    List.takeWhile_append_dropWhile
  have hrest : payload.drop (gmcpPackageField payload).length = payload.dropWhile (· ≠ 32) :=
    (congrArg _ hsplit.symm).trans List.drop_left
  rw [hrest, gmcpJsonField]

namespace Link

variable {α : Type}

theorem gmcpMessage_eq_ok_iff {payload : Bytes} {message : PendingGmcpCoreMessage} :
    gmcpMessage payload = .ok message ↔
      (gmcpPackageField payload).length ≤ 96 ∧ GmcpPackage (cString (gmcpPackageField payload)) ∧
        GmcpJson (gmcpJsonField payload) ∧
        message = ⟨cString (gmcpPackageField payload), gmcpJsonField payload⟩ := by
  have hfield : payload.takeWhile (· ≠ 32) = gmcpPackageField payload := rfl
  unfold gmcpMessage
  simp only [hfield, drop_gmcpPackageField]
  rw [← gmcpPackageValid_iff, gmcpJson_iff]
  split_ifs with hlong hinvalid hbody
  · exact ⟨fun h => by simp at h, fun h => absurd h.1 (Nat.not_le.mpr hlong)⟩
  · refine ⟨fun h => by simp at h, fun h => ?_⟩
    simp [h.2.1] at hinvalid
  · refine ⟨fun h => by simp at h, fun h => ?_⟩
    obtain ⟨hshort, hvalid⟩ := h.2.2.1
    simp only [gt_iff_lt, Bool.or_eq_true, decide_eq_true_eq, Bool.not_eq_true'] at hbody
    rcases hbody with hbody | hbody
    · exact absurd hshort (Nat.not_le.mpr hbody)
    · simp [hvalid] at hbody
  · simp only [gt_iff_lt, Nat.not_lt, Bool.not_eq_true', Bool.not_eq_false, Bool.or_eq_true,
      decide_eq_true_eq, not_or] at hlong hinvalid hbody
    refine ⟨fun h => ⟨hlong, hinvalid, hbody, (Except.ok.inj h).symm⟩, ?_⟩
    rintro ⟨-, -, -, rfl⟩
    rfl

/-- `handle_gmcp` once a message has passed its checks. -/
def takeGmcp (hooks : Application α) (l : Link α) (message : PendingGmcpCoreMessage) : Link α :=
  let l :=
    if gmcpPackageEqual message.packageName (ascii "Core.Ping") then
      { l with wire := (l.wire.sendGmcpMessage l.caps.terminal (ascii "Core.Ping") none).2 }
    else l
  match l.caps.applicationSession, hooks.gmcp with
  | some session, some hook => l.callGmcp session hook message
  | _, _ => l.queuePreAuthGmcpCore hooks message.packageName message.jsonPayload

theorem handleGmcp_of_ok (hooks : Application α) {l : Link α} {payload : Bytes}
    (henabled : l.caps.enabled .local_ Telnet.Opt.gmcp = true)
    {message : PendingGmcpCoreMessage} (h : gmcpMessage payload = .ok message) :
    l.handleGmcp hooks payload = l.takeGmcp hooks message := by
  have hnonempty : payload ≠ [] := by
    rintro rfl
    have hpackage := (gmcpMessage_eq_ok_iff.mp h).2.1.nonempty
    simp [gmcpPackageField, cString] at hpackage
  simp only [handleGmcp, henabled, hnonempty, h]
  rfl

/-- A refused message is at most reported. -/
theorem handleGmcp_of_refused (hooks : Application α) (l : Link α) {payload : Bytes}
    (h : ∀ message, gmcpMessage payload ≠ .ok message) :
    l.handleGmcp hooks payload = l ∨
      ∃ detail, l.handleGmcp hooks payload = l.audit "gmcp_invalid_message" detail := by
  unfold handleGmcp
  split
  case isTrue => exact .inl rfl
  case isFalse =>
    cases hmessage : gmcpMessage payload with
    | error detail => exact .inr ⟨detail, rfl⟩
    | ok message => exact absurd hmessage (h message)

end Link

/-! ## What is sent is read back -/

theorem gmcpPackageField_gmcpPayload {name : Bytes} (hname : GmcpPackage name) (json : Bytes) :
    gmcpPackageField (Wire.gmcpPayload name json) = name := by
  have hspace : ∀ b ∈ name, decide (b ≠ 32) = true := fun b hb => by simp [hname.byte_ne b hb]
  rw [gmcpPackageField, Wire.gmcpPayload, List.takeWhile_append_of_pos hspace]
  split <;> simp

theorem gmcpJsonField_gmcpPayload {name : Bytes} (hname : GmcpPackage name) (json : Bytes) :
    gmcpJsonField (Wire.gmcpPayload name json) = json := by
  have hspace : ∀ b ∈ name, decide (b ≠ 32) = true := fun b hb => by simp [hname.byte_ne b hb]
  rw [gmcpJsonField, Wire.gmcpPayload, List.dropWhile_append_of_pos hspace]
  split <;> simp_all

theorem length_gmcpPayload {name json : Bytes} (hname : GmcpPackage name) (hjson : GmcpJson json) :
    (Wire.gmcpPayload name json).length ≤ Wire.subnegotiationMaxBytes := by
  have hname := hname.short
  have hjson := hjson.short
  have hmax : Wire.subnegotiationMaxBytes = 4096 := rfl
  unfold Wire.gmcpPayload
  split <;> simp only [List.length_append, List.length_cons, List.length_nil] <;> omega

theorem GmcpPackage.cString_eq {name : Bytes} (h : GmcpPackage name) : cString name = name :=
  List.takeWhile_eq_self_iff.mpr fun b hb => by simp [h.byte_ne b hb]

theorem gmcpMessage_gmcpPayload {name json : Bytes} (hname : GmcpPackage name)
    (hjson : GmcpJson json) :
    Link.gmcpMessage (Wire.gmcpPayload name json) = .ok ⟨name, json⟩ := by
  rw [Link.gmcpMessage_eq_ok_iff, gmcpPackageField_gmcpPayload hname,
    gmcpJsonField_gmcpPayload hname, hname.cString_eq]
  exact ⟨hname.short, hname, hjson, rfl⟩

namespace Wire

variable {σ : Type}

theorem sendGmcpMessage_of_valid (w : Wire σ) {t : TelnetTerminalInfo} (hgmcp : t.gmcp = true)
    {name : Bytes} {json : Option Bytes} (hname : GmcpPackage name)
    (hjson : GmcpJson (json.getD [])) :
    w.sendGmcpMessage t name json =
      (0, w.sendSubnegotiation Telnet.Opt.gmcp (gmcpPayload name (json.getD []))) := by
  have hlength := length_gmcpPayload hname hjson
  obtain ⟨hshort, hvalid⟩ := (gmcpJson_iff _).mp hjson
  have hfits : ¬ (json.getD []).length > gmcpJsonMaxBytes := Nat.not_lt.mpr hshort
  have hroom : ¬ (gmcpPayload name (json.getD [])).length > subnegotiationMaxBytes :=
    Nat.not_lt.mpr hlength
  simp [sendGmcpMessage, hgmcp, (gmcpPackageValid_iff name).mpr hname, hfits, hvalid, hroom]

theorem sendGmcpMessage_of_invalid (w : Wire σ) (t : TelnetTerminalInfo) {name : Bytes}
    {json : Option Bytes} (h : ¬ (GmcpPackage name ∧ GmcpJson (json.getD []))) :
    w.sendGmcpMessage t name json = (-1, w) := by
  rw [← gmcpPackageValid_iff, gmcpJson_iff] at h
  unfold sendGmcpMessage
  dsimp only
  split
  case isTrue => rfl
  case isFalse hname =>
    have hvalid : gmcpPackageValid name = true := by simp_all
    have hbody : json.getD [] ≠ [] := by
      intro hempty
      refine h ⟨hvalid, ?_⟩
      rw [hempty]
      exact ⟨Nat.zero_le _, rfl⟩
    rw [if_pos]
    simp only [hvalid, true_and, not_and_or] at h
    simp only [Bool.and_eq_true, Bool.or_eq_true, decide_eq_true_eq, Bool.not_eq_true']
    refine ⟨hbody, h.imp Nat.not_le.mp Bool.eq_false_iff.mpr⟩

end Wire

namespace TelnetSession

/-- A message that is sent is the message the other side acts on, and a message
that is outside the grammar is not sent. A closed session writes nothing. -/
theorem gmcp_round_trip {σ : Type} (w : Wire σ) {t : TelnetTerminalInfo} (hgmcp : t.gmcp = true)
    (name : Bytes) (json : Option Bytes) :
    (Wire.gmcpPackageValid name = true → GmcpJson (json.getD []) →
      (w.sendGmcpMessage t name json).1 = 0 ∧
      (Wire.gmcpPayload name (json.getD [])).length ≤ 4096 ∧
      (w.closeRequested = true → (w.sendGmcpMessage t name json).2 = w) ∧
      (w.closeRequested = false →
        ∃ frame, (w.sendGmcpMessage t name json).2.written = w.written ++ frame ∧
          ∀ {β α : Type} {host : Host β α} {s : TelnetSession β α}, s.conn.closed = false →
            s.conn.parsing.parser = .data →
            s.conn.link.caps.enabled .local_ Telnet.Opt.gmcp = true →
            ∀ {chunks : List (Bytes × UInt64)}, chunks.flatMap Prod.fst = frame →
            AdmitsAll host s chunks →
            s.conn.subnegotiations host (timed chunks) =
                [(Telnet.Opt.gmcp, Wire.gmcpPayload name (json.getD []))] ∧
              (s.feedAll host chunks).conn = { s.conn.collecting Telnet.Opt.gmcp [] .data with
                link := s.conn.link.takeGmcp host.application ⟨name, json.getD []⟩ })) ∧
    (¬ (Wire.gmcpPackageValid name = true ∧ GmcpJson (json.getD [])) →
      w.sendGmcpMessage t name json = (-1, w)) := by
  rw [gmcpPackageValid_iff]
  refine ⟨fun hname hjson => ?_, Wire.sendGmcpMessage_of_invalid w t⟩
  rw [Wire.sendGmcpMessage_of_valid w hgmcp hname hjson]
  have hfits := length_gmcpPayload hname hjson
  refine ⟨rfl, hfits, fun hclosed => ?_, fun hsender => ?_⟩
  · simp [Wire.sends, hclosed]
  · refine ⟨_, Wire.written_sendSubnegotiation hsender _ _, ?_⟩
    intro β α host s hopen hdata henabled chunks hchunks hadmits
    have hstream : (timed chunks).map Prod.fst = (TelnetGrammar.Token.subnegotiation
        Telnet.Opt.gmcp (Wire.gmcpPayload name (json.getD []))).encode := by
      rw [map_fst_timed, hchunks]
    have htakes : Conn.Takes host s.conn (timed chunks) _ _ := .frame hopen hdata hfits hstream
    refine ⟨htakes.calls, ?_⟩
    rw [feedAll_of_admits hadmits, htakes.state, ← Link.handleGmcp_of_ok host.application henabled
      (gmcpMessage_gmcpPayload hname hjson)]
    rfl

/-- A session whose client speaks GMCP. -/
def speaking : TelnetSession Unit Unit :=
  (granted.feedAt .granting [Telnet.iac, Telnet.do_, Telnet.Opt.gmcp] 1).2

def pingFrame : Bytes := [255, 250, 201] ++ ascii "Core.Ping []" ++ [255, 240]

theorem gmcp_round_trip_ping :
    (speaking.feedAll .granting [(pingFrame, 2)]).conn.link =
      speaking.conn.link.takeGmcp Host.granting.application ⟨ascii "Core.Ping", ascii "[]"⟩ := by
  have hgmcp : speaking.conn.terminal.gmcp = true := by decide +kernel
  have hname : Wire.gmcpPackageValid (ascii "Core.Ping") = true := by decide
  have hjson : GmcpJson (ascii "[]") := (gmcpJson_iff _).mpr ⟨by decide, by decide⟩
  have hsender : speaking.conn.link.wire.closeRequested = false := by decide +kernel
  have hopen : speaking.conn.closed = false := by decide +kernel
  have hdata : speaking.conn.parsing.parser = .data := by decide +kernel
  have henabled : speaking.conn.link.caps.enabled .local_ Telnet.Opt.gmcp = true := by
    decide +kernel
  have hwritten : (speaking.conn.link.wire.sendGmcpMessage speaking.conn.terminal
      (ascii "Core.Ping") (some (ascii "[]"))).2.written =
        speaking.conn.link.wire.written ++ pingFrame := by decide +kernel
  have hadmits : AdmitsAll .granting speaking [(pingFrame, 2)] := by
    refine admitsAll_cons.mpr ⟨?_, admitsAll_nil _ _⟩
    unfold Admits
    decide +kernel
  generalize speaking = s at *
  obtain ⟨-, -, -, hsent⟩ := (gmcp_round_trip s.conn.link.wire hgmcp (ascii "Core.Ping")
    (some (ascii "[]"))).1 hname hjson
  obtain ⟨frame, hframe, hread⟩ := hsent hsender
  obtain rfl : pingFrame = frame := List.append_cancel_left (hwritten.symm.trans hframe)
  exact congrArg Conn.link (hread hopen hdata henabled (List.append_nil _) hadmits).2

end TelnetSession

/-! ## Acceptance and the grammar -/

namespace Link

theorem cString_eq_self {bytes : Bytes} (h : (0 : UInt8) ∉ bytes) : cString bytes = bytes :=
  List.takeWhile_eq_self_iff.mpr fun _ hb => decide_eq_true fun hzero => h (hzero ▸ hb)

/-- A player in game whose client speaks GMCP. -/
def chatting : Link Unit :=
  { TelnetSession.speaking.conn.link with caps.applicationSession := some 7 }

theorem enabled_chatting : chatting.caps.enabled .local_ Telnet.Opt.gmcp = true := by
  decide +kernel

/-- A message the application is called with was not refused. -/
theorem handleGmcp_chatting {payload : Bytes} {message : PendingGmcpCoreMessage}
    (h : gmcpMessage payload = .ok message) :
    (chatting.handleGmcp .idle payload).wire.applicationCalls =
      chatting.wire.applicationCalls ++ [gmcpCall 7 message] := by
  have hnonempty : payload ≠ [] := by
    rintro rfl
    have hpackage := (gmcpMessage_eq_ok_iff.mp h).2.1.nonempty
    simp [gmcpPackageField, cString] at hpackage
  have haccepted : acceptedGmcp chatting.caps payload = some message := by
    simp [acceptedGmcp, enabled_chatting, hnonempty, h, Except.toOption]
  exact (handleGmcp_attached .idle haccepted rfl rfl).2.applicationCalls

/-- Acceptance is the grammar, with the two fields as the message, for every payload
but those whose package field has a zero byte behind a valid name. -/
theorem gmcp_acceptance_iff (payload : Bytes) :
    (∀ {α : Type} (hooks : Application α) (l : Link α),
      l.caps.enabled .local_ Telnet.Opt.gmcp = true →
      (GmcpGrammar payload → l.handleGmcp hooks payload =
        l.takeGmcp hooks ⟨gmcpPackageField payload, gmcpJsonField payload⟩) ∧
      (¬ GmcpGrammar payload → l.handleGmcp hooks payload = l ∨
        ∃ detail, l.handleGmcp hooks payload = l.audit "gmcp_invalid_message" detail)) ↔
    (0 ∉ gmcpPackageField payload ∨ 96 < (gmcpPackageField payload).length ∨
      Wire.gmcpPackageValid (cString (gmcpPackageField payload)) = false ∨
      ¬ GmcpJson (gmcpJsonField payload)) := by
  rw [← Bool.not_eq_true, gmcpPackageValid_iff]
  constructor
  · intro hexact
    by_contra hcond
    simp only [not_or, not_not, Nat.not_lt] at hcond
    obtain ⟨hzero, hshort, hpackage, hjson⟩ := hcond
    have hmessage := gmcpMessage_eq_ok_iff.mpr ⟨hshort, hpackage, hjson, rfl⟩
    have hno : ¬ GmcpGrammar payload := fun h => (h.package.byte_ne 0 hzero).2 rfl
    have hcalls := handleGmcp_chatting hmessage
    rcases (hexact .idle chatting enabled_chatting).2 hno with hsame | ⟨detail, hsame⟩
    · rw [hsame] at hcalls
      simp at hcalls
    · rw [hsame] at hcalls
      simp only [audit, Wire.audit, Wire.emit, Wire.applicationCalls, List.filterMap_append,
        List.append_cancel_left_eq] at hcalls
      exact List.cons_ne_nil _ _ hcalls.symm
  · intro hcond α hooks l henabled
    refine ⟨fun h => ?_, fun hno => handleGmcp_of_refused hooks l fun message hmessage => ?_⟩
    · have hself := cString_eq_self fun hzero => (h.package.byte_ne 0 hzero).2 rfl
      refine handleGmcp_of_ok hooks henabled (gmcpMessage_eq_ok_iff.mpr ?_)
      rw [hself]
      exact ⟨h.package.short, h.package, h.json, rfl⟩
    · obtain ⟨hshort, hpackage, hjson, -⟩ := gmcpMessage_eq_ok_iff.mp hmessage
      rcases hcond with hzero | hlong | hbad | hbad
      · rw [cString_eq_self hzero] at hpackage
        exact hno ⟨hpackage, hjson⟩
      · omega
      · exact hbad hpackage
      · exact hbad hjson

/-- A package field that goes on behind a zero byte reaches the application without it. -/
theorem gmcp_accepts_behind_zero :
    ¬ GmcpGrammar (ascii "Core" ++ 0 :: ascii "junk") ∧
      (chatting.handleGmcp .idle (ascii "Core" ++ 0 :: ascii "junk")).wire.applicationCalls =
        chatting.wire.applicationCalls ++ [gmcpCall 7 ⟨ascii "Core", []⟩] := by
  refine ⟨fun h => ?_, ?_⟩
  · exact (h.package.byte_ne 0 (by decide)).2 rfl
  · have hmessage : gmcpMessage (ascii "Core" ++ 0 :: ascii "junk") = .ok ⟨ascii "Core", []⟩ := by
      decide
    exact handleGmcp_chatting hmessage

end Link

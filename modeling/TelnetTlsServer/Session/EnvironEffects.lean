-- SUMMARY: What NEW-ENVIRON entries do to a session: rejected texts, and reports that are given up half way.
import TelnetTlsServer.Session.EnvironGrammar
import TelnetTlsServer.Session.Mnes

/-!
# What NEW-ENVIRON entries leave behind

A text that is not printable is copied into the live field up to its first bad
byte, and the entries of a report are applied while the bytes behind them are
still unread. So a rejected text can change the stored one, and a report that is
given up can have set something. Both are settled here exactly: which rejected
texts change nothing, and which malformed reports have no effect on any session.
-/

/-! ## Texts -/

/-- The three text fields a client can set. -/
inductive ClientString where
  | clientName | clientVersion | terminalType
deriving DecidableEq, Repr

namespace ClientString

def name : ClientString → Bytes
  | clientName => ascii "CLIENT_NAME"
  | clientVersion => ascii "CLIENT_VERSION"
  | terminalType => ascii "TERMINAL_TYPE"

def stored (t : TelnetTerminalInfo) : ClientString → NameBuffer
  | clientName => t.clientName
  | clientVersion => t.clientVersion
  | terminalType => t.terminalType

def store (t : TelnetTerminalInfo) (buffer : NameBuffer) : ClientString → TelnetTerminalInfo
  | clientName => { t with clientName := buffer }
  | clientVersion => { t with clientVersion := buffer }
  | terminalType => { t with terminalType := buffer }

theorem stored_store (t : TelnetTerminalInfo) (buffer : NameBuffer) (field : ClientString) :
    stored (store t buffer field) field = buffer := by
  cases field <;> rfl

theorem store_eq_self_iff (t : TelnetTerminalInfo) (buffer : NameBuffer) (field : ClientString) :
    store t buffer field = t ↔ buffer = stored t field := by
  constructor
  · intro h
    rw [← stored_store t buffer field, h]
  · rintro rfl
    cases field <;> rfl

end ClientString

/-- The type of a terminal tells about its colours only. -/
theorem terminalType_infer (t : TelnetTerminalInfo) (terminalType : Bytes) :
    (inferTerminalTypeCapabilities t terminalType).terminalType = t.terminalType := by
  unfold inferTerminalTypeCapabilities
  split_ifs <;> rfl

theorem ne_zero_of_isPrintableAscii {b : UInt8} (h : isPrintableAscii b = true) : b ≠ 0 := by
  rintro rfl
  exact absurd h (by decide)

/-- A rejected text leaves the field alone if and only if it was too long to be
looked at, or the printable part in front of the bad byte was there already. -/
theorem copyPrintableAscii_rejected_iff {n : Nat} {output : Buffer n} {input : Bytes}
    (h : (copyPrintableAscii output input).1 = false) :
    (copyPrintableAscii output input).2 = output ↔
      n ≤ input.length ∨ input.takeWhile isPrintableAscii <+: output.string := by
  have hprintable : ∀ b ∈ input.takeWhile isPrintableAscii, b ≠ 0 :=
    fun b hb => ne_zero_of_isPrintableAscii (List.mem_takeWhile_imp hb)
  have hle : (input.takeWhile isPrintableAscii).length ≤ input.length :=
    (List.takeWhile_sublist _).length_le
  unfold copyPrintableAscii at h ⊢
  split at h
  case isTrue hlong => simp only [hlong, if_true, true_or]
  case isFalse hfits =>
    dsimp only at h
    split at h
    case isTrue hbad =>
      rw [if_neg hfits]
      dsimp only
      rw [if_pos hbad, Buffer.copy_eq_self_iff (by omega), Buffer.string,
        prefix_cString_iff hprintable]
      exact ⟨.inr, fun hor => hor.resolve_left hfits⟩
    case isFalse => cases h

/-- A name that is equal to `text` is compared with any other as `text` is. -/
theorem bytesEqualIgnoreCase_congr {name text : Bytes} (h : bytesEqualIgnoreCase name text = true)
    (other : Bytes) : bytesEqualIgnoreCase name other = bytesEqualIgnoreCase text other := by
  rw [Bool.eq_iff_iff, bytesEqualIgnoreCase_iff, bytesEqualIgnoreCase_iff,
    bytesEqualIgnoreCase_iff.mp h]

namespace Capability

/-- Only the name without its case counts. -/
theorem applyNewEnvironValue_congr (c : Capability) (token : UInt8) {name text : Bytes}
    (h : bytesEqualIgnoreCase name text = true) (value : Bytes) :
    c.applyNewEnvironValue token name value = c.applyNewEnvironValue token text value := by
  simp only [applyNewEnvironValue, bytesEqualIgnoreCase_congr h]

/-- A text is stored as far as it was copied; a terminal type that was copied whole
also tells about colours. -/
theorem applyNewEnvironValue_string (c : Capability) (token : UInt8) (field : ClientString)
    {name : Bytes} (h : bytesEqualIgnoreCase name field.name = true) (value : Bytes) :
    ∃ t, c.applyNewEnvironValue token name value = { c.observeMnes token with terminal := t } ∧
      field.stored t = (copyPrintableAscii (field.stored c.terminal) value).2 ∧
      ((copyPrintableAscii (field.stored c.terminal) value).1 = false →
        t = field.store c.terminal (copyPrintableAscii (field.stored c.terminal) value).2) := by
  rw [applyNewEnvironValue_congr c token h, ← terminal_observeMnes c token, applyNewEnvironValue]
  generalize c.observeMnes token = observed
  cases field with
  | clientName =>
    rw [if_pos (by decide)]
    exact ⟨_, rfl, rfl, fun _ => rfl⟩
  | clientVersion =>
    rw [if_neg (by decide), if_pos (by decide)]
    exact ⟨_, rfl, rfl, fun _ => rfl⟩
  | terminalType =>
    rw [if_neg (by decide), if_neg (by decide), if_pos (by decide)]
    simp only [ClientString.stored]
    rcases copyPrintableAscii observed.terminal.terminalType value with ⟨_ | _, buffer⟩
    · exact ⟨_, rfl, rfl, fun _ => rfl⟩
    · exact ⟨_, rfl, terminalType_infer _ _, fun h => absurd h (by simp)⟩

/-- A rejected text leaves the terminal as it was if and only if it was too long to
be looked at or its printable beginning is how the stored text begins. Beside the
terminal, only the use of the vocabulary is noted. -/
theorem rejected_string_kept_iff (c : Capability) (token : UInt8) (field : ClientString)
    {name : Bytes} (hname : bytesEqualIgnoreCase name field.name = true) {value : Bytes}
    (hrejected : (copyPrintableAscii (field.stored c.terminal) value).1 = false) :
    ((c.applyNewEnvironValue token name value).terminal = c.terminal ↔
        terminalTypeMax + 1 ≤ value.length ∨
          value.takeWhile isPrintableAscii <+: (field.stored c.terminal).string) ∧
      c.applyNewEnvironValue token name value =
        { c with
          mnesObserved := c.mnesObserved || token = newEnvironVar
          terminal := (c.applyNewEnvironValue token name value).terminal } := by
  obtain ⟨t, happlied, -, hstored⟩ := c.applyNewEnvironValue_string token field hname value
  rw [happlied]
  constructor
  · rw [hstored hrejected, ClientString.store_eq_self_iff,
      copyPrintableAscii_rejected_iff hrejected]
  · rw [← mnesObserved_observeMnes]
    unfold observeMnes
    split <;> rfl

/-- A client that has reported its name. -/
def named : Capability :=
  ((Conn.initial .granting () ()).feedBytes .granting 1 ([255, 251, 39] ++ [255, 250, 39, 0, 0] ++
    ascii "CLIENT_NAME" ++ [1] ++ ascii "Mudlet" ++ [255, 240])).link.caps

/-- The first letters are the stored ones. -/
theorem rejected_string_kept_named :
    (named.applyNewEnvironValue newEnvironUservar (ascii "client_name")
      (ascii "Mud" ++ [27])).terminal = named.terminal := by
  have hrejected : (copyPrintableAscii (ClientString.clientName.stored named.terminal)
      (ascii "Mud" ++ [27])).1 = false := by decide +kernel
  have hbegins : (ascii "Mud" ++ [27]).takeWhile isPrintableAscii <+:
      (ClientString.clientName.stored named.terminal).string := by decide +kernel
  exact (named.rejected_string_kept_iff newEnvironUservar .clientName (by decide) hrejected).1.mpr
    (.inr hbegins)

/-- A rejected name and the stored one are mixed. -/
theorem rejected_string_mixed :
    (copyPrintableAscii named.terminal.clientName (ascii "Zork" ++ [27])).1 = false ∧
      named.terminal.clientName.string = ascii "Mudlet" ∧
      (named.applyNewEnvironValue newEnvironVar (ascii "CLIENT_NAME")
        (ascii "Zork" ++ [27])).terminal.clientName.string = ascii "Zorket" := by
  decide +kernel

end Capability

/-! ## Entries without an effect -/

/-- The five facts a client can set as a USERVAR only. -/
inductive ClientFlag where
  | screenReader | osc8 | osc8Send | osc8Prompt | osc8Tooltip
deriving DecidableEq, Repr

namespace ClientFlag

def name : ClientFlag → Bytes
  | screenReader => ascii "SCREEN_READER"
  | osc8 => ascii "OSC_HYPERLINKS"
  | osc8Send => ascii "OSC_HYPERLINKS_SEND"
  | osc8Prompt => ascii "OSC_HYPERLINKS_PROMPT"
  | osc8Tooltip => ascii "OSC_HYPERLINKS_TOOLTIP"

def stored (t : TelnetTerminalInfo) : ClientFlag → Bool
  | screenReader => t.screenReader
  | osc8 => t.osc8
  | osc8Send => t.osc8Send
  | osc8Prompt => t.osc8Prompt
  | osc8Tooltip => t.osc8Tooltip

end ClientFlag

/-- An entry that sets nothing, whatever the session has stored. -/
structure EnvironEntry.Inert (e : EnvironEntry) : Prop where
  silent : e.speaksMnes = false
  flags : e.mtts? = none
  /-- A text that is too long, or whose first byte is bad already. -/
  text : ∀ field : ClientString, bytesEqualIgnoreCase e.name field.name = true →
    terminalTypeMax + 1 ≤ e.value.length ∨ ∃ b ∈ e.value.head?, isPrintableAscii b = false
  charset : bytesEqualIgnoreCase e.name (ascii "CHARSET") = true →
    bytesEqualIgnoreCase e.value (ascii "UTF-8") = false
  flag : ∀ flag : ClientFlag, bytesEqualIgnoreCase e.name flag.name = true →
    e.token ≠ newEnvironUservar

namespace Capability

/-- The terminal, `charset_utf8` and `mnes_observed`. -/
def reported (c : Capability) : TelnetTerminalInfo × Bool × Bool :=
  (c.terminal, c.charsetUtf8, c.mnesObserved)

theorem applyNewEnvironValue_flag (c : Capability) (flag : ClientFlag) {name : Bytes}
    (h : bytesEqualIgnoreCase name flag.name = true) (value : Bytes) :
    flag.stored (c.applyNewEnvironValue newEnvironUservar name value).terminal =
      envValueEnabled value := by
  rw [applyNewEnvironValue_congr c newEnvironUservar h]
  cases flag <;> rfl

theorem applyNewEnvironValue_utf8 (c : Capability) (token : UInt8) {name value : Bytes}
    (h : bytesEqualIgnoreCase name (ascii "CHARSET") = true)
    (hvalue : bytesEqualIgnoreCase value (ascii "UTF-8") = true) :
    (c.applyNewEnvironValue token name value).charsetUtf8 = true := by
  rw [applyNewEnvironValue_congr c token h, applyNewEnvironValue, if_neg (by decide),
    if_neg (by decide), if_neg (by decide), if_pos (by decide), if_pos hvalue]
  rfl

/-- A text that is looked at determines the first byte of its field. -/
theorem head_copyPrintableAscii {n : Nat} (output : Buffer n) {input : Bytes}
    (hfits : input.length < n) (hfirst : ∀ b ∈ input.head?, isPrintableAscii b = true) :
    (copyPrintableAscii output input).2.bytes.head? = some (input.head?.getD 0) := by
  have hle : (input.takeWhile isPrintableAscii).length ≤ input.length :=
    (List.takeWhile_sublist _).length_le
  unfold copyPrintableAscii
  rw [if_neg (Nat.not_le.mpr hfits)]
  cases input with
  | nil => exact Buffer.head_copy hfits
  | cons b rest =>
    rw [List.takeWhile_cons_of_pos (hfirst b rfl)] at hle ⊢
    dsimp only
    split
    · exact Buffer.head_copy (hle.trans (Nat.le_of_lt hfits))
    · have hroom : (b :: (rest.takeWhile isPrintableAscii ++ [0])).length ≤ n := by
        simp only [List.length_append, List.length_cons, List.length_nil] at hle hfits ⊢
        omega
      exact Buffer.head_copy hroom

end Capability

namespace EnvironEntry.Inert

variable {e : EnvironEntry}

theorem of_nameless (h : e.name = []) : e.Inert where
  silent := by
    have hany : vocabulary.any (bytesEqualIgnoreCase []) = false := by decide
    rw [speaksMnes, h, hany, Bool.and_false]
  flags := if_neg (by rw [h]; decide)
  text field hfield := absurd hfield (by rw [h]; cases field <;> decide)
  charset hcharset := absurd hcharset (by rw [h]; decide)
  flag flag hflag := absurd hflag (by rw [h]; cases flag <;> decide)

theorem observeMnes_eq (h : e.Inert) {text : Bytes} (hmem : text ∈ vocabulary)
    (htext : bytesEqualIgnoreCase e.name text = true) (c : Capability) :
    c.observeMnes e.token = c := by
  have hany : vocabulary.any (bytesEqualIgnoreCase e.name) = true :=
    List.any_eq_true.mpr ⟨text, hmem, htext⟩
  have hsilent := h.silent
  rw [speaksMnes, hany, Bool.and_true, decide_eq_false_iff_not] at hsilent
  exact if_neg hsilent

theorem copyPrintableAscii_eq (h : e.Inert) {field : ClientString}
    (hfield : bytesEqualIgnoreCase e.name field.name = true) (output : NameBuffer) :
    copyPrintableAscii output e.value = (false, output) := by
  unfold copyPrintableAscii
  rcases h.text field hfield with hlong | ⟨b, hb, hbad⟩
  · exact if_pos hlong
  · obtain ⟨rest, hvalue⟩ : ∃ rest, e.value = b :: rest :=
      ⟨_, List.eq_cons_of_mem_head? hb⟩
    have hnone : e.value.takeWhile isPrintableAscii = [] := by
      rw [hvalue]
      exact List.takeWhile_cons_of_neg (by simp [hbad])
    have hshort : ([] : Bytes).length < e.value.length := by simp [hvalue]
    split
    · rfl
    · rw [hnone]
      dsimp only
      rw [if_pos hshort, (Buffer.copy_eq_self_iff (Nat.zero_le _)).mpr List.nil_prefix]

theorem applyEntry_eq (h : e.Inert) (c : Capability) : c.applyEntry e = c := by
  unfold Capability.applyEntry
  by_cases htext : ∃ field : ClientString, bytesEqualIgnoreCase e.name field.name = true
  · obtain ⟨field, hfield⟩ := htext
    have hmem : field.name ∈ vocabulary := by cases field <;> decide
    have hcopy := h.copyPrintableAscii_eq hfield (field.stored c.terminal)
    obtain ⟨t, happlied, -, hstored⟩ := c.applyNewEnvironValue_string e.token field hfield e.value
    rw [happlied, hstored (congrArg Prod.fst hcopy), hcopy, h.observeMnes_eq hmem hfield,
      (ClientString.store_eq_self_iff _ _ _).mpr rfl]
  push Not at htext
  refine (if_neg (htext .clientName)).trans ((if_neg (htext .clientVersion)).trans
    ((if_neg (htext .terminalType)).trans ?_))
  split
  case isTrue hcharset =>
    rw [h.observeMnes_eq (by decide) hcharset, h.charset hcharset]
    rfl
  split
  case isTrue hmtts =>
    have hnone : parseDecimalU32 e.value = none := by
      have hflags := h.flags
      rwa [mtts?, if_pos hmtts] at hflags
    rw [h.observeMnes_eq (by decide) hmtts, hnone]
  split
  case isTrue => rfl
  case isFalse htoken =>
    have hother : ∀ flag : ClientFlag, ¬ bytesEqualIgnoreCase e.name flag.name = true :=
      fun flag hflag => htoken (h.flag flag hflag)
    exact (if_neg (hother .screenReader)).trans ((if_neg (hother .osc8)).trans
      ((if_neg (hother .osc8Send)).trans ((if_neg (hother .osc8Prompt)).trans
        (if_neg (hother .osc8Tooltip)))))

theorem foldl_eq {entries : List EnvironEntry} (h : ∀ e ∈ entries, e.Inert) (c : Capability) :
    entries.foldl .applyEntry c = c := by
  induction entries with
  | nil => rfl
  | cons e entries ih =>
    obtain ⟨he, hrest⟩ := List.forall_mem_cons.mp h
    rw [List.foldl_cons, he.applyEntry_eq, ih hrest]

end EnvironEntry.Inert

/-! ## Reports without an effect -/

theorem EnvironEntry.eq_of_mem_calls {e e' : EnvironEntry} (h : e ∈ e'.calls) : e' = e := by
  unfold calls at h
  split at h
  case isTrue => exact (List.mem_singleton.mp h).symm
  case isFalse => exact absurd h List.not_mem_nil

namespace Capability

/-- Two states that no entry with an effect can both have left: the first has not
been told of UTF-8 or the vocabulary, and they differ in every other field. -/
structure Apart (c c' : Capability) : Prop where
  mnes : c.mnesObserved = false
  charset : c.charsetUtf8 = false
  mtts : c.terminal.mttsFlags ≠ c'.terminal.mttsFlags
  text : ∀ field : ClientString,
    (field.stored c.terminal).bytes.head? ≠ (field.stored c'.terminal).bytes.head?
  flag : ∀ flag : ClientFlag, flag.stored c.terminal ≠ flag.stored c'.terminal

/-- An entry that can leave both states behind sets nothing. -/
theorem Apart.inert {c c' before before' : Capability} (h : c.Apart c') {e : EnvironEntry}
    (hc : (before.applyEntry e).reported = c.reported)
    (hc' : (before'.applyEntry e).reported = c'.reported) : e.Inert := by
  obtain ⟨hterminal, hcharset, hmnes⟩ : (before.applyEntry e).terminal = c.terminal ∧
      (before.applyEntry e).charsetUtf8 = c.charsetUtf8 ∧
      (before.applyEntry e).mnesObserved = c.mnesObserved := by
    simpa only [reported, Prod.mk.injEq] using hc
  have hterminal' : (before'.applyEntry e).terminal = c'.terminal := congrArg Prod.fst hc'
  refine ⟨?silent, ?flags, ?text, ?charset, ?flag⟩
  case silent =>
    rw [(mnes_applyEntry before e).1, h.mnes, Bool.or_eq_false_iff] at hmnes
    exact hmnes.2
  case flags =>
    rw [Option.eq_none_iff_forall_ne_some]
    intro flags hflags
    refine h.mtts ?_
    rw [← hterminal, ← hterminal', (mnes_applyEntry before e).2.1, (mnes_applyEntry before' e).2.1,
      hflags]
    rfl
  case text =>
    intro field hfield
    by_contra hlooked
    push Not at hlooked
    have hhead : ∀ d : Capability, (field.stored (d.applyEntry e).terminal).bytes.head? =
        some (e.value.head?.getD 0) := by
      intro d
      obtain ⟨t, happlied, hstored, -⟩ := d.applyNewEnvironValue_string e.token field hfield e.value
      rw [applyEntry, happlied]
      dsimp only
      rw [hstored]
      exact head_copyPrintableAscii _ hlooked.1 fun b hb => by simpa using hlooked.2 b hb
    refine h.text field ?_
    rw [← hterminal, ← hterminal', hhead, hhead]
  case charset =>
    intro hname
    rw [Bool.eq_false_iff]
    intro hvalue
    have hset : (before.applyEntry e).charsetUtf8 = true :=
      applyNewEnvironValue_utf8 before e.token hname hvalue
    rw [hcharset, h.charset] at hset
    exact Bool.false_ne_true hset
  case flag =>
    intro flag hname htoken
    have hset : ∀ d : Capability, flag.stored (d.applyEntry e).terminal = envValueEnabled e.value := by
      intro d
      rw [applyEntry, htoken]
      exact d.applyNewEnvironValue_flag flag hname e.value
    refine h.flag flag ?_
    rw [← hterminal, ← hterminal', hset, hset]

/-- The last entry with an effect would show. -/
theorem Apart.inert_of_foldl {c c' : Capability} (h : c.Apart c') {entries : List EnvironEntry}
    {before before' : Capability} (hc : (entries.foldl applyEntry before).reported = c.reported)
    (hc' : (entries.foldl applyEntry before').reported = c'.reported) : ∀ e ∈ entries, e.Inert := by
  induction entries using List.reverseRecOn with
  | nil => exact fun e he => absurd he List.not_mem_nil
  | append_singleton entries last ih =>
    rw [List.foldl_concat] at hc hc'
    have hlast := h.inert hc hc'
    rw [hlast.applyEntry_eq] at hc hc'
    intro e he
    rcases List.mem_append.mp he with he | he
    · exact ih hc hc' e he
    · exact List.mem_singleton.mp he ▸ hlast

end Capability

/-- The entries a report that is given up begins with are, up to nameless ones, the
entries that are applied. -/
theorem inert_beginsWith_iff {report : Bytes} {applied : List EnvironEntry}
    (h : environReport report.length report = (applied, false)) :
    (∀ entries, BeginsWith report entries → ∀ e ∈ entries, e.Inert) ↔ ∀ e ∈ applied, e.Inert := by
  constructor
  · intro hinert e he
    obtain ⟨entries, hbegins, rfl⟩ := beginsWith_of_environReport h
    obtain ⟨e', he', hmem⟩ := List.mem_flatMap.mp he
    exact EnvironEntry.eq_of_mem_calls hmem ▸ hinert entries hbegins e' he'
  · intro hinert entries hbegins e he
    by_cases hname : e.name = []
    · exact .of_nameless hname
    · have hcalls : e ∈ entries.flatMap EnvironEntry.calls :=
        List.mem_flatMap.mpr ⟨e, he, by simp [EnvironEntry.calls, hname]⟩
      have happlied := hbegins.applied
      rw [h] at happlied
      exact hinert e (happlied.subset hcalls)

namespace Conn

/-- A client that has offered NEW-ENVIRON and reported nothing. -/
def unreported : Conn Unit Unit :=
  (Conn.initial .granting () ()).feedBytes .granting 1 [255, 251, 39]

/-- The same client after a report that sets every field. -/
def fullyReported : Conn Unit Unit :=
  unreported.feedBytes .granting 1 ([255, 250, 39, 0] ++
    [3] ++ ascii "CLIENT_NAME" ++ [1] ++ ascii "A" ++
    [3] ++ ascii "CLIENT_VERSION" ++ [1] ++ ascii "1" ++
    [3] ++ ascii "TERMINAL_TYPE" ++ [1] ++ ascii "A" ++ [3] ++ ascii "MTTS" ++ [1] ++ ascii "1" ++
    [3] ++ ascii "SCREEN_READER" ++ [1] ++ ascii "1" ++
    [3] ++ ascii "OSC_HYPERLINKS" ++ [1] ++ ascii "1" ++
    [3] ++ ascii "OSC_HYPERLINKS_SEND" ++ [1] ++ ascii "1" ++
    [3] ++ ascii "OSC_HYPERLINKS_PROMPT" ++ [1] ++ ascii "1" ++
    [3] ++ ascii "OSC_HYPERLINKS_TOOLTIP" ++ [1] ++ ascii "1" ++ [255, 240])

theorem reachable_unreported : (system Host.granting).Reachable unreported :=
  reachable_feedBytes (.init ⟨(), (), rfl⟩) 1 _

theorem reachable_fullyReported : (system Host.granting).Reachable fullyReported :=
  reachable_feedBytes reachable_unreported 1 _

theorem apart_reported :
    (unreported.link.caps.enabled .remote Telnet.Opt.newEnviron = true ∧
        fullyReported.link.caps.enabled .remote Telnet.Opt.newEnviron = true) ∧
      unreported.link.caps.Apart fullyReported.link.caps := by
  -- One evaluation of the two sessions for all fields.
  have hfields : let c := unreported.link.caps
      let c' := fullyReported.link.caps
      (c.enabled .remote Telnet.Opt.newEnviron = true ∧
        c'.enabled .remote Telnet.Opt.newEnviron = true) ∧ c.mnesObserved = false ∧ c.charsetUtf8 = false ∧
        c.terminal.mttsFlags ≠ c'.terminal.mttsFlags ∧
        (∀ field ∈ [ClientString.clientName, .clientVersion, .terminalType],
          (field.stored c.terminal).bytes.head? ≠ (field.stored c'.terminal).bytes.head?) ∧
        ∀ flag ∈ [ClientFlag.screenReader, .osc8, .osc8Send, .osc8Prompt, .osc8Tooltip],
          flag.stored c.terminal ≠ flag.stored c'.terminal := by
    decide +kernel
  obtain ⟨hon, hmnes, hcharset, hmtts, htext, hflag⟩ := hfields
  exact ⟨hon, hmnes, hcharset, hmtts, fun field => htext field (by cases field <;> decide),
    fun flag => hflag flag (by cases flag <;> decide)⟩

/-- A report that is given up leaves every session as it was if and only if each
entry in front of the place where it is given up sets nothing: an entry counts when
another one begins behind it. -/
theorem malformed_report_inert_iff {command : UInt8}
    (hcommand : command = newEnvironIs ∨ command = newEnvironInfo) {report : Bytes}
    (hmalformed : (environReport report.length report).2 = false) :
    (∀ {β α : Type} (host : Host β α) (c : Conn β α), (system host).Reachable c →
        (c.link.handleNewEnviron host.application (command :: report)).caps.reported =
          c.link.caps.reported) ↔
      ∀ entries, BeginsWith report entries → ∀ e ∈ entries, e.Inert := by
  obtain ⟨applied, hread⟩ : ∃ applied, environReport report.length report = (applied, false) :=
    ⟨_, Prod.ext rfl hmalformed⟩
  have hcaps : ∀ {α : Type} (hooks : Application α) (l : Link α),
      l.caps.enabled .remote Telnet.Opt.newEnviron = true →
      (l.handleNewEnviron hooks (command :: report)).caps = applied.foldl .applyEntry l.caps := by
    intro α hooks l hon
    rw [Link.handleNewEnviron_of_report hon hcommand hread]
    rfl
  rw [inert_beginsWith_iff hread]
  constructor
  · intro hkept
    obtain ⟨⟨hon, hon'⟩, hapart⟩ := apart_reported
    have hsame := hkept Host.granting unreported reachable_unreported
    have hsame' := hkept Host.granting fullyReported reachable_fullyReported
    rw [hcaps _ _ hon] at hsame
    rw [hcaps _ _ hon'] at hsame'
    exact hapart.inert_of_foldl hsame hsame'
  · intro hinert β α host c _
    cases hon : c.link.caps.enabled .remote Telnet.Opt.newEnviron with
    | false =>
      rw [Link.handleNewEnviron, hon]
      rfl
    | true => rw [hcaps _ _ hon, EnvironEntry.Inert.foldl_eq hinert]

/-- A USERVAR with a control character for a name sets nothing, and the report is
given up in the entry behind it. -/
theorem malformed_report_inert_bell :
    let report := [newEnvironUservar] ++ ascii "CLIENT_NAME" ++ [newEnvironVal, 7] ++
      [newEnvironVar] ++ ascii "X" ++ [newEnvironEsc]
    (fullyReported.link.handleNewEnviron Host.granting.application
      (newEnvironIs :: report)).caps.reported = fullyReported.link.caps.reported := by
  intro report
  have hread : environReport report.length report =
      ([⟨newEnvironUservar, ascii "CLIENT_NAME", [7]⟩], false) := by decide +kernel
  have hinert : ∀ e ∈ [EnvironEntry.mk newEnvironUservar (ascii "CLIENT_NAME") [7]], e.Inert := by
    refine List.forall_mem_singleton.mpr ⟨by decide, by decide, fun _ _ => .inr ⟨7, rfl, by decide⟩,
      by decide, fun flag hflag => absurd hflag (by cases flag <;> decide)⟩
  exact (malformed_report_inert_iff (.inl rfl) (congrArg Prod.snd hread)).mpr
    ((inert_beginsWith_iff hread).mpr hinert) Host.granting fullyReported reachable_fullyReported

/-- A name stays although the report was given up behind it. -/
theorem malformed_report_named :
    let report := [newEnvironVar] ++ ascii "CLIENT_NAME" ++ [newEnvironVal] ++ ascii "Mudlet" ++
      [newEnvironVar] ++ ascii "X" ++ [newEnvironEsc]
    (environReport report.length report).2 = false ∧
      (system Host.granting).Reachable unreported ∧
      unreported.terminal.clientName.string = ascii "UNKNOWN" ∧
      let c := (unreported.link.handleNewEnviron Host.granting.application
        (newEnvironIs :: report)).caps
      c.terminal.clientName.string = ascii "Mudlet" ∧ c.mnesObserved = true := by
  refine ⟨by decide +kernel, reachable_unreported, ?_⟩
  decide +kernel

end Conn

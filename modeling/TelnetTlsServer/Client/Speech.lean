-- SUMMARY: What the development client reads and says: it reads tokens of the Telnet grammar, and what it writes are whole tokens whose option commands are those of its option state.
import TelnetTlsServer.Client.SecureClient
import TelnetTlsServer.Lib.TelnetStream
import TelnetTlsServer.Session.Speech

/-!
# The speech of the client

The counterpart of `Link.Speaks` for `tools/secure_client.c`. The client asks for no
option: every option command it sends answers one that it has read. A call that goes
through has sent whole tokens; one that does not ends the client.

With connections and a terminal that take their bytes, the only thing a client ends on is
a subnegotiation that it has no room for.
-/

open TelnetGrammar (State Token negotiations)

/-- TLS takes some bytes of any write, the terminal all of them. -/
structure ClientHost.Reliable {σ : Type} (host : ClientHost σ) : Prop where
  tls : ∀ world data, data ≠ [] → (host.sslWrite world data).1 ≠ 0
  terminal : host.TerminalWrites

/-- The attributes of the terminal can be set, and nothing else changes them. -/
structure ClientHost.Attended {σ : Type} (host : ClientHost σ) : Prop where
  sets : ∀ world attributes, (host.tcsetattr world attributes).1 = true ∧
    host.tcgetattr (host.tcsetattr world attributes).2 = some attributes
  sslWrite : ∀ world data, host.tcgetattr (host.sslWrite world data).2 = host.tcgetattr world
  terminalWrite : ∀ world data,
    host.tcgetattr (host.terminalWrite world data).2 = host.tcgetattr world
  windowSize : ∀ world, host.tcgetattr (host.windowSize world).2 = host.tcgetattr world

namespace ClientState

variable {σ : Type} {host : ClientHost σ} {c c' c'' : ClientState σ}

/-! ## Calls that only send -/

/-- The attributes of the terminal are left alone. -/
structure SameTerminal (host : ClientHost σ) (c c' : ClientState σ) : Prop where
  saved : c'.savedTerminal = c.savedTerminal
  attributes : host.Attended → host.tcgetattr c'.world = host.tcgetattr c.world

theorem SameTerminal.refl (c : ClientState σ) : c.SameTerminal host c := ⟨rfl, fun _ => rfl⟩

theorem SameTerminal.trans (h : c.SameTerminal host c') (h' : c'.SameTerminal host c'') :
    c.SameTerminal host c'' :=
  ⟨h'.saved.trans h.saved, fun hattended =>
    (h'.attributes hattended).trans (h.attributes hattended)⟩

/-- The fields of the parser, the options and the echo. -/
structure Voice where
  parser : ClientParseState
  command : UInt8
  subOption : UInt8
  subData : Bytes
  options : TelnetQ
  writeFailed : Bool
  localEchoEnabled : Bool

def voice (c : ClientState σ) : Voice :=
  ⟨c.parser, c.command, c.subOption, c.subData, c.options, c.writeFailed, c.localEchoEnabled⟩

/-- A call that sends these bytes, or fails for want of the host. -/
structure Posts (host : ClientHost σ) (bytes : Bytes) (c : ClientState σ)
    (result : Bool × ClientState σ) : Prop where
  went : result.1 = true → result.2.voice = c.voice ∧ result.2.sent = c.sent ++ bytes
  ok : host.Reliable → result.1 = true
  terminal : c.SameTerminal host result.2

namespace Posts

variable {bytes bytes' : Bytes} {result : Bool × ClientState σ}

theorem nothing (hvoice : c'.voice = c.voice) (hsent : c'.sent = c.sent)
    (hterminal : c.SameTerminal host c') : Posts host [] c (true, c') :=
  ⟨fun _ => ⟨hvoice, by simp [hsent]⟩, fun _ => rfl, hterminal⟩

theorem refl (c : ClientState σ) : Posts host [] c (true, c) := nothing rfl rfl (.refl c)

/-- The first state may differ in what has no part in the speech. -/
theorem after (h : Posts host bytes c' result) (hvoice : c'.voice = c.voice)
    (hsent : c'.sent = c.sent) (hterminal : c.SameTerminal host c') :
    Posts host bytes c result :=
  ⟨fun hok => hvoice ▸ hsent ▸ h.went hok, h.ok, hterminal.trans h.terminal⟩

theorem andThen {next : ClientState σ → Bool × ClientState σ} (h : Posts host bytes c result)
    (hnext : ∀ c, Posts host bytes' c (next c)) :
    Posts host (bytes ++ bytes') c (andThen result next) := by
  unfold ClientState.andThen
  split
  case isTrue hok =>
    obtain ⟨hvoice, hsent⟩ := h.went hok
    refine ⟨fun hok' => ?_, (hnext result.2).ok, h.terminal.trans (hnext result.2).terminal⟩
    obtain ⟨hvoice', hsent'⟩ := (hnext result.2).went hok'
    exact ⟨hvoice'.trans hvoice, by rw [hsent', hsent, List.append_assoc]⟩
  case isFalse hfailed => exact ⟨fun hok => absurd hok hfailed, h.ok, h.terminal⟩

end Posts

theorem posts_tlsWriteFrom (rounds : Nat) (c : ClientState σ) {data : Bytes}
    (h : data.length ≤ rounds) : Posts host data c (tlsWriteFrom host rounds c data) := by
  induction rounds generalizing c data with
  | zero =>
    rw [List.eq_nil_of_length_eq_zero (Nat.le_zero.mp h)]
    exact .refl c
  | succ rounds ih =>
    cases data with
    | nil => exact .refl c
    | cons first rest =>
      rw [tlsWriteFrom]
      · have hkept : host.Attended → host.tcgetattr (host.sslWrite c.world (first :: rest)).2 =
            host.tcgetattr c.world := fun hattended => hattended.sslWrite _ _
        rcases hanswer : host.sslWrite c.world (first :: rest) with ⟨written, world⟩
        rw [hanswer] at hkept
        dsimp only
        split
        case isTrue hnone =>
          refine ⟨fun hok => Bool.noConfusion hok, fun hreliable => ?_, rfl, hkept⟩
          have hsome := hreliable.tls c.world (first :: rest) (by simp)
          rw [hanswer] at hsome
          exact absurd hnone hsome
        case isFalse hsome =>
          have hleft : ((first :: rest).drop written).length ≤ rounds := by
            rw [List.length_drop]
            omega
          obtain ⟨hwent, hok, hterminal⟩ := ih { c with
            world := world, sent := c.sent ++ (first :: rest).take written } hleft
          refine ⟨fun hresult => ?_, hok, hterminal.saved,
            fun hattended => (hterminal.attributes hattended).trans (hkept hattended)⟩
          obtain ⟨hvoice, hsent⟩ := hwent hresult
          exact ⟨hvoice, by rw [hsent, List.append_assoc, List.take_append_drop]⟩
      · simp

theorem posts_tlsWriteAll (c : ClientState σ) (data : Bytes) :
    Posts host data c (c.tlsWriteAll host data) := posts_tlsWriteFrom _ c (le_refl _)

theorem posts_terminalWrite (c : ClientState σ) (data : Bytes) :
    Posts host [] c (c.terminalWrite host data) :=
  ⟨fun _ => ⟨rfl, (List.append_nil _).symm⟩,
    fun hreliable => decide_eq_true (hreliable.terminal _ _), rfl,
    fun hattended => hattended.terminalWrite _ _⟩

/-! ### Subnegotiations -/

theorem posts_sendPayload (c : ClientState σ) (payload : Bytes) :
    Posts host (payload.flatMap TelnetGrammar.quote) c (c.sendPayload host payload) := by
  induction payload generalizing c with
  | nil => exact .refl c
  | cons b rest ih =>
    rw [List.flatMap_cons]
    exact (posts_tlsWriteAll c _).andThen ih

theorem posts_sendSubnegotiation (c : ClientState σ) (option : UInt8) (payload : Bytes) :
    Posts host (Token.subnegotiation option payload).encode c
      (c.sendSubnegotiation host option payload) := by
  have hhead : Posts host [Telnet.iac, Telnet.sb, option] c
      (c.tlsWriteAll host [Telnet.iac, Telnet.sb, option]) := posts_tlsWriteAll c _
  have hall := hhead.andThen fun c => (posts_sendPayload c payload).andThen fun c =>
    posts_tlsWriteAll c [Telnet.iac, Telnet.se]
  rwa [← List.append_assoc] at hall

/-! ### What is said -/

/-- At most `n` tokens are sent, all of them subnegotiations. -/
structure Remarks (host : ClientHost σ) (n : Nat) (c : ClientState σ)
    (result : Bool × ClientState σ) : Prop where
  tokens : ∃ tokens : List Token, (∀ t ∈ tokens, t.isSubnegotiation = true) ∧
    tokens.length ≤ n ∧ Posts host (tokens.flatMap Token.encode) c result

namespace Remarks

variable {result : Bool × ClientState σ} {n n' : Nat}

theorem ofPosts (h : Posts host [] c result) : Remarks host n c result :=
  ⟨[], by simp, Nat.zero_le n, h⟩

theorem refl (c : ClientState σ) : Remarks host n c (true, c) := ofPosts (.refl c)

theorem mono (h : Remarks host n c result) (hle : n ≤ n') : Remarks host n' c result := by
  obtain ⟨tokens, hkind, hcount, hposts⟩ := h
  exact ⟨tokens, hkind, hcount.trans hle, hposts⟩

theorem ite {a b : Bool × ClientState σ} {p : Prop} [Decidable p] (ha : Remarks host n c a)
    (hb : Remarks host n c b) : Remarks host n c (if p then a else b) := by
  split
  · exact ha
  · exact hb

theorem after (h : Remarks host n c' result) (hvoice : c'.voice = c.voice)
    (hsent : c'.sent = c.sent) (hterminal : c.SameTerminal host c') :
    Remarks host n c result := by
  obtain ⟨tokens, hkind, hcount, hposts⟩ := h
  exact ⟨tokens, hkind, hcount, hposts.after hvoice hsent hterminal⟩

theorem andThen {next : ClientState σ → Bool × ClientState σ} (h : Remarks host n c result)
    (hnext : ∀ c, Remarks host n' c (next c)) : Remarks host (n + n') c (andThen result next) := by
  obtain ⟨tokens, hkind, hcount, hposts⟩ := h
  unfold ClientState.andThen
  split
  case isTrue hok =>
    obtain ⟨tokens', hkind', hcount', hwent', hok', hterminal'⟩ := hnext result.2
    obtain ⟨hvoice, hsent⟩ := hposts.went hok
    refine ⟨tokens ++ tokens', ?_, ?_, fun hresult => ?_, hok', hposts.terminal.trans hterminal'⟩
    · exact fun t ht => (List.mem_append.mp ht).elim (hkind t) (hkind' t)
    · rw [List.length_append]
      exact Nat.add_le_add hcount hcount'
    · obtain ⟨hvoice', hsent'⟩ := hwent' hresult
      exact ⟨hvoice'.trans hvoice,
        by rw [hsent', hsent, List.append_assoc, List.flatMap_append]⟩
  case isFalse hfailed =>
    exact ⟨tokens, hkind, hcount.trans (Nat.le_add_right _ _), fun hok => absurd hok hfailed,
      hposts.ok, hposts.terminal⟩

theorem sendSubnegotiation (c : ClientState σ) (option : UInt8) (payload : Bytes) :
    Remarks host 1 c (c.sendSubnegotiation host option payload) := by
  refine ⟨[.subnegotiation option payload], List.forall_mem_singleton.mpr rfl, le_refl _, ?_⟩
  rw [List.flatMap_singleton]
  exact posts_sendSubnegotiation c option payload

end Remarks

theorem remarks_sendWindowSize (c : ClientState σ) : Remarks host 1 c (c.sendWindowSize host) :=
  .ite (.refl c) (.after (.sendSubnegotiation _ _ _) rfl rfl
    ⟨rfl, fun hattended => hattended.windowSize _⟩)

theorem remarks_sendTerminalType (c : ClientState σ) :
    Remarks host 1 c (c.sendTerminalType host) :=
  .after (.sendSubnegotiation _ _ _) rfl rfl ⟨rfl, fun _ => rfl⟩

theorem remarks_maybeRequestUtf8 (c : ClientState σ) :
    Remarks host 1 c (c.maybeRequestUtf8 host) :=
  .ite (.refl c) (.after (.sendSubnegotiation _ _ _) rfl rfl ⟨rfl, fun _ => rfl⟩)

theorem foldlM_appendWithin (payload : Bytes) (pieces : List Bytes)
    (h : payload.length + pieces.flatten.length ≤ environPayloadMax) :
    pieces.foldlM appendWithin payload = some (payload ++ pieces.flatten) := by
  induction pieces generalizing payload with
  | nil => simp
  | cons piece rest ih =>
    rw [List.flatten_cons, List.length_append] at h
    have hroom : ¬ piece.length > environPayloadMax - payload.length := by omega
    rw [List.foldlM_cons, appendWithin, if_neg hroom]
    have hrest := ih (payload ++ piece) (by rw [List.length_append]; omega)
    simpa using hrest

/-- The report fits, however long the name of the terminal is. -/
theorem length_environPieces (host : ClientHost σ) (c : ClientState σ) :
    (c.environPieces host).flatten.length ≤ environPayloadMax := by
  have hname : (terminalTypeName host).length ≤ terminalNameMax := by
    unfold terminalTypeName
    dsimp only
    split
    · decide
    · rw [List.length_map]
      exact (List.takeWhile_sublist _).length_le.trans (List.length_take_le _ _)
  have hfixed : ∀ utf8 : Bool, [[newEnvironIs],
      [newEnvironVar], ascii "CLIENT_NAME", [newEnvironVal], ascii "TELNET-CLIENT",
      [newEnvironVar], ascii "CLIENT_VERSION", [newEnvironVal], ascii "development",
      [newEnvironVar], ascii "CHARSET", [newEnvironVal],
      if utf8 then ascii "UTF-8" else ascii "ASCII", [newEnvironVar], ascii "MTTS",
      [newEnvironVal], if utf8 then ascii "4" else ascii "0", [newEnvironVar],
      ascii "TERMINAL_TYPE", [newEnvironVal]].flatten.length ≤
        environPayloadMax - terminalNameMax := by
    decide +kernel
  have hall := Nat.add_le_add (hfixed c.utf8Enabled) hname
  rw [← List.length_append, ← List.flatten_concat] at hall
  exact hall

theorem remarks_sendNewEnviron (c : ClientState σ) :
    Remarks host 1 c (c.sendNewEnviron host) := by
  have hfits := foldlM_appendWithin [] (c.environPieces host)
    (by simpa using length_environPieces host c)
  rw [sendNewEnviron, hfits]
  exact .sendSubnegotiation c _ _

/-- How many subnegotiations a token makes the client send: one for a probe that it has an
answer to, and MSSP is none. -/
def provoked (t : Token) : Nat :=
  match Probe.ofToken? t with
  | none | some .mssp => 0
  | some _ => 1

/-- A branch that answers is only taken for a probe. -/
theorem Remarks.answer {t : Token} {a b : Bool × ClientState σ} {p : Prop} [Decidable p]
    (hprobe : p → provoked t = 1) (ha : Remarks host 1 c a)
    (hb : Remarks host (provoked t) c b) : Remarks host (provoked t) c (if p then a else b) := by
  split
  case isTrue hp =>
    rw [hprobe hp]
    exact ha
  case isFalse => exact hb

theorem remarks_handleSubnegotiation (c : ClientState σ) :
    Remarks host (provoked (.subnegotiation c.subOption c.subData)) c
      (c.handleSubnegotiation host) := by
  unfold handleSubnegotiation
  refine .answer ?_ (remarks_sendTerminalType c) (.answer ?_
    (.ite (.after (.sendSubnegotiation _ _ _) rfl rfl ⟨rfl, fun _ => rfl⟩)
      (.sendSubnegotiation c _ _))
    (.ite (.ite (.ofPosts (.nothing rfl rfl ⟨rfl, fun _ => rfl⟩))
      (.ite (.ofPosts (.nothing rfl rfl ⟨rfl, fun _ => rfl⟩)) (.refl c)))
      (.answer ?_ (remarks_sendNewEnviron c) (.refl c))))
  · intro htype
    simp only [Bool.and_eq_true, decide_eq_true_eq] at htype
    rw [htype.1.1, htype.1.2]
    rfl
  · intro hcharset
    simp only [Bool.and_eq_true, decide_eq_true_eq] at hcharset
    rw [hcharset.1.1, provoked, Probe.ofToken?, hcharset.1.2]
    rfl
  · intro henviron
    simp only [Bool.and_eq_true, decide_eq_true_eq] at henviron
    rw [henviron.1.1, provoked, Probe.ofToken?, henviron.1.2]
    rfl

/-! ### The display -/

theorem remarks_terminalWrite (c : ClientState σ) (data : Bytes) :
    Remarks host 0 c (c.terminalWrite host data) := .ofPosts (posts_terminalWrite c data)

theorem remarks_writeDisplayStart (c : ClientState σ) (byte : UInt8) :
    Remarks host 0 c (c.writeDisplayStart host byte) :=
  have hquestion := remarks_terminalWrite c [63]
  have hkept : ∀ n, Remarks host 0 c
      (true, { c with utf8Pending := [byte], utf8Expected := n }) :=
    fun _ => .ofPosts (.nothing rfl rfl ⟨rfl, fun _ => rfl⟩)
  .ite (.ite (remarks_terminalWrite c _) (.refl c)) (.ite hquestion
    (.ite (hkept 2) (.ite (hkept 3) (.ite (hkept 4) hquestion))))

theorem remarks_writeDisplayByte (c : ClientState σ) (byte : UInt8) :
    Remarks host 0 c (c.writeDisplayByte host byte) := by
  have hcleared : ∀ c : ClientState σ, Remarks host 0 c (true, c.clearPending) :=
    fun _ => .ofPosts (.nothing rfl rfl ⟨rfl, fun _ => rfl⟩)
  have hkept : Remarks host 0 c (true, { c with utf8Pending := c.utf8Pending ++ [byte] }) :=
    .ofPosts (.nothing rfl rfl ⟨rfl, fun _ => rfl⟩)
  refine .ite (.ite ?interrupted (.ite ?complete hkept)) (remarks_writeDisplayStart c byte)
  case interrupted =>
    have hquestion : Remarks host 0 c (c.clearPending.terminalWrite host [63]) :=
      (remarks_terminalWrite c.clearPending [63]).after rfl rfl ⟨rfl, fun _ => rfl⟩
    exact hquestion.andThen fun c => remarks_writeDisplayStart c byte
  case complete =>
    change Remarks host (0 + 0) c _
    exact .andThen (.ite (.after (remarks_terminalWrite _ _) rfl rfl ⟨rfl, fun _ => rfl⟩) hkept)
      hcleared

/-! ## Typed input -/

/-- What the client sends of its own accord or in reply, but for option commands. -/
def Utters (host : ClientHost σ) (c : ClientState σ) (result : Bool × ClientState σ) : Prop :=
  ∃ tokens : List Token, (∀ t ∈ tokens, t.WellFormed) ∧ negotiations tokens = [] ∧
    Posts host (tokens.flatMap Token.encode) c result

theorem Remarks.utters {result : Bool × ClientState σ} {n : Nat} (h : Remarks host n c result) :
    Utters host c result := by
  obtain ⟨tokens, hkind, -, hposts⟩ := h
  exact ⟨tokens, fun t ht =>
    Token.wellFormed_of_isPlain (Token.isPlain_of_isSubnegotiation (hkind t ht)),
    TelnetGrammar.negotiations_of_isSubnegotiation hkind, hposts⟩

/-- The text of what is typed: a line ends in CR LF. -/
def typedText (input : Bytes) : Bytes := input.flatMap fun b => if b = 10 then [13, 10] else [b]

/-- What is typed goes out as data, if it came in one read. -/
theorem posts_sendTerminalInput (c : ClientState σ) {input : Bytes}
    (h : input.length ≤ convertedMax / 2) :
    Posts host (((typedText input).map Token.data).flatMap Token.encode) c
      (c.sendTerminalInput host input) := by
  have hbytes : ∀ b : UInt8, (if b = 10 then [13, 10]
      else if b = Telnet.iac then [Telnet.iac, Telnet.iac] else [b]) =
      (if b = 10 then [13, 10] else [b]).flatMap TelnetGrammar.quote :=
    fun b => forall_byte (by decide +kernel) b
  have hencode : ((typedText input).map Token.data).flatMap Token.encode =
      input.flatMap fun b => if b = 10 then [13, 10]
        else if b = Telnet.iac then [Telnet.iac, Telnet.iac] else [b] := by
    rw [List.flatMap_map]
    simp only [hbytes]
    exact List.flatMap_assoc
  rw [sendTerminalInput, if_neg (Nat.not_lt.mpr h), hencode]
  exact posts_tlsWriteAll c _

theorem wellFormed_data {text : Bytes} : ∀ t ∈ text.map Token.data, t.WellFormed := by
  intro t ht
  obtain ⟨b, -, rfl⟩ := List.mem_map.mp ht
  trivial

theorem utters_sendTerminalInput (c : ClientState σ) {input : Bytes}
    (h : input.length ≤ convertedMax / 2) : Utters host c (c.sendTerminalInput host input) := by
  refine ⟨_, wellFormed_data, ?_, posts_sendTerminalInput c h⟩
  rw [negotiations, List.filterMap_map]
  exact List.filterMap_eq_nil_iff.mpr fun _ _ => rfl

/-! ## Option commands -/

/-- The terminal echoes nothing without `local_echo_enabled`; one that echoed at the start
does so with it. The other attributes are those of the start. -/
structure Echoes (host : ClientHost σ) (start : Termios) (c : ClientState σ) : Prop where
  saved : c.savedTerminal = some start
  terminal : ∃ current, host.tcgetattr c.world = some current ∧ current.others = start.others ∧
    (c.localEchoEnabled = false → current.echo = false) ∧
    (start.echo = true → current.echo = c.localEchoEnabled)

/-- The client's echo is the contrary of the server's. -/
structure EchoFits (host : ClientHost σ) (saved : Termios) (c : ClientState σ) : Prop
    extends Echoes host saved c where
  fits : c.localEchoEnabled = !c.enabled .remote Telnet.Opt.echo

theorem Echoes.same {saved : Termios} (h : c.Echoes host saved) (hattended : host.Attended)
    (hterminal : c.SameTerminal host c') (hecho : c'.localEchoEnabled = c.localEchoEnabled) :
    c'.Echoes host saved := by
  refine ⟨hterminal.saved.trans h.saved, ?_⟩
  rw [hterminal.attributes hattended, hecho]
  exact h.terminal

/-- An option command is heard: the option state changes, and what goes out are its
commands and at most two reports. -/
structure Hears (host : ClientHost σ) (command option : UInt8) (c c' : ClientState σ) : Prop where
  options : c'.options = (telnetQReceive c.options command option qAcceptCallback).1
  tokens : ∃ answers reports : List Token, (∀ t ∈ answers, t.negotiation?.isSome = true) ∧
    negotiations answers = (telnetQReceive c.options command option qAcceptCallback).2 ∧
    (∀ t ∈ reports, t.isSubnegotiation = true) ∧ reports.length ≤ 2 ∧
    c'.sent = c.sent ++ (answers ++ reports).flatMap Token.encode
  echo : host.Attended → ∀ saved, c.EchoFits host saved → c'.EchoFits host saved

/-- Nothing of the option state changes, and no option command goes out. -/
structure Talks (host : ClientHost σ) (c c' : ClientState σ) : Prop where
  options : c'.options = c.options
  tokens : ∃ tokens : List Token, (∀ t ∈ tokens, t.WellFormed) ∧
    c'.sent = c.sent ++ tokens.flatMap Token.encode ∧ negotiations tokens = []
  terminal : c.SameTerminal host c'
  echo : c'.localEchoEnabled = c.localEchoEnabled

namespace Utters

variable {result : Bool × ClientState σ}

theorem ok (h : Utters host c result) (hreliable : host.Reliable) : result.1 = true := by
  obtain ⟨tokens, -, -, hposts⟩ := h
  exact hposts.ok hreliable

theorem voice (h : Utters host c result) (hok : result.1 = true) : result.2.voice = c.voice := by
  obtain ⟨tokens, -, -, hposts⟩ := h
  exact (hposts.went hok).1

theorem terminal (h : Utters host c result) : c.SameTerminal host result.2 := by
  obtain ⟨tokens, -, -, hposts⟩ := h
  exact hposts.terminal

theorem talks (h : Utters host c result) (hok : result.1 = true) : c.Talks host result.2 := by
  have hvoice := h.voice hok
  have hterminal := h.terminal
  obtain ⟨tokens, hwell, hnone, hposts⟩ := h
  exact ⟨congrArg Voice.options hvoice, ⟨tokens, hwell, (hposts.went hok).2, hnone⟩, hterminal,
    congrArg Voice.localEchoEnabled hvoice⟩

end Utters

/-- Anything else that is read: at most `n` subnegotiations go out. -/
structure Replies (host : ClientHost σ) (n : Nat) (c c' : ClientState σ) : Prop where
  options : c'.options = c.options
  tokens : ∃ tokens : List Token, (∀ t ∈ tokens, t.isSubnegotiation = true) ∧ tokens.length ≤ n ∧
    c'.sent = c.sent ++ tokens.flatMap Token.encode
  terminal : c.SameTerminal host c'
  echo : c'.localEchoEnabled = c.localEchoEnabled

theorem Talks.echoFits {saved : Termios} (h : c.Talks host c') (hattended : host.Attended)
    (hfits : c.EchoFits host saved) : c'.EchoFits host saved := by
  refine ⟨hfits.toEchoes.same hattended h.terminal h.echo, ?_⟩
  rw [h.echo, hfits.fits, enabled, enabled, h.options]

theorem Replies.talks {n : Nat} (h : c.Replies host n c') : c.Talks host c' := by
  obtain ⟨tokens, hkind, -, hsent⟩ := h.tokens
  exact ⟨h.options, ⟨tokens, fun t ht =>
    Token.wellFormed_of_isPlain (Token.isPlain_of_isSubnegotiation (hkind t ht)), hsent,
    TelnetGrammar.negotiations_of_isSubnegotiation hkind⟩, h.terminal, h.echo⟩

theorem Hears.said {command option : UInt8} (h : Hears host command option c c') :
    ∃ tokens : List Token, (∀ t ∈ tokens, t.WellFormed) ∧
      c'.sent = c.sent ++ tokens.flatMap Token.encode ∧
      negotiations tokens = (telnetQReceive c.options command option qAcceptCallback).2 := by
  obtain ⟨answers, reports, hanswers, hcommands, hreports, -, hsent⟩ := h.tokens
  refine ⟨answers ++ reports, fun t ht => Token.wellFormed_of_isPlain ?_, hsent, ?_⟩
  · exact (List.mem_append.mp ht).elim (fun ht => Token.isPlain_of_negotiation? (hanswers t ht))
      fun ht => Token.isPlain_of_isSubnegotiation (hreports t ht)
  · rw [TelnetGrammar.negotiations_append, hcommands,
      TelnetGrammar.negotiations_of_isSubnegotiation hreports, List.append_nil]

theorem Remarks.replies {result : Bool × ClientState σ} {n : Nat} (h : Remarks host n c result)
    (hok : result.1 = true) : c.Replies host n result.2 := by
  obtain ⟨tokens, hkind, hcount, hposts⟩ := h
  obtain ⟨hvoice, hsent⟩ := hposts.went hok
  exact ⟨congrArg Voice.options hvoice, ⟨tokens, hkind, hcount, hsent⟩, hposts.terminal,
    congrArg Voice.localEchoEnabled hvoice⟩

theorem andThen_assoc (result : Bool × ClientState σ)
    (next later : ClientState σ → Bool × ClientState σ) :
    andThen result (fun c => andThen (next c) later) = andThen (andThen result next) later := by
  unfold andThen
  cases hresult : result.1 <;> simp [hresult]

/-- An answer of the option state as it is sent. -/
def answerTokens (direction : TelnetQDirection) (option : UInt8) (answer : Option Bool) :
    List Token :=
  answer.toList.map fun sign => .option (signVerb direction sign) option

theorem negotiation_answerTokens (direction : TelnetQDirection) (option : UInt8)
    (answer : Option Bool) :
    ∀ t ∈ answerTokens direction option answer, t.negotiation?.isSome = true := by
  intro t ht
  obtain ⟨sign, -, rfl⟩ := List.mem_map.mp ht
  rfl

theorem negotiations_answerTokens (direction : TelnetQDirection) (option : UInt8)
    (answer : Option Bool) : negotiations (answerTokens direction option answer) =
      answer.toList.map fun sign => (signCommand direction sign, option) := by
  cases answer <;> simp [answerTokens, negotiations, Token.negotiation?, code_signVerb]

/-- The answer of the option state goes out, or `write_failed` is set. -/
theorem posts_qSendCallbacks (c : ClientState σ) (hlive : c.writeFailed = false)
    (direction : TelnetQDirection) (option : UInt8) (answer : Option Bool) :
    let c' := (answer.toList.map fun sign => (signCommand direction sign, option)).foldl
      (qSendCallback host) c
    Posts host ((answerTokens direction option answer).flatMap Token.encode) c
      (!c'.writeFailed, c') := by
  cases answer with
  | none =>
    simp only [Option.toList_none, List.map_nil, List.foldl_nil, hlive]
    exact .refl c
  | some sign =>
    have hposts : Posts host [Telnet.iac, signCommand direction sign, option] c
        (c.tlsWriteAll host [Telnet.iac, signCommand direction sign, option]) :=
      posts_tlsWriteAll c _
    simp only [answerTokens, Option.toList_some, List.map_cons, List.map_nil, List.foldl_cons,
      List.foldl_nil, List.flatMap_singleton, Token.encode, code_signVerb, qSendCallback]
    generalize c.tlsWriteAll host _ = result at hposts ⊢
    obtain ⟨ok, c'⟩ := result
    cases ok with
    | false =>
      exact ⟨fun hok => Bool.noConfusion hok, fun hreliable => (by cases hposts.ok hreliable),
        hposts.terminal.saved, hposts.terminal.attributes⟩
    | true =>
      have hfailed : c'.writeFailed = false :=
        (congrArg Voice.writeFailed (hposts.went rfl).1).trans hlive
      simp only [Bool.not_true, Bool.false_eq_true, if_false, hfailed, Bool.not_false]
      exact hposts

theorem echoes_setLocalEcho {saved : Termios} (hattended : host.Attended)
    (h : c.Echoes host saved) (enabled : Bool) :
    (c.setLocalEcho host enabled).Echoes host saved ∧
      (c.setLocalEcho host enabled).localEchoEnabled = enabled := by
  obtain ⟨current, hcurrent, hothers, -⟩ := h.terminal
  obtain ⟨hset, hread⟩ := hattended.sets c.world { current with echo := enabled }
  unfold setLocalEcho
  split
  case isTrue hsame =>
    rw [h.saved, Option.isNone_some, Bool.false_or] at hsame
    exact ⟨h, of_decide_eq_true hsame⟩
  case isFalse =>
    rw [hcurrent]
    dsimp only
    rw [if_pos hset]
    exact ⟨⟨h.saved, _, hread, hothers, id, fun _ => rfl⟩, rfl⟩

/-- Only the echo changes. -/
theorem setLocalEcho_eq (host : ClientHost σ) (c : ClientState σ) (enabled : Bool) :
    ∃ world echo, c.setLocalEcho host enabled =
      { c with world := world, localEchoEnabled := echo } := by
  unfold setLocalEcho
  split
  · exact ⟨c.world, c.localEchoEnabled, rfl⟩
  · split
    · exact ⟨c.world, c.localEchoEnabled, rfl⟩
    · dsimp only
      split_ifs
      · exact ⟨_, enabled, rfl⟩
      · exact ⟨_, c.localEchoEnabled, rfl⟩

/-- Only the terminal changes at the end, and it gets back what was saved. -/
theorem finish_eq (host : ClientHost σ) (c : ClientState σ) :
    ∃ world echo, c.finish host = { c with world := world, localEchoEnabled := echo } := by
  obtain ⟨world, echo, hset⟩ := setLocalEcho_eq host c true
  rw [finish, hset, restoreTerminal]
  split
  · exact ⟨world, echo, rfl⟩
  · exact ⟨_, echo, rfl⟩

theorem tcgetattr_finish (hattended : host.Attended) {saved : Termios}
    (hsaved : c.savedTerminal = some saved) :
    host.tcgetattr (c.finish host).world = some saved := by
  obtain ⟨world, echo, hset⟩ := setLocalEcho_eq host c true
  rw [finish, hset, restoreTerminal, hsaved]
  exact (hattended.sets world saved).2

/-- The terminal's echo after an option command that may have changed the server's. -/
def followEcho (host : ClientHost σ) (before : Bool) (c : ClientState σ) : ClientState σ :=
  if before ≠ c.enabled .remote Telnet.Opt.echo then
    c.setLocalEcho host (!c.enabled .remote Telnet.Opt.echo)
  else c

theorem followEcho_eq (host : ClientHost σ) (before : Bool) (c : ClientState σ) :
    ∃ world echo, c.followEcho host before =
      { c with world := world, localEchoEnabled := echo } := by
  unfold followEcho
  split
  · exact setLocalEcho_eq host c _
  · exact ⟨c.world, c.localEchoEnabled, rfl⟩

theorem echoFits_followEcho {saved : Termios} (hattended : host.Attended)
    (h : c.Echoes host saved) {before : Bool} (hbefore : c.localEchoEnabled = !before) :
    (c.followEcho host before).EchoFits host saved := by
  unfold followEcho
  split
  case isTrue =>
    obtain ⟨hechoes, hecho⟩ := echoes_setLocalEcho hattended h (!c.enabled .remote Telnet.Opt.echo)
    obtain ⟨world, echo, hset⟩ :=
      setLocalEcho_eq host c (!c.enabled .remote Telnet.Opt.echo)
    refine ⟨hechoes, hecho.trans ?_⟩
    rw [hset]
    rfl
  case isFalse hsame =>
    rw [ne_eq, not_not] at hsame
    exact ⟨h, hsame ▸ hbefore⟩

/-- The reports that new options call for. -/
def followUp (host : ClientHost σ) (nawsBefore : Bool) (c : ClientState σ) :
    Bool × ClientState σ :=
  andThen (if !nawsBefore && c.enabled .local_ Telnet.Opt.naws then c.sendWindowSize host
    else (true, c)) (maybeRequestUtf8 host)

theorem remarks_followUp (host : ClientHost σ) (nawsBefore : Bool) (c : ClientState σ) :
    Remarks host 2 c (c.followUp host nawsBefore) :=
  .andThen (.ite (remarks_sendWindowSize c) (.refl c)) remarks_maybeRequestUtf8

theorem receiveOption_eq (c : ClientState σ) (option : UInt8) :
    c.receiveOption host option =
      let received := telnetQReceive c.options c.command option qAcceptCallback
      let answered := received.2.foldl (qSendCallback host) { c with options := received.1 }
      if answered.writeFailed then (false, answered)
      else
        andThen ((answered.followEcho host (c.enabled .remote Telnet.Opt.echo)).followUp host
          (c.enabled .local_ Telnet.Opt.naws)) fun c => (true, { c with parser := .data }) := by
  simp only [followUp, ← andThen_assoc]
  rfl

/-- The commands are out; then come the echo and the reports. -/
theorem hears_of_answered {answered followed : ClientState σ} {option : UInt8}
    (answers : List Token)
    (hvoice : answered.voice = { c.voice with
      options := (telnetQReceive c.options c.command option qAcceptCallback).1 })
    (hsent : answered.sent = c.sent ++ answers.flatMap Token.encode)
    (hterminal : c.SameTerminal host answered)
    (hkind : ∀ t ∈ answers, t.negotiation?.isSome = true)
    (hcommands : negotiations answers =
      (telnetQReceive c.options c.command option qAcceptCallback).2)
    (hfollowed : followed = answered.followEcho host (c.enabled .remote Telnet.Opt.echo))
    {result : Bool × ClientState σ} (hremarks : Remarks host 2 followed result)
    (hok : result.1 = true) :
    result.2.writeFailed = c.writeFailed ∧
      Hears host c.command option c { result.2 with parser := .data } := by
  obtain ⟨world, echo, hecho⟩ := followEcho_eq host (c.enabled .remote Telnet.Opt.echo) answered
  rw [← hfollowed] at hecho
  have hoptions : followed.options = answered.options := by rw [hecho]
  have hreplies := hremarks.replies hok
  obtain ⟨reports, hreports, hcount, hsent'⟩ := hreplies.tokens
  refine ⟨?failed, ?options,
    ⟨answers, reports, hkind, hcommands, hreports, hcount, ?sent⟩, ?echo⟩
  case failed =>
    refine (congrArg Voice.writeFailed (hremarks.utters.voice hok)).trans ?_
    rw [hecho]
    exact congrArg Voice.writeFailed hvoice
  case options => exact (hreplies.options.trans hoptions).trans (congrArg Voice.options hvoice)
  case sent =>
    refine hsent'.trans ?_
    rw [hecho, hsent, List.append_assoc, ← List.flatMap_append]
  case echo =>
    intro hattended saved hfits
    have hkept : answered.localEchoEnabled = c.localEchoEnabled :=
      congrArg Voice.localEchoEnabled hvoice
    have hnow : followed.EchoFits host saved := by
      rw [hfollowed]
      exact echoFits_followEcho hattended (hfits.toEchoes.same hattended hterminal hkept)
        (hkept.trans hfits.fits)
    have hlast := hreplies.talks.echoFits hattended hnow
    exact ⟨⟨hlast.saved, hlast.terminal⟩, hlast.fits⟩

theorem receiveOption_spec (host : ClientHost σ) (hlive : c.writeFailed = false)
    {direction : TelnetQDirection}
    {sign : Bool} (hcommand : c.command = signCommand direction sign) (option : UInt8) :
    (host.Reliable → (c.receiveOption host option).1 = true) ∧
    (c.receiveOption host option).2.savedTerminal = c.savedTerminal ∧
    ((c.receiveOption host option).1 = true →
      (c.receiveOption host option).2.parser = .data ∧
      (c.receiveOption host option).2.writeFailed = false ∧
      Hears host c.command option c (c.receiveOption host option).2) := by
  have hacts := telnetQReceive_actsAs c.options direction sign option qAcceptCallback
  rw [← hcommand] at hacts
  have hcommands := hacts.sent
  generalize ((selectSide c.options direction.opposite option).view.hear
    (qAcceptCallback direction.opposite option) sign).2 = answer at hcommands
  have hposts : Posts host ((answerTokens direction.opposite option answer).flatMap Token.encode)
      _ _ := posts_qSendCallbacks { c with
        options := (telnetQReceive c.options c.command option qAcceptCallback).1 } hlive _ _ _
  rw [receiveOption_eq]
  dsimp only
  rw [← hcommands] at hposts
  generalize List.foldl (qSendCallback host) _ _ = answered at hposts ⊢
  cases hfailed : answered.writeFailed with
  | true =>
    refine ⟨fun hreliable => ?_, hposts.terminal.saved, fun hok => by cases hok⟩
    have hok := hposts.ok hreliable
    rw [hfailed] at hok
    cases hok
  | false =>
    obtain ⟨hvoice, hsent⟩ := hposts.went (by rw [hfailed]; rfl)
    have hremarks := remarks_followUp host (c.enabled .local_ Telnet.Opt.naws)
      (answered.followEcho host (c.enabled .remote Telnet.Opt.echo))
    have hsaved : (answered.followEcho host (c.enabled .remote Telnet.Opt.echo)).savedTerminal =
        c.savedTerminal := by
      obtain ⟨world, echo, hecho⟩ :=
        followEcho_eq host (c.enabled .remote Telnet.Opt.echo) answered
      rw [hecho]
      exact hposts.terminal.saved
    rw [if_neg Bool.false_ne_true, andThen]
    split
    case isFalse hno =>
      exact ⟨fun hreliable => absurd (hremarks.utters.ok hreliable) hno,
        hremarks.utters.terminal.saved.trans hsaved, fun hok => absurd hok hno⟩
    case isTrue hok =>
      obtain ⟨hkept, hheard⟩ := hears_of_answered
        (answerTokens direction.opposite option answer) hvoice hsent
        ⟨hposts.terminal.saved, hposts.terminal.attributes⟩ (negotiation_answerTokens _ _ _)
        ((negotiations_answerTokens _ _ _).trans hcommands.symm) rfl hremarks hok
      exact ⟨fun _ => rfl, hremarks.utters.terminal.saved.trans hsaved,
        fun _ => ⟨rfl, hkept.trans hlive, hheard⟩⟩

/-! ## The parser and the grammar -/

/-- The parser stands where the grammar does. -/
def At (c : ClientState σ) : TelnetGrammar.State → Prop
  | .data => c.parser = .data
  | .iac => c.parser = .iac
  | .option v => c.parser = .option ∧ c.command = v.code
  | .sbOption => c.parser = .sbOption
  | .sbData o payload => c.parser = .sbData ∧ c.subOption = o ∧ c.subData = payload
  | .sbIac o payload => c.parser = .sbIac ∧ c.subOption = o ∧ c.subData = payload

theorem at_of_voice {s : TelnetGrammar.State} (hvoice : c'.voice = c.voice) (h : c.At s) :
    c'.At s := by
  have hparser : c'.parser = c.parser := congrArg Voice.parser hvoice
  have hcommand : c'.command = c.command := congrArg Voice.command hvoice
  have hoption : c'.subOption = c.subOption := congrArg Voice.subOption hvoice
  have hdata : c'.subData = c.subData := congrArg Voice.subData hvoice
  cases s <;> simpa only [At, hparser, hcommand, hoption, hdata] using h

theorem isOptionCommand_eq (b : UInt8) : isOptionCommand b = (TelnetGrammar.verb? b).isSome :=
  forall_byte (by decide +kernel) b

/-- A byte is read as the grammar reads it: it completes an option command, or anything
else. Only a payload that is too long is refused. -/
structure Reads (host : ClientHost σ) (s : TelnetGrammar.State) (byte : UInt8) (c : ClientState σ)
    (result : Bool × ClientState σ) : Prop where
  went : result.1 = true → result.2.At (TelnetGrammar.step s byte).1 ∧
    result.2.writeFailed = false ∧
    ((∃ direction sign,
      TelnetGrammar.step s byte = (.data, some (.option (signVerb direction sign) byte)) ∧
      Hears host (signCommand direction sign) byte c result.2) ∨
    negotiations (TelnetGrammar.step s byte).2.toList = [] ∧
      c.Replies host ((TelnetGrammar.step s byte).2.elim 0 provoked) result.2)
  saved : result.2.savedTerminal = c.savedTerminal
  ok : host.Reliable → (∀ o payload, (TelnetGrammar.step s byte).1 = .sbData o payload →
    payload.length ≤ subDataMax) → result.1 = true

/-- The fields of the parser may change. -/
structure Parses (c c' : ClientState σ) : Prop where
  voice : c'.voice = { c.voice with
    parser := c'.parser, command := c'.command, subOption := c'.subOption, subData := c'.subData }
  sent : c'.sent = c.sent
  saved : c'.savedTerminal = c.savedTerminal
  world : c'.world = c.world

theorem Replies.parses {n : Nat} (h : c.Replies host n c') (hparses : c'.Parses c'') :
    c.Replies host n c'' := by
  obtain ⟨tokens, hkind, hcount, htokens⟩ := h.tokens
  refine ⟨(congrArg Voice.options hparses.voice).trans h.options,
    ⟨tokens, hkind, hcount, hparses.sent.trans htokens⟩, h.terminal.trans ⟨hparses.saved, ?_⟩,
    (congrArg Voice.localEchoEnabled hparses.voice).trans h.echo⟩
  rw [hparses.world]
  exact fun _ => rfl

namespace Reads

variable {s : TelnetGrammar.State} {byte : UInt8}

/-- Something is said or shown, then the parser moves on. -/
theorem finish {result : Bool × ClientState σ} {next : ClientState σ → ClientState σ}
    (hs : ∀ v, s ≠ .option v) (hlive : c.writeFailed = false)
    (h : Remarks host ((TelnetGrammar.step s byte).2.elim 0 provoked) c result)
    (hat : ∀ c', c'.voice = c.voice → (next c').At (TelnetGrammar.step s byte).1)
    (hnext : ∀ c : ClientState σ, c.Parses (next c)) :
    Reads host s byte c (andThen result fun c => (true, next c)) := by
  unfold andThen
  split
  case isTrue hok =>
    refine ⟨fun _ => ⟨hat _ (h.utters.voice hok), ?_, .inr ⟨TelnetGrammar.negotiations_step hs byte,
      (h.replies hok).parses (hnext result.2)⟩⟩,
      (hnext result.2).saved.trans h.utters.terminal.saved, fun _ _ => rfl⟩
    have hnow : (next result.2).writeFailed = result.2.writeFailed :=
      congrArg Voice.writeFailed (hnext result.2).voice
    exact (hnow.trans (congrArg Voice.writeFailed (h.utters.voice hok))).trans hlive
  case isFalse hfailed =>
    exact ⟨fun hok => absurd hok hfailed, h.utters.terminal.saved,
      fun hreliable _ => h.utters.ok hreliable⟩

/-- The byte only moves the parser. -/
theorem move (hs : ∀ v, s ≠ .option v) (hlive : c.writeFailed = false)
    (hat : c'.At (TelnetGrammar.step s byte).1) (hparses : c.Parses c') :
    Reads host s byte c (true, c') := by
  refine ⟨fun _ => ⟨hat, (congrArg Voice.writeFailed hparses.voice).trans hlive,
    .inr ⟨TelnetGrammar.negotiations_step hs byte, ?_⟩⟩, hparses.saved, fun _ _ => rfl⟩
  have hsilent : Remarks host ((TelnetGrammar.step s byte).2.elim 0 provoked) c (true, c) := .refl c
  exact (hsilent.replies rfl).parses hparses

end Reads

/-- There is room for the byte, or the client ends. -/
theorem reads_pushSubData {s : TelnetGrammar.State} {byte pushed o : UInt8} {payload : Bytes}
    (hs : ∀ v, s ≠ .option v) (hlive : c.writeFailed = false)
    (hstep : (TelnetGrammar.step s byte).1 = .sbData o (payload ++ [pushed]))
    (hoption : c.subOption = o) (hpayload : c.subData = payload) :
    Reads host s byte c
      (andThen (c.pushSubData pushed) fun c => (true, { c with parser := .sbData })) := by
  unfold pushSubData
  split
  case isTrue hfull =>
    refine ⟨fun hok => Bool.noConfusion hok, rfl, fun _ hshort => ?_⟩
    have hroom := hshort _ _ hstep
    rw [List.length_append, List.length_singleton, ← hpayload] at hroom
    omega
  case isFalse =>
    refine .move hs hlive ?_ ⟨rfl, rfl, rfl, rfl⟩
    rw [hstep]
    exact ⟨rfl, hoption, by rw [hpayload]⟩

theorem pushSubData_eq (hparser : c.parser = .sbData) (byte : UInt8) :
    c.pushSubData byte =
      andThen (c.pushSubData byte) fun c => (true, { c with parser := .sbData }) := by
  unfold pushSubData
  split
  · rfl
  · simp only [andThen, if_true, ← hparser]

theorem andThen_done (result : Bool × ClientState σ) :
    andThen result (fun c => (true, c)) = result := by
  obtain ⟨ok, c⟩ := result
  cases ok <;> rfl

theorem reads_iac (hat : c.At .iac) (hlive : c.writeFailed = false) (byte : UInt8) :
    Reads host .iac byte c (c.processServerByte host byte) := by
  have hparser : c.parser = .iac := hat
  simp only [processServerByte, hparser, isOptionCommand_eq]
  split
  case isTrue hiac =>
    refine .finish (by simp) hlive ((remarks_writeDisplayByte c _).mono (Nat.zero_le _))
      (fun _ _ => ?_) fun _ => ⟨rfl, rfl, rfl, rfl⟩
    rw [hiac]
    rfl
  case isFalse hiac =>
    have hiac' : ¬ byte = TelnetGrammar.iac := hiac
    cases hverb : TelnetGrammar.verb? byte with
    | some v =>
      refine .move (by simp) hlive ?_ ⟨rfl, rfl, rfl, rfl⟩
      simp only [TelnetGrammar.step, if_neg hiac', hverb]
      exact ⟨rfl, (TelnetGrammar.code_of_verb? hverb).symm⟩
    | none =>
      simp only [Option.isSome_none, Bool.false_eq_true, if_false]
      split
      case isTrue hsb =>
        refine .move (by simp) hlive ?_ ⟨rfl, rfl, rfl, rfl⟩
        rw [hsb]
        rfl
      case isFalse hsb =>
        refine .move (by simp) hlive ?_ ⟨rfl, rfl, rfl, rfl⟩
        have hsb' : ¬ byte = TelnetGrammar.sb := hsb
        simp only [TelnetGrammar.step, if_neg hiac', hverb, if_neg hsb']
        rfl

theorem reads_sbIac {o : UInt8} {payload : Bytes} (hat : c.At (.sbIac o payload))
    (hlive : c.writeFailed = false) (byte : UInt8) :
    Reads host (.sbIac o payload) byte c (c.processServerByte host byte) := by
  obtain ⟨hparser, hoption, hpayload⟩ := hat
  simp only [processServerByte, hparser]
  split
  case isTrue hse =>
    have hprovoked : (TelnetGrammar.step (.sbIac o payload) byte).2.elim 0 provoked =
        provoked (.subnegotiation c.subOption c.subData) := by
      rw [hse, hoption, hpayload]
      rfl
    refine .finish (by simp) hlive (hprovoked ▸ remarks_handleSubnegotiation c)
      (fun _ _ => ?_) fun _ => ⟨rfl, rfl, rfl, rfl⟩
    rw [hse]
    rfl
  case isFalse hse =>
    have hse' : ¬ byte = TelnetGrammar.se := hse
    split
    case isTrue hiac =>
      refine reads_pushSubData (by simp) hlive ?_ hoption hpayload
      rw [hiac]
      rfl
    case isFalse hiac =>
      have hiac' : ¬ byte = TelnetGrammar.iac := hiac
      refine .move (by simp) hlive ?_ ⟨rfl, rfl, rfl, rfl⟩
      simp only [TelnetGrammar.step, if_neg hse', if_neg hiac']
      exact ⟨rfl, hoption, hpayload⟩

theorem reads_processServerByte {s : TelnetGrammar.State} (host : ClientHost σ) (hat : c.At s)
    (hlive : c.writeFailed = false) (byte : UInt8) :
    Reads host s byte c (c.processServerByte host byte) := by
  cases s with
  | data =>
    have hparser : c.parser = .data := hat
    simp only [processServerByte, hparser]
    split
    case isTrue hiac =>
      exact .move (by simp) hlive (by simp [TelnetGrammar.step, hiac, At]) ⟨rfl, rfl, rfl, rfl⟩
    case isFalse hiac =>
      have hstep : (TelnetGrammar.step .data byte).1 = .data := by
        simp [TelnetGrammar.step, show ¬ byte = TelnetGrammar.iac from hiac]
      rw [← andThen_done (c.writeDisplayByte host byte)]
      refine .finish (by simp) hlive ((remarks_writeDisplayByte c byte).mono (Nat.zero_le _))
        (fun c' hvoice => ?_) fun _ => ⟨rfl, rfl, rfl, rfl⟩
      rw [hstep]
      exact (congrArg Voice.parser hvoice).trans hparser
  | iac => exact reads_iac hat hlive byte
  | option v =>
    obtain ⟨hparser, hcommand⟩ := hat
    obtain ⟨direction, sign, rfl⟩ := exists_signVerb v
    rw [code_signVerb] at hcommand
    obtain ⟨hok, hsaved, hwent⟩ := receiveOption_spec host hlive hcommand byte
    simp only [processServerByte, hparser]
    refine ⟨fun hresult => ?_, hsaved, fun hreliable _ => hok hreliable⟩
    obtain ⟨hdata, hfailed, hheard⟩ := hwent hresult
    rw [hcommand] at hheard
    exact ⟨hdata, hfailed, .inl ⟨direction, sign, rfl, hheard⟩⟩
  | sbOption =>
    have hparser : c.parser = .sbOption := hat
    simp only [processServerByte, hparser]
    exact .move (by simp) hlive ⟨rfl, rfl, rfl⟩ ⟨rfl, rfl, rfl, rfl⟩
  | sbData o payload =>
    obtain ⟨hparser, hoption, hpayload⟩ := hat
    simp only [processServerByte, hparser]
    split
    case isTrue hiac =>
      refine .move (by simp) hlive ?_ ⟨rfl, rfl, rfl, rfl⟩
      rw [hiac]
      exact ⟨rfl, hoption, hpayload⟩
    case isFalse hiac =>
      have hiac' : ¬ byte = TelnetGrammar.iac := hiac
      rw [pushSubData_eq hparser]
      refine reads_pushSubData (by simp) hlive ?_ hoption hpayload
      simp only [TelnetGrammar.step, if_neg hiac']
  | sbIac o payload => exact reads_sbIac hat hlive byte

end ClientState

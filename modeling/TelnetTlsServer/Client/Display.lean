-- SUMMARY: Whatever the server sends, the development client writes whole, safe characters to its terminal.
import TelnetTlsServer.Client.SecureClient
import TelnetTlsServer.Text.Sanitize

/-!
# What the client shows

Only a few of the client's functions have to do with its terminal: the others leave the
pending character and what has been shown as they are, whether or not they get their bytes
out. The display itself writes a safe character at a time, and keeps fewer bytes of a
character than the character has.
-/

namespace ClientState

variable {σ : Type} {host : ClientHost σ} {c c' c'' : ClientState σ}

/-- What holds after a step and is kept by the next one holds after both. -/
theorem andThen_keeps {P : ClientState σ → Prop} {result : Bool × ClientState σ}
    {next : ClientState σ → Bool × ClientState σ} (h : P result.2)
    (hnext : ∀ c, P c → P (next c).2) : P (andThen result next).2 := by
  rw [andThen]
  split_ifs
  · exact hnext _ h
  · exact h

/-! ## Functions that leave the display alone -/

structure SameDisplay (c c' : ClientState σ) : Prop where
  shown : c'.shown = c.shown
  pending : c'.utf8Pending = c.utf8Pending
  expected : c'.utf8Expected = c.utf8Expected

theorem SameDisplay.refl (c : ClientState σ) : SameDisplay c c := ⟨rfl, rfl, rfl⟩

theorem SameDisplay.trans (h : SameDisplay c c') (h' : SameDisplay c' c'') : SameDisplay c c'' :=
  ⟨h'.shown.trans h.shown, h'.pending.trans h.pending, h'.expected.trans h.expected⟩

/-- The first state may differ in whatever has nothing to do with the display. -/
theorem SameDisplay.after (h : SameDisplay c' c'') (hc : SameDisplay c c') : SameDisplay c c'' :=
  hc.trans h

theorem SameDisplay.andThen {result : Bool × ClientState σ}
    {next : ClientState σ → Bool × ClientState σ} (h : SameDisplay c result.2)
    (hnext : ∀ c, SameDisplay c (next c).2) : SameDisplay c (andThen result next).2 :=
  andThen_keeps h fun c' hc' => hc'.trans (hnext c')

theorem sameDisplay_tlsWriteFrom (rounds : Nat) (c : ClientState σ) (data : Bytes) :
    SameDisplay c (tlsWriteFrom host rounds c data).2 := by
  induction rounds generalizing c data with
  | zero => cases data <;> exact .refl c
  | succ rounds ih =>
    cases data with
    | nil => exact .refl c
    | cons first rest =>
      rw [tlsWriteFrom]
      · dsimp only
        split_ifs
        · exact ⟨rfl, rfl, rfl⟩
        · exact (ih _ _).after ⟨rfl, rfl, rfl⟩
      · simp

theorem sameDisplay_tlsWriteAll (c : ClientState σ) (data : Bytes) :
    SameDisplay c (c.tlsWriteAll host data).2 :=
  sameDisplay_tlsWriteFrom _ c data

theorem sameDisplay_qSendCallback (c : ClientState σ) (sent : OptionCommand) :
    SameDisplay c (c.qSendCallback host sent) := by
  have hwrite : SameDisplay c (c.tlsWriteAll host [Telnet.iac, sent.1, sent.2]).2 :=
    sameDisplay_tlsWriteAll c _
  rw [qSendCallback]
  dsimp only
  split_ifs
  · exact hwrite.trans ⟨rfl, rfl, rfl⟩
  · exact hwrite

theorem sameDisplay_qSendCallbacks (c : ClientState σ) (sent : List OptionCommand) :
    SameDisplay c (sent.foldl (qSendCallback host) c) := by
  induction sent generalizing c with
  | nil => exact .refl c
  | cons first rest ih => exact (sameDisplay_qSendCallback c first).trans (ih _)

theorem sameDisplay_setLocalEcho (c : ClientState σ) (enabled : Bool) :
    SameDisplay c (c.setLocalEcho host enabled) := by
  rw [setLocalEcho]
  split
  · exact .refl c
  · split
    · exact .refl c
    · dsimp only
      split_ifs <;> exact ⟨rfl, rfl, rfl⟩

theorem sameDisplay_finish (c : ClientState σ) : SameDisplay c (c.finish host) := by
  refine .trans (sameDisplay_setLocalEcho c true : SameDisplay c (c.setLocalEcho host true)) ?_
  rw [finish, restoreTerminal]
  split
  · exact .refl _
  · exact ⟨rfl, rfl, rfl⟩

theorem sameDisplay_sendPayload (c : ClientState σ) (payload : Bytes) :
    SameDisplay c (c.sendPayload host payload).2 := by
  induction payload generalizing c with
  | nil => exact .refl c
  | cons b rest ih => exact (sameDisplay_tlsWriteAll c _).andThen ih

theorem sameDisplay_sendSubnegotiation (c : ClientState σ) (option : UInt8) (payload : Bytes) :
    SameDisplay c (c.sendSubnegotiation host option payload).2 :=
  (sameDisplay_tlsWriteAll c _).andThen fun c =>
    (sameDisplay_sendPayload c payload).andThen fun c => sameDisplay_tlsWriteAll c _

theorem sameDisplay_sendWindowSize (c : ClientState σ) :
    SameDisplay c (c.sendWindowSize host).2 := by
  rw [sendWindowSize]
  split_ifs
  · exact .refl c
  · exact (sameDisplay_sendSubnegotiation _ _ _).after ⟨rfl, rfl, rfl⟩

theorem sameDisplay_sendTerminalType (c : ClientState σ) :
    SameDisplay c (c.sendTerminalType host).2 :=
  (sameDisplay_sendSubnegotiation _ _ _).after ⟨rfl, rfl, rfl⟩

theorem sameDisplay_sendNewEnviron (c : ClientState σ) :
    SameDisplay c (c.sendNewEnviron host).2 := by
  rw [sendNewEnviron]
  split
  · exact .refl c
  · exact sameDisplay_sendSubnegotiation c _ _

theorem sameDisplay_maybeRequestUtf8 (c : ClientState σ) :
    SameDisplay c (c.maybeRequestUtf8 host).2 := by
  rw [maybeRequestUtf8]
  split_ifs
  · exact .refl c
  · exact (sameDisplay_sendSubnegotiation _ _ _).after ⟨rfl, rfl, rfl⟩

theorem sameDisplay_sendTerminalInput (c : ClientState σ) (input : Bytes) :
    SameDisplay c (c.sendTerminalInput host input).2 := by
  rw [sendTerminalInput]
  split_ifs
  · exact .refl c
  · exact sameDisplay_tlsWriteAll c _

theorem sameDisplay_handleSubnegotiation (c : ClientState σ) :
    SameDisplay c (c.handleSubnegotiation host).2 := by
  rw [handleSubnegotiation]
  split_ifs
  · exact sameDisplay_sendTerminalType c
  · exact (sameDisplay_sendSubnegotiation _ _ _).after ⟨rfl, rfl, rfl⟩
  · exact sameDisplay_sendSubnegotiation c _ _
  · exact ⟨rfl, rfl, rfl⟩
  · exact ⟨rfl, rfl, rfl⟩
  · exact .refl c
  · exact sameDisplay_sendNewEnviron c
  · exact .refl c

theorem sameDisplay_receiveOption (c : ClientState σ) (option : UInt8) :
    SameDisplay c (c.receiveOption host option).2 := by
  rw [receiveOption]
  dsimp only
  generalize telnetQReceive c.options c.command option qAcceptCallback = received
  have hsent : SameDisplay c
      (received.2.foldl (qSendCallback host) { c with options := received.1 }) :=
    (sameDisplay_qSendCallbacks _ _).after ⟨rfl, rfl, rfl⟩
  split_ifs
  · exact hsent
  all_goals
    refine SameDisplay.andThen ?_ fun c =>
      (sameDisplay_maybeRequestUtf8 c).andThen fun c => ⟨rfl, rfl, rfl⟩
  · exact (hsent.trans (sameDisplay_setLocalEcho _ _)).trans (sameDisplay_sendWindowSize _)
  · exact hsent.trans (sameDisplay_setLocalEcho _ _)
  · exact hsent.trans (sameDisplay_sendWindowSize _)
  · exact hsent

theorem sameDisplay_pushSubData (c : ClientState σ) (byte : UInt8) :
    SameDisplay c (c.pushSubData byte).2 := by
  rw [pushSubData]
  split_ifs <;> exact ⟨rfl, rfl, rfl⟩

/-! ## Characters a terminal may get -/

/-- Printable ASCII, CR, LF, TAB, and what the sanitiser keeps of the rest. -/
def Displayable (ch : Char) : Prop :=
  (32 ≤ ch.toNat ∧ ch.toNat ≤ 126) ∨ ch.toNat = 13 ∨ ch.toNat = 10 ∨ ch.toNat = 9 ∨
    (128 ≤ ch.toNat ∧ codepointSafe ch.toNat = true)

/-- Whole characters, all of them displayable. -/
def Presentable (bytes : Bytes) : Prop :=
  ∃ text : List Char, bytes = text.flatMap String.utf8EncodeChar ∧ ∀ ch ∈ text, Displayable ch

theorem displayable_of_codepointSafe {ch : Char} (h : codepointSafe ch.toNat = true) :
    Displayable ch := by
  rw [Displayable, and_iff_left h]
  rw [codepointSafe] at h
  split_ifs at h <;> omega

theorem presentable_safeText {text : List Char} (h : SafeText text) :
    Presentable (text.flatMap String.utf8EncodeChar) :=
  ⟨text, rfl, fun ch hch => displayable_of_codepointSafe (h ch hch)⟩

theorem presentable_question : Presentable [63] :=
  ⟨['?'], by simp [encode_question], by simp [Displayable]⟩

theorem presentable_ascii {byte : UInt8}
    (h : ((32 ≤ byte && byte ≤ 126) || byte = 13 || byte = 10 || byte = 9) = true) :
    Presentable [byte] := by
  have hnat : (32 ≤ byte.toNat ∧ byte.toNat ≤ 126) ∨ byte.toNat = 13 ∨ byte.toNat = 10 ∨
      byte.toNat = 9 := by
    simpa [UInt8.le_iff_toNat_le, ← UInt8.toNat_inj, or_assoc] using h
  obtain ⟨ch, hch⟩ := Utf8.exists_char (n := byte.toNat) (by omega) (by omega)
  refine ⟨[ch], ?_, ?_⟩
  · rw [List.flatMap_singleton, Utf8.encode_eq_one_iff.mpr ⟨by omega, hch.symm⟩]
  · simp only [List.mem_singleton, forall_eq, Displayable, hch]
    omega

theorem presentable_safeBytes (pending : Bytes) : Presentable (safeBytes pending) := by
  rw [safeBytes]
  split_ifs
  · exact presentable_question
  · rw [terminalTextSanitizeUtf8_eq (by decide)]
    dsimp only
    rw [Buffer.copyString_bytes (length_sanitized_lt (by decide) _), List.take_left]
    exact presentable_safeText (sanitized_safe _ _)

/-- Writes of whole characters are together whole characters. -/
theorem presentable_flatten {writes : List Bytes} (h : ∀ write ∈ writes, Presentable write) :
    Presentable writes.flatten := by
  induction writes with
  | nil => exact ⟨[], rfl, by simp⟩
  | cons first rest ih =>
    obtain ⟨text, hfirst, htext⟩ := h first List.mem_cons_self
    obtain ⟨text', hrest, htext'⟩ := ih fun write hwrite => h write (List.mem_cons_of_mem _ hwrite)
    refine ⟨text ++ text', ?_, ?_⟩
    · rw [List.flatten_cons, hfirst, hrest, List.flatMap_append]
    · intro ch hch
      exact (List.mem_append.mp hch).elim (htext ch) (htext' ch)

/-! ## The display -/

/-- The invariant of the display. A character is pending as long as bytes of it are
missing, and no character has more than four. -/
structure Sound (c : ClientState σ) : Prop where
  shown : ∀ write ∈ c.shown, Presentable write
  pending : c.utf8Pending = [] ∨ (c.utf8Pending.length < c.utf8Expected ∧ c.utf8Expected ≤ 4)

theorem Sound.same (h : Sound c) (hsame : SameDisplay c c') : Sound c' where
  shown := hsame.shown ▸ h.shown
  pending := hsame.pending ▸ hsame.expected ▸ h.pending

theorem sound_initial (world : σ) (savedTerminal : Option Termios) :
    Sound (initial world savedTerminal) where
  shown := by simp [initial]
  pending := .inl rfl

theorem sound_clearPending (h : ∀ write ∈ c.shown, Presentable write) : Sound c.clearPending :=
  ⟨h, .inl rfl⟩

/-- The first byte of a character of two bytes or more. -/
theorem Sound.start (h : Sound c) (byte : UInt8) {expected : Nat} (hlong : 2 ≤ expected)
    (hshort : expected ≤ 4) :
    Sound { c with utf8Pending := [byte], utf8Expected := expected } :=
  ⟨h.shown, .inr ⟨hlong, hshort⟩⟩

/-- A further byte of a character that still lacks another one. -/
theorem Sound.more (h : Sound c) (byte : UInt8) (hpending : c.utf8Pending ≠ [])
    (hlacks : (c.utf8Pending ++ [byte]).length ≠ c.utf8Expected) :
    Sound { c with utf8Pending := c.utf8Pending ++ [byte] } := by
  obtain ⟨hlt, hle⟩ := h.pending.resolve_left hpending
  rw [List.length_append, List.length_singleton] at hlacks
  refine ⟨h.shown, .inr ⟨?_, hle⟩⟩
  show (c.utf8Pending ++ [byte]).length < c.utf8Expected
  rw [List.length_append, List.length_singleton]
  omega

theorem Sound.length_pending_lt (h : Sound c) : c.utf8Pending.length < 4 := by
  obtain hnil | ⟨hlt, hle⟩ := h.pending
  · rw [hnil]
    decide
  · omega

section Writes

variable {σ : Type} {host : ClientHost σ} (hwrites : host.TerminalWrites) {c : ClientState σ}

include hwrites

theorem terminalWrite_eq (c : ClientState σ) (data : Bytes) : c.terminalWrite host data =
    (true, { c with
      world := (host.terminalWrite c.world data).2
      shown := c.shown ++ [data] }) := by
  rw [terminalWrite]
  dsimp only
  rw [hwrites, List.take_length, decide_eq_true rfl]

/-- A write of whole characters, whatever is pending afterwards. -/
theorem shown_terminalWrite (h : ∀ write ∈ c.shown, Presentable write) {data : Bytes}
    (hdata : Presentable data) : ∀ write ∈ (c.terminalWrite host data).2.shown, Presentable write := by
  rw [terminalWrite_eq hwrites]
  intro write hwrite
  rw [List.mem_append, List.mem_singleton] at hwrite
  obtain hold | rfl := hwrite
  · exact h write hold
  · exact hdata

theorem Sound.terminalWrite (h : Sound c) {data : Bytes} (hdata : Presentable data) :
    Sound (c.terminalWrite host data).2 where
  shown := shown_terminalWrite hwrites h.shown hdata
  pending := by
    rw [terminalWrite_eq hwrites]
    exact h.pending

theorem Sound.writeDisplayStart (h : Sound c) (byte : UInt8) :
    Sound (c.writeDisplayStart host byte).2 := by
  rw [ClientState.writeDisplayStart, writeDisplayAscii]
  split_ifs with hascii hbyte
  · exact h.terminalWrite hwrites (presentable_ascii hbyte)
  · exact h
  · exact h.terminalWrite hwrites presentable_question
  · exact h.start byte (by decide) (by decide)
  · exact h.start byte (by decide) (by decide)
  · exact h.start byte (by decide) (by decide)
  · exact h.terminalWrite hwrites presentable_question

theorem Sound.writeDisplayByte (h : Sound c) (byte : UInt8) :
    Sound (c.writeDisplayByte host byte).2 := by
  rw [ClientState.writeDisplayByte]
  dsimp only
  split_ifs with hpending hinterrupted hfull hsafe
  · refine andThen_keeps ?_ fun c hc => hc.writeDisplayStart hwrites byte
    exact (sound_clearPending h.shown).terminalWrite hwrites presentable_question
  · -- The write succeeds, so that nothing is pending after it.
    rw [terminalWrite_eq hwrites]
    have hshown := shown_terminalWrite hwrites h.shown
      (presentable_safeBytes (c.utf8Pending ++ [byte]))
    rw [terminalWrite_eq hwrites] at hshown
    exact sound_clearPending hshown
  · exact sound_clearPending h.shown
  · exact h.more byte hpending hfull
  · exact h.writeDisplayStart hwrites byte

/-! ## Whole runs -/

theorem Sound.processServerByte (h : Sound c) (byte : UInt8) :
    Sound (c.processServerByte host byte).2 := by
  rw [ClientState.processServerByte]
  cases c.parser with
  | data =>
    dsimp only
    split_ifs
    · exact h.same ⟨rfl, rfl, rfl⟩
    · exact h.writeDisplayByte hwrites byte
  | iac =>
    dsimp only
    split_ifs
    · exact andThen_keeps (h.writeDisplayByte hwrites _) fun c hc => hc.same ⟨rfl, rfl, rfl⟩
    all_goals exact h.same ⟨rfl, rfl, rfl⟩
  | option => exact h.same (sameDisplay_receiveOption c byte)
  | sbOption => exact h.same ⟨rfl, rfl, rfl⟩
  | sbData =>
    dsimp only
    split_ifs
    · exact h.same ⟨rfl, rfl, rfl⟩
    · exact h.same (sameDisplay_pushSubData c byte)
  | sbIac =>
    dsimp only
    split_ifs
    · exact h.same ((sameDisplay_handleSubnegotiation c).andThen fun c => ⟨rfl, rfl, rfl⟩)
    · exact h.same ((sameDisplay_pushSubData c _).andThen fun c => ⟨rfl, rfl, rfl⟩)
    · exact h.same ⟨rfl, rfl, rfl⟩

theorem Sound.processServerBytes (h : Sound c) (data : Bytes) :
    Sound (c.processServerBytes host data).2 := by
  induction data generalizing c with
  | nil => exact h
  | cons byte rest ih => exact andThen_keeps (h.processServerByte hwrites byte) fun c hc => ih hc

theorem Sound.handleInput (h : Sound c) (input : Input) : Sound (c.handleInput host input).2 := by
  cases input with
  | windowChanged => exact h.same (sameDisplay_sendWindowSize c)
  | received data => exact h.processServerBytes hwrites data
  | typed input => exact h.same (sameDisplay_sendTerminalInput c input)

theorem Sound.run (h : Sound c) (inputs : List Input) : Sound (c.run host inputs) := by
  induction inputs generalizing c with
  | nil => exact h.same (sameDisplay_finish c)
  | cons input rest ih =>
    have hnext := h.handleInput hwrites input
    rw [ClientState.run]
    dsimp only
    split_ifs
    · exact hnext.same (sameDisplay_finish _)
    · exact ih hnext

end Writes

/-- For every stream from the server in whatever pieces, among whatever is typed and
however the window changes: at every moment, what has been written to standard output is
whole characters that a terminal may get. Between two bytes fewer than four are pending, so
the array of four has room for the next one. Only the writes to the terminal have to
succeed. -/
theorem client_prints_safe {σ : Type} {host : ClientHost σ} (hwrites : host.TerminalWrites)
    (world : σ) (savedTerminal : Option Termios) (inputs : List Input) (moment : List Bytes)
    (hmoment : moment <+: ((initial world savedTerminal).run host inputs).shown) :
    (∃ text : List Char, moment.flatten = text.flatMap String.utf8EncodeChar ∧
      ∀ ch ∈ text, Displayable ch) ∧
    ((initial world savedTerminal).run host inputs).utf8Pending.length < 4 := by
  have hsound := (sound_initial world savedTerminal).run hwrites inputs
  refine ⟨?_, hsound.length_pending_lt⟩
  exact presentable_flatten fun write hwrite => hsound.shown write (hmoment.subset hwrite)

/-- UTF-8 is switched on, then come a character in two pieces, one that a letter interrupts
and one that overrides the direction of text. -/
theorem client_prints_safe_pieces :
    let host : ClientHost Unit := ⟨fun _ data => (data.length, ()), fun _ data => (data.length, ()),
      fun _ => (none, ()), fun _ => false, fun _ => none, fun _ _ => (false, ()), none⟩
    let inputs : List Input :=
      [.received ([255, 250, 42, 2] ++ ascii "UTF-8" ++ [255, 240, 0xc3]), .typed (ascii "n\n"),
        .received [0xa9, 0xe2, 97, 27], .windowChanged, .received [0xe2, 0x80, 0xae]]
    let c := (initial () none).run host inputs
    host.TerminalWrites ∧ c.shown = [[0xc3, 0xa9], [63], [97], [63]] ∧
      (∃ text : List Char, [0xc3, 0xa9, 63] = text.flatMap String.utf8EncodeChar ∧
        ∀ ch ∈ text, Displayable ch) ∧
      c.utf8Pending.length < 4 := by
  intro host inputs c
  have hwrites : host.TerminalWrites := fun _ _ => rfl
  have hshown : c.shown = [[0xc3, 0xa9], [63], [97], [63]] := by decide
  refine ⟨hwrites, hshown, client_prints_safe hwrites () none inputs [[0xc3, 0xa9], [63]] ?_⟩
  exact hshown ▸ ⟨[[97], [63]], rfl⟩

end ClientState

-- SUMMARY: Both transports send application text with its line feeds as CR LF, and nothing else changed.
import TelnetTlsServer.Session.OutputFraming
import TelnetTlsServer.Ssh.Links

/-!
# Line feeds on both transports

Applications end lines with a line feed, terminals want CR LF. Either transport has a loop
of its own that flushes the run before a bare line feed and then CR LF. What they send is
the conversion of the text, on Telnet with its IAC bytes doubled.
-/

/-! ## The conversion -/

/-- A byte and the one before it: a line feed without a CR in front becomes both. -/
def newlineBytes (byte : UInt8 × Option UInt8) : Bytes :=
  if byte.1 = 10 ∧ byte.2 ≠ some 13 then [13, 10] else [byte.1]

/-- Every line feed that does not follow a CR as CR LF. -/
def terminalNewlines (text : Bytes) : Bytes :=
  (text.zip (none :: text.map some)).flatMap newlineBytes

/-- The conversion of what follows the byte `previous`. -/
def newlinesFrom (previous : Option UInt8) : Bytes → Bytes
  | [] => []
  | ch :: rest => newlineBytes (ch, previous) ++ newlinesFrom (some ch) rest

theorem terminalNewlines_eq (text : Bytes) : terminalNewlines text = newlinesFrom none text := by
  have hfrom : ∀ previous, (text.zip (previous :: text.map some)).flatMap newlineBytes =
      newlinesFrom previous text := by
    induction text with
    | nil => exact fun _ => rfl
    | cons ch rest ih =>
      intro previous
      rw [List.map_cons, List.zip_cons_cons, List.flatMap_cons, ih, newlinesFrom]
  exact hfrom none

/-- In converted text every line feed follows a CR already. -/
theorem newlinesFrom_idem (previous : Option UInt8) (text : Bytes) :
    newlinesFrom previous (newlinesFrom previous text) = newlinesFrom previous text := by
  induction text generalizing previous with
  | nil => rfl
  | cons ch rest ih =>
    by_cases hbare : ch = 10 ∧ previous ≠ some 13
    · obtain ⟨rfl, -⟩ := id hbare
      simp [newlinesFrom, newlineBytes, hbare.2, ih]
    · simp only [newlinesFrom, newlineBytes, if_neg hbare, List.singleton_append, ih]

/-! ## SSH -/

theorem flatten_textChunks (run : Bytes) (previous : Option UInt8) (text : Bytes) :
    (SshWire.textChunks run previous text).flatten = run ++ newlinesFrom previous text := by
  induction text generalizing run previous with
  | nil => rw [SshWire.textChunks, Wire.flatten_runChunk, newlinesFrom, List.append_nil]
  | cons ch rest ih =>
    unfold SshWire.textChunks
    split
    case isTrue hbare =>
      rw [List.flatten_append, List.flatten_append, Wire.flatten_runChunk, ih, newlinesFrom,
        newlineBytes, if_pos hbare]
      simp
    case isFalse hbare => rw [ih, newlinesFrom, newlineBytes, if_neg hbare, List.append_assoc]

/-! ## Telnet -/

namespace Wire

variable {α : Type} {w : Wire α}

theorem written_writeTelnetData (hopen : w.closeRequested = false) (data : Bytes) :
    (w.writeTelnetData data).written = w.written ++ data.flatMap TelnetGrammar.quote := by
  rw [writeTelnetData_eq_sends, written_sends hopen, dataChunks, OutputOp.flatten_dataChunksFrom,
    List.nil_append]

theorem writeRun_eq (w : Wire α) (run : Bytes) :
    (if run ≠ [] then w.writeTelnetData run else w) = w.writeTelnetData run := by
  split
  case isTrue => rfl
  case isFalse hrun =>
    rw [not_not.mp hrun]
    rfl

theorem written_writeApplicationTextFrom (hopen : w.closeRequested = false) (run : Bytes)
    (previous : Option UInt8) (text : Bytes) :
    (w.writeApplicationTextFrom run previous text).written =
      w.written ++ (run ++ newlinesFrom previous text).flatMap TelnetGrammar.quote := by
  induction text generalizing w run previous with
  | nil =>
    rw [writeApplicationTextFrom, writeRun_eq, written_writeTelnetData hopen, newlinesFrom,
      List.append_nil]
  | cons ch rest ih =>
    have hstill : ∀ data, (w.writeTelnetData data).closeRequested = false := fun data => by
      rw [writeTelnetData_eq_sends, closeRequested_sends, hopen]
    unfold writeApplicationTextFrom
    split
    case isTrue hbare =>
      rw [writeRun_eq, ih, written_writeTelnetData (hstill run), written_writeTelnetData hopen,
        newlinesFrom, newlineBytes, if_pos hbare]
      · simp
      · rw [writeTelnetData_eq_sends, closeRequested_sends, hstill]
    case isFalse hbare => rw [ih hopen, newlinesFrom, newlineBytes, if_neg hbare, List.append_assoc]

end Wire

/-! ## Both transports -/

/-- For every text, SSH sends it with its bare line feeds as CR LF, in whatever parts the
library takes the bytes; Telnet sends the same with every IAC doubled; and converted text is
not converted further. -/
theorem newline_conversion {χ α β : Type} {lib : SshLibrary χ} (hlib : lib.Takes)
    (ssh : SshWire χ α) (hssh : ssh.Writable) (telnet : Wire β)
    (htelnet : telnet.closeRequested = false) (text : Bytes) :
    ((ssh.writeTerminalText lib text).1 = true ∧
      (ssh.writeTerminalText lib text).2.written = ssh.written ++ terminalNewlines text) ∧
    (telnet.writeApplicationText text).written =
      telnet.written ++ (terminalNewlines text).flatMap TelnetGrammar.quote ∧
    terminalNewlines (terminalNewlines text) = terminalNewlines text := by
  simp only [terminalNewlines_eq]
  refine ⟨?_, Wire.written_writeApplicationTextFrom htelnet [] none text, newlinesFrom_idem none text⟩
  have hwritten := SshWire.written_writeChunks_takes hlib hssh (SshWire.textChunks [] none text)
  rw [flatten_textChunks, List.nil_append] at hwritten
  rw [SshWire.writeTerminalText, SshWire.writeTerminalTextFrom_eq]
  exact hwritten

/-- A channel that takes one byte at a time. -/
def SshLibrary.slow : SshLibrary Unit := ⟨fun _ _ => (1, ())⟩

theorem SshLibrary.takes_slow : slow.Takes :=
  fun _ _ h => ⟨Nat.one_pos, List.length_pos_iff.mpr h⟩

/-- A bare line feed at the start, CR LF and an IAC. -/
theorem newline_conversion_mixed :
    (SshWire.writeTerminalText .slow (⟨some (), false, false, (), []⟩ : SshWire Unit Unit)
      [10, 97, 13, 10, 255]).2.written = [13, 10, 97, 13, 10, 255] ∧
    (Wire.writeApplicationText (⟨false, (), []⟩ : Wire Unit) [10, 97, 13, 10, 255]).written =
      [13, 10, 97, 13, 10, 255, 255] :=
  let both := newline_conversion SshLibrary.takes_slow
    (⟨some (), false, false, (), []⟩ : SshWire Unit Unit) ⟨rfl, rfl⟩ (⟨false, (), []⟩ : Wire Unit)
    rfl [10, 97, 13, 10, 255]
  ⟨both.1.2, both.2.1⟩

-- SUMMARY: The bytes a link label puts on either transport, and the labels that are safe on both.
import TelnetTlsServer.Session.Links
import TelnetTlsServer.Ssh.Editor

/-!
# Labels of links

On Telnet a label goes through the sanitiser. On SSH it is written as terminal text:
a line feed becomes CR LF and every other byte goes out as it is.
-/

/-- Every write takes a byte at least, and no more than it was given. -/
def SshLibrary.Takes {χ : Type} (lib : SshLibrary χ) : Prop :=
  ∀ channel data, data ≠ [] →
    0 < (lib.channelWrite channel data).1 ∧ (lib.channelWrite channel data).1 ≤ data.length

theorem SshLibrary.takes_willing : willing.Takes :=
  fun _ _ h => ⟨List.length_pos_iff.mpr h, Nat.le_refl _⟩

namespace SshWire

variable {χ α : Type} (lib : SshLibrary χ)

/-- All bytes the channel has taken so far. -/
def written (w : SshWire χ α) : Bytes := w.trace.flatMap Event.bytes

theorem written_emit (w : SshWire χ α) (e : Event) : (w.emit e).written = w.written ++ e.bytes := by
  rw [written, emit, List.flatMap_append, List.flatMap_singleton]
  rfl

/-! ## One write -/

/-- Whatever the library takes, it is given bytes of the data only. -/
theorem written_channelWriteFrom (w : SshWire χ α) (rounds : Nat) (channel : χ) (data : Bytes) :
    ∃ taken, (w.channelWriteFrom lib rounds channel data).2.written = w.written ++ taken ∧
      ∀ b ∈ taken, b ∈ data := by
  induction rounds generalizing w channel data with
  | zero => cases data <;> exact ⟨[], (List.append_nil _).symm, by simp⟩
  | succ rounds ih =>
    cases data with
    | nil => exact ⟨[], (List.append_nil _).symm, by simp⟩
    | cons byte rest =>
      unfold channelWriteFrom
      dsimp only
      split
      · exact ⟨[], written_emit _ _, by simp⟩
      · obtain ⟨taken, hwritten, hmem⟩ := ih (w.emit _) _ _
        refine ⟨_, by rw [hwritten, written_emit, List.append_assoc], fun b hb => ?_⟩
        rcases List.mem_append.mp hb with hb | hb
        · exact List.mem_of_mem_take (List.mem_of_mem_take hb)
        · exact List.mem_of_mem_drop (hmem b hb)

theorem written_channelWriteAll (w : SshWire χ α) (data : Bytes) :
    ∃ taken, (w.channelWriteAll lib data).2.written = w.written ++ taken ∧
      ∀ b ∈ taken, b ∈ data := by
  have hnone : ∃ taken, w.written = w.written ++ taken ∧ ∀ b ∈ taken, b ∈ data :=
    ⟨[], (List.append_nil _).symm, by simp⟩
  unfold channelWriteAll
  split
  · exact hnone
  · split
    · exact hnone
    · exact written_channelWriteFrom lib w _ _ _

variable {lib}

/-- A library that takes some of the bytes at a time takes all of the data. -/
theorem written_channelWriteFrom_takes (hlib : lib.Takes) {w : SshWire χ α}
    (hfailed : w.writeFailed = false) {rounds : Nat} (channel : χ) {data : Bytes}
    (hrounds : data.length ≤ rounds) :
    (w.channelWriteFrom lib rounds channel data).1 = true ∧
      (w.channelWriteFrom lib rounds channel data).2.Writable ∧
      (w.channelWriteFrom lib rounds channel data).2.written = w.written ++ data := by
  induction rounds generalizing w channel data with
  | zero =>
    obtain rfl := List.eq_nil_of_length_eq_zero (Nat.le_zero.mp hrounds)
    exact ⟨rfl, ⟨rfl, hfailed⟩, (List.append_nil _).symm⟩
  | succ rounds ih =>
    cases data with
    | nil => exact ⟨rfl, ⟨rfl, hfailed⟩, (List.append_nil _).symm⟩
    | cons byte rest =>
      have hchunk : (byte :: rest).take sshWriteChunkMax ≠ [] := by simp [sshWriteChunkMax]
      obtain ⟨hpos, hle⟩ := hlib channel _ hchunk
      rcases hwrite : lib.channelWrite channel ((byte :: rest).take sshWriteChunkMax) with
        ⟨taken, channel'⟩
      rw [hwrite] at hpos hle
      unfold channelWriteFrom
      simp only [hwrite, if_neg (Nat.pos_iff_ne_zero.mp hpos)]
      -- The bytes taken are the first of the data.
      have hfirst : ((byte :: rest).take sshWriteChunkMax).take taken = (byte :: rest).take taken := by
        rw [List.length_take] at hle
        rw [List.take_take, Nat.min_eq_left (hle.trans (Nat.min_le_left _ _))]
      have hshorter : ((byte :: rest).drop taken).length ≤ rounds := by
        rw [List.length_drop]
        omega
      rw [hfirst]
      obtain ⟨hok, hwritable, hwritten⟩ :=
        ih (w := w.emit (.write ((byte :: rest).take taken))) hfailed channel' hshorter
      refine ⟨hok, hwritable, ?_⟩
      rw [hwritten, written_emit, Event.bytes, List.append_assoc, List.take_append_drop]

theorem written_channelWriteAll_takes (hlib : lib.Takes) {w : SshWire χ α} (h : w.Writable)
    (data : Bytes) :
    (w.channelWriteAll lib data).1 = true ∧ (w.channelWriteAll lib data).2.Writable ∧
      (w.channelWriteAll lib data).2.written = w.written ++ data := by
  obtain ⟨channel, hchannel⟩ := Option.isSome_iff_exists.mp h.channel
  simp only [channelWriteAll, hchannel, h.writeFailed, Bool.false_eq_true, if_false]
  exact written_channelWriteFrom_takes hlib h.writeFailed channel (Nat.le_refl _)

variable (lib)

/-! ## Terminal text -/

theorem written_writeChunks (w : SshWire χ α) (chunks : List Bytes) :
    ∃ taken, (w.writeChunks lib chunks).2.written = w.written ++ taken ∧
      ∀ b ∈ taken, b ∈ chunks.flatten := by
  induction chunks generalizing w with
  | nil => exact ⟨[], (List.append_nil _).symm, by simp⟩
  | cons chunk chunks ih =>
    obtain ⟨taken, hwritten, hmem⟩ := written_channelWriteAll lib w chunk
    unfold writeChunks
    rcases hwrite : w.channelWriteAll lib chunk with ⟨_ | _, w'⟩ <;> rw [hwrite] at hwritten
    · exact ⟨taken, hwritten, fun b hb => List.mem_append_left _ (hmem b hb)⟩
    · obtain ⟨taken', hwritten', hmem'⟩ := ih w'
      refine ⟨taken ++ taken', ?_, fun b hb => ?_⟩
      · rw [← List.append_assoc, ← hwritten]
        exact hwritten'
      · rw [List.flatten_cons, List.mem_append]
        exact (List.mem_append.mp hb).imp (hmem b) (hmem' b)

theorem written_writeChunks_takes {lib : SshLibrary χ} (hlib : lib.Takes) {w : SshWire χ α}
    (h : w.Writable) (chunks : List Bytes) :
    (w.writeChunks lib chunks).1 = true ∧
      (w.writeChunks lib chunks).2.written = w.written ++ chunks.flatten := by
  induction chunks generalizing w with
  | nil => exact ⟨rfl, (List.append_nil _).symm⟩
  | cons chunk chunks ih =>
    obtain ⟨hok, hwritable, hall⟩ := written_channelWriteAll_takes hlib h chunk
    unfold writeChunks
    dsimp only
    rw [hok, Bool.not_true, if_neg Bool.false_ne_true]
    refine ⟨(ih hwritable).1, ?_⟩
    rw [(ih hwritable).2, hall, List.flatten_cons, List.append_assoc]

/-- The bytes of the chunks are those of the text, and CR and LF. -/
theorem mem_textChunks (run : Bytes) (previous : Option UInt8) (text : Bytes) (b : UInt8) :
    (b ∈ (textChunks run previous text).flatten → b ∈ run ++ text ∨ b = 13 ∨ b = 10) ∧
      (b ∈ run ++ text → b ∈ (textChunks run previous text).flatten) := by
  induction text generalizing run previous with
  | nil =>
    rw [textChunks, Wire.flatten_runChunk, List.append_nil]
    exact ⟨.inl, id⟩
  | cons ch rest ih =>
    unfold textChunks
    split
    case isTrue hfeed =>
      obtain ⟨hfrom, hto⟩ := ih [] (some ch)
      simp only [List.flatten_append, Wire.flatten_runChunk, List.mem_append, List.mem_cons, hfeed.1,
        List.flatten_cons, List.flatten_nil, List.nil_append, List.append_nil] at hfrom hto ⊢
      tauto
    case isFalse =>
      rw [List.append_cons run ch rest]
      exact ih (run ++ [ch]) (some ch)

end SshWire

/-! ## Both transports -/

/-- The bytes a label puts on a Telnet session are safe: nothing is written, or the
label stands as safe bytes between the two parts of the link. -/
def Wire.LabelSafe {α : Type} (w : Wire α) (t : TelnetTerminalInfo) (uri : Option Bytes)
    (label : Bytes) : Prop :=
  (w.output t (.writeLink uri label)).2.written = w.written ∨
    ∃ shown, (w.output t (.writeLink uri label)).2.written =
        w.written ++ (linkFrame t uri).1 ++ shown ++ (linkFrame t uri).2 ∧
      ∀ b ∈ shown, textByteSafe b = true

/-- The bytes a label puts on an SSH channel are safe. -/
def SshWire.LabelSafe {χ α : Type} (lib : SshLibrary χ) (w : SshWire χ α) (uri : Option Bytes)
    (label : Bytes) : Prop :=
  ∃ shown, (w.output lib (.writeLink uri label)).2.written = w.written ++ shown ∧
    ∀ b ∈ shown, textByteSafe b = true

theorem Wire.labelSafe {α : Type} (w : Wire α) (t : TelnetTerminalInfo) (uri : Option Bytes)
    (label : Bytes) : w.LabelSafe t uri label := by
  cases hclosed : w.closeRequested with
  | true => exact .inl (congrArg written (applicationWriteLink_of_closed hclosed t uri label))
  | false =>
    exact .inr ⟨_, written_label hclosed t uri label, textByteSafe_sanitize label 512⟩

namespace SshWire

variable {χ α : Type}

theorem output_writeLink (lib : SshLibrary χ) (w : SshWire χ α) (uri : Option Bytes)
    (label : Bytes) :
    (w.output lib (.writeLink uri label)).2 =
      (w.writeChunks lib (textChunks [] none label)).2 := by
  rw [← writeTerminalTextFrom_eq lib]
  rfl

theorem labelSafe_of_forall {label : Bytes} (h : ∀ b ∈ label, textByteSafe b = true)
    (lib : SshLibrary χ) (w : SshWire χ α) (uri : Option Bytes) : w.LabelSafe lib uri label := by
  obtain ⟨shown, hwritten, hmem⟩ := written_writeChunks lib w (textChunks [] none label)
  refine ⟨shown, (congrArg written (output_writeLink lib w uri label)).trans hwritten, ?_⟩
  intro b hb
  rcases (mem_textChunks [] none label b).1 (hmem b hb) with hlabel | rfl | rfl
  · exact h b hlabel
  · decide
  · decide

/-- A channel that was just opened. -/
def opened : SshWire Unit Unit := ⟨some (), false, false, (), []⟩

theorem forall_of_labelSafe {uri : Option Bytes} {label : Bytes}
    (h : opened.LabelSafe .willing uri label) : ∀ b ∈ label, textByteSafe b = true := by
  obtain ⟨shown, hwritten, hsafe⟩ := h
  rw [output_writeLink, (written_writeChunks_takes SshLibrary.takes_willing ⟨rfl, rfl⟩ _).2,
    List.append_right_inj]
    at hwritten
  intro b hb
  refine hsafe b ?_
  rw [← hwritten]
  exact (mem_textChunks [] none label b).2 hb

end SshWire

/-- A label is safe on every Telnet session and every SSH channel, whatever the
library takes of it, if and only if all its bytes are. -/
theorem labels_safe_iff (uri : Option Bytes) (label : Bytes) :
    ((∀ {α : Type} (w : Wire α) (t : TelnetTerminalInfo), w.LabelSafe t uri label) ∧
        ∀ {χ α : Type} (lib : SshLibrary χ) (w : SshWire χ α), w.LabelSafe lib uri label) ↔
      ∀ b ∈ label, textByteSafe b = true := by
  constructor
  · rintro ⟨-, hssh⟩
    exact SshWire.forall_of_labelSafe (hssh .willing .opened)
  · intro hlabel
    exact ⟨fun w t => w.labelSafe t uri label,
      fun lib w => SshWire.labelSafe_of_forall hlabel lib w uri⟩

/-- A label that clears the screen: Telnet shows a question mark, SSH sends the
escape. -/
theorem label_clears_screen :
    let label := 27 :: ascii "[2J"
    ((⟨false, (), []⟩ : Wire Unit).output (.initial true) (.writeLink none label)).2.written =
        ascii "?[2J" ∧
      (SshWire.opened.output .willing (.writeLink none label)).2.written = label := by
  decide +kernel

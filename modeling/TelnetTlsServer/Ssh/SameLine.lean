-- SUMMARY: When the two transports hand the same line to the application for the same typing.
import TelnetTlsServer.Lib.EditScript
import TelnetTlsServer.Session.Lifecycle
import TelnetTlsServer.Session.LineAssembly
import TelnetTlsServer.Ssh.Editor
import TelnetTlsServer.Text.Utf8

/-!
# The same typing on both transports

A player types characters and rubs them out. Both transports carry the same UTF-8
bytes, but they rub out differently: SSH takes the whole last character, Telnet its
last byte. The lines agree exactly for the scripts whose byte count, with one byte
for each key that rubs out, ends as that of the text, and which do not overrun the
line on the way.
-/

open EditScript

/-! ## UTF-8 -/

namespace Utf8

/-- A character begins with a byte that is no continuation, and goes on with
continuations. -/
theorem encode_shape (ch : Char) : ∃ lead rest, String.utf8EncodeChar ch = lead :: rest ∧
    isContinuation lead = false ∧
    ∀ b ∈ rest, isContinuation b = true := by
  have hlead : ∀ {b : UInt8}, b.toNat < 128 ∨ 192 ≤ b.toNat →
      isContinuation b = false := by
    intro b hb
    rw [Bool.eq_false_iff, Ne, isContinuation_iff]
    omega
  have hrest : ∀ {b : UInt8} (n : Nat), b.toNat = n % 64 + 128 →
      isContinuation b = true := by
    intro b n hb
    rw [isContinuation_iff]
    omega
  obtain ⟨a, h⟩ | ⟨a, b, h⟩ | ⟨a, b, c, h⟩ | ⟨a, b, c, d, h⟩ := encode_cases ch
  · obtain ⟨hrange, ha⟩ := encode_eq_one_iff.mp h
    exact ⟨a, [], h, hlead (by omega), by simp⟩
  · obtain ⟨hrange, ha, hb⟩ := encode_eq_two_iff.mp h
    exact ⟨a, [b], h, hlead (by omega), List.forall_mem_singleton.mpr (hrest _ hb)⟩
  · obtain ⟨hrange, ha, hb, hc⟩ := encode_eq_three_iff.mp h
    exact ⟨a, [b, c], h, hlead (by omega),
      List.forall_mem_cons.mpr ⟨hrest _ hb, List.forall_mem_singleton.mpr (hrest _ hc)⟩⟩
  · obtain ⟨hrange, ha, hb, hc, hd⟩ := encode_eq_four_iff.mp h
    exact ⟨a, [b, c, d], h, hlead (by omega), List.forall_mem_cons.mpr ⟨hrest _ hb,
      List.forall_mem_cons.mpr ⟨hrest _ hc, List.forall_mem_singleton.mpr (hrest _ hd)⟩⟩⟩

/-- The bytes of a character that is no control are none either. -/
theorem encode_printable {ch : Char} (hctl : 32 ≤ ch.toNat) (hdel : ch.toNat ≠ 127) :
    ∀ b ∈ String.utf8EncodeChar ch, 32 ≤ b ∧ b ≠ 127 ∧ b ≠ 255 := by
  have hbyte : ∀ {b : UInt8}, 32 ≤ b.toNat → b.toNat < 255 → b.toNat ≠ 127 →
      32 ≤ b ∧ b ≠ 127 ∧ b ≠ 255 := by
    intro b hlow hhigh hne
    rw [UInt8.le_iff_toNat_le, Ne, Ne, ← UInt8.toNat_inj, ← UInt8.toNat_inj]
    exact ⟨hlow, hne, Nat.ne_of_lt hhigh⟩
  have hlt := toNat_lt ch
  obtain ⟨a, h⟩ | ⟨a, b, h⟩ | ⟨a, b, c, h⟩ | ⟨a, b, c, d, h⟩ := encode_cases ch <;> rw [h]
  · obtain ⟨hrange, ha⟩ := encode_eq_one_iff.mp h
    exact List.forall_mem_singleton.mpr (hbyte (by omega) (by omega) (by omega))
  · obtain ⟨hrange, ha, hb⟩ := encode_eq_two_iff.mp h
    exact List.forall_mem_cons.mpr ⟨hbyte (by omega) (by omega) (by omega),
      List.forall_mem_singleton.mpr (hbyte (by omega) (by omega) (by omega))⟩
  · obtain ⟨hrange, ha, hb, hc⟩ := encode_eq_three_iff.mp h
    exact List.forall_mem_cons.mpr ⟨hbyte (by omega) (by omega) (by omega),
      List.forall_mem_cons.mpr ⟨hbyte (by omega) (by omega) (by omega),
        List.forall_mem_singleton.mpr (hbyte (by omega) (by omega) (by omega))⟩⟩
  · obtain ⟨hrange, ha, hb, hc, hd⟩ := encode_eq_four_iff.mp h
    exact List.forall_mem_cons.mpr ⟨hbyte (by omega) (by omega) (by omega),
      List.forall_mem_cons.mpr ⟨hbyte (by omega) (by omega) (by omega),
        List.forall_mem_cons.mpr ⟨hbyte (by omega) (by omega) (by omega),
          List.forall_mem_singleton.mpr (hbyte (by omega) (by omega) (by omega))⟩⟩⟩

end Utf8

/-! ## Scripts -/

/-- A character a player can type: no control. -/
def Typable : Type := { ch : Char // 32 ≤ ch.toNat ∧ ch.toNat ≠ 127 }

inductive RuboutKey where
  | backspace
  | delete
deriving DecidableEq, Repr

def RuboutKey.code : RuboutKey → UInt8
  | backspace => 8
  | delete => 127

abbrev TypingScript := List (Edit Typable RuboutKey)

namespace TypingScript

def encode (ch : Typable) : Bytes := String.utf8EncodeChar ch.1

def editBytes : Edit Typable RuboutKey → Bytes
  | .type ch => encode ch
  | .erase key => [key.code]

/-- What the terminal sends. -/
def bytes (script : TypingScript) : Bytes := script.flatMap editBytes

/-- What the player sees in the end, encoded. -/
def line (script : TypingScript) : Bytes := (text script).flatMap encode

theorem encode_ne_nil (ch : Typable) : encode ch ≠ [] := by
  obtain ⟨lead, rest, hshape, -, -⟩ := Utf8.encode_shape ch.1
  rw [encode, hshape]
  exact List.cons_ne_nil _ _

theorem encode_bytes (ch : Typable) : ∀ b ∈ encode ch, 32 ≤ b ∧ b ≠ 127 ∧ b ≠ 255 :=
  Utf8.encode_printable ch.2.1 ch.2.2

theorem bytes_concat (script : TypingScript) (edit : Edit Typable RuboutKey) :
    bytes (script ++ [edit]) = bytes script ++ editBytes edit := by
  simp [bytes]

theorem line_concat (script : TypingScript) (edit : Edit Typable RuboutKey) :
    line (script ++ [edit]) = (Edit.onText (text script) edit).flatMap encode := by
  rw [line, text_concat]

theorem mem_bytes {script : TypingScript} {b : UInt8} (hb : b ∈ bytes script) :
    (b = 8 ∨ 32 ≤ b) ∧ b ≠ 255 := by
  obtain ⟨edit, -, hedit⟩ := List.mem_flatMap.mp hb
  cases edit with
  | type ch =>
    obtain ⟨hlow, -, hiac⟩ := encode_bytes ch b hedit
    exact ⟨.inr hlow, hiac⟩
  | erase key =>
    obtain rfl := List.mem_singleton.mp hedit
    cases key <;> decide

theorem ne_lf {script : TypingScript} {b : UInt8} (hb : b ∈ bytes script) : b ≠ 10 := by
  rintro rfl
  exact absurd (mem_bytes hb).1 (by decide)

/-- UTF-8 has no byte that Telnet quotes. -/
theorem quote_bytes (script : TypingScript) :
    script.bytes.flatMap TelnetGrammar.quote = script.bytes := by
  have hquote : ∀ b ∈ bytes script, TelnetGrammar.quote b = [b] :=
    fun b hb => if_neg (mem_bytes hb).2
  rw [List.flatMap_congr hquote, List.flatMap_singleton']

/-! ## On SSH -/

theorem previousStart_character {before rest : Bytes} {lead : UInt8}
    (hlead : isContinuation lead = false)
    (hrest : ∀ b ∈ rest, isContinuation b = true) {k : Nat} (hk : k ≤ rest.length) :
    SshConnection.previousStart (before ++ lead :: rest) (before.length + k) = before.length := by
  induction k with
  | zero =>
    cases hlength : before.length with
    | zero => rfl
    | succ n =>
      have hat : (before ++ lead :: rest).getD (n + 1) 0 = lead := by simp [← hlength]
      rw [Nat.add_zero, SshConnection.previousStart, hat, hlead, if_neg (by simp)]
  | succ k ih =>
    have hat : (before ++ lead :: rest).getD (before.length + k + 1) 0 = rest.get ⟨k, hk⟩ := by
      rw [Nat.add_assoc]
      simp [List.getD_eq_getElem?_getD, List.getElem?_append_right,
        List.getElem?_eq_getElem (show k < rest.length from hk)]
    rw [← Nat.add_assoc, SshConnection.previousStart, hat, hrest _ (List.get_mem _ _), if_pos rfl]
    exact ih (Nat.le_of_succ_le hk)

theorem foldl_put_printable {bs : Bytes} (h : ∀ b ∈ bs, 32 ≤ b ∧ b ≠ 127 ∧ b ≠ 255)
    (typed : Bytes) : bs.foldl SshLine.put typed = typed ++ bs := by
  induction bs generalizing typed with
  | nil => simp
  | cons b bs ih =>
    obtain ⟨hlow, hdel, -⟩ := h b (by simp)
    have hbackspace : b ≠ 8 := by
      rintro rfl
      exact absurd hlow (by decide)
    have hput : SshLine.put typed b = typed ++ [b] := by
      rw [SshLine.put, if_neg (by simp [hbackspace, hdel])]
    rw [List.foldl_cons, hput, ih fun b' hb' => h b' (by simp [hb'])]
    simp

theorem put_rubout (key : RuboutKey) (typed : Bytes) :
    SshLine.put typed key.code =
      typed.take (SshConnection.previousStart typed (typed.length - 1)) := by
  cases key <;> rfl

/-- The last character is rubbed out as a whole. -/
theorem put_rubout_character (key : RuboutKey) (typed : Bytes) (ch : Typable) :
    SshLine.put (typed ++ encode ch) key.code = typed := by
  obtain ⟨lead, rest, hshape, hlead, hrest⟩ := Utf8.encode_shape ch.1
  rw [put_rubout, encode, hshape]
  have hlength : (typed ++ lead :: rest).length - 1 = typed.length + rest.length := by simp
  rw [hlength, previousStart_character hlead hrest (Nat.le_refl _), List.take_left]

/-- The SSH editor holds the encoding of the text. -/
theorem ssh_line (script : TypingScript) : (bytes script).foldl SshLine.put [] = line script := by
  induction script using List.reverseRecOn with
  | nil => rfl
  | append_singleton script edit ih =>
    rw [bytes_concat, List.foldl_append, ih, line_concat]
    cases edit with
    | type ch =>
      rw [editBytes, foldl_put_printable (encode_bytes ch), Edit.onText, List.flatMap_append,
        List.flatMap_singleton]
      rfl
    | erase key =>
      rw [editBytes, List.foldl_cons, List.foldl_nil, Edit.onText, line]
      rcases List.eq_nil_or_concat' (text script) with hnil | ⟨kept, last, hlast⟩
      · rw [hnil]
        cases key <;> rfl
      · rw [hlast, List.flatMap_append, List.flatMap_singleton, put_rubout_character,
          List.dropLast_concat]

/-- The text never takes more than a line. -/
def Short (script : TypingScript) : Prop :=
  ∀ before, before <+: script → (line before).length ≤ applicationLineMax

instance decidableShort (script : TypingScript) : Decidable script.Short :=
  decidable_of_iff (∀ before ∈ script.inits, (line before).length ≤ applicationLineMax) <|
    forall_congr' fun before => by rw [List.mem_inits]

theorem Short.init {script : TypingScript} {edit : Edit Typable RuboutKey}
    (h : Short (script ++ [edit])) : Short script :=
  fun before hbefore => h before (hbefore.trans (List.prefix_append _ _))

theorem fits_append {typed a b : Bytes} (ha : SshConnection.Fits typed a)
    (hb : SshConnection.Fits (a.foldl SshLine.put typed) b) : SshConnection.Fits typed (a ++ b) := by
  intro before hbefore
  rcases List.prefix_or_prefix_of_prefix hbefore (List.prefix_append a b) with hshort | hlong
  · exact ha before hshort
  · obtain ⟨rest, rfl⟩ := hlong
    rw [List.foldl_append]
    exact hb rest ((List.prefix_append_right_inj a).mp hbefore)

theorem fits_of_short {script : TypingScript} (h : Short script) :
    SshConnection.Fits [] (bytes script) := by
  induction script using List.reverseRecOn with
  | nil =>
    intro before hbefore
    rw [List.prefix_nil.mp hbefore]
    exact Nat.zero_le _
  | append_singleton script edit ih =>
    rw [bytes_concat]
    refine fits_append (ih h.init) fun before hbefore => ?_
    rw [ssh_line]
    have hnow : (line script).length ≤ sshInputLineMax := h.init script (List.prefix_refl _)
    have hafter : (line (script ++ [edit])).length ≤ sshInputLineMax := h _ (List.prefix_refl _)
    cases edit with
    | type ch =>
      rw [line_concat, Edit.onText, List.flatMap_append, List.flatMap_singleton,
        List.length_append] at hafter
      have hpart : before.length ≤ (encode ch).length := hbefore.length_le
      rw [foldl_put_printable fun b hb => encode_bytes ch b (hbefore.subset hb), List.length_append]
      exact (Nat.add_le_add_left hpart _).trans hafter
    | erase key =>
      rcases List.prefix_cons_iff.mp hbefore with rfl | ⟨rest, rfl, hrest⟩
      · exact hnow
      · obtain rfl := List.prefix_nil.mp hrest
        rw [List.foldl_cons, List.foldl_nil, put_rubout]
        exact (List.length_take_le' _ _).trans hnow

/-! ## On Telnet -/

/-- The Telnet editor after the script. -/
def typed (script : TypingScript) : Typing :=
  (bytes script).foldl (Typing.put applicationLineMax) .empty

theorem typed_concat (script : TypingScript) (edit : Edit Typable RuboutKey) :
    typed (script ++ [edit]) =
      (editBytes edit).foldl (Typing.put applicationLineMax) (typed script) := by
  rw [typed, bytes_concat, List.foldl_append]
  rfl

/-- Counting a byte for each key that rubs out, the line has room all the time. -/
def Roomy (script : TypingScript) : Prop :=
  ∀ before, before <+: script → count encode before ≤ applicationLineMax

instance decidableRoomy (script : TypingScript) : Decidable script.Roomy :=
  decidable_of_iff (∀ before ∈ script.inits, count encode before ≤ applicationLineMax) <|
    forall_congr' fun before => by rw [List.mem_inits]

theorem roomy_concat_iff (script : TypingScript) (edit : Edit Typable RuboutKey) :
    Roomy (script ++ [edit]) ↔
      Roomy script ∧ count encode (script ++ [edit]) ≤ applicationLineMax := by
  constructor
  · exact fun h => ⟨fun before hbefore => h before (hbefore.trans (List.prefix_append _ _)),
      h _ (List.prefix_refl _)⟩
  · rintro ⟨hinit, hlast⟩ before hbefore
    rcases List.prefix_concat_iff.mp hbefore with rfl | hshort
    · exact hlast
    · exact hinit before hshort

theorem overflow_foldl_put {limit : Nat} {t : Typing} (h : t.overflow = true) (bs : Bytes) :
    (bs.foldl (Typing.put limit) t).overflow = true := by
  induction bs generalizing t with
  | nil => exact h
  | cons b bs ih =>
    refine ih ?_
    unfold Typing.put Typing.erase
    split_ifs
    · exact h
    · exact h
    · rfl
    · exact h

/-- Printable bytes are appended until the line is full. -/
theorem foldl_typing_put {limit : Nat} {bs : Bytes}
    (hbs : ∀ b ∈ bs, 32 ≤ b ∧ b ≠ 127 ∧ b ≠ 255) {typed : Bytes} (htyped : typed.length ≤ limit) :
    if typed.length + bs.length ≤ limit then
      bs.foldl (Typing.put limit) ⟨typed, false⟩ = ⟨typed ++ bs, false⟩
    else (bs.foldl (Typing.put limit) ⟨typed, false⟩).overflow = true := by
  induction bs generalizing typed with
  | nil =>
    rw [if_pos (by simpa using htyped)]
    simp
  | cons b bs ih =>
    obtain ⟨hlow, hdel, -⟩ := hbs b (by simp)
    have hbackspace : b ≠ 8 := by
      rintro rfl
      exact absurd hlow (by decide)
    have hctl : ¬ b < 32 := UInt8.not_lt.mpr hlow
    rw [List.foldl_cons, List.length_cons]
    rcases Nat.lt_or_ge typed.length limit with hroom | hfull
    · have hput : Typing.put limit ⟨typed, false⟩ b = ⟨typed ++ [b], false⟩ := by
        simp [Typing.put, hbackspace, hdel, hctl, hroom]
      have hlonger : (typed ++ [b]).length ≤ limit := by simpa
      have hrest := ih (fun b' hb' => hbs b' (by simp [hb'])) hlonger
      rw [hput]
      simpa [Nat.add_assoc, Nat.add_comm 1] using hrest
    · have hput : (Typing.put limit ⟨typed, false⟩ b).overflow = true := by
        simp [Typing.put, hbackspace, hdel, hctl, hfull]
      rw [if_neg (by omega)]
      exact overflow_foldl_put hput bs

/-- The Telnet editor holds the bytes that are left, or has lost some. -/
theorem telnet_line (script : TypingScript) :
    (Roomy script → typed script = ⟨units encode script, false⟩) ∧
      (¬ Roomy script → (typed script).overflow = true) := by
  induction script using List.reverseRecOn with
  | nil =>
    refine ⟨fun _ => rfl, fun h => absurd ?_ h⟩
    intro before hbefore
    rw [List.prefix_nil.mp hbefore]
    exact Nat.zero_le _
  | append_singleton script edit ih =>
    obtain ⟨hroomy, hoverflow⟩ := ih
    rw [roomy_concat_iff, typed_concat, units_concat, count_concat]
    by_cases hinit : Roomy script
    case neg => exact ⟨fun h => absurd h.1 hinit, fun _ => overflow_foldl_put (hoverflow hinit) _⟩
    have hlength := length_units encode script
    have hnow : (units encode script).length ≤ applicationLineMax :=
      hlength ▸ hinit script (List.prefix_refl _)
    rw [hroomy hinit]
    cases edit with
    | type ch =>
      have hput := foldl_typing_put (encode_bytes ch) hnow
      rw [hlength] at hput
      rw [Edit.onCount, Edit.onUnits, editBytes]
      constructor
      · rintro ⟨-, hcount⟩
        rwa [if_pos hcount] at hput
      · intro hfull
        rwa [if_neg fun hcount => hfull ⟨hinit, hcount⟩] at hput
    | erase key =>
      have hcount : count encode script - 1 ≤ applicationLineMax :=
        (Nat.sub_le _ _).trans (hinit script (List.prefix_refl _))
      refine ⟨fun _ => ?_, fun h => absurd ⟨hinit, hcount⟩ h⟩
      cases key <;> rfl

end TypingScript

/-! ## Sessions -/

namespace Conn

variable {β α : Type} {host : Host β α}

/-- Only the line has changed since `c₀`, and it holds `t`. -/
structure Typed (c₀ : Conn β α) (t : Typing) (c : Conn β α) : Prop where
  others : { c with input := c₀.input } = c₀
  holds : c.input.Holds t

theorem Typed.exists_input {c₀ c : Conn β α} {t : Typing} (h : Typed c₀ t c) :
    ∃ input, c = { c₀ with input := input } :=
  ⟨c.input, by rw [← h.others]⟩

theorem others_receivePlainByte (host : Host β α) (c : Conn β α) {byte : UInt8} (hbyte : byte ≠ 10)
    (nowMs : UInt64) (input : LineInput) :
    { c.receivePlainByte host byte nowMs with input := input } = { c with input := input } := by
  unfold receivePlainByte
  rw [if_neg hbyte]
  split_ifs <;> rfl

theorem others_receiveDataByte (host : Host β α) (c : Conn β α) {byte : UInt8} (hbyte : byte ≠ 10)
    (nowMs : UInt64) (input : LineInput) :
    { c.receiveDataByte host byte nowMs with input := input } = { c with input := input } := by
  unfold receiveDataByte
  rw [if_neg hbyte]
  dsimp only
  split
  · split
    · rfl
    · exact others_receivePlainByte host _ hbyte nowMs input
  · exact others_receivePlainByte host c hbyte nowMs input

theorem Typed.byte {c₀ c : Conn β α} {t : Typing} (h : Typed c₀ t c) (hopen : c₀.closed = false)
    (hparser : c₀.parsing.parser = .data) (hgame : c₀.dialogue.login = .inGame) {byte : UInt8}
    (hlf : byte ≠ 10) (hiac : byte ≠ Telnet.iac) (nowMs : UInt64) :
    Typed c₀ (t.put applicationLineMax byte) (c.act host (.byte byte nowMs)) := by
  have hopen' : c.closed = false := by rw [← hopen, ← h.others]; rfl
  have hparser' : c.parsing.parser = .data := by rw [← hparser, ← h.others]
  have hgame' : c.dialogue.login = .inGame := by rw [← hgame, ← h.others]
  have hact : c.act host (.byte byte nowMs) = c.receiveDataByte host byte nowMs := by
    rw [act_of_open hopen', feedByte, hparser']
    exact if_neg hiac
  rw [hact]
  have hedits := receiveDataByte_edits host h.holds hopen' hlf nowMs
  rw [hgame'] at hedits
  exact ⟨(others_receiveDataByte host c hlf nowMs c₀.input).trans h.others, hedits.holds⟩

theorem Typed.stream {c₀ c : Conn β α} {t : Typing} (h : Typed c₀ t c) (hopen : c₀.closed = false)
    (hparser : c₀.parsing.parser = .data) (hgame : c₀.dialogue.login = .inGame)
    {stream : List TimedByte}
    (hstream : ∀ byte ∈ stream, byte.1 ≠ 10 ∧ byte.1 ≠ Telnet.iac) :
    Typed c₀ ((stream.map Prod.fst).foldl (Typing.put applicationLineMax) t)
      (c.feedStream host stream) := by
  induction stream generalizing c t with
  | nil => exact h
  | cons byte rest ih =>
    obtain ⟨hlf, hiac⟩ := hstream byte (by simp)
    exact ih (h.byte hopen hparser hgame hlf hiac byte.2) fun b hb => hstream b (by simp [hb])

theorem does_requestClose (c : Conn β α) (event : String) (message : Option String) :
    c.link.wire.Does [] (c.requestClose event message).link.wire :=
  .requestClose c.link.wire event (message.map ascii)

theorem does_processOverflow {c : Conn β α} (hgame : c.dialogue.login = .inGame)
    (hsession : c.link.caps.applicationSession.isSome = true) :
    c.link.wire.Does [] c.processOverflow.link.wire := by
  have hlogin : ¬ c.dialogue.login.isPassword = true := by rw [hgame]; exact Bool.false_ne_true
  have heq : c.processOverflow =
      Conn.requestClose { c with input := { c.input.wipe with lineOverflow := false } }
        "application_input_overflow" (some "Input is too long.\r\n") :=
    (if_neg hlogin).trans (if_pos hsession)
  rw [heq]
  exact does_requestClose { c with input := { c.input.wipe with lineOverflow := false } } _ _

theorem does_processCommand {c : Conn β α} (hopen : c.closed = false) {session : Nat}
    (hsession : c.link.caps.applicationSession = some session)
    {hook : Nat → Bytes → α → Wire.HookProgram (Int × α)}
    (hhook : host.application.line = some hook) {nowMs : UInt64}
    (hcommands :
      (rateConsume c.commandWindow 1 commandsPerWindow commandsWindowMs nowMs).1 = true) :
    c.link.wire.Does [.line session c.input.text] (c.processCommand host nowMs).link.wire := by
  unfold processCommand
  simp only [hcommands, hsession, hhook, Bool.not_true, Bool.false_eq_true, if_false]
  have hcalled : c.link.wire.Does [.line session c.input.text]
      (c.link.callHook (.line session c.input.text) (hook session c.input.text)).2.wire :=
    .callHook c.link.wire _ _ (fun _ => hopen) _
  split
  · exact hcalled.andThen (.requestClose _ "application_line_close" none)
  · exact hcalled

/-- The end of a line hands it to the application, unless it was too long. -/
theorem applicationCalls_complete {c : Conn β α} {t : Typing} (h : c.input.Holds t)
    (hopen : c.closed = false) (hgame : c.dialogue.login = .inGame) {session : Nat}
    (hsession : c.link.caps.applicationSession = some session)
    {hook : Nat → Bytes → α → Wire.HookProgram (Int × α)}
    (hhook : host.application.line = some hook) {nowMs : UInt64}
    (hlines : (rateConsume c.lineWindow 1 inputLinesPerWindow inputLinesWindowMs nowMs).1 = true)
    (hcommands :
      (rateConsume c.commandWindow 1 commandsPerWindow commandsWindowMs nowMs).1 = true) :
    (c.processCompleteLine host nowMs).link.wire.applicationCalls =
      c.link.wire.applicationCalls ++ if t.overflow then [] else [.line session t.text] := by
  unfold processCompleteLine
  simp only [hlines, ← h.overflow, Bool.not_true, Bool.false_eq_true, if_false]
  split
  case isTrue =>
    have hwire := does_processOverflow (c := { c with lineWindow := (rateConsume c.lineWindow 1
      inputLinesPerWindow inputLinesWindowMs nowMs).2 }) hgame (by simp [hsession])
    exact hwire.applicationCalls
  case isFalse =>
    rw [h.terminated]
    unfold processLine
    simp only [hgame]
    have hwire := does_processCommand (c := { c with lineWindow := (rateConsume c.lineWindow 1
      inputLinesPerWindow inputLinesWindowMs nowMs).2 }) hopen hsession hhook hcommands
    rw [← h.text_eq]
    exact hwire.applicationCalls

end Conn

/-! ## Typing cut into pieces -/

/-- Bytes that end in `final`, as they come in: in pieces, each with its time. -/
structure Cut (bytes : Bytes) (final : UInt8) where
  before : List (Bytes × UInt64)
  data : Bytes
  lastMs : UInt64
  whole : before.flatMap Prod.fst ++ data = bytes

/-- All in one piece. -/
def Cut.once (bytes : Bytes) (final : UInt8) (nowMs : UInt64) : Cut bytes final :=
  ⟨[], bytes, nowMs, rfl⟩

def Cut.pieces {bytes : Bytes} {final : UInt8} (cut : Cut bytes final) : List (Bytes × UInt64) :=
  cut.before ++ [(cut.data ++ [final], cut.lastMs)]

namespace TelnetSession

variable {β α : Type} {host : Host β α}

theorem timed_pieces {bytes : Bytes} {final : UInt8} (cut : Cut bytes final) :
    ∃ stream : List TimedByte, timed cut.pieces = stream ++ [(final, cut.lastMs)] ∧
      stream.map Prod.fst = bytes := by
  refine ⟨timed cut.before ++ cut.data.map (·, cut.lastMs), ?_, ?_⟩
  · simp [timed, Cut.pieces]
  · refine Eq.trans ?_ cut.whole
    simp [timed, List.map_flatMap, Function.comp_def]

/-- A player in game at the start of a line. -/
structure Ready (host : Host β α) (s : TelnetSession β α) (session : Nat) : Prop where
  reachable : (system host).Reachable s
  isOpen : s.conn.closed = false
  inGame : s.conn.dialogue.login = .inGame
  session : s.conn.link.caps.applicationSession = some session
  lineStart : s.conn.AtLineStart

/-- The rate limits let the line pass. -/
structure AdmitsLine (host : Host β α) (s : TelnetSession β α) {bytes : Bytes} {final : UInt8}
    (cut : Cut bytes final) : Prop where
  bytes : AdmitsAll host s cut.pieces
  line : (rateConsume s.conn.lineWindow 1 Conn.inputLinesPerWindow Conn.inputLinesWindowMs
    cut.lastMs).1 = true
  command : (rateConsume s.conn.commandWindow 1 Conn.commandsPerWindow Conn.commandsWindowMs
    cut.lastMs).1 = true

/-- The typed line ends in a call with what the Telnet editor holds, if it kept it. -/
theorem Ready.calls {s : TelnetSession β α} {session : Nat} (hs : s.Ready host session)
    (hhook : host.application.line.isSome = true) {script : TypingScript}
    {cut : Cut (script.bytes.flatMap TelnetGrammar.quote ++ [13]) 10} (h : s.AdmitsLine host cut) :
    (s.feedAll host cut.pieces).conn.link.wire.applicationCalls =
      s.conn.link.wire.applicationCalls ++
        if script.typed.overflow then [] else [.line session script.typed.text] := by
  obtain ⟨hook, hhook⟩ := Option.isSome_iff_exists.mp hhook
  obtain ⟨stream, htimed, hstream⟩ := timed_pieces cut
  rw [TypingScript.quote_bytes] at hstream
  have hdata : ∀ byte ∈ stream, byte.1 ≠ 10 ∧ byte.1 ≠ Telnet.iac := by
    intro byte hbyte
    have hmem : byte.1 ∈ script.bytes ++ [13] := hstream ▸ List.mem_map_of_mem hbyte
    rcases List.mem_append.mp hmem with htyped | hcr
    · exact ⟨TypingScript.ne_lf htyped, (TypingScript.mem_bytes htyped).2⟩
    · rw [List.mem_singleton.mp hcr]
      decide
  have hshows := Conn.shows_of_lineStart (reachable_conn hs.reachable) hs.lineStart
  have htyped : Conn.Typed s.conn _ (s.conn.feedStream host stream) :=
    .stream ⟨rfl, hshows.holds⟩ hs.isOpen hs.lineStart.1 hs.inGame hdata
  have hline : (script.bytes ++ [13]).foldl (Typing.put applicationLineMax) .empty =
      script.typed := by
    rw [List.foldl_append]
    rfl
  rw [hstream, hline] at htyped
  rw [feedAll_of_admits h.bytes, htimed, Conn.feedStream_append]
  generalize s.conn.feedStream host stream = c at htyped
  obtain ⟨input, rfl⟩ := htyped.exists_input
  have hcompletes : Conn.completes { s.conn with input := input } 10 = true := by
    simp [Conn.completes, hs.lineStart.1, show Conn.closed { s.conn with input := input } = false
      from hs.isOpen]
  rw [Conn.feedStream_cons, Conn.act_of_completes hcompletes]
  exact Conn.applicationCalls_complete
    (c := { s.conn with input := { input with pendingCr := false } })
    (htyped.holds.setPendingCr false) hs.isOpen hs.inGame hs.session hhook h.line h.command

end TelnetSession

namespace SshConnection

variable {χ α : Type} {lib : SshLibrary χ} {application : Application α}

/-- The shell runs and the line is empty. -/
structure Ready (c : SshConnection χ α) (session : Nat) : Prop where
  live : c.wire.Live
  shell : c.shellStarted = true
  session : c.applicationSession = some session
  ground : c.escapeState = .ground
  lineStart : c.lineLength = 0

/-- The rate limits let the line pass. -/
structure AdmitsLine (lib : SshLibrary χ) (application : Application α) (c : SshConnection χ α)
    {bytes : Bytes} {final : UInt8} (cut : Cut bytes final) : Prop where
  bytes : AdmitsAll lib application c cut.pieces
  line : (rateConsume c.lineWindow 1 sshInputLinesPerWindow sshInputLinesWindowMs cut.lastMs).1 =
    true

theorem Ready.typed {c : SshConnection χ α} {session : Nat} (h : c.Ready session) :
    Typed c [] c :=
  ⟨h.live, rfl, rfl, rfl, rfl, h.ground, h.lineStart, by rw [SshConnection.text, h.lineStart]; rfl⟩

/-- The typed line ends in a call with the text. -/
theorem Ready.calls (hlib : lib.Writes) {c : SshConnection χ α} {session : Nat}
    (hc : c.Ready session) (hhook : application.line.isSome = true) {script : TypingScript}
    (hshort : script.Short) {cut : Cut script.bytes 13} (h : c.AdmitsLine lib application cut) :
    (c.receive lib application cut.pieces).wire.applicationCalls =
      c.wire.applicationCalls ++ [.line session script.line] := by
  obtain ⟨hook, hhook⟩ := Option.isSome_iff_exists.mp hhook
  have hsome : c.applicationSession.isSome = true := by rw [hc.session]; rfl
  have hplain : ∀ b ∈ cut.before.flatMap Prod.fst ++ cut.data, SshLine.Plain b :=
    fun b hb => (TypingScript.mem_bytes (cut.whole ▸ hb)).1
  have hfits : Fits [] (cut.before.flatMap Prod.fst ++ cut.data) := by
    rw [cut.whole]
    exact TypingScript.fits_of_short hshort
  obtain ⟨hbefore, hdata⟩ := hfits.split
  have htyped := hc.typed.receive hlib application hc.shell hsome
    (fun b hb => hplain b (List.mem_append_left _ hb)) hbefore
    (fun before piece hcut => h.bytes before piece (hcut.trans (List.prefix_append _ _)))
  have hlast := h.bytes cut.before _ (List.prefix_refl _)
  have hcallback : (c.receive lib application cut.before).channelDataCallback lib application
      (cut.data ++ [13]) false cut.lastMs = _ :=
    channelDataCallback_of_admits application (htyped.shell.trans hc.shell)
      (by rw [htyped.session, hsome]) hlast
  obtain ⟨c', hthen, hloop⟩ := (htyped.withActivity _ cut.lastMs).handleInput hlib application
    cut.lastMs (fun b hb => hplain b (List.mem_append_right _ hb)) hdata
  rw [← List.foldl_append, cut.whole, TypingScript.ssh_line] at hthen
  have hreceive : c.receive lib application cut.pieces =
      c'.handleInput lib application cut.lastMs [13] := by
    rw [SshConnection.receive, Cut.pieces, List.foldl_append]
    exact hcallback.trans (hloop [13])
  rw [hreceive]
  exact hthen.complete hlib hhook hc.session h.line

end SshConnection

/-! ## Both transports -/

/-- A player of `Host.playing` after the login. -/
def TelnetSession.playing : TelnetSession Unit Unit :=
  (TelnetSession.mk (.initial .playing () ()) ⟨0, 0⟩).call .playing
    (.feedAt (ascii "zoe\nsecret\n") 0)

theorem TelnetSession.ready_playing : playing.Ready .playing 7 where
  reachable := .step (.init ⟨(), (), rfl⟩) rfl
  isOpen := by decide
  inGame := by decide
  session := by decide
  lineStart := ⟨by decide, by decide, by decide⟩

/-- A channel with a shell and an empty line. -/
def SshConnection.playing : SshConnection Unit Unit where
  wire := ⟨some (), false, false, (), []⟩
  applicationSession := some 7
  line := .zero 513
  lineLength := 0
  pendingCr := false
  escapeState := .ground
  shellStarted := true
  lastActivityMs := 1
  byteWindow := ⟨0, 0⟩
  lineWindow := ⟨0, 0⟩

theorem SshConnection.ready_playing : playing.Ready 7 := ⟨⟨rfl, rfl, rfl⟩, rfl, rfl, rfl, rfl⟩

/-- Both transports call the application once with the same line exactly if the byte
count of the script, with one byte for each key that rubs out, never passes the end
of the line and ends as that of the text. -/
theorem same_line_iff {β χ α : Type} {host : Host β α} {s : TelnetSession β α}
    {lib : SshLibrary χ} {d : SshConnection χ α} {telnetId sshId : Nat}
    (hhook : host.application.line.isSome = true) (hlib : lib.Writes)
    (hs : s.Ready host telnetId) (hd : d.Ready sshId) {script : TypingScript}
    (hshort : script.Short) (chunks : Cut (script.bytes.flatMap TelnetGrammar.quote ++ [13]) 10)
    (hchunks : s.AdmitsLine host chunks) (pieces : Cut script.bytes 13)
    (hpieces : d.AdmitsLine lib host.application pieces) :
    (∃ line,
      (s.feedAll host chunks.pieces).conn.link.wire.applicationCalls =
        s.conn.link.wire.applicationCalls ++ [.line telnetId line] ∧
      (d.receive lib host.application pieces.pieces).wire.applicationCalls =
        d.wire.applicationCalls ++ [.line sshId line]) ↔
    script.Roomy ∧ count TypingScript.encode script = script.line.length := by
  rw [hs.calls hhook hchunks, hd.calls hlib hhook hshort hpieces]
  obtain ⟨hkept, hlost⟩ := script.telnet_line
  have hunits := units_eq_iff TypingScript.encode_ne_nil script
  constructor
  · rintro ⟨line, htelnet, hssh⟩
    obtain rfl : script.line = line := by simpa using hssh
    by_cases hroomy : script.Roomy
    · refine ⟨hroomy, hunits.mp ?_⟩
      simpa [hkept hroomy, TypingScript.line] using htelnet
    · simp [hlost hroomy] at htelnet
  · rintro ⟨hroomy, hcount⟩
    refine ⟨script.line, ?_, rfl⟩
    rw [hkept hroomy, hunits.mpr hcount]
    rfl

/-- An `x` is typed and rubbed out between an `h` and an `é`. -/
def TypingScript.mistyped : TypingScript :=
  [.type ⟨'h', by decide⟩, .type ⟨'x', by decide⟩, .erase .backspace, .type ⟨'é', by decide⟩]

theorem prefix_once {bytes : Bytes} {final : UInt8} {nowMs : UInt64}
    {before : List (Bytes × UInt64)} {piece : Bytes × UInt64}
    (h : before ++ [piece] <+: (Cut.once bytes final nowMs).pieces) :
    before = [] ∧ piece = (bytes ++ [final], nowMs) := by
  have hlength : before = [] := by
    have hle := h.length_le
    simpa [Cut.pieces, Cut.once] using hle
  subst hlength
  simpa [Cut.pieces, Cut.once, List.cons_prefix_cons] using h

theorem same_line_iff_mistyped :
    ((∃ line,
      (TelnetSession.playing.feedAll .playing
          (Cut.once (TypingScript.mistyped.bytes.flatMap TelnetGrammar.quote ++ [13]) 10
            1).pieces).conn.link.wire.applicationCalls =
        TelnetSession.playing.conn.link.wire.applicationCalls ++ [.line 7 line] ∧
      (SshConnection.playing.receive .willing Host.playing.application
          (Cut.once TypingScript.mistyped.bytes 13 1).pieces).wire.applicationCalls =
        SshConnection.playing.wire.applicationCalls ++ [.line 7 line]) ↔
      TypingScript.mistyped.Roomy ∧
        count TypingScript.encode TypingScript.mistyped = TypingScript.mistyped.line.length) ∧
      TypingScript.mistyped.Roomy ∧
        count TypingScript.encode TypingScript.mistyped = TypingScript.mistyped.line.length := by
  refine ⟨same_line_iff rfl SshLibrary.writes_willing TelnetSession.ready_playing
    SshConnection.ready_playing (by decide) _ ⟨?_, by decide, by decide⟩ _ ⟨?_, by decide⟩,
    by decide, by decide⟩
  · intro before chunk hcut
    obtain ⟨rfl, rfl⟩ := prefix_once hcut
    unfold TelnetSession.Admits
    decide
  · intro before piece hcut
    obtain ⟨rfl, rfl⟩ := prefix_once hcut
    exact ⟨by decide, by decide⟩

/-- One backspace after an `é`: Telnet hands over half of it, SSH an empty line. -/
theorem lines_differ_after_rubout :
    let script : TypingScript := [.type ⟨'é', by decide⟩, .erase .backspace]
    script.Short ∧
      (TelnetSession.playing.feedAll .playing (Cut.once (script.bytes.flatMap TelnetGrammar.quote ++
          [13]) 10 1).pieces).conn.link.wire.applicationCalls =
        TelnetSession.playing.conn.link.wire.applicationCalls ++ [.line 7 [0xC3]] ∧
      (SshConnection.playing.receive .willing Host.playing.application
          (Cut.once script.bytes 13 1).pieces).wire.applicationCalls =
        SshConnection.playing.wire.applicationCalls ++ [.line 7 []] := by
  decide

-- SUMMARY: What a hyperlink puts on a Telnet connection, and which targets carry a control character.
import TelnetTlsServer.Session.Coherence
import TelnetTlsServer.Session.OutputFraming
import TelnetTlsServer.Text.Utf8

/-!
# Hyperlinks

A link goes out as an OSC 8 sequence around its label, or as the label alone. The
label is sanitised. The target is checked as UTF-8 and then byte by byte, so the
control characters of one byte are refused; those of the second control set are
encoded in two bytes, C2 80 to C2 9F, and pass.
-/

/-- C0, DEL and C1. -/
def IsControl (ch : Char) : Prop := ch.toNat < 0x20 ∨ 0x7f ≤ ch.toNat ∧ ch.toNat ≤ 0x9f

/-- The bytes of a C1 control character stand in the text. -/
def HoldsC1 (bytes : Bytes) : Prop :=
  ∃ b : UInt8, (0x80 ≤ b ∧ b ≤ 0x9f) ∧ [0xc2, b] <:+: bytes

/-! ## Control characters and bytes -/

/-- The lead byte C2 begins the characters U+0080 to U+00BF. -/
theorem encode_lead {ch : Char} {tail : Bytes} (h : String.utf8EncodeChar ch = 0xc2 :: tail) :
    ∃ b : UInt8, tail = [b] ∧ ch.toNat = b.toNat := by
  have hlead : (0xc2 : UInt8).toNat = 194 := rfl
  obtain ⟨a, he⟩ | ⟨a, b, he⟩ | ⟨a, b, c, he⟩ | ⟨a, b, c, d, he⟩ := Utf8.encode_cases ch <;>
    obtain ⟨rfl, rfl⟩ := List.cons.inj (h.symm.trans he)
  · have := Utf8.encode_eq_one_iff.mp he
    omega
  · obtain ⟨-, ha, hb⟩ := Utf8.encode_eq_two_iff.mp he
    exact ⟨b, rfl, by omega⟩
  · have := Utf8.encode_eq_three_iff.mp he
    omega
  · have := Utf8.encode_eq_four_iff.mp he
    omega

/-- A pair that begins with C2 does not begin within a character. -/
theorem infix_of_append {tail rest : Bytes} {b : UInt8} (htail : ∀ x ∈ tail, x ≠ 0xc2)
    (h : [0xc2, b] <:+: tail ++ rest) : [0xc2, b] <:+: rest := by
  induction tail with
  | nil => exact h
  | cons x tail ih =>
    obtain ⟨hx, htail⟩ := List.forall_mem_cons.mp htail
    rcases List.infix_cons_iff.mp h with hprefix | hinfix
    · exact absurd (List.cons_prefix_cons.mp hprefix).1.symm hx
    · exact ih htail hinfix

theorem exists_c1_of_infix {text : List Char} {b : UInt8}
    (h : [0xc2, b] <:+: text.flatMap String.utf8EncodeChar) : ∃ ch ∈ text, ch.toNat = b.toNat := by
  induction text with
  | nil => exact absurd h (by simp)
  | cons ch text ih =>
    obtain ⟨lead, tail, hencode⟩ := List.exists_cons_of_ne_nil (Utf8.encode_ne_nil ch)
    rw [List.flatMap_cons, hencode, List.cons_append] at h
    rcases List.infix_cons_iff.mp h with hprefix | hinfix
    · obtain ⟨rfl, hnext⟩ := List.cons_prefix_cons.mp hprefix
      obtain ⟨b', rfl, hpoint⟩ := encode_lead hencode
      obtain ⟨rfl, -⟩ := List.cons_prefix_cons.mp hnext
      exact ⟨ch, List.mem_cons_self, hpoint⟩
    · have htail : ∀ x ∈ tail, x ≠ 0xc2 := by
        rintro x hx rfl
        exact absurd (Utf8.encode_tail hencode _ hx).2 (by decide)
      obtain ⟨ch', hmem, hpoint⟩ := ih (infix_of_append htail hinfix)
      exact ⟨ch', List.mem_cons_of_mem _ hmem, hpoint⟩

theorem infix_of_c1 {text : List Char} {ch : Char} (hmem : ch ∈ text)
    (hc1 : 0x80 ≤ ch.toNat ∧ ch.toNat ≤ 0x9f) :
    [0xc2, UInt8.ofNat ch.toNat] <:+: text.flatMap String.utf8EncodeChar := by
  have hencode : String.utf8EncodeChar ch = [0xc2, UInt8.ofNat ch.toNat] := by
    rw [Utf8.encode_eq_two_iff, Utf8.toNat_ofNat (by omega)]
    refine ⟨by omega, ?_, by omega⟩
    rw [show (0xc2 : UInt8).toNat = 194 from rfl]
    omega
  obtain ⟨front, rest, rfl⟩ := List.append_of_mem hmem
  rw [List.flatMap_append, List.flatMap_cons, hencode]
  exact ⟨_, _, by rw [List.append_assoc]⟩

/-- Beside the controls of one byte, exactly the pairs from C2 80 to C2 9F are
control characters. -/
theorem no_control_iff {text : List Char}
    (hbytes : ∀ b ∈ text.flatMap String.utf8EncodeChar, ¬ (b < 0x20) ∧ b ≠ 0x7f) :
    (∀ ch ∈ text, ¬ IsControl ch) ↔ ¬ HoldsC1 (text.flatMap String.utf8EncodeChar) := by
  constructor
  · rintro hnone ⟨b, hb, hinfix⟩
    obtain ⟨ch, hmem, hpoint⟩ := exists_c1_of_infix hinfix
    have hlow : 0x80 ≤ b.toNat := hb.1
    have hhigh : b.toNat ≤ 0x9f := hb.2
    exact hnone ch hmem (.inr ⟨by omega, by omega⟩)
  · intro hnone ch hmem hcontrol
    by_cases hone : ch.toNat ≤ 0x7f
    · -- One byte, which was refused.
      have hencode : String.utf8EncodeChar ch = [UInt8.ofNat ch.toNat] :=
        Utf8.encode_eq_one_iff.mpr ⟨hone, Utf8.toNat_ofNat (by omega)⟩
      obtain ⟨hlow, hdel⟩ := hbytes (UInt8.ofNat ch.toNat)
        (List.mem_flatMap.mpr ⟨ch, hmem, by simp [hencode]⟩)
      rw [UInt8.lt_iff_toNat_lt, Utf8.toNat_ofNat (by omega)] at hlow
      rw [ne_eq, ← UInt8.toNat_inj, Utf8.toNat_ofNat (by omega)] at hdel
      have hlow' : ¬ ch.toNat < 0x20 := hlow
      have hdel' : ¬ ch.toNat = 0x7f := hdel
      rcases hcontrol with h | h <;> omega
    · have hc1 : 0x80 ≤ ch.toNat ∧ ch.toNat ≤ 0x9f := by
        rcases hcontrol with h | h <;> omega
      refine hnone ⟨UInt8.ofNat ch.toNat, ?_, infix_of_c1 hmem hc1⟩
      rw [UInt8.le_iff_toNat_le, UInt8.le_iff_toNat_le, Utf8.toNat_ofNat (by omega)]
      exact hc1

/-! ## What a link puts on the wire -/

theorem textByteSafe_sanitize (input : Bytes) (outputSize : Nat) :
    ∀ b ∈ terminalTextSanitize input outputSize, textByteSafe b = true := by
  intro b hb
  obtain ⟨ch, -, rfl⟩ := List.mem_map.mp hb
  split
  case isTrue h => exact h
  case isFalse => decide

theorem ne_of_textByteSafe {b : UInt8} (h : textByteSafe b = true) : b ≠ Telnet.iac ∧ b ≠ 27 := by
  constructor <;> rintro rfl <;> exact absurd h (by decide)

/-- What a safe target gives: characters, and none of the controls of one byte. -/
theorem exists_text_of_oscUriSafe {uri : Bytes} (h : Wire.oscUriSafe uri = true) :
    (∃ text : List Char, uri = text.flatMap String.utf8EncodeChar) ∧
      ∀ b ∈ uri, ¬ (b < 0x20) ∧ b ≠ 0x7f := by
  unfold Wire.oscUriSafe at h
  split at h
  case isTrue => cases h
  split at h
  case isTrue => cases h
  case isFalse hvalid =>
    simp only [Bool.or_eq_true, Bool.not_eq_true', not_or, Bool.not_eq_false] at hvalid
    refine ⟨(terminalTextUtf8Valid_iff uri).mp hvalid.2, fun b hb => ?_⟩
    have hbyte := List.all_eq_true.mp h b hb
    simp only [Bool.not_eq_true', Bool.or_eq_false_iff, decide_eq_false_iff_not] at hbyte
    exact ⟨hbyte.1.1, hbyte.1.2⟩

theorem iac_not_mem_encode {text : List Char} :
    Telnet.iac ∉ text.flatMap String.utf8EncodeChar := by
  intro h
  obtain ⟨ch, -, hmem⟩ := List.mem_flatMap.mp h
  exact absurd (Utf8.encode_le ch _ hmem) (by decide)

namespace Wire

variable {α : Type}

/-- The client shows links, the target is safe, and its scheme is one the client knows. -/
structure Linkable (t : TelnetTerminalInfo) (target : Bytes) : Prop where
  shown : t.osc8 = true
  safe : oscUriSafe target = true
  send : ascii "send:" <+: target → t.osc8Send = true
  prompt : ascii "prompt:" <+: target → t.osc8Prompt = true

theorem linkAllowed_eq_some_iff {t : TelnetTerminalInfo} {uri : Option Bytes} {target : Bytes} :
    linkAllowed t uri = some target ↔ uri = some target ∧ Linkable t target := by
  cases uri with
  | none => simp [linkAllowed]
  | some uri =>
    have hallowed : ¬ (!t.osc8 || !oscUriSafe uri ||
        ((ascii "send:").isPrefixOf uri && !t.osc8Send) ||
        ((ascii "prompt:").isPrefixOf uri && !t.osc8Prompt)) = true ↔ Linkable t uri := by
      simp only [Bool.or_eq_true, Bool.and_eq_true, Bool.not_eq_true', not_or, not_and,
        Bool.not_eq_false, List.isPrefixOf_iff_prefix]
      exact ⟨fun h => ⟨h.1.1.1, h.1.1.2, h.1.2, h.2⟩, fun h => ⟨⟨⟨h.shown, h.safe⟩, h.send⟩, h.prompt⟩⟩
    unfold linkAllowed
    dsimp only
    split
    case isTrue hrefused =>
      refine iff_of_false (by simp) ?_
      rintro ⟨huri, hlinkable⟩
      obtain rfl := Option.some.inj huri
      exact hallowed.mpr hlinkable hrefused
    case isFalse hok =>
      refine ⟨fun huri => ⟨huri, ?_⟩, And.left⟩
      exact Option.some.inj huri ▸ hallowed.mp hok

/-- Bytes other than IAC go out as they are. -/
theorem written_dataChunks {w : Wire α} (hopen : w.closeRequested = false) {data : Bytes}
    (hplain : Telnet.iac ∉ data) :
    (w.sends (dataChunks data)).written = w.written ++ data := by
  have hquote : data.flatMap TelnetGrammar.quote = data := by
    have hbyte : ∀ b ∈ data, TelnetGrammar.quote b = [b] := by
      intro b hb
      exact if_neg (ne_of_mem_of_not_mem hb hplain)
    rw [List.flatMap_congr hbyte, List.flatMap_singleton']
  rw [written_sends hopen, dataChunks, OutputOp.flatten_dataChunksFrom, hquote, List.nil_append]

/-- A target and a label as one OSC 8 link. -/
def oscLink (target safeLabel : Bytes) : Bytes :=
  [27, 93, 56, 59, 59] ++ target ++ [27, 92] ++ safeLabel ++ [27, 93, 56, 59, 59, 27, 92]

theorem applicationWriteLink_of_closed {w : Wire α} (hclosed : w.closeRequested = true)
    (t : TelnetTerminalInfo) (uri : Option Bytes) (label : Bytes) :
    (w.applicationWriteLink t uri label).2 = w := by
  have hsends : ∀ chunks, w.sends chunks = w := fun chunks => if_pos hclosed
  unfold applicationWriteLink
  split <;> simp only [writeTelnetData_eq_sends, writeText_eq_sends, hsends]

theorem written_applicationWriteLink {w : Wire α} (hopen : w.closeRequested = false)
    (t : TelnetTerminalInfo) (uri : Option Bytes) (label : Bytes) :
    (w.applicationWriteLink t uri label).2.written = w.written ++
      match linkAllowed t uri with
      | none => terminalTextSanitize label 512
      | some target => oscLink target (terminalTextSanitize label 512) := by
  have hlabel : Telnet.iac ∉ terminalTextSanitize label 512 :=
    fun h => (ne_of_textByteSafe (textByteSafe_sanitize label 512 _ h)).1 rfl
  unfold applicationWriteLink
  cases hallowed : linkAllowed t uri with
  | none =>
    dsimp only
    rw [writeText_eq_sends, written_dataChunks hopen hlabel]
  | some target =>
    obtain ⟨⟨text, rfl⟩, -⟩ := exists_text_of_oscUriSafe (linkAllowed_eq_some_iff.mp hallowed).2.safe
    simp only [writeTelnetData_eq_sends, writeText_eq_sends]
    rw [written_dataChunks (by simp [hopen]) (by decide),
      written_dataChunks (by simp [hopen]) hlabel,
      written_dataChunks (by simp [hopen]) (by decide),
      written_dataChunks (by simp [hopen]) iac_not_mem_encode,
      written_dataChunks hopen (by decide)]
    simp only [oscLink, List.append_assoc]

/-- What goes out in front of a label and behind it. -/
def linkFrame (t : TelnetTerminalInfo) (uri : Option Bytes) : Bytes × Bytes :=
  match linkAllowed t uri with
  | none => ([], [])
  | some target => ([27, 93, 56, 59, 59] ++ target ++ [27, 92], [27, 93, 56, 59, 59, 27, 92])

/-- The label stands sanitised between two parts that do not depend on it. -/
theorem written_label {w : Wire α} (hopen : w.closeRequested = false) (t : TelnetTerminalInfo)
    (uri : Option Bytes) (label : Bytes) :
    (w.applicationWriteLink t uri label).2.written = w.written ++ (linkFrame t uri).1 ++
      terminalTextSanitize label 512 ++ (linkFrame t uri).2 := by
  rw [written_applicationWriteLink hopen, linkFrame, List.append_assoc, List.append_assoc]
  cases linkAllowed t uri with
  | none => exact congrArg _ (List.append_nil _).symm
  | some target => simp only [oscLink, List.append_assoc]

/-- What a link may put on the wire: its sanitised label alone, or a link whose target
decodes to characters other than controls. -/
inductive LinkOutput (uri : Option Bytes) (label : Bytes) : Bytes → Prop where
  | plain : LinkOutput uri label (terminalTextSanitize label 512)
  | link {text : List Char} (huri : uri = some (text.flatMap String.utf8EncodeChar))
      (htext : ∀ ch ∈ text, ¬ IsControl ch) :
      LinkOutput uri label
        (oscLink (text.flatMap String.utf8EncodeChar) (terminalTextSanitize label 512))

/-- A link that is sent as one shows by its first byte. -/
theorem oscLink_ne_sanitize (target safeLabel label : Bytes) :
    oscLink target safeLabel ≠ terminalTextSanitize label 512 := by
  intro heq
  have hmem : (27 : UInt8) ∈ oscLink target safeLabel := List.mem_cons_self
  rw [heq] at hmem
  exact (ne_of_textByteSafe (textByteSafe_sanitize label 512 27 hmem)).2 rfl

/-- A link has a target without control characters if and only if no pair from C2 80
to C2 9F stands in it. -/
theorem linkOutput_iff {t : TelnetTerminalInfo} {target : Bytes} (h : Linkable t target)
    (label : Bytes) :
    LinkOutput (some target) label (oscLink target (terminalTextSanitize label 512)) ↔
      ¬ HoldsC1 target := by
  obtain ⟨⟨text, rfl⟩, hbytes⟩ := exists_text_of_oscUriSafe h.safe
  rw [← no_control_iff hbytes]
  constructor
  · generalize hout : oscLink _ _ = out
    intro houtput
    cases houtput with
    | plain => exact absurd hout (oscLink_ne_sanitize _ _ _)
    | link huri htext =>
      rw [flatMap_encode_injective (Option.some.inj huri)]
      exact htext
  · exact fun htext => .link rfl htext

/-- A call writes what it may, or nothing to a session that is closing, if and only if
the session is closing or the target is not sent or has no C1 control character. -/
theorem link_controls_iff (w : Wire α) (t : TelnetTerminalInfo) (uri : Option Bytes)
    (label : Bytes) :
    (∃ out, (w.applicationWriteLink t uri label).2.written = w.written ++ out ∧
        (w.closeRequested = true ∧ out = [] ∨ LinkOutput uri label out)) ↔
      w.closeRequested = true ∨ ∀ target ∈ uri, Linkable t target → ¬ HoldsC1 target := by
  cases hclosed : w.closeRequested with
  | true =>
    have hnothing : (w.applicationWriteLink t uri label).2.written = w.written ++ [] := by
      rw [applicationWriteLink_of_closed hclosed, List.append_nil]
    exact iff_of_true ⟨[], hnothing, .inl ⟨rfl, rfl⟩⟩ (.inl rfl)
  | false =>
    have hwritten := written_applicationWriteLink hclosed t uri label
    simp only [Bool.false_eq_true, false_and, false_or, hwritten, List.append_right_inj,
      exists_eq_left']
    cases hallowed : linkAllowed t uri with
    | none =>
      refine iff_of_true .plain fun target huri hlinkable => ?_
      rw [linkAllowed_eq_some_iff.mpr ⟨huri, hlinkable⟩] at hallowed
      cases hallowed
    | some target =>
      obtain ⟨rfl, hlinkable⟩ := linkAllowed_eq_some_iff.mp hallowed
      dsimp only
      rw [linkOutput_iff hlinkable label]
      simp [hlinkable]

end Wire

/-- A client that shows links. -/
def Conn.linked : Conn Unit Unit := (Conn.initial .granting () ()).feedBytes .granting 1 linking

/-- A target with U+009C, the one-character string terminator of C1, is sent as a link. -/
theorem Wire.link_with_terminator :
    (Conn.system Host.granting).Reachable Conn.linked ∧
      let target := ascii "x:" ++ [0xc2, 0x9c] ++ ascii "y"
      target = ['x', ':', Char.ofNat 0x9c, 'y'].flatMap String.utf8EncodeChar ∧
        IsControl (Char.ofNat 0x9c) ∧
        (Conn.linked.link.wire.applicationWriteLink Conn.linked.terminal (some target)
          (ascii "here")).2.written =
          Conn.linked.link.wire.written ++ oscLink target (ascii "here") := by
  refine ⟨Conn.reachable_feedBytes (.init ⟨(), (), rfl⟩) 1 Conn.linking, by decide,
    .inr (by decide), ?_⟩
  decide +kernel

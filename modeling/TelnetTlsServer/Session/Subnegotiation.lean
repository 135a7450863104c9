-- SUMMARY: A subnegotiation that is sent is received whole up to the size of the payload buffer, and closes the session beyond it.
import TelnetTlsServer.Session.Chunking
import TelnetTlsServer.Session.OutputFraming
import TelnetTlsServer.Session.Steps

/-!
# Subnegotiations

`send_subnegotiation` doubles every IAC of a payload; the parser takes one of the
two back in its state after an IAC. Both states check the room in the buffer, so a
payload of 4096 bytes is the largest, whether or not its last byte was doubled.
The times at which the bytes come do not matter here, since no state of a
subnegotiation looks at them.
-/

namespace Conn

variable {β α : Type} {host : Host β α} {c : Conn β α}

/-- What `finish_subnegotiation` is called with while a stream is read. -/
def subnegotiations (host : Host β α) (c : Conn β α) : List TimedByte → List (UInt8 × Bytes)
  | [] => []
  | byte :: rest =>
      (if c.finishes (.byte byte.1 byte.2) then
        [(c.parsing.subnegotiationOption, c.parsing.subnegotiation)] else []) ++
      subnegotiations host (c.act host (.byte byte.1 byte.2)) rest

/-- A payload has been read in part. -/
def collecting (c : Conn β α) (option : UInt8) (collected : Bytes) (parser : ParserState) :
    Conn β α :=
  { c with
    parsing.parser := parser
    parsing.subnegotiationOption := option
    parsing.subnegotiation := collected }

/-- A payload has been handed to the handler of its option. -/
def received (host : Host β α) (c : Conn β α) (option : UInt8) (payload : Bytes) : Conn β α :=
  { c.collecting option [] .data with
    link := c.link.finishSubnegotiation host.application option payload }

/-- The byte after the last one that fits has come. -/
def overflowed (c : Conn β α) (option : UInt8) (payload : Bytes) : Conn β α :=
  (c.collecting option (payload.take Wire.subnegotiationMaxBytes)
    (if payload[Wire.subnegotiationMaxBytes]? = some Telnet.iac then .sbIac else .sbData)).requestClose
      "telnet_subnegotiation_overflow" (some "Protocol error.\r\n")

@[simp] theorem closed_collecting (option : UInt8) (collected : Bytes) (parser : ParserState) :
    (c.collecting option collected parser).closed = c.closed := rfl

@[simp] theorem parsing_collecting (option : UInt8) (collected : Bytes) (parser : ParserState) :
    (c.collecting option collected parser).parsing =
      ⟨parser, c.parsing.pendingTelnetCommand, option, collected⟩ := rfl

/-- The stream takes the session to `c'`, and `calls` are the payloads handed over. -/
structure Takes (host : Host β α) (c : Conn β α) (stream : List TimedByte)
    (calls : List (UInt8 × Bytes)) (c' : Conn β α) : Prop where
  state : c.feedStream host stream = c'
  calls : c.subnegotiations host stream = calls

namespace Takes

variable {option : UInt8} {stream : List TimedByte}

theorem append {a b : List TimedByte} {x y : List (UInt8 × Bytes)} {c' c'' : Conn β α}
    (h : Takes host c a x c') (h' : Takes host c' b y c'') : Takes host c (a ++ b) (x ++ y) c'' := by
  obtain ⟨rfl, rfl⟩ := h
  obtain ⟨rfl, rfl⟩ := h'
  refine ⟨feedStream_append host c a b, ?_⟩
  induction a generalizing c with
  | nil => rfl
  | cons byte a ih => simp [subnegotiations, ih, feedStream_cons]

/-- A byte that does not end a subnegotiation. -/
theorem byte {c' : Conn β α} {b : UInt8} {nowMs : UInt64} (hopen : c.closed = false)
    (hnot : c.parsing.parser ≠ .sbIac ∨ b ≠ Telnet.se) (hstep : c.feedByte host b nowMs = c') :
    Takes host c [(b, nowMs)] [] c' := by
  have hgoes : c.finishes (.byte b nowMs) = false := by
    rcases hnot with h | h <;> simp [finishes, h]
  refine ⟨?_, by simp [subnegotiations, hgoes]⟩
  rw [feedStream_cons, act_of_open hopen, hstep]
  rfl

theorem ofClosed (hclosed : c.closed = true) (stream : List TimedByte) :
    Takes host c stream [] c := by
  induction stream with
  | nil => exact ⟨rfl, rfl⟩
  | cons byte stream ih =>
    have hact : c.act host (.byte byte.1 byte.2) = c := act_of_closed hclosed byte.1 byte.2
    have hgoes : c.finishes (.byte byte.1 byte.2) = false := by simp [finishes, hclosed]
    refine ⟨?_, ?_⟩
    · rw [feedStream_cons, hact, ih.state]
    · rw [subnegotiations, hact, ih.calls, hgoes]
      rfl

/-- IAC, SB and the option. -/
theorem header (hopen : c.closed = false) (hdata : c.parsing.parser = .data)
    (hstream : stream.map Prod.fst = [Telnet.iac, Telnet.sb, option]) :
    Takes host c stream [] (c.collecting option [] .sbData) := by
  match stream, hstream with
  | [(_, first), (_, second), (o, third)], hstream =>
    simp only [List.map_cons, List.map_nil, List.cons.injEq, and_true] at hstream
    obtain ⟨rfl, rfl, rfl⟩ := hstream
    have hiac : Takes host c [(Telnet.iac, first)] [] (c.setParser .iac) :=
      .byte hopen (.inl (by simp [hdata])) (by simp [feedByte, hdata])
    have hsb : Takes host (c.setParser .iac) [(Telnet.sb, second)] [] (c.setParser .sbOption) :=
      .byte hopen (.inl (by simp [setParser])) rfl
    have hoption : Takes host (c.setParser .sbOption) [(o, third)] []
        (c.collecting o [] .sbData) :=
      .byte hopen (.inl (by simp [setParser])) rfl
    exact hiac.append (hsb.append hoption)

/-- IAC inside a payload. -/
theorem iac {collected : Bytes} (hopen : c.closed = false) (nowMs : UInt64) :
    Takes host (c.collecting option collected .sbData) [(Telnet.iac, nowMs)] []
      (c.collecting option collected .sbIac) :=
  .byte hopen (.inl (by simp)) rfl

/-- A payload byte goes by what the last byte of its quotation does. -/
theorem quoted {collected : Bytes} {b : UInt8} {c' : Conn β α} (hopen : c.closed = false)
    (hiac : b = Telnet.iac → ∀ nowMs,
      (c.collecting option collected .sbIac).feedByte host Telnet.iac nowMs = c')
    (hplain : b ≠ Telnet.iac → ∀ nowMs,
      (c.collecting option collected .sbData).feedByte host b nowMs = c')
    (hstream : stream.map Prod.fst = TelnetGrammar.quote b) :
    Takes host (c.collecting option collected .sbData) stream [] c' := by
  unfold TelnetGrammar.quote at hstream
  split at hstream
  case isTrue hb =>
    match stream, hstream with
    | [(_, first), (_, second)], hstream =>
      simp only [List.map_cons, List.map_nil, List.cons.injEq, and_true] at hstream
      obtain ⟨rfl, rfl⟩ := hstream
      exact (iac hopen first).append (.byte hopen (.inr (by decide)) (hiac hb second))
  case isFalse hb =>
    match stream, hstream with
    | [(_, nowMs)], hstream =>
      simp only [List.map_cons, List.map_nil, List.cons.injEq, and_true] at hstream
      subst hstream
      exact .byte hopen (.inl (by simp)) (hplain hb nowMs)

/-- A payload byte that fits. -/
theorem quote {collected : Bytes} {b : UInt8} (hopen : c.closed = false)
    (hroom : collected.length < Wire.subnegotiationMaxBytes)
    (hstream : stream.map Prod.fst = TelnetGrammar.quote b) :
    Takes host (c.collecting option collected .sbData) stream []
      (c.collecting option (collected ++ [b]) .sbData) := by
  have hfits : ¬ collected.length ≥ Wire.subnegotiationMaxBytes := by omega
  refine quoted hopen (fun hb _ => ?_) (fun hb _ => ?_) hstream
  · rw [hb]
    exact if_neg hfits
  · simp [feedByte, collecting, pushPayload, hb, hfits]

theorem payload {collected payload : Bytes} (hopen : c.closed = false)
    (hroom : collected.length + payload.length ≤ Wire.subnegotiationMaxBytes)
    (hstream : stream.map Prod.fst = payload.flatMap TelnetGrammar.quote) :
    Takes host (c.collecting option collected .sbData) stream []
      (c.collecting option (collected ++ payload) .sbData) := by
  induction payload generalizing collected stream with
  | nil =>
    obtain rfl := List.map_eq_nil_iff.mp hstream
    rw [List.append_nil]
    exact ⟨rfl, rfl⟩
  | cons b payload ih =>
    rw [List.flatMap_cons] at hstream
    obtain ⟨first, rest, rfl, hfirst, hrest⟩ := List.map_eq_append_iff.mp hstream
    rw [List.length_cons] at hroom
    have hbyte : Takes host (c.collecting option collected .sbData) first []
        (c.collecting option (collected ++ [b]) .sbData) := quote hopen (by omega) hfirst
    have hroom' : (collected ++ [b]).length + payload.length ≤ Wire.subnegotiationMaxBytes := by
      rw [List.length_append, List.length_singleton]
      omega
    rw [List.append_cons]
    exact hbyte.append (ih hroom' hrest)

/-- IAC and SE. -/
theorem finish {collected : Bytes} (hopen : c.closed = false)
    (hstream : stream.map Prod.fst = [Telnet.iac, Telnet.se]) :
    Takes host (c.collecting option collected .sbData) stream [(option, collected)]
      (c.received host option collected) := by
  match stream, hstream with
  | [(_, first), (_, second)], hstream =>
    simp only [List.map_cons, List.map_nil, List.cons.injEq, and_true] at hstream
    obtain ⟨rfl, rfl⟩ := hstream
    have hopen' : (c.collecting option collected .sbIac).closed = false := hopen
    have hfinishes : (c.collecting option collected .sbIac).finishes (.byte Telnet.se second) =
        true := by
      simp [finishes, hopen]
    have hse : Takes host (c.collecting option collected .sbIac) [(Telnet.se, second)]
        [(option, collected)] (c.received host option collected) := by
      refine ⟨?_, by simp [subnegotiations, hfinishes]⟩
      rw [feedStream_cons, act_of_open hopen']
      rfl
    exact (iac hopen first).append hse

/-- A payload byte that does not fit. -/
theorem full {collected : Bytes} {b : UInt8} (hopen : c.closed = false)
    (hfull : Wire.subnegotiationMaxBytes ≤ collected.length)
    (hstream : stream.map Prod.fst = TelnetGrammar.quote b) :
    Takes host (c.collecting option collected .sbData) stream []
      ((c.collecting option collected (if b = Telnet.iac then .sbIac else .sbData)).requestClose
        "telnet_subnegotiation_overflow" (some "Protocol error.\r\n")) := by
  refine quoted hopen (fun hb _ => ?_) (fun hb _ => ?_) hstream
  · rw [if_pos hb]
    exact if_pos hfull
  · rw [if_neg hb]
    simp [feedByte, collecting, pushPayload, hb, hfull]

/-- A frame whose payload fits. -/
theorem frame {payload : Bytes} (hopen : c.closed = false) (hdata : c.parsing.parser = .data)
    (hfits : payload.length ≤ Wire.subnegotiationMaxBytes)
    (hstream : stream.map Prod.fst = (TelnetGrammar.Token.subnegotiation option payload).encode) :
    Takes host c stream [(option, payload)] (c.received host option payload) := by
  obtain ⟨front, last, rfl, hfront, hlast⟩ := List.map_eq_append_iff.mp hstream
  obtain ⟨first, middle, rfl, hfirst, hmiddle⟩ := List.map_eq_append_iff.mp hfront
  have hpayload : Takes host (c.collecting option [] .sbData) middle []
      (c.collecting option payload .sbData) :=
    Takes.payload hopen (by simpa using hfits) hmiddle
  exact ((header hopen hdata hfirst).append hpayload).append (finish hopen hlast)

/-- A frame whose payload does not fit. -/
theorem tooLong {payload : Bytes} (hopen : c.closed = false) (hdata : c.parsing.parser = .data)
    (hlong : Wire.subnegotiationMaxBytes < payload.length)
    (hstream : stream.map Prod.fst = (TelnetGrammar.Token.subnegotiation option payload).encode) :
    Takes host c stream [] (c.overflowed option payload) := by
  obtain ⟨b, hb⟩ : ∃ b, payload[Wire.subnegotiationMaxBytes]? = some b :=
    ⟨_, List.getElem?_eq_getElem hlong⟩
  obtain ⟨kept, rest, hpayload, hkept⟩ : ∃ kept rest, payload = kept ++ b :: rest ∧
      kept.length = Wire.subnegotiationMaxBytes := by
    obtain ⟨hlt, hb⟩ := List.getElem?_eq_some_iff.mp hb
    refine ⟨_, payload.drop (Wire.subnegotiationMaxBytes + 1), ?_, List.length_take_of_le hlt.le⟩
    rw [← hb, List.cons_getElem_drop_succ, List.take_append_drop]
  have hover : c.overflowed option payload = (c.collecting option kept
      (if b = Telnet.iac then .sbIac else .sbData)).requestClose
        "telnet_subnegotiation_overflow" (some "Protocol error.\r\n") := by
    have htake : payload.take Wire.subnegotiationMaxBytes = kept := by
      rw [hpayload, ← hkept, List.take_left]
    unfold overflowed
    rw [htake, hb]
    simp
  rw [hpayload] at hstream
  simp only [TelnetGrammar.Token.encode, List.flatMap_append, List.flatMap_cons,
    List.append_assoc] at hstream
  -- header, the bytes that fit, the one that does not, and what is not read any more
  obtain ⟨first, _, rfl, hfirst, hstream⟩ := List.map_eq_append_iff.mp hstream
  obtain ⟨middle, _, rfl, hmiddle, hstream⟩ := List.map_eq_append_iff.mp hstream
  obtain ⟨last, unread, rfl, hlast, -⟩ := List.map_eq_append_iff.mp hstream
  have hread : Takes host (c.collecting option [] .sbData) middle []
      (c.collecting option kept .sbData) := Takes.payload hopen (by simp [hkept]) hmiddle
  have hclose : Takes host (c.collecting option kept .sbData) last [] (c.overflowed option payload) :=
    hover ▸ full hopen hkept.ge hlast
  have hclosed : (c.overflowed option payload).closed = true := closed_requestClose _ _ _
  exact (header hopen hdata hfirst).append (hread.append (hclose.append (.ofClosed hclosed unread)))

end Takes

/-! ## The buffer -/

theorem parsing_receivePlainByte (host : Host β α) (c : Conn β α) (byte : UInt8) (nowMs : UInt64) :
    (c.receivePlainByte host byte nowMs).parsing = c.parsing := by
  unfold receivePlainByte
  split_ifs
  · rfl
  · exact (Steady.processCompleteLine host c nowMs).parsing
  · rfl
  · rfl

theorem parsing_receiveDataByte (host : Host β α) (c : Conn β α) (byte : UInt8) (nowMs : UInt64) :
    (c.receiveDataByte host byte nowMs).parsing = c.parsing := by
  unfold receiveDataByte
  dsimp only
  split_ifs
  · exact (Steady.processCompleteLine host _ nowMs).parsing
  · rfl
  · exact parsing_receivePlainByte host _ byte nowMs
  · exact parsing_receivePlainByte host c byte nowMs

theorem parsing_handleControlCommand (host : Host β α) (c : Conn β α) (command : UInt8) :
    (c.handleControlCommand command).parsing = c.parsing := by
  unfold handleControlCommand
  split_ifs
  · exact ((Steady.frame host).writeCurrentPrompt ((Steady.frame host).say (.ofEq rfl rfl) _)).parsing
  · exact ((Steady.frame host).interruptCurrentInput c).parsing
  · rfl
  · rfl
  · rfl
  · rfl

/-- The buffer does not grow beyond its size, whatever the byte. -/
theorem length_subnegotiation_act (host : Host β α) (c : Conn β α) (byte : UInt8) (nowMs : UInt64) :
    (c.act host (.byte byte nowMs)).parsing.subnegotiation.length ≤
      max Wire.subnegotiationMaxBytes c.parsing.subnegotiation.length := by
  have hkeeps : ∀ {c' : Conn β α}, c'.parsing.subnegotiation = c.parsing.subnegotiation →
      c'.parsing.subnegotiation.length ≤
        max Wire.subnegotiationMaxBytes c.parsing.subnegotiation.length := by
    intro c' h
    rw [h]
    exact Nat.le_max_right _ _
  have hpush : ∀ b parser, (c.pushPayload b parser).parsing.subnegotiation.length ≤
      max Wire.subnegotiationMaxBytes c.parsing.subnegotiation.length := by
    intro b parser
    unfold pushPayload
    split
    case isTrue => exact hkeeps rfl
    case isFalse hroom =>
      simp only [List.length_append, List.length_singleton]
      omega
  have hdata : ∀ b, (c.receiveDataByte host b nowMs).parsing.subnegotiation =
      c.parsing.subnegotiation :=
    fun b => congrArg _ (parsing_receiveDataByte host c b nowMs)
  have hcontrol : (c.handleControlCommand byte).parsing.subnegotiation = c.parsing.subnegotiation :=
    congrArg _ (parsing_handleControlCommand host c byte)
  simp only [act]
  split
  case isTrue => exact hkeeps rfl
  case isFalse =>
    unfold feedByte
    split
    case h_1 =>
      split_ifs
      · exact hkeeps rfl
      · exact hkeeps (hdata byte)
    case h_2 =>
      split_ifs
      · exact hkeeps (hdata Telnet.iac)
      · exact hkeeps rfl
      · exact hkeeps rfl
      · exact hkeeps hcontrol
    case h_3 => exact hkeeps rfl
    case h_4 => exact Nat.zero_le _
    case h_5 =>
      split_ifs
      · exact hkeeps rfl
      · exact hpush byte .sbData
    case h_6 =>
      split_ifs
      · exact Nat.zero_le _
      · exact hpush Telnet.iac .sbData
      · exact hkeeps rfl

theorem length_subnegotiation_feedStream (host : Host β α) (c : Conn β α)
    (stream : List TimedByte) :
    (c.feedStream host stream).parsing.subnegotiation.length ≤
      max Wire.subnegotiationMaxBytes c.parsing.subnegotiation.length := by
  induction stream generalizing c with
  | nil => exact Nat.le_max_right _ _
  | cons byte stream ih =>
    have hbyte := length_subnegotiation_act host c byte.1 byte.2
    have hrest := ih (c.act host (.byte byte.1 byte.2))
    rw [feedStream_cons]
    omega

end Conn

/-! ## Window sizes -/

/-- The payload of a NAWS report. -/
def nawsPayload (width height : Nat) : Bytes :=
  [UInt8.ofNat (width / 256), UInt8.ofNat (width % 256), UInt8.ofNat (height / 256),
    UInt8.ofNat (height % 256)]

theorem clampDimension_eq {minimum maximum : Nat} (h : minimum ≤ maximum) (value fallback : Nat) :
    clampDimension value minimum maximum fallback =
      if value = 0 then fallback else min (max value minimum) maximum := by
  unfold clampDimension
  split_ifs <;> omega

theorem Link.handleNaws_nawsPayload {α : Type} {l : Link α}
    (hnaws : l.caps.enabled .remote Telnet.Opt.naws = true) {width height : Nat}
    (hwidth : width < 65536) (hheight : height < 65536) :
    l.handleNaws (nawsPayload width height) =
      { l with
        caps.terminal.width := if width = 0 then 80 else min (max width 20) 500
        caps.terminal.height := if height = 0 then 24 else min (max height 5) 200 } := by
  have hbytes : ∀ n < 65536, (UInt8.ofNat (n / 256)).toNat * 256 + (UInt8.ofNat (n % 256)).toNat = n := by
    intro n hn
    rw [UInt8.toNat_ofNat', UInt8.toNat_ofNat']
    omega
  simp only [handleNaws, nawsPayload, hnaws, Bool.not_true, Bool.false_eq_true, if_false,
    hbytes width hwidth, hbytes height hheight]
  rw [clampDimension_eq (by decide), clampDimension_eq (by decide)]
  rfl

/-! ## From one session to another -/

theorem Wire.written_sendSubnegotiation {α : Type} {w : Wire α} (hopen : w.closeRequested = false)
    (option : UInt8) (payload : Bytes) :
    (w.sendSubnegotiation option payload).written =
      w.written ++ (TelnetGrammar.Token.subnegotiation option payload).encode := by
  rw [sendSubnegotiation_eq_sends, written_sends hopen, OutputOp.flatten_subnegotiationChunks]

namespace TelnetSession

variable {β α σ : Type}

theorem map_fst_timed (chunks : List (Bytes × UInt64)) :
    (timed chunks).map Prod.fst = chunks.flatMap Prod.fst := by
  simp [timed, List.map_flatMap, Function.comp_def]

/-- What is sent as a subnegotiation comes back out of the parser, in whatever
chunks the byte window takes: the handler runs once with the option and the
payload, or, if the payload is larger than the buffer, the session closes. -/
theorem subnegotiation_round_trip {host : Host β α} {s : TelnetSession β α}
    (hopen : s.conn.closed = false) (hdata : s.conn.parsing.parser = .data) {sender : Wire σ}
    (hsender : sender.closeRequested = false) {option : UInt8} {payload frame : Bytes}
    (hframe : (sender.sendSubnegotiation option payload).written = sender.written ++ frame)
    {chunks : List (Bytes × UInt64)} (hchunks : chunks.flatMap Prod.fst = frame)
    (hadmits : AdmitsAll host s chunks) :
    (payload.length ≤ 4096 →
      s.conn.subnegotiations host (timed chunks) = [(option, payload)] ∧
        (s.feedAll host chunks).conn = s.conn.received host option payload) ∧
    (4096 < payload.length →
      s.conn.subnegotiations host (timed chunks) = [] ∧
        (s.feedAll host chunks).conn = s.conn.overflowed option payload) ∧
    (∀ before, before <+: timed chunks →
      (s.conn.feedStream host before).parsing.subnegotiation.length ≤
        max 4096 s.conn.parsing.subnegotiation.length) ∧
    ∀ width height, width < 65536 → height < 65536 → option = Telnet.Opt.naws →
      payload = nawsPayload width height →
      s.conn.link.caps.enabled .remote Telnet.Opt.naws = true →
      (s.feedAll host chunks).conn.link = { s.conn.link with
        caps.terminal.width := if width = 0 then 80 else min (max width 20) 500
        caps.terminal.height := if height = 0 then 24 else min (max height 5) 200 } := by
  rw [Wire.written_sendSubnegotiation hsender, List.append_cancel_left_eq] at hframe
  have hstream : (timed chunks).map Prod.fst =
      (TelnetGrammar.Token.subnegotiation option payload).encode := by
    rw [map_fst_timed, hchunks, hframe]
  rw [feedAll_of_admits hadmits]
  have hfits : payload.length ≤ 4096 → Conn.Takes host s.conn (timed chunks) [(option, payload)]
      (s.conn.received host option payload) :=
    fun hfits => .frame hopen hdata hfits hstream
  refine ⟨fun h => ⟨(hfits h).calls, (hfits h).state⟩, fun hlong => ?_,
    fun before _ => Conn.length_subnegotiation_feedStream host s.conn before, ?_⟩
  · have htakes : Conn.Takes host s.conn (timed chunks) [] (s.conn.overflowed option payload) :=
      .tooLong hopen hdata hlong hstream
    exact ⟨htakes.calls, htakes.state⟩
  · rintro width height hwidth hheight rfl rfl hnaws
    rw [(hfits (by simp [nawsPayload])).state]
    exact Link.handleNaws_nawsPayload hnaws hwidth hheight

/-- A session whose client reports its window size. -/
def sized : TelnetSession Unit Unit :=
  (granted.feedAt .granting [Telnet.iac, Telnet.will, Telnet.Opt.naws] 1).2

/-- A report of 255 columns and 255 rows, cut between the two bytes of an IAC. -/
def sizeReport : List (Bytes × UInt64) :=
  [([255, 250, 31, 0, 255], 2), ([255, 0], 3), ([255, 255, 255, 240], 9000)]

theorem subnegotiation_round_trip_sized :
    (sized.feedAll .granting sizeReport).conn.terminal.width = 255 ∧
      (sized.feedAll .granting sizeReport).conn.terminal.height = 200 := by
  have hopen : sized.conn.closed = false := by decide +kernel
  have hdata : sized.conn.parsing.parser = .data := by decide +kernel
  have hsender : granted.conn.link.wire.closeRequested = false := rfl
  have hframe : (granted.conn.link.wire.sendSubnegotiation Telnet.Opt.naws
      (nawsPayload 255 255)).written =
        granted.conn.link.wire.written ++ sizeReport.flatMap Prod.fst := by decide
  have hadmits : AdmitsAll .granting sized sizeReport := by
    refine admitsAll_cons.mpr ⟨?_, admitsAll_cons.mpr ⟨?_, admitsAll_cons.mpr ⟨?_, admitsAll_nil _ _⟩⟩⟩
    all_goals
      unfold Admits
      decide +kernel
  have hsize := (subnegotiation_round_trip hopen hdata hsender hframe rfl hadmits).2.2.2 255 255
    (by decide) (by decide) rfl rfl (by decide +kernel)
  rw [Conn.terminal, hsize]
  decide

end TelnetSession

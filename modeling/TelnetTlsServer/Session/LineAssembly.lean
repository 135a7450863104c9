-- SUMMARY: Completed lines and phase changes depend on the data bytes of a stream only, wherever Telnet commands stand between them.
import TelnetTlsServer.Lib.TelnetGrammar
import TelnetTlsServer.Session.Chunking
import TelnetTlsServer.Session.Invariant

/-!
# Line assembly

`Console` is what typing at a session means: data bytes are put into a line, LF
completes it. A stream carries data bytes, IAC doubled, with option commands,
subnegotiations and the commands without an effect between them, also between CR
and LF. A session that stays open completes the lines of the data bytes alone.
-/

/-- What an observer of the dialogue sees: a completed line, with the mark that
bytes of it were lost, and a change of the phase. -/
inductive Observation where
  | line (text : Bytes) (overflow : Bool)
  | phase (login : LoginState)
deriving DecidableEq, Repr

def Observation.phaseChange (before after : LoginState) : List Observation :=
  if after ≠ before then [.phase after] else []

/-! ## The plain specification -/

/-- The account dialogue and the line being typed. -/
structure Console (β : Type) where
  dialogue : Dialogue β
  typing : Typing

namespace Console

variable {β α : Type}

def step (host : Host β α) (s : Console β) (byte : TimedByte) : Console β × List Observation :=
  if byte.1 = 10 then
    let d := (s.dialogue.complete host s.typing byte.2).dialogue
    (⟨d, .empty⟩, .line s.typing.text s.typing.overflow ::
      Observation.phaseChange s.dialogue.login d.login)
  else
    (⟨s.dialogue, s.typing.put (LineInput.lineLimit s.dialogue.login) byte.1⟩, [])

def run (host : Host β α) (s : Console β) : List TimedByte → Console β × List Observation
  | [] => (s, [])
  | byte :: rest =>
      let (s', seen) := s.step host byte
      let (s'', later) := run host s' rest
      (s'', seen ++ later)

end Console

/-! ## Streams -/

open TelnetGrammar in
/-- What may stand between data bytes. -/
def Inserted : Token → Prop
  | .option _ _ | .subnegotiation _ _ => True
  | .command c => c ∈ [Telnet.nop, Telnet.dm, Telnet.ao, Telnet.ga, Telnet.eor]
  | .data _ => False

open TelnetGrammar in
/-- The stream is the data bytes with complete commands inserted anywhere. -/
inductive Carries : List TimedByte → List TimedByte → Prop where
  | nil : Carries [] []
  | byte {b : UInt8} {nowMs : UInt64} {stream data : List TimedByte} (hb : b ≠ Telnet.iac)
      (h : Carries stream data) : Carries ((b, nowMs) :: stream) ((b, nowMs) :: data)
  | quoted {firstMs nowMs : UInt64} {stream data : List TimedByte} (h : Carries stream data) :
      Carries ((Telnet.iac, firstMs) :: (Telnet.iac, nowMs) :: stream) ((Telnet.iac, nowMs) :: data)
  | inserted {token : Token} {bytes stream data : List TimedByte} (htoken : Inserted token)
      (hbytes : bytes.map Prod.fst = token.encode) (h : Carries stream data) :
      Carries (bytes ++ stream) data

namespace Conn

variable {β α : Type}

/-! ## What the session does with a stream -/

/-- `process_complete_line` is called for this byte. -/
def completes (c : Conn β α) (byte : UInt8) : Bool :=
  !c.closed && c.parsing.parser = .data && byte = 10

def observe (host : Host β α) (c : Conn β α) (byte : TimedByte) : List Observation :=
  (if c.completes byte.1 then [.line c.input.text c.input.lineOverflow] else []) ++
    Observation.phaseChange c.dialogue.login (c.act host (.byte byte.1 byte.2)).dialogue.login

def observations (host : Host β α) (c : Conn β α) : List TimedByte → List Observation
  | [] => []
  | byte :: rest => c.observe host byte ++ observations host (c.act host (.byte byte.1 byte.2)) rest

theorem observations_append (host : Host β α) (c : Conn β α) (a b : List TimedByte) :
    c.observations host (a ++ b) =
      c.observations host a ++ (c.feedStream host a).observations host b := by
  induction a generalizing c with
  | nil => rfl
  | cons byte a ih => simp [observations, ih, feedStream_cons]

/-- Completing a line is calling `process_complete_line`, whether or not a CR is pending. -/
theorem act_of_completes {host : Host β α} {c : Conn β α} {byte : UInt8}
    (h : c.completes byte = true) (nowMs : UInt64) :
    c.act host (.byte byte nowMs) =
      { c with input.pendingCr := false }.processCompleteLine host nowMs := by
  simp only [completes, Bool.and_eq_true, Bool.not_eq_true', decide_eq_true_eq] at h
  obtain ⟨⟨hopen, hparser⟩, rfl⟩ := h
  have hdata : (10 : UInt8) ≠ Telnet.iac := by decide
  rw [act_of_open hopen, ← receiveDataByte_lf]
  simp [feedByte, hparser, hdata]

/-! ## Control traffic

`skips` follows the parser through bytes that are no data and edit nothing. -/

def skips : ParserState → UInt8 → Option ParserState
  | .data, b => if b = Telnet.iac then some .iac else none
  | .iac, b =>
      if isOptionVerb b then some .option
      else if b = Telnet.sb then some .sbOption
      else if [Telnet.nop, Telnet.dm, Telnet.ao, Telnet.ga, Telnet.eor].contains b then some .data
      else none
  | .option, _ => some .data
  | .sbOption, _ => some .sbData
  | .sbData, b => if b = Telnet.iac then some .sbIac else some .sbData
  | .sbIac, b =>
      if b = Telnet.se then some .data else if b = Telnet.iac then some .sbData else none

def skipsAll (parser : ParserState) (bytes : Bytes) : Option ParserState := bytes.foldlM skips parser

/-- The account and the typed line are as they were. -/
structure Mute (c c' : Conn β α) : Prop where
  dialogue : c'.dialogue = c.dialogue
  input : c'.input = c.input

theorem Mute.trans {c c' c'' : Conn β α} (h : c.Mute c') (h' : c'.Mute c'') : c.Mute c'' :=
  ⟨h'.dialogue.trans h.dialogue, h'.input.trans h.input⟩

theorem mute_pushPayload {c : Conn β α} {byte : UInt8} {parser : ParserState}
    (hopen : (c.pushPayload byte parser).closed = false) :
    c.Mute (c.pushPayload byte parser) ∧ (c.pushPayload byte parser).parsing.parser = parser := by
  unfold pushPayload at hopen ⊢
  split
  case isTrue hfull => simp [hfull] at hopen
  case isFalse => exact ⟨⟨rfl, rfl⟩, rfl⟩

theorem handleControlCommand_ignored (c : Conn β α) {byte : UInt8}
    (h : [Telnet.nop, Telnet.dm, Telnet.ao, Telnet.ga, Telnet.eor].contains byte) :
    c.handleControlCommand byte = c := by
  simp only [List.contains_eq_mem, List.mem_cons, List.not_mem_nil, or_false, decide_eq_true_eq] at h
  rcases h with rfl | rfl | rfl | rfl | rfl <;> rfl

theorem feedByte_skips {host : Host β α} {c : Conn β α} {byte : UInt8} {nowMs : UInt64}
    {parser : ParserState} (hskips : skips c.parsing.parser byte = some parser)
    (hopen : (c.feedByte host byte nowMs).closed = false) :
    c.Mute (c.feedByte host byte nowMs) ∧
      (c.feedByte host byte nowMs).parsing.parser = parser := by
  unfold feedByte at hopen ⊢
  cases hparser : c.parsing.parser with
  | data =>
    simp only [hparser, skips] at hskips hopen ⊢
    split at hskips
    case isFalse => cases hskips
    case isTrue hiac =>
      obtain rfl := Option.some.inj hskips
      rw [if_pos hiac]
      exact ⟨⟨rfl, rfl⟩, rfl⟩
  | iac =>
    have hnone : skips .iac Telnet.iac = none := by decide
    have hquoted : byte ≠ Telnet.iac := by
      rintro rfl
      rw [hparser, hnone] at hskips
      cases hskips
    simp only [hparser, skips, hquoted, if_false] at hskips ⊢
    split at hskips
    case isTrue hverb =>
      obtain rfl := Option.some.inj hskips
      rw [if_pos hverb]
      exact ⟨⟨rfl, rfl⟩, rfl⟩
    case isFalse hverb =>
    rw [if_neg hverb]
    split at hskips
    case isTrue hsb =>
      obtain rfl := Option.some.inj hskips
      rw [if_pos hsb]
      exact ⟨⟨rfl, rfl⟩, rfl⟩
    case isFalse hsb =>
    rw [if_neg hsb]
    split at hskips
    case isFalse => cases hskips
    case isTrue hignored =>
      obtain rfl := Option.some.inj hskips
      rw [handleControlCommand_ignored c hignored]
      exact ⟨⟨rfl, rfl⟩, rfl⟩
  | option =>
    simp only [hparser, skips] at hskips ⊢
    obtain rfl := Option.some.inj hskips
    exact ⟨⟨rfl, rfl⟩, rfl⟩
  | sbOption =>
    simp only [hparser, skips] at hskips ⊢
    obtain rfl := Option.some.inj hskips
    exact ⟨⟨rfl, rfl⟩, rfl⟩
  | sbData =>
    simp only [hparser, skips] at hskips hopen ⊢
    split at hskips
    case isTrue hiac =>
      obtain rfl := Option.some.inj hskips
      rw [if_pos hiac]
      exact ⟨⟨rfl, rfl⟩, rfl⟩
    case isFalse hiac =>
      obtain rfl := Option.some.inj hskips
      rw [if_neg hiac] at hopen ⊢
      exact mute_pushPayload hopen
  | sbIac =>
    simp only [hparser, skips] at hskips hopen ⊢
    split at hskips
    case isTrue hse =>
      obtain rfl := Option.some.inj hskips
      rw [if_pos hse]
      exact ⟨⟨rfl, rfl⟩, rfl⟩
    case isFalse hse =>
      split at hskips
      case isFalse => cases hskips
      case isTrue hiac =>
        obtain rfl := Option.some.inj hskips
        rw [if_neg hse, if_pos hiac] at hopen ⊢
        exact mute_pushPayload hopen

/-- A run of control traffic: nothing is observed in it. -/
theorem feedStream_skips {host : Host β α} {c : Conn β α} {bytes : List TimedByte}
    {parser : ParserState} (hskips : skipsAll c.parsing.parser (bytes.map Prod.fst) = some parser)
    (hopen : (c.feedStream host bytes).closed = false) :
    c.Mute (c.feedStream host bytes) ∧ (c.feedStream host bytes).parsing.parser = parser ∧
      c.observations host bytes = [] := by
  induction bytes generalizing c with
  | nil => exact ⟨⟨rfl, rfl⟩, Option.some.inj hskips, rfl⟩
  | cons byte rest ih =>
    have hnext : (c.act host (.byte byte.1 byte.2)).closed = false := open_of_feedStream hopen
    have hnow : c.closed = false := open_of_feedStream hopen
    obtain ⟨next, hbyte, hrest⟩ := Option.bind_eq_some_iff.mp hskips
    rw [act_of_open hnow] at hnext
    obtain ⟨hmute, hparser⟩ := feedByte_skips hbyte hnext
    rw [← hparser] at hrest
    rw [feedStream_cons, act_of_open hnow] at hopen ⊢
    obtain ⟨hmute', hparser', hnone⟩ := ih hrest hopen
    refine ⟨hmute.trans hmute', hparser', ?_⟩
    have hquiet : c.completes byte.1 = false := by
      by_contra hlf
      simp only [completes, Bool.not_eq_false, Bool.and_eq_true, decide_eq_true_eq] at hlf
      rw [hlf.1.2, hlf.2] at hbyte
      cases hbyte
    simp [observations, observe, hquiet, act_of_open hnow, hnone, hmute.dialogue,
      Observation.phaseChange]

theorem skipsAll_append (parser : ParserState) (a b : Bytes) :
    skipsAll parser (a ++ b) = (skipsAll parser a).bind (skipsAll · b) :=
  List.foldlM_append

theorem skipsAll_payload (payload : Bytes) :
    skipsAll .sbData (payload.flatMap TelnetGrammar.quote) = some .sbData := by
  induction payload with
  | nil => rfl
  | cons b rest ih =>
    have hb : skipsAll .sbData (TelnetGrammar.quote b) = some .sbData := by
      unfold TelnetGrammar.quote
      split
      · rfl
      case isFalse hiac => simp [skipsAll, skips, hiac]
    rw [List.flatMap_cons, skipsAll_append, hb]
    exact ih

/-- Inserted commands are control traffic. -/
theorem skipsAll_encode {token : TelnetGrammar.Token} (h : Inserted token) :
    skipsAll .data token.encode = some .data := by
  cases token with
  | data b => exact h.elim
  | command code =>
    simp only [Inserted, List.mem_cons, List.not_mem_nil, or_false] at h
    rcases h with rfl | rfl | rfl | rfl | rfl <;> rfl
  | option verb o => cases verb <;> rfl
  | subnegotiation o payload =>
    have hframe : skipsAll .data [TelnetGrammar.iac, TelnetGrammar.sb, o] = some .sbData := rfl
    simp only [TelnetGrammar.Token.encode]
    rw [skipsAll_append, skipsAll_append, hframe, Option.bind_some, skipsAll_payload]
    rfl

/-! ## Following the console -/

/-- The session is between two commands, and the console shows its account and its line. -/
structure Shows (c : Conn β α) (s : Console β) : Prop where
  dialogue : c.dialogue = s.dialogue
  holds : c.input.Holds s.typing
  parser : c.parsing.parser = .data

theorem Shows.of_mute {c c' : Conn β α} {s : Console β} (h : c.Shows s) (hmute : c.Mute c')
    (hparser : c'.parsing.parser = .data) : c'.Shows s :=
  ⟨hmute.dialogue.trans h.dialogue, hmute.input ▸ h.holds, hparser⟩

/-- A completed line that leaves the session open. -/
theorem Shows.complete {host : Host β α} {c : Conn β α} {s : Console β} (h : c.Shows s)
    (hlf : c.completes 10 = true) {nowMs : UInt64}
    (hopen : (c.act host (.byte 10 nowMs)).closed = false) :
    (c.act host (.byte 10 nowMs)).Shows (s.step host (10, nowMs)).1 := by
  rw [act_of_completes hlf] at hopen ⊢
  have hholds := h.holds.setPendingCr false
  refine ⟨?_, ?_, ?_⟩
  · rcases processCompleteLine_account host { c with input.pendingCr := false } hholds nowMs with
      hdone | ⟨hclosed, -⟩
    · have hdialogue := congrArg (·.dialogue) hdone
      simpa [account, answered, Console.step, h.dialogue] using hdialogue
    · simp [hclosed] at hopen
  · rcases processCompleteLine_holds host { c with input.pendingCr := false } nowMs with
      hempty | ⟨hclosed, -⟩
    · exact hempty
    · simp [hclosed] at hopen
  · rw [(Steady.processCompleteLine host { c with input.pendingCr := false } nowMs).parsing]
    exact h.parser

/-- Any other data byte edits the line. -/
theorem Shows.edit {host : Host β α} {c c' : Conn β α} {s : Console β} (h : c.Shows s)
    {byte : TimedByte} (hbyte : byte.1 ≠ 10) (hdialogue : c'.dialogue = c.dialogue)
    (hholds : c'.input.Holds (s.typing.put (LineInput.lineLimit c.dialogue.login) byte.1))
    (hparser : c'.parsing.parser = .data) : c'.Shows (s.step host byte).1 := by
  rw [Console.step, if_neg hbyte]
  exact ⟨hdialogue.trans h.dialogue, h.dialogue ▸ hholds, hparser⟩

theorem open_of_act {host : Host β α} {c : Conn β α} {byte : UInt8} {nowMs : UInt64}
    (h : (c.act host (.byte byte nowMs)).closed = false) : c.closed = false :=
  open_of_feedStream (show (c.feedStream host [(byte, nowMs)]).closed = false from h)

/-- A data byte that is not quoted. -/
theorem Shows.byte {host : Host β α} {c : Conn β α} {s : Console β} (h : c.Shows s)
    {byte : UInt8} (hbyte : byte ≠ Telnet.iac) {nowMs : UInt64}
    (hopen : (c.act host (.byte byte nowMs)).closed = false) :
    (c.act host (.byte byte nowMs)).Shows (s.step host (byte, nowMs)).1 ∧
      c.observe host (byte, nowMs) = (s.step host (byte, nowMs)).2 := by
  have hnow := open_of_act hopen
  by_cases hlf : byte = 10
  · subst hlf
    have hcompletes : c.completes 10 = true := by simp [completes, hnow, h.parser]
    have hshows := h.complete hcompletes hopen
    refine ⟨hshows, ?_⟩
    have hdialogue : (c.act host (.byte 10 nowMs)).dialogue =
        (s.dialogue.complete host s.typing nowMs).dialogue := hshows.dialogue
    simp [observe, hcompletes, Console.step, hdialogue, h.dialogue, h.holds.text_eq,
      h.holds.overflow]
  · have hfeed : c.act host (.byte byte nowMs) = c.receiveDataByte host byte nowMs := by
      rw [act_of_open hnow]
      simp [feedByte, h.parser, hbyte]
    have hedits := receiveDataByte_edits host h.holds hnow hlf nowMs
    rw [← hfeed] at hedits
    refine ⟨h.edit hlf hedits.dialogue hedits.holds (hedits.parsing ▸ h.parser), ?_⟩
    simp [observe, completes, hlf, Console.step, hedits.dialogue, Observation.phaseChange]

/-- A data byte 255, quoted. -/
theorem Shows.quoted {host : Host β α} {c : Conn β α} {s : Console β} (h : c.Shows s)
    {firstMs nowMs : UInt64}
    (hopen : (c.feedStream host [(Telnet.iac, firstMs), (Telnet.iac, nowMs)]).closed = false) :
    (c.feedStream host [(Telnet.iac, firstMs), (Telnet.iac, nowMs)]).Shows
        (s.step host (Telnet.iac, nowMs)).1 ∧
      c.observations host [(Telnet.iac, firstMs), (Telnet.iac, nowMs)] =
        (s.step host (Telnet.iac, nowMs)).2 := by
  have hnow : c.closed = false := open_of_feedStream hopen
  have hfirst : c.act host (.byte Telnet.iac firstMs) = c.setParser .iac := by
    rw [act_of_open hnow]
    simp [feedByte, h.parser]
  have hsecond : (c.setParser .iac).act host (.byte Telnet.iac nowMs) =
      ((c.setParser .iac).receiveDataByte host Telnet.iac nowMs).setParser .data := by
    rw [act_of_open (show (c.setParser .iac).closed = false from hnow)]
    simp [feedByte, setParser]
  have hfeed : c.feedStream host [(Telnet.iac, firstMs), (Telnet.iac, nowMs)] =
      ((c.setParser .iac).receiveDataByte host Telnet.iac nowMs).setParser .data := by
    rw [feedStream_cons, feedStream_cons, hfirst, hsecond]
    rfl
  have hlf : Telnet.iac ≠ 10 := by decide
  have hedits := receiveDataByte_edits host (show (c.setParser .iac).input.Holds s.typing from h.holds)
    hnow hlf nowMs
  have hkept : (((c.setParser .iac).receiveDataByte host Telnet.iac nowMs).setParser
      .data).dialogue = c.dialogue := hedits.dialogue
  rw [hfeed]
  refine ⟨h.edit hlf hkept hedits.holds rfl, ?_⟩
  have hbefore : (c.setParser .iac).dialogue = c.dialogue := rfl
  simp [observations, observe, completes, hfirst, hsecond, hlf, Console.step, hkept, hbefore,
    Observation.phaseChange]

/-! ## Whole streams -/

/-- The session follows the console over any stream that carries the data. -/
theorem Shows.stream {host : Host β α} {stream data : List TimedByte} (hcarries : Carries stream data)
    {c : Conn β α} {s : Console β} (h : c.Shows s)
    (hopen : (c.feedStream host stream).closed = false) :
    (c.feedStream host stream).Shows (s.run host data).1 ∧
      c.observations host stream = (s.run host data).2 := by
  induction hcarries generalizing c s with
  | nil => exact ⟨h, rfl⟩
  | @byte b nowMs stream data hb _ ih =>
    obtain ⟨hshows, hseen⟩ := h.byte hb (open_of_feedStream hopen)
    obtain ⟨hlast, hlater⟩ := ih hshows hopen
    exact ⟨hlast, by rw [observations, hseen, hlater]; rfl⟩
  | @quoted firstMs nowMs stream data _ ih =>
    obtain ⟨hshows, hseen⟩ := h.quoted (open_of_feedStream hopen)
    obtain ⟨hlast, hlater⟩ := ih hshows hopen
    refine ⟨hlast, ?_⟩
    calc c.observations host ([(Telnet.iac, firstMs), (Telnet.iac, nowMs)] ++ stream)
        = _ := observations_append host c _ stream
      _ = (s.run host ((Telnet.iac, nowMs) :: data)).2 := by rw [hseen, hlater]; rfl
  | @inserted token bytes stream data htoken hbytes _ ih =>
    rw [feedStream_append] at hopen ⊢
    have hskips : skipsAll c.parsing.parser (bytes.map Prod.fst) = some .data := by
      rw [h.parser, hbytes]
      exact skipsAll_encode htoken
    obtain ⟨hmute, hparser, hnone⟩ := feedStream_skips hskips (open_of_feedStream hopen)
    obtain ⟨hlast, hlater⟩ := ih (h.of_mute hmute hparser) hopen
    exact ⟨hlast, by rw [observations_append, hnone, hlater]; rfl⟩

/-- No byte of a line has been read. A CR may be pending. -/
def AtLineStart (c : Conn β α) : Prop :=
  c.parsing.parser = .data ∧ c.input.lineLength = 0 ∧ c.input.lineOverflow = false

theorem shows_of_lineStart {host : Host β α} {c : Conn β α} (hc : (system host).Reachable c)
    (h : c.AtLineStart) : c.Shows ⟨c.dialogue, .empty⟩ := by
  obtain ⟨hparser, hlength, hoverflow⟩ := h
  obtain ⟨t, ht, -⟩ := (good_of_reachable hc).line
  have hempty : t = .empty := by
    have htext : t.text = [] := List.eq_nil_of_length_eq_zero (ht.length ▸ hlength)
    have hmark : t.overflow = false := ht.overflow ▸ hoverflow
    cases t
    simp_all [Typing.empty]
  exact ⟨rfl, hempty ▸ ht, hparser⟩

end Conn

/-! ## Fed sessions -/

namespace TelnetSession

variable {β α : Type}

/-- A feed that leaves the session open has read its bytes. -/
theorem feedAt_of_open {host : Host β α} {s : TelnetSession β α} {chunk : Bytes} {nowMs : UInt64}
    (h : (s.feedAt host chunk nowMs).2.conn.closed = false) :
    (s.feedAt host chunk nowMs).2.conn = s.conn.feedStream host (chunk.map (·, nowMs)) := by
  rw [Conn.feedStream_chunk]
  unfold feedAt at h ⊢
  split
  case isTrue hclosed => simp [hclosed] at h
  case isFalse hclosed =>
    rw [if_neg hclosed] at h
    dsimp only at h ⊢
    split
    case isTrue hflood =>
      rw [if_pos hflood] at h
      simp at h
    case isFalse => rfl

theorem open_of_feedAll {host : Host β α} {s : TelnetSession β α} {chunks : List (Bytes × UInt64)}
    (h : (s.feedAll host chunks).conn.closed = false) : s.conn.closed = false := by
  induction chunks generalizing s with
  | nil => exact h
  | cons chunk rest ih =>
    have hnext : (s.feedAt host chunk.1 chunk.2).2.conn.closed = false := ih h
    by_contra hclosed
    rw [feedAt, if_pos (by simpa using hclosed)] at hnext
    exact hclosed hnext

theorem feedAll_of_open {host : Host β α} {s : TelnetSession β α} {chunks : List (Bytes × UInt64)}
    (h : (s.feedAll host chunks).conn.closed = false) :
    (s.feedAll host chunks).conn = s.conn.feedStream host (timed chunks) := by
  induction chunks generalizing s with
  | nil => rfl
  | cons chunk rest ih =>
    have hfirst : (s.feedAt host chunk.1 chunk.2).2.conn.closed = false := open_of_feedAll h
    have hrest : (s.feedAll host (chunk :: rest)).conn =
        (s.feedAt host chunk.1 chunk.2).2.conn.feedStream host (timed rest) := ih h
    have htimed : timed (chunk :: rest) = chunk.1.map (·, chunk.2) ++ timed rest :=
      List.flatMap_cons
    rw [hrest, feedAt_of_open hfirst, htimed, Conn.feedStream_append]

/-- Lines and phases of a session that stays open are those of its data bytes,
whatever is inserted between them and however the stream is cut into chunks. -/
theorem line_assembly {host : Host β α} {s : TelnetSession β α}
    (hs : (system host).Reachable s) (hstart : s.conn.AtLineStart)
    {chunks : List (Bytes × UInt64)} {data : List TimedByte} (hcarries : Carries (timed chunks) data)
    (hopen : (s.feedAll host chunks).conn.closed = false) :
    s.conn.observations host (timed chunks) = (Console.run host ⟨s.conn.dialogue, .empty⟩ data).2 ∧
      (s.feedAll host chunks).conn.Shows (Console.run host ⟨s.conn.dialogue, .empty⟩ data).1 := by
  have hfeed := feedAll_of_open hopen
  rw [hfeed] at hopen ⊢
  have hshows := Conn.shows_of_lineStart (reachable_conn hs) hstart
  exact (hshows.stream hcarries hopen).symm

/-- A name typed with a NAWS report between CR and LF. -/
def interleaved : List (Bytes × UInt64) :=
  [(ascii "bob\r", 1), ([Telnet.iac, Telnet.sb, Telnet.Opt.naws, 0, 80, 0, 24, Telnet.iac,
    Telnet.se], 2), ([10], 3)]

theorem carries_interleaved :
    Carries (timed interleaved) [(98, 1), (111, 1), (98, 1), (13, 1), (10, 3)] := by
  have hlf : Carries [(10, 3)] [(10, 3)] := .byte (by decide) .nil
  have htoken : Inserted (.subnegotiation Telnet.Opt.naws [0, 80, 0, 24]) := trivial
  have hnaws : Carries ([Telnet.iac, Telnet.sb, Telnet.Opt.naws, 0, 80, 0, 24, Telnet.iac,
      Telnet.se].map (·, 2) ++ [(10, 3)]) [(10, 3)] := .inserted htoken (by decide) hlf
  exact .byte (by decide) (.byte (by decide) (.byte (by decide) (.byte (by decide) hnaws)))

theorem line_assembly_interleaved :
    granted.conn.observations .granting (timed interleaved) =
      [.line (ascii "bob") false, .phase .password] := by
  have hreach : (system .granting).Reachable granted := .init ⟨(), (), rfl⟩
  rw [(line_assembly hreach ⟨rfl, rfl, rfl⟩ carries_interleaved (by decide)).1]
  decide

end TelnetSession

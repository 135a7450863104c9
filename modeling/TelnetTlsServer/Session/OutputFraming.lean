-- SUMMARY: The bytes of any sequence of output operations parse back to exactly those operations.
import TelnetTlsServer.Lib.TelnetGrammar
import TelnetTlsServer.Session.Wire

/-!
# Output framing

Two loops quote IAC: one writes data in runs, one writes a payload byte by byte.
Both put the encoding of the Telnet grammar on the wire, so a peer that parses
the stream from the data state gets the operations back, whatever the bytes.
-/

inductive PromptMarker where
  | eor
  | ga
deriving DecidableEq, Repr

def PromptMarker.code : PromptMarker → UInt8
  | eor => Telnet.eor
  | ga => Telnet.ga

/-- An output operation of a session. -/
inductive OutputOp where
  | data (data : Bytes)
  | option (command : TelnetGrammar.Verb) (opt : UInt8)
  | subnegotiation (opt : UInt8) (payload : Bytes)
  | marker (marker : PromptMarker)

namespace OutputOp

variable {α : Type}

def apply (w : Wire α) : OutputOp → Wire α
  | data bytes => w.writeTelnetData bytes
  | option command opt => w.writeTelnetOptionRaw command.code opt
  | subnegotiation opt payload => w.sendSubnegotiation opt payload
  | marker m => w.writeRaw [Telnet.iac, m.code]

/-- What a peer should read. -/
def tokens : OutputOp → List TelnetGrammar.Token
  | data bytes => bytes.map .data
  | option command opt => [.option command opt]
  | subnegotiation opt payload => [.subnegotiation opt payload]
  | marker m => [.command m.code]

theorem wellFormed_tokens (op : OutputOp) : ∀ t ∈ op.tokens, t.WellFormed := by
  intro t ht
  cases op with
  | data bytes =>
    obtain ⟨b, _, rfl⟩ := List.mem_map.mp ht
    exact trivial
  | option command opt =>
    obtain rfl := List.mem_singleton.mp ht
    exact trivial
  | subnegotiation opt payload =>
    obtain rfl := List.mem_singleton.mp ht
    exact trivial
  | marker m =>
    obtain rfl := List.mem_singleton.mp ht
    cases m <;> exact rfl

/-- Every operation hands chunks to the writer, or nothing once a close was requested. -/
theorem apply_eq_sends (op : OutputOp) (w : Wire α) : ∃ chunks, op.apply w = w.sends chunks := by
  cases op with
  | data bytes => exact ⟨_, w.writeTelnetData_eq_sends bytes⟩
  | option command opt => exact ⟨_, w.writeTelnetOptionRaw_eq_sends command.code opt⟩
  | subnegotiation opt payload => exact ⟨_, w.sendSubnegotiation_eq_sends opt payload⟩
  | marker m => exact ⟨_, w.writeRaw_eq_sends [Telnet.iac, m.code]⟩

theorem apply_closed {w : Wire α} (op : OutputOp) (hclosed : w.closeRequested = true) :
    op.apply w = w := by
  obtain ⟨chunks, hchunks⟩ := op.apply_eq_sends w
  rw [hchunks, Wire.sends, if_pos hclosed]

/-- The run-based loop quotes every IAC of its data. -/
theorem flatten_dataChunksFrom (run data : Bytes) :
    (Wire.dataChunksFrom run data).flatten = run ++ data.flatMap TelnetGrammar.quote := by
  induction data generalizing run with
  | nil => simp [Wire.dataChunksFrom, Wire.flatten_runChunk]
  | cons b rest ih =>
    unfold Wire.dataChunksFrom
    split
    case isTrue hb => simp [ih, TelnetGrammar.quote, show b ≠ TelnetGrammar.iac from hb]
    case isFalse hb =>
      have hb' : b = TelnetGrammar.iac := not_not.mp hb
      simp [ih, Wire.flatten_runChunk, TelnetGrammar.quote, hb']

/-- The byte-wise loop puts the encoding of the subnegotiation on the wire. -/
theorem flatten_subnegotiationChunks (opt : UInt8) (payload : Bytes) :
    (Wire.subnegotiationChunks opt payload).flatten =
      (TelnetGrammar.Token.subnegotiation opt payload).encode := by
  have hpayload : (payload.map Wire.payloadChunk).flatten = payload.flatMap TelnetGrammar.quote :=
    rfl
  simp [Wire.subnegotiationChunks, TelnetGrammar.Token.encode, hpayload]

/-- One operation adds the encoding of its tokens. -/
theorem apply_written {w : Wire α} (hopen : w.closeRequested = false) (op : OutputOp) :
    (op.apply w).closeRequested = false ∧
      (op.apply w).written = w.written ++ op.tokens.flatMap TelnetGrammar.Token.encode := by
  cases op with
  | data bytes =>
    simp [apply, tokens, Wire.written_sends, hopen, Wire.dataChunks, flatten_dataChunksFrom,
      List.flatMap_map, TelnetGrammar.Token.encode]
  | option command opt =>
    simp [apply, tokens, Wire.written_sends, hopen, TelnetGrammar.Token.encode]
  | subnegotiation opt payload =>
    simp [apply, tokens, Wire.written_sends, hopen, flatten_subnegotiationChunks]
  | marker m =>
    simp [apply, tokens, Wire.writeRaw_eq_sends, Wire.runChunk, Wire.written_sends, hopen,
      TelnetGrammar.Token.encode]

theorem foldl_written {w : Wire α} (hopen : w.closeRequested = false) (ops : List OutputOp) :
    (ops.foldl apply w).written =
      w.written ++ (ops.flatMap tokens).flatMap TelnetGrammar.Token.encode := by
  induction ops generalizing w with
  | nil => simp
  | cons op ops ih =>
    obtain ⟨hopen', hop⟩ := apply_written hopen op
    simp [ih hopen', hop]

/-- Whatever the operations and their bytes, the writer output parses to exactly
them and ends in the data state. -/
theorem output_framing {w : Wire α} (hopen : w.closeRequested = false) (ops : List OutputOp) :
    ∃ out, (ops.foldl apply w).written = w.written ++ out ∧
      TelnetGrammar.parse .data out = (.data, ops.flatMap tokens) := by
  refine ⟨_, foldl_written hopen ops, TelnetGrammar.parse_encodes ?_⟩
  intro t ht
  obtain ⟨op, _, hop⟩ := List.mem_flatMap.mp ht
  exact wellFormed_tokens op t hop

theorem output_framing_quoted :
    ∃ out, ([data [255, 65], subnegotiation 255 [255], marker .ga].foldl apply
        (⟨false, (), []⟩ : Wire Unit)).written = [] ++ out ∧
      TelnetGrammar.parse .data out = (.data, [.data 255, .data 65, .subnegotiation 255 [255],
        .command 249]) :=
  output_framing rfl [data [255, 65], subnegotiation 255 [255], marker .ga]

end OutputOp

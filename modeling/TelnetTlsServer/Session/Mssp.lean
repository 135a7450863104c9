-- SUMMARY: The MSSP snapshot: what a client decodes from it, when it is sent, and that the payload buffer is large enough.
import TelnetTlsServer.Session.Probing
import TelnetTlsServer.Session.Subnegotiation

/-!
# The MSSP snapshot

The payload is a list of variables, each a byte 1, a name, a byte 2 and a value. It
is built pair by pair, and a value with a byte that would end it is refused. The
snapshot is sent by the option command that turns MSSP on, and never again before
the option goes off.
-/

/-! ## Pairs -/

/-- Split a variable at its byte 2. -/
def msspVariable (bytes : Bytes) : Option (Bytes × Bytes) :=
  match bytes.splitOn 2 with
  | [name, value] => some (name, value)
  | _ => none

/-- Split at the bytes 1, which begin a variable each. -/
def msspDecode (payload : Bytes) : Option (List (Bytes × Bytes)) :=
  match payload.splitOn 1 with
  | [] :: rest => rest.mapM msspVariable
  | _ => none

def msspPair (pair : Bytes × Bytes) : Bytes := 1 :: pair.1 ++ 2 :: pair.2

/-- None of the bytes that cannot stand in a value. -/
def MsspClean (value : Bytes) : Prop := ∀ b ∈ value, b ≠ 1 ∧ b ≠ 2 ∧ b ≠ 255

theorem msspVariable_eq {name value : Bytes} (hname : MsspClean name) (hvalue : MsspClean value) :
    msspVariable (name ++ 2 :: value) = some (name, value) := by
  have hsplit : (name ++ 2 :: value).splitOn 2 = [name, value] := by
    rw [List.splitOn_append_cons_self_of_not_mem fun h => (hname 2 h).2.1 rfl,
      List.splitOn_eq_singleton fun h => (hvalue 2 h).2.1 rfl]
  rw [msspVariable, hsplit]

theorem splitOn_append_of_not_mem {a : UInt8} {front rest : Bytes} {segments : List Bytes}
    (hfront : a ∉ front) (hrest : rest.splitOn a = [] :: segments) :
    (front ++ rest).splitOn a = front :: segments := by
  induction front with
  | nil => exact hrest
  | cons b front ih =>
    obtain ⟨hb, hfront⟩ : a ≠ b ∧ a ∉ front := by simpa using hfront
    have hne : (b == a) = false := beq_false_of_ne (Ne.symm hb)
    rw [List.cons_append, List.splitOn_cons_eq_if_modifyHead, ih hfront, hne]
    rfl

theorem splitOn_msspPairs {pairs : List (Bytes × Bytes)}
    (hclean : ∀ pair ∈ pairs, MsspClean pair.1 ∧ MsspClean pair.2) :
    (pairs.flatMap msspPair).splitOn 1 = [] :: pairs.map fun pair => pair.1 ++ 2 :: pair.2 := by
  induction pairs with
  | nil => rfl
  | cons pair pairs ih =>
    obtain ⟨⟨hname, hvalue⟩, hrest⟩ := List.forall_mem_cons.mp hclean
    have hone : (1 : UInt8) ∉ pair.1 ++ 2 :: pair.2 := by
      intro h
      rcases List.mem_append.mp h with h | h
      · exact (hname 1 h).1 rfl
      · exact (List.mem_cons.mp h).elim (by decide) fun h => (hvalue 1 h).1 rfl
    have hstart : ∀ bytes : Bytes, (1 :: bytes).splitOn 1 = [] :: bytes.splitOn 1 :=
      List.splitOn_append_cons_self_of_not_mem List.not_mem_nil
    rw [List.flatMap_cons, msspPair, List.cons_append, List.cons_append, hstart,
      splitOn_append_of_not_mem hone (ih hrest), List.map_cons]

theorem msspDecode_pairs {pairs : List (Bytes × Bytes)}
    (hclean : ∀ pair ∈ pairs, MsspClean pair.1 ∧ MsspClean pair.2) :
    msspDecode (pairs.flatMap msspPair) = some pairs := by
  rw [msspDecode, splitOn_msspPairs hclean]
  dsimp only
  induction pairs with
  | nil => rfl
  | cons pair pairs ih =>
    obtain ⟨⟨hname, hvalue⟩, hrest⟩ := List.forall_mem_cons.mp hclean
    rw [List.map_cons, List.mapM_cons, msspVariable_eq hname hvalue, ih hrest]
    rfl

/-! ## The payload -/

theorem msspValueByte_iff {b : UInt8} :
    msspValueByte b = true ↔ b ≠ 0 ∧ b ≠ 1 ∧ b ≠ 2 ∧ b ≠ 255 := by
  simp [msspValueByte, Telnet.iac, and_assoc]

theorem mem_decimal {n : Nat} {b : UInt8} (h : b ∈ decimal n) : 48 ≤ b.toNat ∧ b.toNat ≤ 57 := by
  obtain ⟨ch, hch, rfl⟩ := List.mem_map.mp h
  have hdigit : ch.isDigit = true := by
    rw [Nat.toString_eq_repr, Nat.toList_repr] at hch
    exact Nat.isDigit_of_mem_toDigits (by decide) (by decide) hch
  have hrange : 48 ≤ ch.toNat ∧ ch.toNat ≤ 57 := by
    simpa [Char.isDigit, UInt32.le_iff_toNat_le] using hdigit
  rw [UInt8.toNat_ofNat']
  omega

theorem length_decimal {n k : Nat} (hk : 0 < k) (h : n < 10 ^ k) : (decimal n).length ≤ k := by
  rw [decimal, ascii, List.length_map, String.length_toList, Nat.toString_eq_repr]
  exact (Nat.length_repr_le_iff hk).mpr h

theorem all_msspValueByte_decimal (n : Nat) : (decimal n).all msspValueByte = true := by
  refine List.all_eq_true.mpr fun b hb => msspValueByte_iff.mpr ?_
  obtain ⟨hlow, hhigh⟩ := mem_decimal hb
  refine ⟨?_, ?_, ?_, ?_⟩
  all_goals
    rintro rfl
    simp at hlow hhigh

/-- A name that `mssp_append_pair` takes. -/
def MsspName (name : Bytes) : Prop :=
  name ≠ [] ∧ name.all (fun ch => (65 ≤ ch && ch ≤ 90) || ch = 32) = true

theorem MsspName.clean {name : Bytes} (h : MsspName name) : MsspClean name := by
  intro b hb
  have hletter := List.all_eq_true.mp h.2 b hb
  refine ⟨?_, ?_, ?_⟩ <;> rintro rfl <;> exact absurd hletter (by decide)

theorem msspAppendPair_of_room {payload name value : Bytes} (hname : MsspName name)
    (hroom : payload.length + (msspPair (name, value)).length ≤ msspPayloadMaxBytes) :
    msspAppendPair payload name value =
      if value.all msspValueByte then some (payload ++ msspPair (name, value)) else none := by
  have hfits : ¬ payload.length + 2 + name.length + value.length > msspPayloadMaxBytes := by
    simp only [msspPair, List.length_cons, List.length_append] at hroom
    omega
  unfold msspAppendPair
  simp only [hname.1, hfits, decide_false, Bool.or_self, Bool.false_eq_true, if_false, hname.2,
    Bool.not_true]
  cases value.all msspValueByte <;> simp [msspPair]

def msspAppendPairs (payload : Bytes) (pairs : List (Bytes × Bytes)) : Option Bytes :=
  pairs.foldlM (fun payload pair => msspAppendPair payload pair.1 pair.2) payload

theorem msspAppendPairs_of_room {payload : Bytes} {pairs : List (Bytes × Bytes)}
    (hnames : ∀ pair ∈ pairs, MsspName pair.1)
    (hroom : payload.length + (pairs.flatMap msspPair).length ≤ msspPayloadMaxBytes) :
    msspAppendPairs payload pairs =
      if pairs.all (fun pair => pair.2.all msspValueByte) then
        some (payload ++ pairs.flatMap msspPair) else none := by
  induction pairs generalizing payload with
  | nil => simp [msspAppendPairs]
  | cons pair pairs ih =>
    obtain ⟨hname, hnames⟩ := List.forall_mem_cons.mp hnames
    rw [List.flatMap_cons, List.length_append] at hroom
    have hpair := msspAppendPair_of_room hname (show payload.length + (msspPair pair).length ≤ _ by omega)
    rw [msspAppendPairs, List.foldlM_cons, hpair, List.all_cons]
    cases pair.2.all msspValueByte with
    | false => rfl
    | true =>
      have hroom' : (payload ++ msspPair pair).length + (pairs.flatMap msspPair).length ≤
          msspPayloadMaxBytes := by
        rw [List.length_append]
        omega
      have hrest := ih hnames hroom'
      rw [List.append_assoc, ← List.flatMap_cons] at hrest
      exact hrest

/-- No pair is put beyond the end of the buffer. -/
theorem length_msspAppendPair {payload name value longer : Bytes}
    (h : msspAppendPair payload name value = some longer) : longer.length ≤ msspPayloadMaxBytes := by
  unfold msspAppendPair at h
  split_ifs at h with hroom
  obtain rfl := Option.some.inj h
  simp only [gt_iff_lt, Bool.or_eq_true, decide_eq_true_eq, not_or, Nat.not_lt] at hroom
  simp only [List.length_append, List.length_cons]
  omega

namespace TelnetMsspStatus

/-- A text, or the built-in default for an empty one. -/
def orDefault (text : Bytes) : Bytes := if text = [] then ascii "mud-terminal-core" else text

/-- The variables of every snapshot. -/
def required (status : TelnetMsspStatus) : List (Bytes × Bytes) :=
  [(ascii "NAME", orDefault status.name), (ascii "PLAYERS", decimal status.players.toNat),
    (ascii "UPTIME", decimal status.uptime.toNat), (ascii "CHARSET", ascii "UTF-8"),
    (ascii "CODEBASE", orDefault status.codebase)]

/-- The ports that are open. -/
def ports (status : TelnetMsspStatus) : List (Bytes × Bytes) :=
  (if status.telnetPort ≠ 0 then [(ascii "PORT", decimal status.telnetPort.toNat)] else []) ++
    (if status.telnetTlsPort ≠ 0 then [(ascii "SSL", decimal status.telnetTlsPort.toNat)] else [])

/-- What a client is to read. -/
def pairs (status : TelnetMsspStatus) : List (Bytes × Bytes) := status.required ++ status.ports

/-- The two texts are terminated within their arrays. -/
structure Fits (status : TelnetMsspStatus) : Prop where
  name : status.name.length ≤ 80 ∧ 0 ∉ status.name
  codebase : status.codebase.length ≤ 80 ∧ 0 ∉ status.codebase

def Clean (status : TelnetMsspStatus) : Prop := MsspClean status.name ∧ MsspClean status.codebase

theorem length_orDefault {text : Bytes} (h : text.length ≤ 80) : (orDefault text).length ≤ 80 := by
  unfold orDefault
  split
  · decide
  · exact h

theorem all_orDefault {text : Bytes} (h : 0 ∉ text) :
    (orDefault text).all msspValueByte = true ↔ MsspClean text := by
  unfold orDefault
  split
  case isTrue hempty =>
    subst hempty
    exact iff_of_true (by decide) (by simp [MsspClean])
  case isFalse =>
    simp only [List.all_eq_true, msspValueByte_iff, MsspClean]
    refine ⟨fun hall b hb => (hall b hb).2, fun hall b hb => ⟨?_, hall b hb⟩⟩
    rintro rfl
    exact h hb

/-- The sizes of the numbers. -/
theorem length_numbers (status : TelnetMsspStatus) :
    (decimal status.players.toNat).length ≤ 10 ∧ (decimal status.uptime.toNat).length ≤ 20 ∧
      (decimal status.telnetPort.toNat).length ≤ 5 ∧
      (decimal status.telnetTlsPort.toNat).length ≤ 5 := by
  have hplayers := status.players.toNat_lt
  have huptime := status.uptime.toNat_lt
  have hport := status.telnetPort.toNat_lt
  have htls := status.telnetTlsPort.toNat_lt
  refine ⟨?_, ?_, ?_, ?_⟩ <;> exact length_decimal (by decide) (by omega)

theorem msspPayload_eq (status : TelnetMsspStatus) :
    msspPayload status = match msspAppendPairs [] status.required with
      | none => .error true
      | some payload =>
          match msspAppendPairs payload status.ports with
          | none => .error false
          | some payload => .ok payload := by
  have hports : ∀ payload, msspAppendPairs payload status.ports = (do
      let payload ←
        if status.telnetPort ≠ 0 then
          msspAppendPair payload (ascii "PORT") (decimal status.telnetPort.toNat)
        else some payload
      if status.telnetTlsPort ≠ 0 then
        msspAppendPair payload (ascii "SSL") (decimal status.telnetTlsPort.toNat)
      else some payload) := by
    intro payload
    unfold msspAppendPairs ports
    split_ifs <;> simp
  have hrequired : msspAppendPairs [] status.required = (do
      let payload ← msspAppendPair [] (ascii "NAME") (orDefault status.name)
      let payload ← msspAppendPair payload (ascii "PLAYERS") (decimal status.players.toNat)
      let payload ← msspAppendPair payload (ascii "UPTIME") (decimal status.uptime.toNat)
      let payload ← msspAppendPair payload (ascii "CHARSET") (ascii "UTF-8")
      msspAppendPair payload (ascii "CODEBASE") (orDefault status.codebase)) := by
    unfold msspAppendPairs required
    simp
  unfold msspPayload
  simp only [hports, hrequired]
  rfl

theorem msspName_pairs {status : TelnetMsspStatus} {pair : Bytes × Bytes}
    (h : pair ∈ status.pairs) : MsspName pair.1 ∧ MsspClean pair.1 := by
  have hname : pair.1 ∈ [ascii "NAME", ascii "PLAYERS", ascii "UPTIME", ascii "CHARSET",
      ascii "CODEBASE", ascii "PORT", ascii "SSL"] := by
    simp only [pairs, required, ports, List.mem_append, List.mem_cons, List.not_mem_nil,
      or_false] at h
    rcases h with (rfl | rfl | rfl | rfl | rfl) | h | h
    all_goals try simp
    all_goals
      split at h
      · simp only [List.mem_cons, List.not_mem_nil, or_false] at h
        simp [h]
      · simp at h
  have hall : ∀ name ∈ [ascii "NAME", ascii "PLAYERS", ascii "UPTIME", ascii "CHARSET",
      ascii "CODEBASE", ascii "PORT", ascii "SSL"], MsspName name := by
    unfold MsspName
    decide
  exact ⟨hall _ hname, (hall _ hname).clean⟩

theorem length_pairs {status : TelnetMsspStatus} (hfits : status.Fits) :
    (status.pairs.flatMap msspPair).length ≤ msspPayloadMaxBytes := by
  obtain ⟨hplayers, huptime, hport, htls⟩ := length_numbers status
  have hname := length_orDefault hfits.name.1
  have hcodebase := length_orDefault hfits.codebase.1
  have hports : (status.ports.flatMap msspPair).length ≤ 21 := by
    unfold ports
    split_ifs <;> simp [msspPair, ascii] <;> omega
  have hrequired : (status.required.flatMap msspPair).length ≤ 237 := by
    have hnames : (ascii "NAME").length = 4 ∧ (ascii "PLAYERS").length = 7 ∧
        (ascii "UPTIME").length = 6 ∧ (ascii "CHARSET").length = 7 ∧
        (ascii "CODEBASE").length = 8 ∧ (ascii "UTF-8").length = 5 := by decide
    simp only [required, List.flatMap_cons, List.flatMap_nil, msspPair, List.length_append,
      List.length_cons, List.length_nil, hnames]
    omega
  rw [pairs, List.flatMap_append, List.length_append]
  have hmax : msspPayloadMaxBytes = 2048 := rfl
  omega

theorem clean_iff {status : TelnetMsspStatus} (hfits : status.Fits) :
    status.required.all (fun pair => pair.2.all msspValueByte) = true ↔ status.Clean := by
  simp only [required, List.all_cons, List.all_nil, all_msspValueByte_decimal, Bool.and_true,
    Bool.true_and, Bool.and_eq_true, all_orDefault hfits.name.2, all_orDefault hfits.codebase.2]
  exact ⟨fun h => ⟨h.1, h.2.2⟩, fun h => ⟨h.1, by decide, h.2⟩⟩

theorem all_ports (status : TelnetMsspStatus) :
    status.ports.all (fun pair => pair.2.all msspValueByte) = true := by
  unfold ports
  split_ifs <;> simp [all_msspValueByte_decimal]

/-- Two texts that can be encoded give the pairs, and the client reads them back. -/
theorem msspPayload_of_clean {status : TelnetMsspStatus} (hfits : status.Fits)
    (hclean : status.Clean) :
    msspPayload status = .ok (status.pairs.flatMap msspPair) ∧
      msspDecode (status.pairs.flatMap msspPair) = some status.pairs := by
  have hroom := length_pairs hfits
  have hrequired := (clean_iff hfits).mpr hclean
  have hall : ∀ pair ∈ status.pairs, pair.2.all msspValueByte = true := by
    intro pair hpair
    rcases List.mem_append.mp hpair with h | h
    · exact List.all_eq_true.mp hrequired pair h
    · exact List.all_eq_true.mp status.all_ports pair h
  refine ⟨?_, msspDecode_pairs fun pair hpair => ⟨(msspName_pairs hpair).2, fun b hb => ?_⟩⟩
  · rw [pairs, List.flatMap_append, List.length_append] at hroom
    rw [msspPayload_eq, msspAppendPairs_of_room
        (fun pair h => (msspName_pairs (List.mem_append_left _ h)).1)
        (by rw [List.length_nil]; omega), if_pos hrequired]
    dsimp only
    rw [msspAppendPairs_of_room (fun pair h => (msspName_pairs (List.mem_append_right _ h)).1)
        (by rw [List.nil_append]; exact hroom), if_pos status.all_ports, pairs,
      List.flatMap_append, List.nil_append]
  · exact (msspValueByte_iff.mp (List.all_eq_true.mp (hall pair hpair) b hb)).2

theorem msspPayload_of_not_clean {status : TelnetMsspStatus} (hfits : status.Fits)
    (hclean : ¬ status.Clean) : msspPayload status = .error true := by
  have hroom := length_pairs hfits
  rw [pairs, List.flatMap_append, List.length_append] at hroom
  rw [msspPayload_eq, msspAppendPairs_of_room
    (fun pair h => (msspName_pairs (List.mem_append_left _ h)).1)
    (by rw [List.length_nil]; omega), if_neg (mt (clean_iff hfits).mp hclean)]

end TelnetMsspStatus

/-! ## When the snapshot has been sent -/

namespace Link

variable {α : Type}

theorem msspSent_updateOptionMetadata (hooks : Application α) (l : Link α) :
    (l.updateOptionMetadata hooks).caps.msspSent = l.caps.msspSent := by
  unfold updateOptionMetadata requestNewEnviron requestCharset requestTerminalType
  rw [caps_notifyApplicationCapabilities]
  dsimp only
  split_ifs <;> rfl

theorem options_finishSubnegotiation (hooks : Application α) (l : Link α) (option : UInt8)
    (payload : Bytes) :
    (l.finishSubnegotiation hooks option payload).caps.options = l.caps.options := by
  obtain ⟨_, hspends, -⟩ := probing_finishSubnegotiation hooks l option payload
  rw [hspends.options]
  split
  · unfold Capability.answered
    split <;> rfl
  · rfl

/-- No payload puts the snapshot on record while MSSP is off. -/
theorem msspSent_finishSubnegotiation (hooks : Application α) {l : Link α} (option : UInt8)
    (payload : Bytes) (hoff : l.caps.allows .mssp = false) :
    (l.finishSubnegotiation hooks option payload).caps.msspSent = l.caps.msspSent := by
  obtain ⟨_, hspends, -⟩ := probing_finishSubnegotiation hooks l option payload
  have hanswered : l.caps.answered.msspSent = l.caps.msspSent ∧
      l.caps.answered.allows .mssp = l.caps.allows .mssp := by
    unfold Capability.answered
    split <;> exact ⟨rfl, rfl⟩
  have hrecorded := hspends.recorded
  dsimp only at hrecorded
  split at hrecorded
  · exact (hrecorded (hanswered.2.trans hoff)).trans hanswered.1
  · exact hrecorded hoff

/-! ## The option command that turns MSSP on -/

/-- The link when `receive_telnet_option` comes to the snapshot. -/
def refreshed (hooks : Application α) (l : Link α) (command option : UInt8) : Link α :=
  { l.sendOptionCommands (telnetQReceive l.caps.options command option (qAccept hooks l.caps)) with
    caps := heard hooks l.caps command option }.updateOptionMetadata hooks

theorem receiveTelnetOption_eq (hooks : Application α) (l : Link α) (command option : UInt8) :
    l.receiveTelnetOption hooks command option =
      if !l.caps.enabled .local_ Telnet.Opt.mssp &&
          (l.refreshed hooks command option).caps.terminal.mssp then
        (l.refreshed hooks command option).sendMsspStatus hooks
      else l.refreshed hooks command option := by
  unfold receiveTelnetOption refreshed heard sendOptionCommands
  rfl

theorem known_refreshed (hooks : Application α) (l : Link α) (command option : UInt8) :
    (l.refreshed hooks command option).caps.known =
      (copyOptionMetadata (heard hooks l.caps command option)).refreshUtf8Metadata.known :=
  known_updateOptionMetadata hooks _

theorem options_heard (hooks : Application α) (c : Capability) (command option : UInt8) :
    (heard hooks c command option).options =
      (telnetQReceive c.options command option (qAccept hooks c)).1 := by
  rw [heard, resetDisabled_eq]

/-- While MSSP was off nothing takes the mark back. -/
theorem msspSent_refreshed (hooks : Application α) (l : Link α) (command option : UInt8) :
    (l.refreshed hooks command option).caps.msspSent =
      if wentOff l.caps { l.caps with options := (telnetQReceive l.caps.options command option
        (qAccept hooks l.caps)).1 } .local_ Telnet.Opt.mssp then false else l.caps.msspSent := by
  rw [refreshed, msspSent_updateOptionMetadata, heard, resetDisabled_eq]

theorem enabled_refreshed (hooks : Application α) (l : Link α) (command option : UInt8)
    (direction : TelnetQDirection) (o : UInt8) :
    (l.refreshed hooks command option).caps.enabled direction o =
      telnetQEnabled (telnetQReceive l.caps.options command option (qAccept hooks l.caps)).1
        direction o := by
  have hcopied : ∀ c, (copyOptionMetadata c).refreshUtf8Metadata.options = c.options := fun _ => rfl
  rw [Capability.enabled, Capability.options_of_known (known_refreshed hooks l command option),
    hcopied, options_heard]

theorem mssp_refreshed (hooks : Application α) (l : Link α) (command option : UInt8) :
    (l.refreshed hooks command option).caps.terminal.mssp =
      (l.refreshed hooks command option).caps.enabled .local_ Telnet.Opt.mssp := by
  have hcopied : ∀ c, (copyOptionMetadata c).refreshUtf8Metadata.terminal.mssp =
      (copyOptionMetadata c).refreshUtf8Metadata.enabled .local_ Telnet.Opt.mssp := fun _ => rfl
  have hknown := known_refreshed hooks l command option
  rw [Capability.enabled_of_known hknown, Capability.terminal_of_known hknown, hcopied]

theorem enabled_receiveTelnetOption (hooks : Application α) (l : Link α) (command option : UInt8)
    (direction : TelnetQDirection) (o : UInt8) :
    (l.receiveTelnetOption hooks command option).caps.enabled direction o =
      (l.refreshed hooks command option).caps.enabled direction o := by
  rw [Capability.enabled_of_known ((known_receiveTelnetOption hooks l command option).trans
    (known_refreshed hooks l command option).symm)]

/-- The snapshot is on record only while MSSP is on. -/
def MsspRecorded (c : Capability) : Prop :=
  c.msspSent = true → c.enabled .local_ Telnet.Opt.mssp = true

theorem msspSent_refreshed_of_off {hooks : Application α} {l : Link α} {command option : UInt8}
    (h : MsspRecorded l.caps)
    (hoff : l.caps.enabled .local_ Telnet.Opt.mssp = false ∨
      (l.refreshed hooks command option).caps.enabled .local_ Telnet.Opt.mssp = false) :
    (l.refreshed hooks command option).caps.msspSent = false := by
  have hbefore : l.caps.enabled .local_ Telnet.Opt.mssp = false → l.caps.msspSent = false := by
    intro hoff
    by_contra hsent
    rw [h (Bool.eq_true_of_not_eq_false hsent)] at hoff
    cases hoff
  rw [msspSent_refreshed]
  rw [enabled_refreshed] at hoff
  unfold wentOff
  cases hwas : l.caps.enabled .local_ Telnet.Opt.mssp with
  | false => simp [hbefore hwas]
  | true =>
    have hnow := hoff.resolve_left (by simp [hwas])
    have hnow' : Capability.enabled { l.caps with
        options := (telnetQReceive l.caps.options command option (qAccept hooks l.caps)).1 }
          .local_ Telnet.Opt.mssp = false := hnow
    simp [hnow']

theorem msspRecorded_receiveTelnetOption (hooks : Application α) {l : Link α}
    (h : MsspRecorded l.caps) (command option : UInt8) :
    MsspRecorded (l.receiveTelnetOption hooks command option).caps := by
  intro hsent
  by_contra hoff
  rw [Bool.not_eq_true, enabled_receiveTelnetOption] at hoff
  have hnone := msspSent_refreshed_of_off h (.inr hoff)
  rw [receiveTelnetOption_eq, mssp_refreshed, hoff, Bool.and_false, if_neg (by simp), hnone] at hsent
  cases hsent

end Link

namespace Conn

variable {β α : Type}

theorem msspRecorded_of_reachable {host : Host β α} {c : Conn β α}
    (hc : (system host).Reachable c) : Link.MsspRecorded c.link.caps := by
  refine hc.invariant (I := fun c => Link.MsspRecorded c.link.caps) ?_ ?_
  · rintro c ⟨backend, app, rfl⟩ hsent
    cases hsent
  · rintro action c c' - h rfl
    have hturn := turn_act host c action
    generalize (c.act host action).link = link at hturn ⊢
    cases hturn with
    | aside _ _ haside =>
      intro hsent
      have hsame : link.caps.msspSent = c.link.caps.msspSent :=
        congrArg Findings.msspSent haside.findings
      rw [haside.enabled _ _ (by decide)]
      exact h (hsame ▸ hsent)
    | option => exact Link.msspRecorded_receiveTelnetOption host.application h _ _
    | subnegotiation =>
      intro hsent
      by_contra hoff
      rw [Bool.not_eq_true, Capability.enabled, Link.options_finishSubnegotiation] at hoff
      rw [Link.msspSent_finishSubnegotiation _ _ _ hoff] at hsent
      exact Bool.noConfusion (hoff.symm.trans (h hsent))

end Conn

/-! ## What a client reads -/

/-- The payload of an MSSP subnegotiation. -/
def TelnetGrammar.Token.mssp? : TelnetGrammar.Token → Option Bytes
  | .subnegotiation o payload => if o = Telnet.Opt.mssp then some payload else none
  | _ => none

namespace Wire

variable {α : Type}

/-- The MSSP payloads among the tokens written in between. -/
abbrev Snapshots (payloads : List Bytes) : Wire α → Wire α → Prop :=
  Reads TelnetGrammar.Token.mssp? payloads

theorem Snapshots.ofAsks {asked : List Probe} {w w' : Wire α} (h : Asks asked w w')
    (hnone : .mssp ∉ asked) : Snapshots [] w w' := by
  obtain ⟨tokens, hwell, hwritten, rfl⟩ := h
  refine ⟨tokens, hwell, hwritten, List.filterMap_eq_nil_iff.mpr fun token htoken => ?_⟩
  by_contra hmssp
  refine hnone (List.mem_filterMap.mpr ⟨token, htoken, ?_⟩)
  cases token with
  | subnegotiation option payload =>
    have hoption : option = Telnet.Opt.mssp := by
      by_contra hne
      simp [TelnetGrammar.Token.mssp?, hne] at hmssp
    subst hoption
    rfl
  | data | command | option => exact absurd rfl hmssp

end Wire

namespace Link

variable {α : Type}

/-- What is sent before the snapshot is none. -/
theorem snapshots_refreshed (hooks : Application α) (l : Link α) (command option : UInt8) :
    l.wire.Snapshots [] (l.refreshed hooks command option).wire := by
  have hanswer := asks_telnetQReceive l command option (qAccept hooks l.caps)
  unfold refreshed updateOptionMetadata
  dsimp only
  generalize (l.sendOptionCommands (telnetQReceive l.caps.options command option
    (qAccept hooks l.caps))).wire = wire at hanswer ⊢
  generalize (copyOptionMetadata (heard hooks l.caps command option)).refreshUtf8Metadata = caps
  have htype := (spends_requestTerminalType ⟨caps, wire⟩).wire
  obtain ⟨_, hcharset, hcharsetAsked⟩ := spends_requestCharset (requestTerminalType ⟨caps, wire⟩)
  obtain ⟨_, henviron, henvironAsked⟩ :=
    spends_requestNewEnviron (requestTerminalType ⟨caps, wire⟩).requestCharset
  have hnotified : Wire.Asks []
      (requestTerminalType ⟨caps, wire⟩).requestCharset.requestNewEnviron.wire
      ((requestTerminalType ⟨caps, wire⟩).requestCharset.requestNewEnviron.notifyApplicationCapabilities
        hooks).wire := by
    unfold notifyApplicationCapabilities
    split
    · exact .ofPlain (.callHook _ _ _ _)
    · exact .refl _
  refine .ofAsks ((((hanswer.trans htype).trans hcharset.wire).trans henviron.wire).trans hnotified) ?_
  rcases hcharsetAsked with rfl | ⟨rfl, -⟩ <;> rcases henvironAsked with rfl | rfl <;> split <;> simp

theorem closeRequested_sendMsspStatus (hooks : Application α) (l : Link α) :
    (l.sendMsspStatus hooks).wire.closeRequested = l.wire.closeRequested := by
  unfold sendMsspStatus
  split
  · rfl
  · split
    · rfl
    · dsimp only
      split <;> simp [Link.audit, sendSubnegotiation, Wire.emit]

theorem sendMsspStatus_of_ok {hooks : Application α} {l : Link α}
    {query : α → TelnetMsspStatus × α} (hquery : hooks.msspQuery = some query)
    (hsent : l.caps.msspSent = false) (hon : l.caps.enabled .local_ Telnet.Opt.mssp = true)
    {payload : Bytes} (h : msspPayload (query l.wire.app).1 = .ok payload) :
    l.sendMsspStatus hooks = { l with
      caps.msspSent := true
      wire := ({ l.wire with app := (query l.wire.app).2 }.emit .msspQuery).sendSubnegotiation
        Telnet.Opt.mssp payload } := by
  simp only [sendMsspStatus, hquery, hsent, hon, Bool.not_true, Bool.or_self, Bool.false_eq_true,
    if_false, h]
  rfl

theorem sendMsspStatus_of_error {hooks : Application α} {l : Link α}
    {query : α → TelnetMsspStatus × α} (hquery : hooks.msspQuery = some query)
    (hsent : l.caps.msspSent = false) (hon : l.caps.enabled .local_ Telnet.Opt.mssp = true)
    (h : msspPayload (query l.wire.app).1 = .error true) :
    l.sendMsspStatus hooks = { l with
      wire := { l.wire with app := (query l.wire.app).2 }.emit .msspQuery }.audit
        "mssp_status_error" "unable to encode MSSP snapshot" := by
  simp only [sendMsspStatus, hquery, hsent, hon, Bool.not_true, Bool.or_self, Bool.false_eq_true,
    if_false, h]

end Link

namespace Conn

variable {β α : Type} {host : Host β α} {c : Conn β α}

/-- Only an option command turns MSSP on. -/
theorem receives_of_mssp {action : Action}
    (hoff : c.link.caps.enabled .local_ Telnet.Opt.mssp = false)
    (hon : (c.act host action).link.caps.enabled .local_ Telnet.Opt.mssp = true) :
    ∃ byte nowMs, action = .byte byte nowMs ∧ (c.act host action).link =
      c.link.receiveTelnetOption host.application c.parsing.pendingTelnetCommand byte := by
  have hturn := turn_act host c action
  generalize (c.act host action).link = link at hturn hon ⊢
  cases hturn with
  | aside _ _ haside =>
    rw [haside.enabled _ _ (by decide), hoff] at hon
    cases hon
  | option hhears =>
    cases action with
    | byte byte nowMs =>
      simp only [hears] at hhears
      split at hhears
      · obtain rfl := Option.some.inj hhears
        exact ⟨_, _, rfl, rfl⟩
      · cases hhears
    | start | poll | byteFlood => cases hhears
  | subnegotiation =>
    rw [Capability.enabled, Link.options_finishSubnegotiation] at hon
    rw [Capability.enabled, hon] at hoff
    cases hoff

/-- When MSSP goes on and the snapshot's texts are terminated, one snapshot that decodes to
the status is sent, unless a text cannot be encoded, and then `mssp_sent` stays 0, or the
application has asked for a close when it was told of the option, and then it is 1 with
nothing sent. -/
theorem mssp_snapshot (hc : (system host).Reachable c) {query : α → TelnetMsspStatus × α}
    (hquery : host.application.msspQuery = some query) {action : Action}
    (hoff : c.link.caps.enabled .local_ Telnet.Opt.mssp = false)
    (hon : (c.act host action).link.caps.enabled .local_ Telnet.Opt.mssp = true) :
    (∃ byte nowMs, action = .byte byte nowMs ∧
      let due := c.link.refreshed host.application c.parsing.pendingTelnetCommand byte
      let status := (query due.wire.app).1
      due.wire.closeRequested = (c.act host action).closed ∧
      (status.Fits →
        (status.Clean ∧ (c.act host action).link.caps.msspSent = true ∧
          ((c.act host action).closed = false ∧
              (∃ payload, payload.length ≤ 2048 ∧ msspDecode payload = some status.pairs ∧
                c.link.wire.Snapshots [payload] (c.act host action).link.wire) ∨
            (c.act host action).closed = true ∧
              c.link.wire.Snapshots [] (c.act host action).link.wire)) ∨
        (¬ status.Clean ∧ (c.act host action).link.caps.msspSent = false ∧
          c.link.wire.Snapshots [] (c.act host action).link.wire))) ∧
    ∀ payload name value longer, msspAppendPair payload name value = some longer →
      longer.length ≤ 2048 := by
  refine ⟨?_, fun _ _ _ _ => length_msspAppendPair⟩
  obtain ⟨byte, nowMs, rfl, hlink⟩ := receives_of_mssp hoff hon
  refine ⟨byte, nowMs, rfl, ?_⟩
  unfold Conn.closed
  rw [hlink] at hon ⊢
  rw [Link.enabled_receiveTelnetOption] at hon
  have hbefore := Link.snapshots_refreshed host.application c.link c.parsing.pendingTelnetCommand byte
  have hsent : (c.link.refreshed host.application c.parsing.pendingTelnetCommand
      byte).caps.msspSent = false :=
    Link.msspSent_refreshed_of_off (msspRecorded_of_reachable hc) (.inl hoff)
  rw [Link.receiveTelnetOption_eq, Link.mssp_refreshed, hoff, hon, if_pos (by rfl)]
  generalize c.link.refreshed host.application c.parsing.pendingTelnetCommand byte = due at *
  intro _ status
  refine ⟨(Link.closeRequested_sendMsspStatus host.application due).symm, fun hfits => ?_⟩
  rw [Link.closeRequested_sendMsspStatus]
  have hqueried : due.wire.Snapshots []
      ({ due.wire with app := (query due.wire.app).2 }.emit .msspQuery) :=
    .emit due.wire _ .msspQuery rfl
  by_cases hclean : status.Clean
  · obtain ⟨hpayload, hdecode⟩ := TelnetMsspStatus.msspPayload_of_clean hfits hclean
    rw [Link.sendMsspStatus_of_ok hquery hsent hon hpayload]
    have hsnapshot := (hbefore.trans hqueried).trans
      (.sendSubnegotiation _ Telnet.Opt.mssp (status.pairs.flatMap msspPair))
    refine .inl ⟨hclean, rfl, ?_⟩
    cases hclosed : due.wire.closeRequested with
    | false =>
      refine .inl ⟨rfl, _, TelnetMsspStatus.length_pairs hfits, hdecode, ?_⟩
      rwa [if_neg (by simp [Wire.emit, hclosed])] at hsnapshot
    | true =>
      refine .inr ⟨rfl, ?_⟩
      rwa [if_pos (by simp [Wire.emit, hclosed])] at hsnapshot
  · have hpayload := TelnetMsspStatus.msspPayload_of_not_clean hfits hclean
    rw [Link.sendMsspStatus_of_error hquery hsent hon hpayload]
    exact .inr ⟨hclean, hsent, (hbefore.trans hqueried).trans (.emit _ _ (.audit _ _) rfl)⟩

/-- A server without a name of its own and with its plain port open. -/
def publicStatus : TelnetMsspStatus := ⟨[], 3, 86400, 4000, 0, ascii "core 1.2"⟩

def publicHost : Host Unit Unit :=
  { Host.granting with
    application := { Application.absent Unit with msspQuery := some fun app => (publicStatus, app) } }

/-- A client that is about to name the option it agrees to. -/
def agreeing : Conn Unit Unit :=
  (initial publicHost () ()).feedBytes publicHost 1 [Telnet.iac, Telnet.do_]

theorem publicStatus_fits : publicStatus.Fits ∧ publicStatus.Clean :=
  ⟨⟨by decide, by decide⟩, by simp [TelnetMsspStatus.Clean, MsspClean, publicStatus, ascii]⟩

theorem mssp_snapshot_public :
    ∃ payload, msspDecode payload = some [(ascii "NAME", ascii "mud-terminal-core"),
        (ascii "PLAYERS", ascii "3"), (ascii "UPTIME", ascii "86400"), (ascii "CHARSET", ascii "UTF-8"),
        (ascii "CODEBASE", ascii "core 1.2"), (ascii "PORT", ascii "4000")] ∧
      agreeing.link.wire.Snapshots [payload]
        (agreeing.act publicHost (.byte Telnet.Opt.mssp 2)).link.wire := by
  have hreach : (system publicHost).Reachable agreeing :=
    reachable_feedBytes (.init ⟨(), (), rfl⟩) 1 _
  have hoff : agreeing.link.caps.enabled .local_ Telnet.Opt.mssp = false := by decide +kernel
  have hon : (agreeing.act publicHost (.byte Telnet.Opt.mssp 2)).link.caps.enabled .local_
      Telnet.Opt.mssp = true := by decide +kernel
  have hopen : (agreeing.act publicHost (.byte Telnet.Opt.mssp 2)).closed = false := by
    decide +kernel
  have hpairs : publicStatus.pairs = [(ascii "NAME", ascii "mud-terminal-core"),
        (ascii "PLAYERS", ascii "3"), (ascii "UPTIME", ascii "86400"), (ascii "CHARSET", ascii "UTF-8"),
        (ascii "CODEBASE", ascii "core 1.2"), (ascii "PORT", ascii "4000")] := by decide +kernel
  obtain ⟨byte, nowMs, -, -, hstatus⟩ := (mssp_snapshot hreach rfl hoff hon).1
  rcases hstatus publicStatus_fits.1 with ⟨-, -, ⟨-, payload, -, hdecode, hsent⟩ | ⟨hclosed, -⟩⟩ | hdirty
  · exact ⟨payload, hpairs ▸ hdecode, hsent⟩
  · exact Bool.noConfusion (hopen.symm.trans hclosed)
  · exact absurd publicStatus_fits.2 hdirty.1

/-- An application that ends the session when it is told of the terminal. -/
def leavingHost : Host Unit Unit :=
  { Host.playing with
    application := { Application.idle with
      capabilitiesChanged := some fun _ _ _ => .call (.requestClose none) fun _ => .ret ((), ())
      msspQuery := some fun app => (publicStatus, app) } }

/-- A player who is about to agree to MSSP. -/
def leaving : Conn Unit Unit :=
  ((initial leavingHost () ()).act leavingHost .start).feedBytes leavingHost 1
    (ascii "zoe\nsecret\n" ++ [Telnet.iac, Telnet.do_])

/-- The session is open, its status can be encoded and MSSP goes on: nothing is sent, and
`mssp_sent` is 1. -/
theorem mssp_unsent_when_leaving :
    let after := leaving.act leavingHost (.byte Telnet.Opt.mssp 2)
    (system leavingHost).Reachable leaving ∧ leaving.closed = false ∧
      leaving.link.caps.enabled .local_ Telnet.Opt.mssp = false ∧
      after.link.caps.enabled .local_ Telnet.Opt.mssp = true ∧
      (publicStatus.Fits ∧ publicStatus.Clean) ∧ after.link.caps.msspSent = true ∧
      after.link.wire.trace = leaving.link.wire.trace ++
        [.application (.capabilitiesChanged 7 (copyTerminalCapabilities after.terminal)),
          .audit (ascii "application_close") Event.closing, .msspQuery] := by
  refine ⟨reachable_feedBytes (reachable_act (.init ⟨(), (), rfl⟩) .start) 1 _, ?_, ?_, ?_,
    publicStatus_fits, ?_, ?_⟩
  · decide +kernel
  · decide +kernel
  · decide +kernel
  · decide +kernel
  · decide +kernel

end Conn

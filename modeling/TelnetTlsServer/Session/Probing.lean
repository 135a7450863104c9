-- SUMMARY: How often a session probes its peer between two moments at which an option goes on.
import TelnetTlsServer.Session.Coherence

/-!
# Bounded probing

Probes are sent from the refresh that follows every option command and every
environment report, and after a terminal type. What keeps them bounded are flags
and a counter that are reset when an option goes off. A `Budget` is what these
leave to be sent: the probes of an option until it goes on again, and the one
terminal type that may be awaited. A handler that sends a probe pays for it from
the budget, so that over a run in which the budget is not renewed no more is sent
than it had.
-/

inductive Budget where
  /-- The probes of an option while it stays on. -/
  | epoch (probe : Probe)
  /-- The terminal type that is awaited. -/
  | reply
deriving DecidableEq, Repr

def Probe.limit : Probe → Nat
  | terminalType => terminalTypeRequestLimit
  | charset | newEnviron | mssp => 1

namespace Capability

/-- The option side of a probe is on. -/
def allows (c : Capability) (p : Probe) : Bool := c.enabled p.direction p.option

end Capability

namespace Budget

def probe : Budget → Probe
  | epoch p => p
  | reply => .terminalType

def limit : Budget → Nat
  | epoch p => p.limit
  | reply => 1

/-- What the counters leave while the option is on. -/
def remaining (c : Capability) : Budget → Nat
  | epoch .terminalType => terminalTypeRequestLimit - c.terminalTypeRequestsSent
  | epoch .charset => (!c.charsetRequestSent).toNat
  | epoch .newEnviron => (!c.newEnvironRequested).toNat
  | epoch .mssp => (!c.msspSent).toNat
  | reply => (!c.terminalTypeWaiting).toNat

def left (b : Budget) (c : Capability) : Nat := if c.allows b.probe then b.remaining c else 0

theorem left_le_limit (b : Budget) (c : Capability) : b.left c ≤ b.limit := by
  unfold left
  split
  · cases b with
    | epoch p =>
      cases p with
      | terminalType => exact Nat.sub_le _ _
      | charset | newEnviron | mssp => exact Bool.toNat_le _
    | reply => exact Bool.toNat_le _
  · exact Nat.zero_le _

end Budget

/-- The counters behind the budgets. -/
structure Counters where
  terminalTypeRequestsSent : Nat
  terminalTypeWaiting : Bool
  charsetRequestSent : Bool
  newEnvironRequested : Bool
  msspSent : Bool

namespace Capability

def counters (c : Capability) : Counters :=
  ⟨c.terminalTypeRequestsSent, c.terminalTypeWaiting, c.charsetRequestSent, c.newEnvironRequested,
    c.msspSent⟩

/-- Budgets depend on the counters and the option sides of the probes only. -/
theorem left_congr {c c' : Capability} (hcounters : c'.counters = c.counters)
    (hallows : ∀ p, c'.allows p = c.allows p) (b : Budget) : b.left c' = b.left c := by
  have hremaining : b.remaining c' = b.remaining c := by
    simp only [counters, Counters.mk.injEq] at hcounters
    obtain ⟨hsent, hwaiting, hcharset, henviron, hmssp⟩ := hcounters
    cases b with
    | epoch p => cases p <;> simp only [Budget.remaining, hsent, hcharset, henviron, hmssp]
    | reply => simp only [Budget.remaining, hwaiting]
  simp only [Budget.left, hallows, hremaining]

/-- How far the discovery of the terminal type is. -/
def pace (c : Capability) : Nat × Bool := (c.terminalTypeRequestsSent, c.terminalTypeWaiting)

theorem pace_of_counters {c c' : Capability} (h : c'.counters = c.counters) : c'.pace = c.pace :=
  congrArg (fun k : Counters => (k.terminalTypeRequestsSent, k.terminalTypeWaiting)) h

theorem allows_of_options {c c' : Capability} (h : c'.options = c.options) (p : Probe) :
    c'.allows p = c.allows p := by
  simp only [allows, enabled, h]

/-- The conditions under which `request_terminal_type` sends. -/
def wantsType (c : Capability) : Bool :=
  !(c.terminalTypeWaiting || c.terminalTypeRequestsSent ≥ terminalTypeRequestLimit ||
    !c.enabled .remote Telnet.Opt.terminalType)

end Capability

namespace Link

variable {α : Type}

/-- The probes between two states, paid for from every budget. While MSSP is off nothing is
put on record for it. -/
structure Spends (asked : List Probe) (l l' : Link α) : Prop where
  wire : l.wire.Asks asked l'.wire
  options : l'.caps.options = l.caps.options
  paid : ∀ b : Budget, asked.count b.probe + b.left l'.caps ≤ b.left l.caps
  recorded : l.caps.allows .mssp = false → l'.caps.msspSent = l.caps.msspSent

namespace Spends

variable {asked asked' : List Probe} {l m l' : Link α}

theorem trans (h : Spends asked l m) (h' : Spends asked' m l') : Spends (asked ++ asked') l l' where
  wire := h.wire.trans h'.wire
  options := h'.options.trans h.options
  paid b := by
    have hpaid := h.paid b
    have hpaid' := h'.paid b
    rw [List.count_append]
    omega
  recorded hoff :=
    (h'.recorded ((Capability.allows_of_options h.options _).trans hoff)).trans (h.recorded hoff)

/-- Nothing is asked and no counter changes. -/
theorem ofStill (hwire : l.wire.Asks [] l'.wire) (hoptions : l'.caps.options = l.caps.options)
    (hcounters : l'.caps.counters = l.caps.counters) : Spends [] l l' where
  wire := hwire
  options := hoptions
  paid b := by
    rw [Capability.left_congr hcounters (Capability.allows_of_options hoptions) b]
    simp
  recorded _ := congrArg Counters.msspSent hcounters

theorem refl (l : Link α) : Spends [] l l := ofStill (.refl _) rfl rfl

theorem ofCaps (l : Link α) {caps : Capability} (hoptions : caps.options = l.caps.options)
    (hcounters : caps.counters = l.caps.counters) : Spends [] l { l with caps := caps } :=
  ofStill (.refl _) hoptions hcounters

theorem ofWire (l : Link α) {wire : Wire α} (h : l.wire.Asks [] wire) :
    Spends [] l { l with wire := wire } :=
  ofStill h rfl rfl

/-- A probe is sent only while its option is on. -/
theorem allows (h : Spends asked l l') {p : Probe} (hp : p ∈ asked) : l'.caps.allows p = true := by
  have hcount : 0 < asked.count p := List.count_pos_iff.mpr hp
  have hpaid : asked.count p + (Budget.epoch p).left l'.caps ≤ (Budget.epoch p).left l.caps :=
    h.paid (.epoch p)
  rw [Capability.allows_of_options h.options]
  by_contra hoff
  have hzero : (Budget.epoch p).left l.caps = 0 := if_neg hoff
  omega

/-- One probe is written if the session is open, and paid for in any case. -/
theorem ask (l : Link α) (p : Probe) (payload : Bytes) (caps : Capability)
    (hprobe : Probe.ofToken? (.subnegotiation p.option payload) = some p)
    (hoptions : caps.options = l.caps.options)
    (hpaid : ∀ b : Budget, [p].count b.probe + b.left caps ≤ b.left l.caps)
    (hrecorded : l.caps.allows .mssp = false → caps.msspSent = l.caps.msspSent) :
    Spends (if l.wire.closeRequested then [] else [p]) l
      ({ l with caps := caps }.sendSubnegotiation p.option payload) where
  wire := by
    have hasks : l.wire.Asks _ (l.wire.sendSubnegotiation p.option payload) :=
      .sendSubnegotiation l.wire p.option payload
    rw [hprobe] at hasks
    exact hasks
  options := hoptions
  paid b := by
    have hb := hpaid b
    have hcaps : ({ l with caps := caps }.sendSubnegotiation p.option payload).caps = caps := rfl
    rw [hcaps]
    split
    · rw [List.count_nil]
      omega
    · exact hb
  recorded := hrecorded

end Spends

/-! ## Requests -/

/-- Paying for a probe: its own budgets go down by one, the others stay. -/
theorem paid_of {p : Probe} {c c' : Capability} (hoptions : c'.options = c.options)
    (hown : ∀ b : Budget, b.probe = p → 1 + b.remaining c' ≤ b.remaining c)
    (hother : ∀ b : Budget, b.probe ≠ p → b.remaining c' = b.remaining c)
    (hallows : c.allows p = true) (b : Budget) :
    [p].count b.probe + b.left c' ≤ b.left c := by
  unfold Budget.left
  rw [Capability.allows_of_options hoptions]
  by_cases hb : b.probe = p
  · rw [hb, List.count_singleton_self, if_pos hallows, if_pos hallows]
    exact hown b hb
  · rw [List.count_singleton, if_neg (by simpa using Ne.symm hb), hother b hb]
    omega

/-- The probes other than that for a terminal type have one budget each. -/
theorem paid_once {p : Probe} {c c' : Capability} (htype : p ≠ .terminalType)
    (hoptions : c'.options = c.options)
    (hown : 1 + (Budget.epoch p).remaining c' ≤ (Budget.epoch p).remaining c)
    (hother : ∀ p', p' ≠ p → (Budget.epoch p').remaining c' = (Budget.epoch p').remaining c)
    (hreply : c'.terminalTypeWaiting = c.terminalTypeWaiting) (hallows : c.allows p = true)
    (b : Budget) : [p].count b.probe + b.left c' ≤ b.left c := by
  refine paid_of hoptions (fun b hb => ?_) (fun b hb => ?_) hallows b
  · cases b with
    | epoch p' =>
      obtain rfl : p' = p := hb
      exact hown
    | reply => exact absurd hb.symm htype
  · cases b with
    | epoch p' => exact hother p' hb
    | reply => simp only [Budget.remaining, hreply]

/-- A request that is sent on a condition. -/
theorem spends_request (l : Link α) (p : Probe) (payload : Bytes) (caps : Capability) {wants : Bool}
    (hprobe : Probe.ofToken? (.subnegotiation p.option payload) = some p)
    (hoptions : caps.options = l.caps.options) (hsent : caps.msspSent = l.caps.msspSent)
    (hpaid : wants = true → ∀ b : Budget, [p].count b.probe + b.left caps ≤ b.left l.caps) :
    Spends (if wants && !l.wire.closeRequested then [p] else []) l
      (if wants then { l with caps := caps }.sendSubnegotiation p.option payload else l) := by
  cases wants with
  | false => exact .refl l
  | true =>
    have hasked := Spends.ask l p payload caps hprobe hoptions (hpaid rfl) fun _ => hsent
    cases hclosed : l.wire.closeRequested with
    | false | true =>
      rw [hclosed] at hasked
      exact hasked

/-- The source tests when not to send. -/
theorem ite_eq_ite_not {γ : Type} (unwanted : Bool) (x y : γ) :
    (if unwanted then x else y) = if !unwanted then y else x := by
  cases unwanted <;> rfl

theorem spends_requestTerminalType (l : Link α) :
    Spends (if l.caps.wantsType && !l.wire.closeRequested then [.terminalType] else []) l
      l.requestTerminalType := by
  have heq : l.requestTerminalType = if l.caps.wantsType then _ else l := ite_eq_ite_not _ _ _
  rw [heq]
  refine spends_request l .terminalType [1] _ rfl rfl rfl fun hwants => ?_
  simp only [Capability.wantsType, Bool.not_eq_true', Bool.or_eq_false_iff, Bool.not_eq_false', decide_eq_false_iff_not,
    not_le] at hwants
  obtain ⟨⟨hwaiting, hroom⟩, hon⟩ := hwants
  refine paid_of rfl (fun b hb => ?_) (fun b hb => ?_) hon
  · cases b with
    | epoch p =>
      obtain rfl : p = .terminalType := hb
      simp only [Budget.remaining]
      omega
    | reply => simp [Budget.remaining, hwaiting]
  · cases b with
    | epoch p => cases p with
      | terminalType => exact absurd rfl hb
      | charset | newEnviron | mssp => rfl
    | reply => exact absurd rfl hb

/-- The copies of BINARY are what `request_charset` looks at. -/
theorem spends_requestCharset (l : Link α) : ∃ asked, Spends asked l l.requestCharset ∧
    (asked = [] ∨ asked = [.charset] ∧
      l.caps.terminal.localBinary = true ∧ l.caps.terminal.remoteBinary = true) := by
  unfold requestCharset
  rw [ite_eq_ite_not]
  refine ⟨_, spends_request l .charset (charsetRequestCode :: ascii ";UTF-8") _ rfl rfl rfl
    fun hwants => ?_, ?_⟩
  · simp only [Bool.not_eq_true', Bool.or_eq_false_iff, Bool.not_eq_false'] at hwants
    obtain ⟨⟨⟨hsent, -⟩, -⟩, hon⟩ := hwants
    refine paid_once (by decide) rfl (by simp [Budget.remaining, hsent]) (fun p hp => ?_) rfl hon
    cases p with
    | charset => exact absurd rfl hp
    | terminalType | newEnviron | mssp => rfl
  · split
    case isTrue hwants =>
      simp only [Bool.and_eq_true, Bool.not_eq_true', Bool.or_eq_false_iff, Bool.not_eq_false']
        at hwants
      exact .inr ⟨rfl, hwants.1.1.1.2, hwants.1.1.2⟩
    case isFalse => exact .inl rfl

theorem spends_requestNewEnviron (l : Link α) : ∃ asked, Spends asked l l.requestNewEnviron ∧
    (asked = [] ∨ asked = [.newEnviron]) := by
  unfold requestNewEnviron
  rw [ite_eq_ite_not]
  refine ⟨_, spends_request l .newEnviron newEnvironRequest _ rfl rfl rfl fun hwants => ?_, ?_⟩
  · simp only [Bool.not_eq_true', Bool.or_eq_false_iff, Bool.not_eq_false'] at hwants
    obtain ⟨hsent, hon⟩ := hwants
    refine paid_once (by decide) rfl (by simp [Budget.remaining, hsent]) (fun p hp => ?_) rfl hon
    cases p with
    | newEnviron => exact absurd rfl hp
    | terminalType | charset | mssp => rfl
  · split
    · exact .inr rfl
    · exact .inl rfl

/-! ## Handlers -/

/-- A part of a handler, which asks for a terminal type or does not. CHARSET is asked
for only while BINARY is on in both directions. -/
def Probing (wants : Bool) (l l' : Link α) : Prop :=
  ∃ asked, Spends asked l l' ∧
    asked.count .terminalType = (wants && !l.wire.closeRequested).toNat ∧
    l'.caps.pace = (if wants then (l.caps.terminalTypeRequestsSent + 1, true) else l.caps.pace) ∧
    (.charset ∈ asked → ∀ direction, l'.caps.enabled direction Telnet.Opt.binary = true)

namespace Probing

variable {wants : Bool} {l m l' : Link α}

theorem charset_append {asked asked' : List Probe} (h' : Spends asked' m l')
    (hcharset : .charset ∈ asked → ∀ direction, m.caps.enabled direction Telnet.Opt.binary = true)
    (hcharset' : .charset ∈ asked' → ∀ direction,
      l'.caps.enabled direction Telnet.Opt.binary = true)
    (hmem : .charset ∈ asked ++ asked') (direction : TelnetQDirection) :
    l'.caps.enabled direction Telnet.Opt.binary = true := by
  rcases List.mem_append.mp hmem with hmem | hmem
  · rw [← hcharset hmem direction]
    simp only [Capability.enabled, h'.options]
  · exact hcharset' hmem direction

theorem trans (h : Probing wants l m) (h' : Probing false m l') : Probing wants l l' := by
  obtain ⟨asked, hspends, hcount, hpace, hcharset⟩ := h
  obtain ⟨asked', hspends', hcount', hpace', hcharset'⟩ := h'
  refine ⟨asked ++ asked', hspends.trans hspends', ?_, hpace'.trans hpace,
    charset_append hspends' hcharset hcharset'⟩
  rw [List.count_append, hcount, hcount']
  rfl

/-- The first part leaves the session open or closed as it was. -/
theorem after (h : Probing false l m) (hopen : m.wire.closeRequested = l.wire.closeRequested)
    (h' : Probing wants m l') : Probing wants l l' := by
  obtain ⟨asked, hspends, hcount, hpace, hcharset⟩ := h
  obtain ⟨asked', hspends', hcount', hpace', hcharset'⟩ := h'
  have hsent : m.caps.terminalTypeRequestsSent = l.caps.terminalTypeRequestsSent :=
    congrArg Prod.fst hpace
  have hsame : m.caps.pace = l.caps.pace := hpace
  refine ⟨asked ++ asked', hspends.trans hspends', ?_, ?_,
    charset_append hspends' hcharset hcharset'⟩
  · rw [List.count_append, hcount, hcount', hopen, Bool.false_and, Bool.toNat_false, Nat.zero_add]
  · rw [hpace', hsent, hsame]

theorem ofSpends (h : Spends [] l l') (hpace : l'.caps.pace = l.caps.pace) : Probing false l l' :=
  ⟨[], h, rfl, hpace, by simp⟩

theorem ofCaps (l : Link α) {caps : Capability} (hoptions : caps.options = l.caps.options)
    (hcounters : caps.counters = l.caps.counters) : Probing false l { l with caps := caps } :=
  ofSpends (.ofCaps l hoptions hcounters) (Capability.pace_of_counters hcounters)

theorem ofWire (l : Link α) {wire : Wire α} (h : l.wire.Asks [] wire) :
    Probing false l { l with wire := wire } :=
  ofSpends (.ofWire l h) rfl

theorem refl (l : Link α) : Probing false l l := ofSpends (.refl l) rfl

/-- Only one other probe than these two. -/
theorem ofOther {asked : List Probe} {p : Probe} (h : Spends asked l l')
    (hasked : asked = [] ∨ asked = [p]) (hpace : l'.caps.pace = l.caps.pace)
    (htype : p ≠ .terminalType) (hcharset : p ≠ .charset) : Probing false l l' := by
  rcases hasked with rfl | rfl
  · exact ofSpends h hpace
  · exact ⟨_, h, by simp [htype], hpace, by simp [hcharset.symm]⟩

end Probing

theorem probing_requestTerminalType (l : Link α) :
    Probing l.caps.wantsType l l.requestTerminalType := by
  have heq : l.requestTerminalType = if l.caps.wantsType then _ else l := ite_eq_ite_not _ _ _
  refine ⟨_, spends_requestTerminalType l, ?_, ?_, ?_⟩
  · cases l.caps.wantsType && !l.wire.closeRequested <;> rfl
  · rw [heq]
    cases l.caps.wantsType <;> rfl
  · cases l.caps.wantsType && !l.wire.closeRequested <;> simp

theorem probing_notifyApplicationCapabilities (hooks : Application α) (l : Link α) :
    Probing false l (l.notifyApplicationCapabilities hooks) := by
  unfold notifyApplicationCapabilities
  split
  · exact .ofWire l (.ofPlain (.callHook l.wire l.caps.terminal _ _))
  · exact .refl l

theorem pace_requestCharset (l : Link α) : l.requestCharset.caps.pace = l.caps.pace := by
  unfold requestCharset
  split <;> rfl

theorem pace_requestNewEnviron (l : Link α) : l.requestNewEnviron.caps.pace = l.caps.pace := by
  unfold requestNewEnviron
  split <;> rfl

theorem probing_updateOptionMetadata (hooks : Application α) (l : Link α) :
    Probing l.caps.wantsType l (l.updateOptionMetadata hooks) := by
  let copied : Link α := { l with caps := (copyOptionMetadata l.caps).refreshUtf8Metadata }
  have hcopied : Probing false l copied := .ofCaps l rfl rfl
  have htype : Probing l.caps.wantsType copied copied.requestTerminalType :=
    probing_requestTerminalType copied
  -- the two copies are fresh here, so they are the option sides
  have hterminal : copied.requestTerminalType.caps.terminal = copied.caps.terminal :=
    Capability.terminal_of_known (known_requestTerminalType copied)
  have hcharset : Probing false copied.requestTerminalType
      copied.requestTerminalType.requestCharset := by
    obtain ⟨asked, hspends, hasked⟩ := spends_requestCharset copied.requestTerminalType
    have htypeOptions := (spends_requestTerminalType copied).options
    have hpace := pace_requestCharset copied.requestTerminalType
    rcases hasked with rfl | ⟨rfl, hlocal, hremote⟩
    · exact .ofSpends hspends hpace
    · rw [hterminal] at hlocal hremote
      refine ⟨_, hspends, rfl, hpace, fun _ direction => ?_⟩
      simp only [Capability.enabled, hspends.options, htypeOptions]
      cases direction
      · exact hlocal
      · exact hremote
  obtain ⟨asked, hspends, hasked⟩ :=
    spends_requestNewEnviron copied.requestTerminalType.requestCharset
  have henviron := Probing.ofOther hspends hasked (pace_requestNewEnviron _) (by decide) (by decide)
  have hrest := (hcharset.trans henviron).trans (probing_notifyApplicationCapabilities hooks _)
  exact hcopied.after rfl (htype.trans hrest)

theorem probing_sendMsspStatus (hooks : Application α) (l : Link α) :
    Probing false l (l.sendMsspStatus hooks) := by
  unfold sendMsspStatus
  split
  case h_1 => exact .refl l
  case h_2 query _ =>
    rw [ite_eq_ite_not]
    split
    case isFalse => exact .refl l
    case isTrue hwants =>
      simp only [Bool.not_or, Bool.not_not, Bool.and_eq_true, Bool.not_eq_true'] at hwants
      obtain ⟨hsent, hon⟩ := hwants
      rcases query l.wire.app with ⟨status, app⟩
      have hqueried : Probing false l { l with wire := { l.wire with app := app }.emit .msspQuery } :=
        .ofWire l (.emit l.wire app _ rfl)
      dsimp only
      split
      · exact hqueried.trans (.ofWire _ (.emit _ _ _ rfl))
      · exact hqueried
      case h_3 payload _ =>
        have hask := Spends.ask { l with wire := { l.wire with app := app }.emit .msspQuery } .mssp
          payload { l.caps with msspSent := true } rfl rfl
          (paid_once (by decide) rfl (by simp [Budget.remaining, hsent])
            (fun p hp => by cases p <;> first | exact absurd rfl hp | rfl) rfl hon)
          fun hoff => Bool.noConfusion (hon.symm.trans hoff)
        refine hqueried.trans (.ofOther hask (p := .mssp) ?_ rfl (by decide) (by decide))
        split
        · exact .inl rfl
        · exact .inr rfl

/-! ## Option commands -/

theorem asks_telnetQReceive (l : Link α) (command option : UInt8)
    (accept : TelnetQDirection → UInt8 → Bool) :
    l.wire.Asks [] (l.sendOptionCommands
      (telnetQReceive l.caps.options command option accept)).wire := by
  unfold telnetQReceive
  split_ifs
  · exact asks_sendOptionCommands l .remote option (receivePositive_actsAs _ _ _ _)
  · exact asks_sendOptionCommands l .remote option (receiveNegative_actsAs _ _ _ false)
  · exact asks_sendOptionCommands l .local_ option (receivePositive_actsAs _ _ _ _)
  · exact asks_sendOptionCommands l .local_ option (receiveNegative_actsAs _ _ _ false)
  · exact .refl l.wire

theorem closeRequested_sendOptionCommands (l : Link α) (result : TelnetQ × List OptionCommand) :
    (l.sendOptionCommands result).wire.closeRequested = l.wire.closeRequested := by
  have hfold : ∀ (commands : List OptionCommand) (w : Wire α),
      (commands.foldl (fun w command => w.writeTelnetOptionRaw command.1 command.2)
        w).closeRequested = w.closeRequested := by
    intro commands
    induction commands with
    | nil => exact fun w => rfl
    | cons command rest ih =>
      intro w
      rw [List.foldl_cons, ih]
      simp [Wire.writeTelnetOptionRaw, Wire.writeRaw_eq_sends]
  exact hfold _ _

/-- A budget is renewed only by an option that goes on: while it stays on nothing is
reset. -/
theorem left_heard (hooks : Application α) (c : Capability) (command option : UInt8) (b : Budget)
    (hbefore : c.allows b.probe = true) : b.left (heard hooks c command option) ≤ b.left c := by
  by_cases hafter : (heard hooks c command option).allows b.probe = true
  · have hon : Capability.enabled { c with
        options := (telnetQReceive c.options command option (qAccept hooks c)).1 }
        b.probe.direction b.probe.option = true := by
      unfold heard at hafter
      rw [resetDisabled_eq] at hafter
      exact hafter
    have hstays : wentOff c { c with
        options := (telnetQReceive c.options command option (qAccept hooks c)).1 }
        b.probe.direction b.probe.option = false := by
      rw [wentOff, hon, Bool.not_true, Bool.and_false]
    refine le_of_eq ?_
    rw [Budget.left, Budget.left, if_pos hafter, if_pos hbefore, heard, resetDisabled_eq]
    cases b with
    | epoch p =>
      cases p <;> simp only [Budget.probe, Probe.direction, Probe.option] at hstays <;>
        simp only [Budget.remaining, hstays, Bool.false_eq_true, if_false]
    | reply =>
      simp only [Budget.probe, Probe.direction, Probe.option] at hstays
      simp only [Budget.remaining, hstays, Bool.false_eq_true, if_false]
  · rw [Budget.left, if_neg hafter]
    exact Nat.zero_le _

/-- After the answer and what is forgotten, the refresh and the MSSP snapshot. -/
theorem probing_receiveTelnetOption (hooks : Application α) (l : Link α)
    (command option : UInt8) :
    ∃ m : Link α, m.caps = heard hooks l.caps command option ∧ l.wire.Asks [] m.wire ∧
      m.wire.closeRequested = l.wire.closeRequested ∧
      Probing (heard hooks l.caps command option).wantsType m
        (l.receiveTelnetOption hooks command option) := by
  let answer := telnetQReceive l.caps.options command option (qAccept hooks l.caps)
  let m : Link α := { l.sendOptionCommands answer with caps := heard hooks l.caps command option }
  have hupdated := probing_updateOptionMetadata hooks m
  refine ⟨m, rfl, asks_telnetQReceive l command option _,
    closeRequested_sendOptionCommands l answer, ?_⟩
  unfold receiveTelnetOption
  dsimp only
  split
  · exact hupdated.trans (probing_sendMsspStatus hooks _)
  · exact hupdated

end Link

/-! ## Subnegotiations -/

namespace Capability

/-- The text of a TERMINAL-TYPE payload that is looked at. -/
def typeReport? (c : Capability) (payload : Bytes) : Option Bytes :=
  if !c.enabled .remote Telnet.Opt.terminalType then none
  else (Link.terminalTypeReport payload).toOption

/-- A bare ANSI answer to the first probe, or an answer that repeats the last one. -/
def endsWith (c : Capability) (reported : Bytes) : Bool :=
  (c.terminalTypeRequestsSent = 1 && asciiEqualIgnoreCase reported (ascii "ANSI")) ||
    (c.lastTerminalType ≠ [] && asciiEqualIgnoreCase c.lastTerminalType reported)

/-- A report after which the discovery goes on. -/
def goesOn (c : Capability) (payload : Bytes) : Bool :=
  (c.typeReport? payload).any fun reported => !c.endsWith reported

/-- Any TERMINAL-TYPE subnegotiation ends the wait for an answer. -/
def answered (c : Capability) : Capability :=
  if c.enabled .remote Telnet.Opt.terminalType then { c with terminalTypeWaiting := false } else c

theorem counters_reported (c : Capability) (reported : Bytes) :
    ((c.parseMttsReport reported).getD (Link.applyTerminalType c reported)).counters =
      c.counters := by
  have happlied : (Link.applyTerminalType c reported).counters = c.counters := by
    unfold Link.applyTerminalType
    split_ifs <;> rfl
  unfold parseMttsReport
  split
  · cases parseDecimalU32 (reported.drop 5) with
    | none => exact happlied
    | some flags => rfl
  · exact happlied

theorem counters_applyEntry (c : Capability) (entry : EnvironEntry) :
    (c.applyEntry entry).counters = c.counters ∧ (c.applyEntry entry).options = c.options := by
  have hobserved : (c.observeMnes entry.token).counters = c.counters ∧
      (c.observeMnes entry.token).options = c.options := by
    unfold observeMnes
    split <;> exact ⟨rfl, rfl⟩
  have happlied := applied_applyEntry c entry
  generalize c.applyEntry entry = c' at happlied ⊢
  cases happlied with
  | told | utf8 | flags => exact hobserved
  | other => exact ⟨rfl, rfl⟩

theorem counters_entries (c : Capability) (entries : List EnvironEntry) :
    (entries.foldl applyEntry c).counters = c.counters ∧
      (entries.foldl applyEntry c).options = c.options := by
  induction entries generalizing c with
  | nil => exact ⟨rfl, rfl⟩
  | cons entry rest ih =>
    obtain ⟨hcounters, hoptions⟩ := counters_applyEntry c entry
    exact ⟨(ih _).1.trans hcounters, (ih _).2.trans hoptions⟩

theorem wantsType_of_counters {c c' : Capability} (hcounters : c'.counters = c.counters)
    (hoptions : c'.options = c.options) : c'.wantsType = c.wantsType := by
  simp only [counters, Counters.mk.injEq] at hcounters
  simp only [wantsType, enabled, hoptions, hcounters.1, hcounters.2.1]

theorem wantsType_answered {c : Capability}
    (hon : c.enabled .remote Telnet.Opt.terminalType = true) :
    { c with terminalTypeWaiting := false }.wantsType =
      decide (c.terminalTypeRequestsSent < terminalTypeRequestLimit) := by
  have hon' : { c with terminalTypeWaiting := false }.enabled .remote Telnet.Opt.terminalType =
      true := hon
  rw [wantsType, hon']
  simp [← decide_not]

end Capability

namespace Link

variable {α : Type}

theorem Aside.counters {l l' : Link α} (h : l.Aside l') : l'.caps.counters = l.caps.counters := by
  have hfindings := h.findings
  simp only [Capability.findings, Findings.mk.injEq] at hfindings
  simp only [Capability.counters, hfindings]

theorem Probing.ofAside {l l' : Link α} (h : l.Aside l')
    (hoptions : l'.caps.options = l.caps.options) : Probing false l l' :=
  .ofSpends (.ofStill h.wire hoptions h.counters) (Capability.pace_of_counters h.counters)

theorem probing_audit (l : Link α) (event detail : String) : Probing false l (l.audit event detail) :=
  .ofWire l (.emit _ _ _ rfl)

theorem probing_noteProtocolViolation (l : Link α) (detail : String) :
    Probing false l (l.noteProtocolViolation detail) :=
  .ofAside (.noteProtocolViolation l detail)
    (Capability.options_of_known (known_noteProtocolViolation l detail))

theorem probing_handleNaws (l : Link α) (payload : Bytes) : Probing false l (l.handleNaws payload) := by
  unfold handleNaws
  split
  · exact .refl l
  · split
    · exact .ofCaps l rfl rfl
    · exact probing_noteProtocolViolation l _

theorem Probing.requestUnlessEnded {l l' : Link α} (h : Probing false l l')
    (hclose : l'.wire.closeRequested = l.wire.closeRequested) (first repeated : Bool) :
    Probing (!(first || repeated) && l'.caps.wantsType) l
      (if first then l' else if !repeated then l'.requestTerminalType else l') := by
  cases first with
  | true => exact h
  | false => cases repeated with
    | true => exact h
    | false => exact h.after hclose (probing_requestTerminalType l')

theorem probing_handleTerminalType (l : Link α) (payload : Bytes) :
    Probing (l.caps.goesOn payload &&
        decide (l.caps.terminalTypeRequestsSent < terminalTypeRequestLimit))
      { l with caps := l.caps.answered } (l.handleTerminalType payload) := by
  unfold handleTerminalType
  cases hon : l.caps.enabled .remote Telnet.Opt.terminalType with
  | false =>
    simp only [Capability.goesOn, Capability.typeReport?, Capability.answered, hon]
    exact .refl l
  | true =>
    simp only [Capability.goesOn, Capability.typeReport?, Capability.answered, hon]
    cases terminalTypeReport payload with
    | error detail => exact probing_noteProtocolViolation _ detail
    | ok reported =>
      let waited := { l.caps with terminalTypeWaiting := false }
      let told := (waited.parseMttsReport reported).getD (applyTerminalType waited reported)
      have hcounters : told.counters = waited.counters := Capability.counters_reported waited reported
      have hoptions : told.options = waited.options :=
        congrArg Known.options (known_reported l.caps reported false)
      have hsent : told.terminalTypeRequestsSent = l.caps.terminalTypeRequestsSent :=
        congrArg Counters.terminalTypeRequestsSent hcounters
      have htold : Probing false { l with caps := waited }
          { l with caps := { told with lastTerminalType := reported } } :=
        .ofCaps { l with caps := waited } hoptions hcounters
      have hwants : { told with lastTerminalType := reported }.wantsType =
          decide (l.caps.terminalTypeRequestsSent < terminalTypeRequestLimit) :=
        (Capability.wantsType_of_counters hcounters hoptions).trans
          (Capability.wantsType_answered hon)
      have hends : l.caps.endsWith reported = ((decide (told.terminalTypeRequestsSent = 1) &&
          asciiEqualIgnoreCase reported (ascii "ANSI")) || (decide (l.caps.lastTerminalType ≠ []) &&
            asciiEqualIgnoreCase l.caps.lastTerminalType reported)) := by
        rw [hsent]
        rfl
      have hasked := htold.requestUnlessEnded rfl (decide (told.terminalTypeRequestsSent = 1) &&
        asciiEqualIgnoreCase reported (ascii "ANSI")) (decide (l.caps.lastTerminalType ≠ []) &&
          asciiEqualIgnoreCase l.caps.lastTerminalType reported)
      rw [hwants, ← hends] at hasked
      exact hasked

theorem probing_handleCharset (l : Link α) (payload : Bytes) :
    Probing false l (l.handleCharset payload) := by
  have hsent : ∀ payload, Probe.ofToken? (.subnegotiation Telnet.Opt.charset payload) = none →
      Probing false l (l.sendSubnegotiation Telnet.Opt.charset payload) := by
    intro payload hnone
    have hasks : l.wire.Asks _ (l.wire.sendSubnegotiation Telnet.Opt.charset payload) :=
      .sendSubnegotiation l.wire Telnet.Opt.charset payload
    rw [hnone, Option.toList_none, ite_self] at hasks
    exact .ofWire l hasks
  have haccepted : ∀ l : Link α, Probing false l l.acceptUtf8 := by
    intro l
    have hrefreshed : Probing false l
        { l with caps := { l.caps with charsetUtf8 := true }.refreshUtf8Metadata } :=
      .ofCaps l rfl rfl
    exact hrefreshed.trans (probing_audit _ _ _)
  unfold handleCharset
  split
  · exact .refl l
  cases payload with
  | nil => exact probing_noteProtocolViolation l _
  | cons kind rest =>
    dsimp only
    split_ifs
    · exact .refl l
    · exact (hsent _ rfl).trans (haccepted _)
    · exact hsent _ rfl
    · exact .refl l
    · exact haccepted l
    · exact .ofCaps l rfl rfl
    · exact probing_noteProtocolViolation l _

theorem probing_handleNewEnviron (hooks : Application α) (l : Link α) (payload : Bytes) :
    Probing ((environPayload l.caps payload).any Prod.snd && l.caps.wantsType) l
      (l.handleNewEnviron hooks payload) := by
  unfold handleNewEnviron environPayload
  split
  · exact .refl l
  cases payload with
  | nil => exact .refl l
  | cons command report =>
    dsimp only
    split
    · exact .refl l
    rw [Capability.environEntries_eq]
    rcases environReport report.length report with ⟨entries, complete⟩
    obtain ⟨hcounters, hoptions⟩ := Capability.counters_entries l.caps entries
    have happlied : Probing false l { l with caps := entries.foldl .applyEntry l.caps } :=
      .ofCaps l hoptions hcounters
    cases complete with
    | false => exact happlied
    | true =>
      have hupdated := probing_updateOptionMetadata hooks
        { l with caps := entries.foldl .applyEntry l.caps }
      rw [Capability.wantsType_of_counters hcounters hoptions] at hupdated
      exact happlied.after rfl hupdated

theorem probing_handleGmcp (hooks : Application α) (l : Link α) (payload : Bytes) :
    Probing false l (l.handleGmcp hooks payload) := by
  have hqueue : ∀ (l : Link α) (packageName json : Bytes),
      Probing false l (l.queuePreAuthGmcpCore hooks packageName json) := by
    intro l packageName json
    unfold queuePreAuthGmcpCore
    split_ifs
    · exact .refl l
    · exact probing_audit l _ _
    · exact .ofCaps l rfl rfl
  unfold handleGmcp
  split
  · exact .refl l
  cases gmcpMessage payload with
  | error detail => exact probing_audit l _ _
  | ok message =>
    have hreplied : Probing false l (if gmcpPackageEqual message.packageName (ascii "Core.Ping") then
        { l with wire := (l.wire.sendGmcpMessage l.caps.terminal (ascii "Core.Ping") none).2 }
        else l) := by
      split
      · exact .ofWire l (.ofPlain (Wire.Utters.sendGmcpMessage l.wire _ _ _).writes)
      · exact .refl l
    dsimp only
    refine hreplied.trans ?_
    generalize (if gmcpPackageEqual message.packageName (ascii "Core.Ping") then _ else l) = m
    split
    · exact .ofWire _ (.ofPlain (.callHook _ _ _ _))
    · exact hqueue _ _ _

/-- The discovery asks for another type after this payload. -/
def asksAfter (c : Capability) (option : UInt8) (payload : Bytes) : Bool :=
  if option = Telnet.Opt.terminalType then
    c.goesOn payload && decide (c.terminalTypeRequestsSent < terminalTypeRequestLimit)
  else if option = Telnet.Opt.newEnviron then
    (environPayload c payload).any Prod.snd && c.wantsType
  else false

theorem probing_finishSubnegotiation (hooks : Application α) (l : Link α) (option : UInt8)
    (payload : Bytes) :
    Probing (asksAfter l.caps option payload)
      { l with caps := if option = Telnet.Opt.terminalType then l.caps.answered else l.caps }
      (l.finishSubnegotiation hooks option payload) := by
  by_cases htype : option = Telnet.Opt.terminalType
  · subst htype
    exact probing_handleTerminalType l payload
  rw [if_neg htype, asksAfter, if_neg htype, finishSubnegotiation, if_neg htype]
  by_cases henviron : option = Telnet.Opt.newEnviron
  · subst henviron
    exact probing_handleNewEnviron hooks l payload
  rw [if_neg henviron, if_neg henviron]
  split_ifs
  · exact probing_handleNaws l payload
  · exact probing_handleCharset l payload
  · exact probing_handleGmcp hooks l payload
  · exact .refl l

end Link

/-! ## Sessions -/

namespace Conn

variable {β α : Type}

/-- The probes a peer reads in the output, in order. -/
def asked (c : Conn β α) : List Probe := c.link.wire.asked

def allows (c : Conn β α) (p : Probe) : Bool := c.link.caps.allows p

/-- The option side of a probe goes on. -/
def turnsOn (host : Host β α) (p : Probe) (c : Conn β α) (action : Action) : Bool :=
  !c.allows p && (c.act host action).allows p

/-- The peer ends a TERMINAL-TYPE subnegotiation. -/
def answersType (c : Conn β α) (action : Action) : Bool :=
  c.finishes action && decide (c.parsing.subnegotiationOption = Telnet.Opt.terminalType)

def renews (host : Host β α) (c : Conn β α) (action : Action) : Budget → Bool
  | .epoch p => c.turnsOn host p action
  | .reply => c.turnsOn host .terminalType action || c.answersType action

/-- An action asks for another terminal type. -/
def asksType (host : Host β α) (c : Conn β α) (action : Action) : Bool :=
  match c.hears action with
  | some option =>
      (Link.heard host.application c.link.caps c.parsing.pendingTelnetCommand option).wantsType
  | none => c.finishes action &&
      Link.asksAfter c.link.caps c.parsing.subnegotiationOption c.parsing.subnegotiation

/-- The capabilities after a message, before anything is asked. -/
def settled (host : Host β α) (c : Conn β α) (action : Action) : Capability :=
  match c.hears action with
  | some option => Link.heard host.application c.link.caps c.parsing.pendingTelnetCommand option
  | none => if c.answersType action then c.link.caps.answered else c.link.caps

/-- The probes of one action. -/
structure Draws (host : Host β α) (c : Conn β α) (action : Action) (asked : List Probe) : Prop where
  wire : c.link.wire.Asks asked (c.act host action).link.wire
  paid : ∀ b : Budget, asked.count b.probe + b.left (c.act host action).link.caps ≤
    if c.renews host action b then b.limit else b.left c.link.caps
  allows : ∀ p, (c.act host action).allows p = (c.settled host action).allows p
  allowed : ∀ p ∈ asked, (c.act host action).allows p = true
  binary : .charset ∈ asked → ∀ direction,
    (c.act host action).link.caps.enabled direction Telnet.Opt.binary = true
  types : asked.count .terminalType = (c.asksType host action).toNat
  pace : c.asksType host action = false →
    (c.act host action).link.caps.pace = (c.settled host action).pace

theorem renews_of_turnsOn {host : Host β α} {c : Conn β α} {action : Action} {b : Budget}
    (h : c.turnsOn host b.probe action = true) : c.renews host action b = true := by
  cases b with
  | epoch p => exact h
  | reply =>
    rw [renews, show c.turnsOn host .terminalType action = true from h, Bool.true_or]

theorem left_answered (p : Probe) (c : Capability) :
    (Budget.epoch p).left c.answered = (Budget.epoch p).left c := by
  unfold Capability.answered
  split
  · cases p <;> rfl
  · rfl

theorem left_le_renewed (host : Host β α) (c : Conn β α) (action : Action) (b : Budget) :
    b.left c.link.caps ≤ if c.renews host action b then b.limit else b.left c.link.caps := by
  split
  · exact b.left_le_limit _
  · exact le_rfl

/-- A message renews no more than the option that goes on and the wait that it ends. -/
theorem left_settled {host : Host β α} {c : Conn β α} {action : Action}
    (hoptions : (c.act host action).link.caps.options = (c.settled host action).options)
    (b : Budget) : b.left (c.settled host action) ≤
      if c.renews host action b then b.limit else b.left c.link.caps := by
  have hsame := left_le_renewed host c action b
  by_cases hafter : (c.act host action).allows b.probe = true
  case neg =>
    rw [allows, Capability.allows_of_options hoptions] at hafter
    rw [Budget.left, if_neg hafter]
    exact Nat.zero_le _
  by_cases hbefore : c.allows b.probe = true
  case neg =>
    rw [if_pos (renews_of_turnsOn (by simp [turnsOn, hbefore, hafter]))]
    exact b.left_le_limit _
  unfold settled
  cases hhears : c.hears action with
  | some option => exact (Link.left_heard host.application _ _ _ b hbefore).trans hsame
  | none =>
    dsimp only
    split
    case isFalse => exact hsame
    case isTrue hanswers =>
      cases b with
      | epoch p => exact (left_answered p _).trans_le hsame
      | reply =>
        rw [if_pos (by rw [renews, hanswers, Bool.or_true])]
        exact Budget.left_le_limit .reply _

/-- What is asked is paid for from the state in which the message left the session. -/
theorem draws_of_probing {host : Host β α} {c : Conn β α} {action : Action} {m : Link α}
    (hcaps : m.caps = c.settled host action) (hwire : c.link.wire.Asks [] m.wire)
    (hopen : m.wire.closeRequested = false)
    (hprobing : Link.Probing (c.asksType host action) m (c.act host action).link) :
    ∃ asked, Draws host c action asked := by
  obtain ⟨asked, hspends, hcount, hpace, hbinary⟩ := hprobing
  have hoptions : (c.act host action).link.caps.options = (c.settled host action).options :=
    hcaps ▸ hspends.options
  exact ⟨asked, {
    wire := by simpa using hwire.trans hspends.wire
    paid := fun b => (hspends.paid b).trans (hcaps ▸ left_settled hoptions b)
    allows := Capability.allows_of_options hoptions
    allowed := fun p hp => hspends.allows hp
    binary := hbinary
    types := by simpa [hopen] using hcount
    pace := fun hquiet => by simpa [hquiet, hcaps] using hpace }⟩

theorem exists_draws (host : Host β α) (c : Conn β α) (action : Action) :
    ∃ asked, Draws host c action asked := by
  have hturn := turn_act host c action
  generalize hlink : (c.act host action).link = link at hturn
  cases hturn with
  | aside hhears hfinishes haside =>
    subst hlink
    have hquiet : c.settled host action = c.link.caps := by
      simp [settled, hhears, answersType, hfinishes]
    have hallows : ∀ p, (c.act host action).allows p = c.allows p := fun p =>
      haside.enabled p.direction p.option (by cases p <;> decide)
    have hleft : ∀ b : Budget, b.left (c.act host action).link.caps = b.left c.link.caps :=
      Capability.left_congr haside.counters hallows
    refine ⟨[], haside.wire, fun b => ?_, hquiet ▸ hallows, by simp, by simp, by simp [asksType, hhears, hfinishes],
      fun _ => hquiet ▸ Capability.pace_of_counters haside.counters⟩
    rw [hleft]
    simpa using left_le_renewed host c action b
  | @option option hhears hfinishes hopen =>
    obtain ⟨m, hcaps, hwire, hopen', hprobing⟩ := Link.probing_receiveTelnetOption host.application
      c.link c.parsing.pendingTelnetCommand option
    have hsettled : m.caps = c.settled host action := by simp only [hcaps, settled, hhears]
    refine draws_of_probing hsettled hwire (hopen'.trans hopen) ?_
    simpa only [asksType, hhears, hlink] using hprobing
  | subnegotiation hhears hfinishes hopen =>
    have hprobing := Link.probing_finishSubnegotiation host.application c.link
      c.parsing.subnegotiationOption c.parsing.subnegotiation
    rw [← hlink] at hprobing
    refine draws_of_probing (m := { c.link with caps := c.settled host action }) rfl (.refl _)
      hopen ?_
    simpa [asksType, settled, answersType, hhears, hfinishes] using hprobing

theorem framed_of_reachable {host : Host β α} {c : Conn β α} (hc : (system host).Reachable c) :
    c.link.wire.Framed := by
  refine hc.invariant (I := fun c : Conn β α => c.link.wire.Framed) ?_ ?_
  · rintro _ ⟨backend, app, rfl⟩
    rfl
  · rintro action c _ - hframed rfl
    obtain ⟨asked, hdraws⟩ := exists_draws host c action
    exact (hdraws.wire.asked_eq hframed).1

/-- What a step adds to the output, with what it pays. -/
theorem count_act {host : Host β α} {c : Conn β α} (hc : (system host).Reachable c)
    (action : Action) (b : Budget) :
    (c.act host action).asked.count b.probe + b.left (c.act host action).link.caps ≤
      c.asked.count b.probe + if c.renews host action b then b.limit else b.left c.link.caps := by
  obtain ⟨asked, hdraws⟩ := exists_draws host c action
  have hasked : (c.act host action).asked = c.asked ++ asked :=
    (hdraws.wire.asked_eq (framed_of_reachable hc)).2
  have hpaid := hdraws.paid b
  rw [hasked, List.count_append]
  omega

/-- From any action on, while the budget is not renewed, its limit is kept. -/
theorem count_acts_le {host : Host β α} {c : Conn β α} (hc : (system host).Reachable c)
    (b : Budget) {first : Action} {rest : List Action}
    (hrest : ∀ before action, before ++ [action] <+: rest →
      ((c.act host first).acts host before).renews host action b = false) :
    (c.acts host (first :: rest)).asked.count b.probe ≤ c.asked.count b.probe + b.limit := by
  have hfirst := count_act hc first b
  have hlimit : (if c.renews host first b then b.limit else b.left c.link.caps) ≤ b.limit := by
    split
    · exact le_rfl
    · exact b.left_le_limit _
  have hspent := Transition.System.spent_le (act host) (fun c => c.asked.count b.probe)
    (fun c => b.left c.link.caps) (I := (system host).Reachable) (K := fun c action => c.renews host action b = false)
    (fun _ action hc => reachable_act hc action)
    (fun c action hc hkeeps => by simpa [hkeeps] using count_act hc action b)
    (reachable_act hc first) hrest
  calc (c.acts host (first :: rest)).asked.count b.probe
    _ ≤ (c.act host first).asked.count b.probe + b.left (c.act host first).link.caps := hspent
    _ ≤ c.asked.count b.probe + b.limit := by omega

/-- Between two moments at which the side of an option goes on there are at most four
TERMINAL-TYPE SEND and one of every other probe, and never a TERMINAL-TYPE SEND before
the last one is answered. A probe is sent while the side of its option is on, and
CHARSET REQUEST while BINARY is on in both directions. -/
theorem bounded_probing {host : Host β α} {c : Conn β α} (hc : (system host).Reachable c)
    (first : Action) (rest : List Action) :
    (∀ p, (∀ before action, before ++ [action] <+: rest →
        ((c.act host first).acts host before).turnsOn host p action = false) →
      (c.acts host (first :: rest)).asked.count p ≤ c.asked.count p + p.limit) ∧
    ((∀ before action, before ++ [action] <+: rest →
        ((c.act host first).acts host before).turnsOn host .terminalType action = false ∧
        ((c.act host first).acts host before).answersType action = false) →
      (c.acts host (first :: rest)).asked.count .terminalType ≤ c.asked.count .terminalType + 1) ∧
    ∀ p, c.asked.count p < (c.act host first).asked.count p →
      (c.act host first).allows p = true ∧
      (p = .charset → ∀ direction,
        (c.act host first).link.caps.enabled direction Telnet.Opt.binary = true) := by
  refine ⟨fun p hrest => count_acts_le hc (.epoch p) hrest, fun hrest => ?_, fun p hp => ?_⟩
  · refine count_acts_le hc .reply fun before action hbefore => ?_
    obtain ⟨hturns, hanswers⟩ := hrest before action hbefore
    rw [renews, hturns, hanswers, Bool.or_false]
  · obtain ⟨asked, hdraws⟩ := exists_draws host c first
    have hasked : (c.act host first).asked = c.asked ++ asked :=
      (hdraws.wire.asked_eq (framed_of_reachable hc)).2
    rw [hasked, List.count_append] at hp
    have hmem : p ∈ asked := List.count_pos_iff.mp (by omega)
    exact ⟨hdraws.allowed p hmem, fun hcharset => hdraws.binary (hcharset ▸ hmem)⟩

/-- The peer is about to name the option it will use. -/
def offering : Conn Unit Unit := (Conn.initial .granting () ()).feedBytes .granting 1 [255, 251]

theorem reachable_offering : (system Host.granting).Reachable offering :=
  reachable_feedBytes (.init ⟨(), (), rfl⟩) 1 [255, 251]

/-- It is TERMINAL-TYPE, which is asked for once before the peer answers. -/
theorem bounded_probing_offering :
    offering.turnsOn .granting .terminalType (.byte 24 1) = true ∧
      (offering.acts .granting [.byte 24 1, .byte 255 1]).asked = [.terminalType] ∧
      (offering.acts .granting [.byte 24 1, .byte 255 1]).asked.count .terminalType ≤
        offering.asked.count .terminalType + 1 := by
  refine ⟨by decide +kernel, by decide +kernel,
    (bounded_probing reachable_offering (.byte 24 1) [.byte 255 1]).2.1 fun before action h => ?_⟩
  obtain rfl : before = [] := List.eq_nil_of_length_eq_zero (by simpa using h.length_le)
  obtain rfl : action = .byte 255 1 := by simpa using h
  decide +kernel

end Conn

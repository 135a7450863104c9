-- SUMMARY: What the output functions and the capability handlers do to the world: the application calls and their order, the discipline of closing, and the Telnet tokens that are written.
import TelnetTlsServer.Session.Effects
import TelnetTlsServer.Session.OutputFraming

/-!
# Conduct towards the world

`Wire.Does made w w'` says what a function did between two states of the wire: it
made the application calls `made` and no others, and its events keep the
discipline of closing. After a close was requested nothing is written, no line
and no poll reaches the application, and the close itself is recorded once.
`Wire.Writes P w w'` says what a peer reads of it: whole tokens, each of which
satisfies `P`. The output functions do both at once, and have one lemma each for it.

`Link.Acts` adds that the fields a session's life hangs on are as they were: the
option state, the wish for echo, the application's session and the early
messages that wait for it. `Link.Serves` adds the effect on the bounds. Each handler has
one lemma here.
-/

open TelnetGrammar (Token)

/-! ## The discipline of closing -/

/-- The calls that only an open session makes. -/
def ApplicationCall.driven : ApplicationCall → Bool
  | line .. | poll .. => true
  | open_ .. | capabilitiesChanged .. | gmcp .. | close .. => false

namespace Event

def application? : Event → Option ApplicationCall
  | application call => some call
  | _ => none

/-- The detail of the record that every close leaves. -/
def closing : Bytes := ascii "session close requested"

/-- Whether a close was requested once the event has happened, if it may happen. -/
def after (closed : Bool) : Event → Option Bool
  | write _ => if closed then none else some false
  | audit _ detail =>
      if detail = closing then if closed then none else some true
      else some closed
  | application call => if closed && call.driven then none else some closed
  | closeRequest => if closed then none else some true
  | backend _ | msspQuery => some closed

end Event

namespace Wire

variable {α : Type}

structure Does (made : List ApplicationCall) (w w' : Wire α) : Prop where
  trace : ∃ events, w'.trace = w.trace ++ events ∧ events.filterMap Event.application? = made ∧
    events.foldlM Event.after w.closeRequested = some w'.closeRequested

namespace Does

variable {made made' : List ApplicationCall} {w w' w'' : Wire α}

theorem refl (w : Wire α) : Does [] w w := ⟨[], by simp, rfl, rfl⟩

theorem trans (h : Does made w w') (h' : Does made' w' w'') : Does (made ++ made') w w'' := by
  obtain ⟨events, htrace, rfl, hafter⟩ := h
  obtain ⟨events', htrace', rfl, hafter'⟩ := h'
  refine ⟨events ++ events', by simp [htrace, htrace'], List.filterMap_append, ?_⟩
  rw [List.foldlM_append, hafter]
  exact hafter'

/-- Nothing is done to the application. -/
theorem andThen (h : Does made w w') (h' : Does [] w' w'') : Does made w w'' := by
  simpa using h.trans h'

/-- One event, with a new state of the application. -/
theorem emit (w : Wire α) (app : α) (e : Event)
    (he : e.after w.closeRequested = some w.closeRequested) :
    Does e.application?.toList w ({ w with app := app }.emit e) := by
  refine ⟨[e], rfl, ?_, ?_⟩
  · cases h : e.application? <;> simp [h]
  · simp only [List.foldlM_cons, he]
    rfl

theorem setApp (h : Does made w w') (app : α) : Does made w { w' with app := app } := ⟨h.trace⟩

theorem sends (w : Wire α) (chunks : List Bytes) : Does [] w (w.sends chunks) := by
  have hwrites : (chunks.map Event.write).foldlM Event.after false = some false := by
    induction chunks with
    | nil => rfl
    | cons chunk rest ih => simpa [Event.after] using ih
  by_cases hclosed : w.closeRequested = true
  · rw [Wire.sends, if_pos hclosed]
    exact refl w
  · have hopen : w.closeRequested = false := Bool.not_eq_true _ ▸ hclosed
    rw [Wire.sends, if_neg hclosed]
    refine ⟨_, rfl, ?_, ?_⟩
    · simp [List.filterMap_eq_nil_iff, Event.application?]
    · rw [hopen]
      exact hwrites

theorem sendSubnegotiation (w : Wire α) (option : UInt8) (payload : Bytes) :
    Does [] w (w.sendSubnegotiation option payload) := by
  rw [sendSubnegotiation_eq_sends]
  exact sends w _

theorem audit (w : Wire α) (event : String) {detail : Bytes} (h : detail ≠ Event.closing) :
    Does [] w (w.audit event detail) :=
  emit w w.app (.audit (ascii event) detail) (by simp [Event.after, h])

end Does

/-! ## What a peer reads -/

structure Writes (P : Token → Prop) (w w' : Wire α) : Prop where
  closes : w.closeRequested = true → w'.closeRequested = true
  tokens : ∃ tokens : List Token, (∀ t ∈ tokens, t.WellFormed) ∧
    w'.written = w.written ++ tokens.flatMap Token.encode ∧ ∀ t ∈ tokens, P t

namespace Writes

variable {P Q : Token → Prop} {w w' w'' : Wire α}

theorem ofWritten (hcloses : w.closeRequested = true → w'.closeRequested = true)
    (h : w'.written = w.written) : Writes P w w' :=
  ⟨hcloses, [], by simp, by simp [h], by simp⟩

theorem refl (w : Wire α) : Writes P w w := ofWritten id rfl

theorem trans (h : Writes P w w') (h' : Writes P w' w'') : Writes P w w'' := by
  obtain ⟨hcloses, tokens, hwell, hwritten, htokens⟩ := h
  obtain ⟨hcloses', tokens', hwell', hwritten', htokens'⟩ := h'
  refine ⟨hcloses' ∘ hcloses, tokens ++ tokens', ?_, ?_, ?_⟩
  · exact fun t ht => (List.mem_append.mp ht).elim (hwell t) (hwell' t)
  · rw [hwritten', hwritten, List.append_assoc, List.flatMap_append]
  · exact fun t ht => (List.mem_append.mp ht).elim (htokens t) (htokens' t)

theorem mono (h : Writes P w w') (hPQ : ∀ t, P t → Q t) : Writes Q w w' := by
  obtain ⟨hcloses, tokens, hwell, hwritten, htokens⟩ := h
  exact ⟨hcloses, tokens, hwell, hwritten, fun t ht => hPQ t (htokens t ht)⟩

theorem emit (w : Wire α) (app : α) (e : Event) (he : e.bytes = []) :
    Writes P w ({ w with app := app }.emit e) :=
  ofWritten id (by simp [Wire.emit, written, he])

theorem ofOp (w : Wire α) (op : OutputOp) (h : ∀ t ∈ op.tokens, P t) : Writes P w (op.apply w) := by
  by_cases hclosed : w.closeRequested = true
  · rw [op.apply_closed hclosed]
    exact refl w
  · have hopen : w.closeRequested = false := Bool.not_eq_true _ ▸ hclosed
    exact ⟨fun hclosed' => absurd hclosed' hclosed, op.tokens, op.wellFormed_tokens,
      (op.apply_written hopen).2, h⟩

theorem sendSubnegotiation (w : Wire α) (option : UInt8) (payload : Bytes)
    (h : P (.subnegotiation option payload)) : Writes P w (w.sendSubnegotiation option payload) :=
  ofOp w (.subnegotiation option payload) (List.forall_mem_singleton.mpr h)

end Writes

/-! ## Text, closing and hooks -/

/-- What an application can write: data, prompt markers and, if the client takes them,
GMCP messages. -/
inductive Plain (gmcp : Bool) : Token → Prop where
  | data (b : UInt8) : Plain gmcp (.data b)
  | command (c : UInt8) : Plain gmcp (.command c)
  | gmcp (h : gmcp = true) (payload : Bytes) : Plain gmcp (.subnegotiation Telnet.Opt.gmcp payload)

/-- The application is not called, and only what it can write is written. -/
structure Utters (gmcp : Bool) (w w' : Wire α) : Prop where
  does : Does [] w w'
  writes : Writes (Plain gmcp) w w'
  calls : w'.calls = w.calls

namespace Utters

variable {gmcp : Bool} {w w' w'' : Wire α}

theorem refl (w : Wire α) : Utters gmcp w w := ⟨.refl w, .refl w, rfl⟩

theorem trans (h : Utters gmcp w w') (h' : Utters gmcp w' w'') : Utters gmcp w w'' :=
  ⟨h.does.trans h'.does, h.writes.trans h'.writes, h'.calls.trans h.calls⟩

theorem ofOp (w : Wire α) (op : OutputOp) (h : ∀ t ∈ op.tokens, Plain gmcp t) :
    Utters gmcp w (op.apply w) := by
  obtain ⟨chunks, hchunks⟩ := op.apply_eq_sends w
  refine ⟨hchunks ▸ .sends w chunks, .ofOp w op h, ?_⟩
  rw [hchunks]
  exact calls_sends w chunks

theorem writeTelnetData (w : Wire α) (data : Bytes) : Utters gmcp w (w.writeTelnetData data) := by
  refine ofOp w (.data data) fun t ht => ?_
  obtain ⟨b, -, rfl⟩ := List.mem_map.mp ht
  exact .data b

theorem writeMarker (w : Wire α) (t : TelnetTerminalInfo) : Utters gmcp w (w.writeMarker t) := by
  unfold Wire.writeMarker
  split
  · exact ofOp w (.marker .eor) (List.forall_mem_singleton.mpr (.command _))
  split
  · exact ofOp w (.marker .ga) (List.forall_mem_singleton.mpr (.command _))
  · exact refl w

theorem requestClose (w : Wire α) (event : String) (message : Option Bytes) :
    Utters gmcp w (w.requestClose event message) := by
  have hrecord : ∀ w : Wire α, w.closeRequested = false →
      Utters gmcp w (w.setCloseRequested.audit event (ascii "session close requested")) := by
    intro w hopen
    refine ⟨⟨[.audit (ascii event) Event.closing], rfl, rfl, ?_⟩, .ofWritten (fun _ => rfl) ?_,
      calls_audit _ _ _⟩
    · rw [hopen]
      rfl
    · simp [Wire.audit, Wire.emit, setCloseRequested, written, Event.bytes]
  unfold Wire.requestClose
  split
  case isTrue => exact refl w
  case isFalse hclosed =>
    have hopen : w.closeRequested = false := Bool.not_eq_true _ ▸ hclosed
    cases message with
    | none => exact hrecord w hopen
    | some text => exact (writeTelnetData w text).trans (hrecord _ (by simpa [writeText] using hopen))

theorem writeApplicationTextFrom (w : Wire α) (run : Bytes) (previous : Option UInt8)
    (text : Bytes) : Utters gmcp w (w.writeApplicationTextFrom run previous text) := by
  have hflush : ∀ (w : Wire α) (run : Bytes),
      Utters gmcp w (if run ≠ [] then w.writeTelnetData run else w) := by
    intro w run
    split
    · exact writeTelnetData w run
    · exact refl w
  induction text generalizing w run previous with
  | nil => exact hflush w run
  | cons ch rest ih =>
    unfold Wire.writeApplicationTextFrom
    split
    · exact ((hflush w run).trans (writeTelnetData _ _)).trans (ih _ _ _)
    · exact ih _ _ _

/-- A GMCP message goes out only if the client takes them. -/
theorem sendGmcpMessage (w : Wire α) (t : TelnetTerminalInfo) (packageName : Bytes)
    (jsonPayload : Option Bytes) :
    Utters t.gmcp w (w.sendGmcpMessage t packageName jsonPayload).2 := by
  unfold Wire.sendGmcpMessage
  dsimp only
  split_ifs with hrefused
  · exact refl w
  · exact refl w
  · exact refl w
  · rw [Bool.or_eq_true, not_or, Bool.not_eq_true', Bool.not_eq_false] at hrefused
    exact ofOp w (.subnegotiation Telnet.Opt.gmcp _)
      (List.forall_mem_singleton.mpr (.gmcp hrefused.1 _))

theorem output (w : Wire α) (t : TelnetTerminalInfo) (c : OutputCall) :
    Utters t.gmcp w (w.output t c).2 := by
  cases c with
  | writeText text => exact writeApplicationTextFrom w [] none text
  | writePrompt text => exact (writeApplicationTextFrom w [] none text).trans (writeMarker _ t)
  | requestClose message => exact requestClose w _ message
  | sendGmcp packageName jsonPayload => exact sendGmcpMessage w t packageName jsonPayload
  | writeLink uri label =>
    simp only [Wire.output, applicationWriteLink]
    split
    · exact writeTelnetData w _
    · exact (((((writeTelnetData w _).trans (writeTelnetData _ _)).trans
        (writeTelnetData _ _)).trans (writeTelnetData _ _)).trans (writeTelnetData _ _))

theorem runHook {ρ : Type} (w : Wire α) (t : TelnetTerminalInfo) (program : HookProgram ρ) :
    Utters t.gmcp w (w.runHook t program).2 := by
  induction program generalizing w with
  | ret result => exact refl w
  | call c next ih => exact (output w t c).trans (ih _ _)

end Utters

theorem Does.requestClose (w : Wire α) (event : String) (message : Option Bytes) :
    Does [] w (w.requestClose event message) :=
  have hutters : Utters false w (w.requestClose event message) := .requestClose w event message
  hutters.does

/-- A hook may write and close. A line or a poll is for an open session only. -/
theorem Does.callHook {ρ : Type} (w : Wire α) (t : TelnetTerminalInfo) (call : ApplicationCall)
    (hopen : call.driven = true → w.closeRequested = false)
    (hook : α → HookProgram (ρ × α)) : Does [call] w (w.callHook t call hook).2 := by
  have hcall : Does [call] w (w.emit (.application call)) := by
    refine emit w w.app (.application call) ?_
    cases hdriven : call.driven with
    | false => simp [Event.after, hdriven]
    | true => simp [Event.after, hdriven, hopen hdriven]
  exact (hcall.andThen (Utters.runHook _ t (hook w.app)).does).setApp _

theorem Writes.callHook {ρ : Type} (w : Wire α) (t : TelnetTerminalInfo) (call : ApplicationCall)
    (hook : α → HookProgram (ρ × α)) : Writes (Plain t.gmcp) w (w.callHook t call hook).2 := by
  have hran := (emit w w.app (.application call) rfl).trans (Utters.runHook _ t (hook w.app)).writes
  exact ⟨hran.closes, hran.tokens⟩

end Wire

/-! ## Remarks -/

/-- What a session writes besides option commands: its payloads are short, but for a
GMCP message or a status report. -/
inductive Remark (gmcp mssp : Bool) : Token → Prop where
  | data (b : UInt8) : Remark gmcp mssp (.data b)
  | command (c : UInt8) : Remark gmcp mssp (.command c)
  | short (option : UInt8) {payload : Bytes}
      (h : payload.length ≤ Link.newEnvironRequest.length) :
      Remark gmcp mssp (.subnegotiation option payload)
  | gmcp (h : gmcp = true) (payload : Bytes) :
      Remark gmcp mssp (.subnegotiation Telnet.Opt.gmcp payload)
  | mssp (h : mssp = true) (payload : Bytes) :
      Remark gmcp mssp (.subnegotiation Telnet.Opt.mssp payload)

theorem Remark.mono {gmcp mssp gmcp' mssp' : Bool} (hgmcp : gmcp = true → gmcp' = true)
    (hmssp : mssp = true → mssp' = true) (t : Token) (h : Remark gmcp mssp t) :
    Remark gmcp' mssp' t := by
  cases h with
  | data b => exact .data b
  | command c => exact .command c
  | short option h => exact .short option h
  | gmcp h payload => exact .gmcp (hgmcp h) payload
  | mssp h payload => exact .mssp (hmssp h) payload

theorem Wire.Plain.remark {gmcp gmcp' mssp : Bool} (hgmcp : gmcp = true → gmcp' = true) (t : Token)
    (h : Plain gmcp t) : Remark gmcp' mssp t := by
  cases h with
  | data b => exact .data b
  | command c => exact .command c
  | gmcp h payload => exact .gmcp (hgmcp h) payload

/-- Only remarks are written. -/
abbrev Wire.Remarks {α : Type} (gmcp mssp : Bool) : Wire α → Wire α → Prop :=
  Writes (Remark gmcp mssp)

/-! ## Handlers -/

namespace Link

variable {α : Type}

/-- GMCP is on, or is taken to be. -/
def mayGmcp (l : Link α) : Bool :=
  l.caps.terminal.gmcp || l.caps.enabled .local_ Telnet.Opt.gmcp

/-- The application is called as `made` tells and only remarks are written. -/
structure Acts (made : List ApplicationCall) (l l' : Link α) : Prop where
  core : l'.caps.core = l.caps.core
  gmcp : l'.mayGmcp = true → l.mayGmcp = true
  wire : l.wire.Does made l'.wire
  remarks : l.wire.Remarks l.mayGmcp false l'.wire

/-- The application is not called at all. -/
abbrev Still (l l' : Link α) : Prop := Acts [] l l'

theorem Acts.trans {made made' : List ApplicationCall} {l l' l'' : Link α} (h : Acts made l l')
    (h' : Acts made' l' l'') : Acts (made ++ made') l l'' :=
  ⟨h'.core.trans h.core, h.gmcp ∘ h'.gmcp, h.wire.trans h'.wire,
    h.remarks.trans (h'.remarks.mono (Remark.mono h.gmcp id))⟩

theorem mayGmcp_of_terminal {l : Link α} (h : l.caps.terminal.gmcp = true) : l.mayGmcp = true :=
  Bool.or_eq_true_iff.mpr (.inl h)

/-- Besides, no gated call is made, no violation counted, and the bounds are kept. -/
structure Serves (made : List ApplicationCall) (l l' : Link α) : Prop extends Acts made l l' where
  calls : l'.wire.calls = l.wire.calls
  keeps : l.caps.Keeps l'.caps

namespace Serves

variable {made made' : List ApplicationCall} {l m l' : Link α}

theorem trans (h : Serves made l m) (h' : Serves made' m l') : Serves (made ++ made') l l' :=
  ⟨h.toActs.trans h'.toActs, h'.calls.trans h.calls, h.keeps.trans h'.keeps⟩

theorem andThen (h : Serves [] l m) (h' : Serves made m l') : Serves made l l' := h.trans h'

theorem ite {a b : Link α} {p : Prop} [Decidable p] (ha : Serves made l a)
    (hb : Serves made l b) : Serves made l (if p then a else b) := by
  split
  · exact ha
  · exact hb

theorem quiet (h : Serves made l l') : l.Quiet l' :=
  ⟨h.calls.trans (List.append_nil _).symm, h.remarks.closes, h.keeps⟩

theorem ofCaps (l : Link α) {caps : Capability} (h : l.caps.Learns caps) :
    Serves [] l { l with caps := caps } := by
  refine ⟨⟨h.core, fun hmay => ?_, .refl _, .refl _⟩, rfl, h.toKeeps⟩
  have hoptions : caps.options = l.caps.options := congrArg Core.options h.core
  simpa only [mayGmcp, Capability.enabled, hoptions, h.gmcp] using hmay

theorem refl (l : Link α) : Serves [] l l := ofCaps l (.refl _)

theorem ofWire (l : Link α) {wire : Wire α} (hdoes : l.wire.Does [] wire)
    (hremarks : l.wire.Remarks l.mayGmcp false wire) (hcalls : wire.calls = l.wire.calls) :
    Serves [] l { l with wire := wire } :=
  ⟨⟨rfl, id, hdoes, hremarks⟩, hcalls, .refl _⟩

theorem ofUtters (l : Link α) {wire : Wire α} (h : l.wire.Utters l.caps.terminal.gmcp wire) :
    Serves [] l { l with wire := wire } :=
  ofWire l h.does (h.writes.mono (Wire.Plain.remark mayGmcp_of_terminal)) h.calls

theorem audit (h : Serves [] l m) (event : String) {detail : String}
    (hdetail : ascii detail ≠ Event.closing) : Serves [] l (m.audit event detail) :=
  h.trans (ofWire m (.audit m.wire event hdetail) (.emit m.wire m.wire.app _ rfl)
    (Wire.calls_audit _ _ _))

theorem requestClose (h : Serves [] l m) (event : String) (message : Option Bytes) :
    Serves [] l (m.requestClose event message) :=
  h.trans (ofUtters m (.requestClose m.wire event message))

/-- Every payload of the handlers is short. -/
theorem sendSubnegotiation (h : Serves [] l m) (option : UInt8) {payload : Bytes}
    (hshort : payload.length ≤ newEnvironRequest.length) :
    Serves [] l (m.sendSubnegotiation option payload) :=
  h.trans (ofWire m (.sendSubnegotiation m.wire option payload)
    (.sendSubnegotiation m.wire option payload (.short option hshort))
    (by rw [Wire.sendSubnegotiation_eq_sends, Wire.calls_sends]))

end Serves

theorem effect_callHook {ρ : Type} (l : Link α) (call : ApplicationCall)
    (hook : α → Wire.HookProgram (ρ × α)) :
    Effect (Event.application call).gated?.toList l (l.callHook call hook).2 :=
  have hran := Wire.Utters.runHook (l.wire.emit (.application call)) l.caps.terminal
    (hook l.wire.app)
  ⟨hran.calls.trans (Wire.calls_emit _ _), hran.writes.closes, .refl _⟩

theorem acts_callHook {ρ : Type} (l : Link α) {call : ApplicationCall}
    (hopen : call.driven = true → l.wire.closeRequested = false)
    (hook : α → Wire.HookProgram (ρ × α)) : Acts [call] l (l.callHook call hook).2 :=
  ⟨rfl, id, .callHook l.wire l.caps.terminal call hopen hook,
    (Wire.Writes.callHook l.wire l.caps.terminal call hook).mono
      (Wire.Plain.remark mayGmcp_of_terminal)⟩

theorem serves_callHook {ρ : Type} (l : Link α) {call : ApplicationCall}
    (hopen : call.driven = true → l.wire.closeRequested = false)
    (hfree : (Event.application call).gated? = none)
    (hook : α → Wire.HookProgram (ρ × α)) : Serves [call] l (l.callHook call hook).2 := by
  have heffect := effect_callHook l call hook
  rw [hfree] at heffect
  exact ⟨acts_callHook l hopen hook, heffect.calls_eq.trans (List.append_nil _), heffect.keeps⟩

theorem callHook_conduct {ρ : Type} {l l' : Link α} {call : ApplicationCall}
    {hook : α → Wire.HookProgram (ρ × α)} {result : ρ} (h : l.callHook call hook = (result, l'))
    (hopen : call.driven = true → l.wire.closeRequested = false) :
    l'.caps = l.caps ∧ l.wire.Does [call] l'.wire := by
  obtain rfl : (l.callHook call hook).2 = l' := by rw [h]
  exact ⟨rfl, (acts_callHook l hopen hook).wire⟩

/-! ### Requests and notifications -/

theorem does_sendOptionCommands (l : Link α) (result : TelnetQ × List OptionCommand) :
    l.wire.Does [] (l.sendOptionCommands result).wire := by
  unfold sendOptionCommands
  rw [foldl_writeTelnetOptionRaw]
  exact .sends l.wire _

theorem serves_requestTerminalType (l : Link α) : Serves [] l l.requestTerminalType := by
  unfold requestTerminalType
  split
  case isTrue => exact .refl l
  case isFalse hsend =>
    simp only [Bool.or_eq_true, decide_eq_true_eq, not_or] at hsend
    have hroom : l.caps.terminalTypeRequestsSent + 1 ≤ terminalTypeRequestLimit := by omega
    have hcaps : l.caps.Learns { l.caps with
        terminalTypeRequestsSent := l.caps.terminalTypeRequestsSent + 1
        terminalTypeWaiting := true } :=
      ⟨⟨rfl, fun hc => { hc with terminalTypeRequests := hroom }⟩, rfl⟩
    exact .sendSubnegotiation (.ofCaps l hcaps) _ (by decide +kernel)

theorem serves_requestCharset (l : Link α) : Serves [] l l.requestCharset := by
  refine .ite (.refl l) (.sendSubnegotiation ?_ _ (by decide +kernel))
  exact .ofCaps l (.of_fields rfl rfl)

theorem serves_requestNewEnviron (l : Link α) : Serves [] l l.requestNewEnviron := by
  refine .ite (.refl l) (.sendSubnegotiation ?_ _ le_rfl)
  exact .ofCaps l (.of_fields rfl rfl)

/-- The call that tells the application what the terminal is now. -/
def notices (hooks : Application α) (c : Capability) : List ApplicationCall :=
  match c.applicationSession, hooks.capabilitiesChanged with
  | some session, some _ => [.capabilitiesChanged session (copyTerminalCapabilities c.terminal)]
  | _, _ => []

theorem serves_notifyApplicationCapabilities (hooks : Application α) (l : Link α) :
    Serves (notices hooks l.caps) l (l.notifyApplicationCapabilities hooks) ∧
      (l.notifyApplicationCapabilities hooks).caps = l.caps := by
  unfold notifyApplicationCapabilities notices
  cases l.caps.applicationSession with
  | none => exact ⟨.refl l, rfl⟩
  | some session =>
    cases hooks.capabilitiesChanged with
    | none => exact ⟨.refl l, rfl⟩
    | some hook => exact ⟨serves_callHook l (fun h => by cases h) rfl _, rfl⟩

/-- The application hears of the terminal as it is in the end. -/
theorem serves_updateOptionMetadata (hooks : Application α) (l : Link α) :
    Serves (notices hooks (l.updateOptionMetadata hooks).caps) l
      (l.updateOptionMetadata hooks) := by
  -- the copy of the GMCP side may change here, to what the option side is
  have hcopied : Serves [] l
      { l with caps := (copyOptionMetadata l.caps).refreshUtf8Metadata } :=
    ⟨⟨rfl, fun hmay => Bool.or_eq_true_iff.mpr (.inr ((Bool.or_self _).symm.trans hmay)), .refl _,
      .refl _⟩, rfl, .of_fields rfl⟩
  have hrequested := ((hcopied.trans (serves_requestTerminalType _)).trans
    (serves_requestCharset _)).trans (serves_requestNewEnviron _)
  obtain ⟨hnotified, hcaps⟩ := serves_notifyApplicationCapabilities hooks
    ({ l with caps := (copyOptionMetadata l.caps).refreshUtf8Metadata }.requestTerminalType
      |>.requestCharset |>.requestNewEnviron)
  rw [updateOptionMetadata, hcaps]
  exact hrequested.trans hnotified

/-- The status report is the only token that needs MSSP. -/
theorem sendMsspStatus_conduct (hooks : Application α) (l : Link α) (gmcp : Bool) :
    l.caps.Learns (l.sendMsspStatus hooks).caps ∧
      l.wire.Does [] (l.sendMsspStatus hooks).wire ∧
      l.wire.Remarks gmcp (l.caps.enabled .local_ Telnet.Opt.mssp) (l.sendMsspStatus hooks).wire ∧
      (l.sendMsspStatus hooks).wire.calls = l.wire.calls := by
  unfold sendMsspStatus
  split
  case h_1 => exact ⟨.refl _, .refl _, .refl _, rfl⟩
  split
  case isTrue => exact ⟨.refl _, .refl _, .refl _, rfl⟩
  case h_2.isFalse query _ hasked =>
    rw [Bool.or_eq_true, not_or, Bool.not_eq_true', Bool.not_eq_false] at hasked
    have hqueried : l.wire.Does [] ({ l.wire with app := (query l.wire.app).2 }.emit .msspQuery) :=
      .emit l.wire _ .msspQuery rfl
    have hremarks : l.wire.Remarks gmcp (l.caps.enabled .local_ Telnet.Opt.mssp)
        ({ l.wire with app := (query l.wire.app).2 }.emit .msspQuery) := .emit _ _ _ rfl
    have hcalls := Wire.calls_emit { l.wire with app := (query l.wire.app).2 } .msspQuery
    rw [show Event.msspQuery.gated?.toList = [] from rfl, List.append_nil] at hcalls
    dsimp only
    split
    · exact ⟨.refl _, hqueried.trans (.audit _ _ (by decide)), hremarks.trans (.emit _ _ _ rfl),
        (Wire.calls_audit _ _ _).trans hcalls⟩
    · exact ⟨.refl _, hqueried, hremarks, hcalls⟩
    · refine ⟨.of_fields rfl rfl, hqueried.trans (.sendSubnegotiation _ _ _),
        hremarks.trans (.sendSubnegotiation _ _ _ (.mssp hasked.2 _)), ?_⟩
      rw [sendSubnegotiation, Wire.sendSubnegotiation_eq_sends]
      exact (Wire.calls_sends _ _).trans hcalls

theorem notices_sendMsspStatus (hooks : Application α) (l : Link α) :
    notices hooks (l.sendMsspStatus hooks).caps = notices hooks l.caps := by
  unfold sendMsspStatus
  split
  · rfl
  · split
    · rfl
    · dsimp only
      split <;> rfl

/-! ### Option commands and reports -/

/-- What follows the answer to an option command. -/
theorem serves_updateReset (hooks : Application α) (before : Capability) (l : Link α) :
    let reset := { l with caps := resetDisabled before l.caps }
    Serves (notices hooks (reset.updateOptionMetadata hooks).caps) l
      (reset.updateOptionMetadata hooks) :=
  (Serves.ofCaps l (Capability.resetDisabled_learns before l.caps)).andThen
    (serves_updateOptionMetadata hooks _)

theorem quiet_receiveTelnetOption (hooks : Application α) (l : Link α) (command option : UInt8) :
    l.Quiet (l.receiveTelnetOption hooks command option) := by
  have hupdated := (quiet_sendOptionCommands l
    (telnetQReceive l.caps.options command option (qAccept hooks l.caps))).trans
    (serves_updateReset hooks l.caps _).quiet
  unfold receiveTelnetOption
  dsimp only
  split
  · obtain ⟨hmssp, -, hremarks, hcalls⟩ :=
      sendMsspStatus_conduct hooks (updateOptionMetadata hooks _) false
    exact hupdated.trans ⟨hcalls.trans (List.append_nil _).symm, hremarks.closes, hmssp.toKeeps⟩
  · exact hupdated

/-- An option command changes the option state as the state machine says, and the
application hears of the terminal as it is in the end. -/
theorem receiveTelnetOption_conduct (hooks : Application α) (l : Link α) (command option : UInt8) :
    let l' := l.receiveTelnetOption hooks command option
    l'.caps.core = { l.caps.core with
        options := (telnetQReceive l.caps.options command option (qAccept hooks l.caps)).1 } ∧
      l.wire.Does (notices hooks l'.caps) l'.wire := by
  set m := l.sendOptionCommands
    (telnetQReceive l.caps.options command option (qAccept hooks l.caps)) with hm
  have hupdated := serves_updateReset hooks l.caps m
  have hsent : l.wire.Does [] m.wire := does_sendOptionCommands l _
  have hcore : m.caps.core = { l.caps.core with
    options := (telnetQReceive l.caps.options command option (qAccept hooks l.caps)).1 } := rfl
  unfold receiveTelnetOption
  dsimp only
  split
  · obtain ⟨hmssp, hquery, -⟩ := sendMsspStatus_conduct hooks
      (updateOptionMetadata hooks { m with caps := resetDisabled l.caps m.caps }) false
    rw [notices_sendMsspStatus]
    exact ⟨hmssp.core.trans (hupdated.core.trans hcore), (hsent.trans hupdated.wire).andThen hquery⟩
  · exact ⟨hupdated.core.trans hcore, hsent.trans hupdated.wire⟩

theorem still_noteProtocolViolation {l m : Link α} (h : Serves [] l m) {detail : String}
    (hdetail : ascii detail ≠ Event.closing) : l.Still (m.noteProtocolViolation detail) := by
  have hcounted : m.Still { m with caps.protocolViolations := m.caps.protocolViolations + 1 } :=
    ⟨rfl, id, .refl _, .refl _⟩
  have hnoted := Serves.audit (.refl { m with
    caps.protocolViolations := m.caps.protocolViolations + 1 }) "telnet_protocol_violation" hdetail
  unfold noteProtocolViolation
  dsimp only
  split
  · exact (h.toActs.trans hcounted).trans (hnoted.requestClose _ _).toActs
  · exact (h.toActs.trans hcounted).trans hnoted.toActs

/-- What the handlers that check their payload do: at the end they may note one violation. -/
inductive Noted (l : Link α) : Link α → Prop where
  | serves {l' : Link α} (h : Serves [] l l') : Noted l l'
  | violation {m : Link α} (h : Serves [] l m) {detail : String}
      (hdetail : ascii detail ≠ Event.closing) : Noted l (m.noteProtocolViolation detail)

namespace Noted

variable {l l' : Link α}

theorem ite {a b : Link α} {p : Prop} [Decidable p] (ha : l.Noted a) (hb : l.Noted b) :
    l.Noted (if p then a else b) := by
  split
  · exact ha
  · exact hb

theorem still (h : l.Noted l') : l.Still l' := by
  cases h with
  | serves h => exact h.toActs
  | violation h hdetail => exact still_noteProtocolViolation h hdetail

theorem calls (h : l.Noted l') : l'.wire.calls = l.wire.calls := by
  cases h with
  | serves h => exact h.calls
  | violation h hdetail =>
    unfold noteProtocolViolation
    dsimp only
    split <;> simpa [requestClose, audit] using h.calls

end Noted

theorem clampDimension_bounds {minimum maximum fallback : Nat} (hmin : minimum ≤ fallback)
    (hmax : fallback ≤ maximum) (value : Nat) :
    minimum ≤ clampDimension value minimum maximum fallback ∧
      clampDimension value minimum maximum fallback ≤ maximum := by
  unfold clampDimension
  split_ifs <;> omega

theorem noted_handleNaws (l : Link α) (payload : Bytes) : l.Noted (l.handleNaws payload) := by
  unfold handleNaws
  refine .ite (.serves (.refl l)) ?_
  split
  · refine .serves (.ofCaps l ⟨⟨rfl, fun hc => { hc with width := ?_, height := ?_ }⟩, rfl⟩)
    · exact clampDimension_bounds (by decide) (by decide) _
    · exact clampDimension_bounds (by decide) (by decide) _
  · exact .violation (.refl l) (by decide)

theorem terminalTypeReport_detail {payload : Bytes} {detail : String}
    (h : terminalTypeReport payload = .error detail) : ascii detail ≠ Event.closing := by
  have hmalformed : ascii "malformed terminal type payload" ≠ Event.closing := by decide
  have hinvalid : ascii "invalid terminal type payload" ≠ Event.closing := by decide
  unfold terminalTypeReport at h
  split at h
  · split at h
    · exact Except.error.inj h ▸ hmalformed
    · dsimp only at h
      split at h
      · exact Except.error.inj h ▸ hinvalid
      · cases h
  · exact Except.error.inj h ▸ hmalformed

theorem noted_handleTerminalType (l : Link α) (payload : Bytes) :
    l.Noted (l.handleTerminalType payload) := by
  have hwaiting : Serves [] l { l with caps.terminalTypeWaiting := false } :=
    .ofCaps l (.of_fields rfl rfl)
  unfold handleTerminalType
  refine .ite (.serves (.refl l)) ?_
  dsimp only
  split
  case h_1 detail hreport => exact .violation hwaiting (terminalTypeReport_detail hreport)
  case h_2 reported hreport =>
    obtain ⟨hlen, hprintable⟩ := Capability.terminalTypeReport_printable hreport
    have hfacts : ∀ c : Capability,
        c.Learns ((c.parseMttsReport reported).getD (applyTerminalType c reported)) := by
      intro c
      cases hmtts : c.parseMttsReport reported with
      | some c' => exact Capability.parseMttsReport_learns hmtts
      | none => exact Capability.applyTerminalType_learns c hlen hprintable
    have hlast : ∀ c : Capability, c.Learns { c with lastTerminalType := reported } :=
      fun _ => .of_fields rfl rfl
    have hset := hwaiting.andThen (.ofCaps _ ((hfacts _).trans (hlast _)))
    exact .ite (.serves hset)
      (.ite (.serves (hset.andThen (serves_requestTerminalType _))) (.serves hset))

theorem serves_acceptUtf8 {l m : Link α} (h : Serves [] l m) : Serves [] l m.acceptUtf8 := by
  refine .audit ?_ _ (by decide)
  exact h.andThen (.ofCaps m (.of_fields rfl rfl))

theorem noted_handleCharset (l : Link α) (payload : Bytes) : l.Noted (l.handleCharset payload) := by
  have hsend : ∀ answer : Bytes, answer.length ≤ newEnvironRequest.length →
      Serves [] l (l.sendSubnegotiation Telnet.Opt.charset answer) :=
    fun _ hshort => .sendSubnegotiation (.refl l) _ hshort
  unfold handleCharset
  refine .ite (.serves (.refl l)) ?_
  split
  · exact .violation (.refl l) (by decide)
  · refine .ite (.ite (.serves (.refl l))
      (.ite (.serves (serves_acceptUtf8 (hsend _ (by decide +kernel))))
        (.serves (hsend _ (by decide +kernel)))))
      (.ite (.serves (.refl l)) (.ite (.serves (serves_acceptUtf8 (.refl l)))
        (.ite (.serves ?_) (.violation (.refl l) (by decide)))))
    exact .ofCaps l (.of_fields rfl rfl)

theorem quiet_handleNewEnviron (hooks : Application α) (l : Link α) (payload : Bytes) :
    l.Quiet (l.handleNewEnviron hooks payload) := by
  unfold handleNewEnviron
  split
  · exact .refl l
  split
  case h_1 => exact .refl l
  case h_2 command report =>
    have hentries := Serves.ofCaps l
      (Capability.environEntries_learns report.length report l.caps)
    dsimp only
    split_ifs
    · exact .refl l
    · exact (hentries.andThen (serves_updateOptionMetadata hooks _)).quiet
    · exact hentries.quiet

/-! ### GMCP -/

/-- The message `handle_gmcp` accepts, if the payload has one and the option is on. -/
def acceptedGmcp (c : Capability) (payload : Bytes) : Option PendingGmcpCoreMessage :=
  if !c.enabled .local_ Telnet.Opt.gmcp || payload = [] then none
  else (gmcpMessage payload).toOption

/-- The early messages after one more. -/
def queued (hooks : Application α) (queue : List PendingGmcpCoreMessage)
    (message : PendingGmcpCoreMessage) : List PendingGmcpCoreMessage :=
  if hooks.gmcp.isNone || !gmcpCoreHandshakePackage message.packageName then queue
  else if queue.length ≥ pendingGmcpCoreMax then queue
  else queue ++ [message]

def gmcpCall (session : Nat) (message : PendingGmcpCoreMessage) : ApplicationCall :=
  .gmcp session message.packageName message.jsonPayload

theorem serves_callGmcp (l : Link α) (session : Nat)
    (hook : Nat → Bytes → Bytes → α → Wire.HookProgram (Unit × α))
    (message : PendingGmcpCoreMessage) :
    Serves [gmcpCall session message] l (l.callGmcp session hook message) :=
  serves_callHook l (fun h => by cases h) rfl _

theorem queuePreAuthGmcpCore_conduct (hooks : Application α) (l : Link α)
    (message : PendingGmcpCoreMessage) :
    let l' := l.queuePreAuthGmcpCore hooks message.packageName message.jsonPayload
    l'.caps = { l.caps with pendingGmcpCore := queued hooks l.caps.pendingGmcpCore message } ∧
      l.wire.Does [] l'.wire := by
  unfold queuePreAuthGmcpCore queued
  dsimp only
  split_ifs
  · exact ⟨rfl, .refl _⟩
  · exact ⟨rfl, (Serves.audit (.refl l) _ (by decide)).wire⟩
  · exact ⟨rfl, .refl _⟩

theorem quiet_queuePreAuthGmcpCore (hooks : Application α) (l : Link α)
    (packageName jsonPayload : Bytes) :
    l.Quiet (l.queuePreAuthGmcpCore hooks packageName jsonPayload) := by
  unfold queuePreAuthGmcpCore
  split
  · exact .refl l
  split
  · exact (Serves.audit (.refl l) _ (by decide)).quiet
  case isFalse hroom =>
    refine .ofCaps l ⟨rfl, fun hc => { hc with pendingGmcpCore := ?_ }⟩
    simp only [List.length_append, List.length_singleton]
    omega

/-- A relation that a call with a message and the end of the waiting keep. -/
theorem replayPreAuthGmcpCore_keeps {R : Link α → Link α → Prop} (hrefl : ∀ l, R l l)
    (htrans : ∀ {l m l'}, R l m → R m l' → R l l')
    (hcall : ∀ l session hook message, R l (callGmcp l session hook message))
    (hend : ∀ l, R l { l with caps.pendingGmcpCore := [] }) (hooks : Application α) (l : Link α) :
    R l (l.replayPreAuthGmcpCore hooks) := by
  have hcalls : ∀ (messages : List PendingGmcpCoreMessage) (session : Nat)
      (hook : Nat → Bytes → Bytes → α → Wire.HookProgram (Unit × α)) (m : Link α),
      R m (messages.foldl (fun l message => callGmcp l session hook message) m) := by
    intro messages session hook
    induction messages with
    | nil => exact hrefl
    | cons message rest ih => exact fun m => htrans (hcall m session hook message) (ih _)
  unfold replayPreAuthGmcpCore
  refine htrans ?_ (hend _)
  split
  · exact hcalls _ _ _ l
  · exact hrefl l

theorem quiet_replayPreAuthGmcpCore (hooks : Application α) (l : Link α) :
    l.Quiet (l.replayPreAuthGmcpCore hooks) := by
  refine replayPreAuthGmcpCore_keeps (R := Quiet) .refl .trans
    (fun l session hook message => (serves_callGmcp l session hook message).quiet) (fun l => ?_)
    hooks l
  exact .ofCaps l ⟨rfl, fun hc => { hc with pendingGmcpCore := Nat.zero_le _ }⟩

/-- All waiting messages are handed over in order, and none waits any more. -/
theorem replayPreAuthGmcpCore_conduct (hooks : Application α) {l : Link α} {session : Nat}
    (hsession : l.caps.applicationSession = some session) :
    let l' := l.replayPreAuthGmcpCore hooks
    l'.caps = { l.caps with pendingGmcpCore := [] } ∧
      l.wire.Does (if hooks.gmcp.isSome then l.caps.pendingGmcpCore.map (gmcpCall session) else [])
        l'.wire := by
  have hcalls : ∀ (hook : Nat → Bytes → Bytes → α → Wire.HookProgram (Unit × α))
      (messages : List PendingGmcpCoreMessage) (m : Link α),
      let m' := messages.foldl (fun l message => callGmcp l session hook message) m
      m'.caps = m.caps ∧ m.wire.Does (messages.map (gmcpCall session)) m'.wire := by
    intro hook messages
    induction messages with
    | nil => exact fun m => ⟨rfl, .refl _⟩
    | cons message rest ih =>
      intro m
      obtain ⟨hcaps, hwire⟩ := ih (m.callGmcp session hook message)
      exact ⟨hcaps, (serves_callGmcp m session hook message).wire.trans hwire⟩
  unfold replayPreAuthGmcpCore
  rw [hsession]
  cases hgmcp : hooks.gmcp with
  | none => exact ⟨rfl, .refl _⟩
  | some hook =>
    obtain ⟨hcaps, hwire⟩ := hcalls hook l.caps.pendingGmcpCore l
    exact ⟨congrArg (fun caps : Capability => { caps with pendingGmcpCore := [] }) hcaps, hwire⟩

theorem gmcpMessage_detail {payload : Bytes} {detail : String}
    (h : gmcpMessage payload = .error detail) : ascii detail ≠ Event.closing := by
  have hlong : ascii "package name too long" ≠ Event.closing := by decide
  have hname : ascii "invalid package name" ≠ Event.closing := by decide
  have hbody : ascii "invalid or oversized UTF-8 body" ≠ Event.closing := by decide
  unfold gmcpMessage at h
  dsimp only at h
  split_ifs at h
  · exact Except.error.inj h ▸ hlong
  · exact Except.error.inj h ▸ hname
  · exact Except.error.inj h ▸ hbody

theorem handleGmcp_ignored (hooks : Application α) {l : Link α} {payload : Bytes}
    (h : acceptedGmcp l.caps payload = none) :
    (l.handleGmcp hooks payload).caps = l.caps ∧ Serves [] l (l.handleGmcp hooks payload) := by
  unfold acceptedGmcp at h
  unfold handleGmcp
  split
  case isTrue => exact ⟨rfl, .refl l⟩
  case isFalse hchecked =>
    rw [if_neg hchecked] at h
    cases hmessage : gmcpMessage payload with
    | error detail =>
      exact ⟨rfl, .audit (.refl l) _ (gmcpMessage_detail hmessage)⟩
    | ok message => simp [hmessage, Except.toOption] at h

/-- A message that is accepted may be answered, then it is handed over or waits. -/
theorem exists_handleGmcp (hooks : Application α) {l : Link α} {payload : Bytes}
    {message : PendingGmcpCoreMessage} (h : acceptedGmcp l.caps payload = some message) :
    ∃ m, Serves [] l m ∧ m.caps = l.caps ∧ l.handleGmcp hooks payload =
      match l.caps.applicationSession, hooks.gmcp with
      | some session, some hook => m.callGmcp session hook message
      | _, _ => m.queuePreAuthGmcpCore hooks message.packageName message.jsonPayload := by
  have hping : Serves [] l { l with
      wire := (l.wire.sendGmcpMessage l.caps.terminal (ascii "Core.Ping") none).2 } :=
    .ofUtters l (.sendGmcpMessage l.wire l.caps.terminal (ascii "Core.Ping") none)
  unfold acceptedGmcp at h
  unfold handleGmcp
  split at h
  case isTrue => cases h
  case isFalse hchecked =>
    rw [if_neg hchecked]
    cases hmessage : gmcpMessage payload with
    | error detail => simp [hmessage, Except.toOption] at h
    | ok message' =>
      obtain rfl : message' = message := by simpa [hmessage, Except.toOption] using h
      set m := if gmcpPackageEqual message'.packageName (ascii "Core.Ping") then
          { l with wire := (l.wire.sendGmcpMessage l.caps.terminal (ascii "Core.Ping") none).2 }
        else l
      have hcaps : m.caps = l.caps := by
        simp only [m]
        split <;> rfl
      have hsame : (match m.caps.applicationSession, hooks.gmcp with
          | some session, some hook => m.callGmcp session hook message'
          | _, _ => m.queuePreAuthGmcpCore hooks message'.packageName message'.jsonPayload) =
          match l.caps.applicationSession, hooks.gmcp with
          | some session, some hook => m.callGmcp session hook message'
          | _, _ => m.queuePreAuthGmcpCore hooks message'.packageName message'.jsonPayload := by
        rw [hcaps]
      exact ⟨m, .ite hping (.refl l), hcaps, hsame⟩

theorem handleGmcp_attached (hooks : Application α) {l : Link α} {payload : Bytes}
    {message : PendingGmcpCoreMessage} (h : acceptedGmcp l.caps payload = some message)
    {session : Nat} (hsession : l.caps.applicationSession = some session)
    (hgmcp : hooks.gmcp.isSome = true) :
    (l.handleGmcp hooks payload).caps = l.caps ∧
      l.wire.Does [gmcpCall session message] (l.handleGmcp hooks payload).wire := by
  obtain ⟨hook, hhook⟩ := Option.isSome_iff_exists.mp hgmcp
  obtain ⟨m, hserves, hcaps, heq⟩ := exists_handleGmcp hooks h
  rw [heq, hsession, hhook]
  exact ⟨hcaps, hserves.wire.trans (serves_callGmcp m session hook message).wire⟩

theorem handleGmcp_waiting (hooks : Application α) {l : Link α} {payload : Bytes}
    {message : PendingGmcpCoreMessage} (h : acceptedGmcp l.caps payload = some message)
    (hno : l.caps.applicationSession = none ∨ hooks.gmcp = none) :
    (l.handleGmcp hooks payload).caps = { l.caps with
        pendingGmcpCore := queued hooks l.caps.pendingGmcpCore message } ∧
      l.wire.Does [] (l.handleGmcp hooks payload).wire := by
  obtain ⟨m, hserves, hcaps, heq⟩ := exists_handleGmcp hooks h
  have hqueue : l.handleGmcp hooks payload =
      m.queuePreAuthGmcpCore hooks message.packageName message.jsonPayload := by
    rw [heq]
    rcases hno with hno | hno
    · rw [hno]
    · rw [hno]
      split
      · cases ‹_›
      · rfl
  obtain ⟨hcaps', hwire⟩ := queuePreAuthGmcpCore_conduct hooks m message
  rw [hqueue]
  exact ⟨hcaps ▸ hcaps', hserves.wire.trans hwire⟩

theorem quiet_handleGmcp (hooks : Application α) (l : Link α) (payload : Bytes) :
    l.Quiet (l.handleGmcp hooks payload) := by
  cases haccepted : acceptedGmcp l.caps payload with
  | none => exact (handleGmcp_ignored hooks haccepted).2.quiet
  | some message =>
    obtain ⟨m, hserves, -, heq⟩ := exists_handleGmcp hooks haccepted
    rw [heq]
    split
    · exact hserves.quiet.trans (serves_callGmcp _ _ _ _).quiet
    · exact hserves.quiet.trans (quiet_queuePreAuthGmcpCore hooks _ _ _)

theorem finishSubnegotiation_cases (hooks : Application α) (l : Link α) (option : UInt8)
    (payload : Bytes) :
    l.Noted (l.finishSubnegotiation hooks option payload) ∨
      l.Quiet (l.finishSubnegotiation hooks option payload) := by
  unfold finishSubnegotiation
  split_ifs
  · exact .inl (noted_handleNaws l payload)
  · exact .inl (noted_handleTerminalType l payload)
  · exact .inl (noted_handleCharset l payload)
  · exact .inr (quiet_handleNewEnviron hooks l payload)
  · exact .inr (quiet_handleGmcp hooks l payload)
  · exact .inr (.refl l)

end Link

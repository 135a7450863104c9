-- SUMMARY: What a session says in reply to option commands and subnegotiations, and what one action says on the wire.
import TelnetTlsServer.Session.Coherence
import TelnetTlsServer.Session.Conduct
import TelnetTlsServer.Session.Speech
import TelnetTlsServer.Session.Subnegotiation

/-!
# Replies

A subnegotiation is answered with remarks only. An option command is answered with the
commands of the option state, then with the probes and the status report that the new
state calls for. `Conn.act_byte_cases` puts this together for a byte that a session reads.
-/

open TelnetGrammar (Token)

/-! ## Handlers -/

namespace Link

variable {α : Type}

theorem Speaks.ite {l a b : Link α} {requests : List OptionRequest} {p : Prop} [Decidable p]
    (ha : Speaks requests l a) (hb : Speaks requests l b) :
    Speaks requests l (if p then a else b) := by
  split
  · exact ha
  · exact hb

theorem speaks_queuePreAuthGmcpCore (hooks : Application α) (l : Link α)
    (packageName jsonPayload : Bytes) :
    Speaks [] l (l.queuePreAuthGmcpCore hooks packageName jsonPayload) :=
  .ite (.refl l) (.ite (.audit l _ _) (.ofCaps rfl rfl rfl))

theorem speaks_handleGmcp (hooks : Application α) (l : Link α) (payload : Bytes) :
    Speaks [] l (l.handleGmcp hooks payload) := by
  unfold handleGmcp
  refine .ite (.refl l) ?_
  split
  · exact .audit l _ _
  · rename_i message hmessage
    have hping : Speaks [] l (if gmcpPackageEqual message.packageName (ascii "Core.Ping") then
        { l with wire := (l.wire.sendGmcpMessage l.caps.terminal (ascii "Core.Ping") none).2 }
        else l) :=
      .ite (.ofUtters (.sendGmcpMessage _ _ _ _)) (.refl l)
    dsimp only
    split
    · exact hping.trans (.callHook _ _ _)
    · exact hping.trans (speaks_queuePreAuthGmcpCore hooks _ _ _)

theorem speaks_finishSubnegotiation (hooks : Application α) (l : Link α) (option : UInt8)
    (payload : Bytes) : Speaks [] l (l.finishSubnegotiation hooks option payload) := by
  by_cases hoption : option = Telnet.Opt.gmcp
  · subst hoption
    exact speaks_handleGmcp hooks l payload
  · rcases finishSubnegotiation_conduct hooks l hoption payload with ⟨-, hacts⟩ | ⟨hstill, -⟩
    · exact .ofActs hacts
    · exact .ofActs hstill

/-! ## Option commands -/

/-- What an option command does: the option state hears it, and what goes out are the
commands of the option state and remarks. -/
structure Hears (hooks : Application α) (command option : UInt8) (l l' : Link α) : Prop where
  options : l'.caps.options =
    (telnetQReceive l.caps.options command option (qAccept hooks l.caps)).1
  desired : l'.caps.echoDesired = l.caps.echoDesired
  closes : l.wire.closeRequested = true → l'.wire.closeRequested = true
  writes : l'.wire.closeRequested = false →
    Writes (l.caps.terminal.gmcp || l'.caps.enabled .local_ Telnet.Opt.gmcp)
      (l'.caps.enabled .local_ Telnet.Opt.mssp)
      (telnetQReceive l.caps.options command option (qAccept hooks l.caps)).2 l.wire l'.wire

/-- The commands go out first, then what the new state calls for. -/
theorem Hears.ofAnswer {hooks : Application α} {l answered updated l' : Link α}
    {direction : TelnetQDirection} {sign : Bool} {option : UInt8}
    (hanswer : answered = l.sendOptionCommands (telnetQReceive l.caps.options
      (signCommand direction sign) option (qAccept hooks l.caps)))
    {made : List ApplicationCall} (hacts : Acts made answered updated)
    (hvoice : updated.caps.Learns l'.caps)
    (hremarks : updated.wire.Remarks answered.mayGmcp
      (updated.caps.enabled .local_ Telnet.Opt.mssp) l'.wire) :
    Hears hooks (signCommand direction sign) option l l' := by
  have hsigned := telnetQReceive_actsAs l.caps.options direction sign option (qAccept hooks l.caps)
  have hupdated : Speaks [] answered updated := .ofActs hacts
  have hcloses : answered.wire.closeRequested = l.wire.closeRequested :=
    hanswer ▸ closeRequested_sendOptionCommands l _
  have hheard : l'.caps.options = answered.caps.options :=
    (congrArg Core.options hvoice.core).trans hupdated.options
  have hwish : updated.caps.echoDesired = answered.caps.echoDesired :=
    (hupdated.desired (fun _ _ => answered.caps.echoDesired) rfl).symm
  have henabled : ∀ o, l'.caps.enabled .local_ o = updated.caps.enabled .local_ o := fun o =>
    congrArg (telnetQEnabled · .local_ o) (congrArg Core.options hvoice.core)
  refine ⟨hheard.trans (hanswer ▸ rfl),
    (congrArg Core.echoDesired hvoice.core).trans (hwish.trans (hanswer ▸ rfl)),
    fun hclosed => hremarks.closes (hupdated.closes (hcloses.trans hclosed)), fun hopen => ?_⟩
  have hopenUpdated := Bool.eq_false_iff.mpr (mt hremarks.closes (Bool.eq_false_iff.mp hopen))
  have hopenAnswered :=
    Bool.eq_false_iff.mpr (mt hupdated.closes (Bool.eq_false_iff.mp hopenUpdated))
  have hmay : answered.mayGmcp =
      (l.caps.terminal.gmcp || l'.caps.enabled .local_ Telnet.Opt.gmcp) := by
    have hterminal : answered.caps.terminal = l.caps.terminal := hanswer ▸ rfl
    simp only [mayGmcp, hterminal, Capability.enabled, hheard]
  rw [← hmay, henabled]
  have hfirst : Writes answered.mayGmcp (updated.caps.enabled .local_ Telnet.Opt.mssp)
      (telnetQReceive l.caps.options (signCommand direction sign) option
        (qAccept hooks l.caps)).2 l.wire answered.wire := by
    subst hanswer
    exact .sendOptionCommands hsigned l (hcloses.symm.trans hopenAnswered)
  have hall := (hfirst.trans ((hupdated.writes hopenUpdated).mono id
    fun h => Bool.noConfusion h)).trans (.ofRemarks hremarks)
  rwa [OptionRequest.run, List.append_nil, List.append_nil] at hall

theorem hears_receiveTelnetOption (hooks : Application α) (l : Link α)
    (direction : TelnetQDirection) (sign : Bool) (option : UInt8) :
    Hears hooks (signCommand direction sign) option l
      (l.receiveTelnetOption hooks (signCommand direction sign) option) := by
  unfold receiveTelnetOption
  dsimp only
  split
  · obtain ⟨hvoice, -, hremarks, -⟩ := sendMsspStatus_conduct hooks (updateOptionMetadata hooks _) _
    exact .ofAnswer rfl (serves_updateReset hooks l.caps _).toActs hvoice hremarks
  · exact .ofAnswer rfl (serves_updateReset hooks l.caps _).toActs (.refl _) (.refl _)

end Link

/-! ## One action of a session -/

namespace Link

variable {α : Type}

/-- What a session asks for: the echo, either way, and the operational options. -/
def Asks (hooks : Application α) (r : OptionRequest) : Prop :=
  r.direction = .local_ ∧ r.option = Telnet.Opt.echo ∨
    r.enable = true ∧ (r.direction, r.option) ∈ operational hooks

/-- Some requests of a session are made, and what is said for them. -/
structure Talks (hooks : Application α) (l l' : Link α) : Prop where
  requests : ∃ requests, (∀ r ∈ requests, Asks hooks r) ∧ Speaks requests l l'

namespace Talks

variable {hooks : Application α} {l m l' : Link α}

theorem ofSpeaks (h : Speaks [] l l') : Talks hooks l l' := ⟨[], by simp, h⟩

theorem refl (l : Link α) : Talks hooks l l := ofSpeaks (.refl l)

theorem trans (h : Talks hooks l m) (h' : Talks hooks m l') : Talks hooks l l' := by
  obtain ⟨requests, hasks, hspeaks⟩ := h
  obtain ⟨requests', hasks', hspeaks'⟩ := h'
  exact ⟨requests ++ requests',
    fun r hr => (List.mem_append.mp hr).elim (hasks r) (hasks' r), hspeaks.trans hspeaks'⟩

theorem echo (l : Link α) (wish : Bool) :
    Talks hooks l ({ l with caps.echoDesired := wish }.qRequest .local_ Telnet.Opt.echo wish) :=
  ⟨[⟨.local_, Telnet.Opt.echo, wish⟩], List.forall_mem_singleton.mpr (.inl ⟨rfl, rfl⟩),
    .echo l wish⟩

theorem negotiateOperationalOptions (l : Link α) :
    Talks hooks l (l.negotiateOperationalOptions hooks) := by
  refine ⟨_, ?_, speaks_negotiateOperationalOptions hooks l⟩
  intro r hr
  obtain ⟨⟨d, o⟩, hmem, rfl⟩ := List.mem_map.mp hr
  exact .inr ⟨rfl, hmem⟩

end Talks

end Link

namespace Conn

variable {β α : Type}

theorem talks_frame (host : Host β α) :
    Frame host False fun c c' => c.link.Talks host.application c'.link where
  trans := Link.Talks.trans
  fields {c _} hlink _ _ := by
    rw [hlink]
    exact .refl c.link
  text c data := .ofSpeaks (.ofUtters (.writeTelnetData c.link.wire data))
  marker c := .ofSpeaks (.ofUtters (.writeMarker c.link.wire c.terminal))
  audit c _ _ := .ofSpeaks (.ofWire (.emit c.link.wire c.link.wire.app _ rfl))
  requestClose c event message :=
    .ofSpeaks (.ofUtters (.requestClose c.link.wire event (message.map ascii)))
  record c _ _ := .ofSpeaks (.ofWire (.emit c.link.wire c.link.wire.app _ rfl))
  passwordEchoOff c := .echo c.link true
  passwordEchoOn c := .echo c.link false
  negotiate c := .negotiateOperationalOptions c.link
  hook c call _ hook := .ofSpeaks (.callHook c.link call hook)
  attach _ _ := .ofSpeaks (.ofCaps rfl rfl rfl)
  replay c := .ofSpeaks (Link.speaks_replayPreAuthGmcpCore host.application c.link)

/-- An action that completes no option command. -/
theorem talks_act (host : Host β α) {c : Conn β α} {action : Action}
    (hhears : c.hears action = none) :
    c.link.Talks host.application (c.act host action).link :=
  (talks_frame host).act
    (fun l _ hdetail => .ofSpeaks (.ofActs (Link.still_noteProtocolViolation (.refl l) hdetail)))
    hhears fun _ => .ofSpeaks (Link.speaks_finishSubnegotiation _ _ _ _)

/-- A session that starts asks for the operational options, in order. -/
theorem speaks_start (host : Host β α) {c : Conn β α} (h : c.started = false) :
    c.link.Speaks ((Link.operational host.application).map fun (d, o) => ⟨d, o, true⟩)
      (c.start host).link := by
  have hsay : ∀ (c : Conn β α) (text : String), c.link.Speaks [] (c.say text).link :=
    fun c text => .ofUtters (.writeTelnetData c.link.wire _)
  have hprompt : ∀ (c : Conn β α) (text : String), c.link.Speaks [] (c.prompt text).link :=
    fun c text => .ofUtters ((Wire.Utters.writeTelnetData c.link.wire _).trans (.writeMarker _ _))
  have hasked := Link.speaks_negotiateOperationalOptions host.application c.link
  rw [start, if_neg (by rw [h]; decide)]
  dsimp only
  change c.link.Speaks _ (({ c with started := true } : Conn β α).onLink
    (Link.negotiateOperationalOptions host.application)).link at hasked
  generalize ({ c with started := true } : Conn β α).onLink _ = asked at hasked ⊢
  exact (hasked.andThen (hsay asked _)).andThen (hprompt _ _)

end Conn

/-! ## The parser and the grammar -/

/-- The parser stands where the grammar does. -/
def ParserFields.At (p : ParserFields) : TelnetGrammar.State → Prop
  | .data => p.parser = .data
  | .iac => p.parser = .iac
  | .option v => p.parser = .option ∧ p.pendingTelnetCommand = v.code
  | .sbOption => p.parser = .sbOption
  | .sbData o payload =>
      p.parser = .sbData ∧ p.subnegotiationOption = o ∧ p.subnegotiation = payload
  | .sbIac o payload =>
      p.parser = .sbIac ∧ p.subnegotiationOption = o ∧ p.subnegotiation = payload

namespace Conn

variable {β α : Type} {c : Conn β α} {s : TelnetGrammar.State}

theorem isOptionVerb_eq (b : UInt8) : isOptionVerb b = (TelnetGrammar.verb? b).isSome :=
  forall_byte (by decide +kernel) b

theorem at_pushPayload {o byte : UInt8} {payload : Bytes}
    (hoption : c.parsing.subnegotiationOption = o) (hpayload : c.parsing.subnegotiation = payload)
    (hopen : (c.pushPayload byte .sbData).closed = false) :
    (c.pushPayload byte .sbData).parsing.At (.sbData o (payload ++ [byte])) := by
  unfold pushPayload at hopen ⊢
  split
  case isTrue hfull =>
    rw [if_pos hfull, closed_requestClose] at hopen
    cases hopen
  case isFalse => exact ⟨rfl, hoption, by rw [hpayload]⟩

/-- As long as it is open, a session reads the tokens of the grammar. -/
theorem at_feedByte (host : Host β α) (hat : c.parsing.At s) (byte : UInt8) (nowMs : UInt64)
    (hopen : (c.feedByte host byte nowMs).closed = false) :
    (c.feedByte host byte nowMs).parsing.At (TelnetGrammar.step s byte).1 := by
  cases s with
  | data =>
    have hparser : c.parsing.parser = .data := hat
    simp only [feedByte, hparser, TelnetGrammar.step]
    split_ifs
    · rfl
    · exact (congrArg ParserFields.parser
        (parsing_receiveDataByte host c byte nowMs)).trans hparser
  | iac =>
    have hparser : c.parsing.parser = .iac := hat
    simp only [feedByte, hparser, TelnetGrammar.step, isOptionVerb_eq]
    cases hverb : TelnetGrammar.verb? byte with
    | none =>
      simp only [Option.isSome_none, Bool.false_eq_true, if_false]
      split_ifs <;> rfl
    | some v =>
      simp only [Option.isSome_some, if_true]
      split_ifs
      · rfl
      · exact ⟨rfl, (TelnetGrammar.code_of_verb? hverb).symm⟩
  | option v =>
    have hparser : c.parsing.parser = .option := hat.1
    simp only [feedByte, hparser, TelnetGrammar.step]
    rfl
  | sbOption =>
    have hparser : c.parsing.parser = .sbOption := hat
    simp only [feedByte, hparser, TelnetGrammar.step]
    exact ⟨rfl, rfl, rfl⟩
  | sbData o payload =>
    obtain ⟨hparser, hoption, hpayload⟩ := hat
    simp only [feedByte, hparser, TelnetGrammar.step] at hopen ⊢
    split_ifs at hopen ⊢
    · exact ⟨rfl, hoption, hpayload⟩
    · exact at_pushPayload hoption hpayload hopen
  | sbIac o payload =>
    obtain ⟨hparser, hoption, hpayload⟩ := hat
    simp only [feedByte, hparser, TelnetGrammar.step] at hopen ⊢
    split_ifs at hopen ⊢
    · rfl
    · exact at_pushPayload hoption hpayload hopen
    · exact ⟨rfl, hoption, hpayload⟩

theorem parser_ne_option {p : ParserFields} (hat : p.At s) (h : ∀ v, s ≠ .option v) :
    p.parser ≠ .option := by
  intro hparser
  cases s with
  | option v => exact h v rfl
  | data | iac | sbOption => cases hparser.symm.trans hat
  | sbData | sbIac => cases hparser.symm.trans hat.1

/-- A byte completes an option command, which is heard, or anything else. -/
theorem act_byte_cases (host : Host β α) (hat : c.parsing.At s) (hopen : c.closed = false)
    (byte : UInt8) (nowMs : UInt64) :
    (∃ direction sign,
      TelnetGrammar.step s byte = (.data, some (.option (signVerb direction sign) byte)) ∧
      Link.Hears host.application (signCommand direction sign) byte c.link
        (c.act host (.byte byte nowMs)).link) ∨
    TelnetGrammar.negotiations (TelnetGrammar.step s byte).2.toList = [] ∧
      c.link.Talks host.application (c.act host (.byte byte nowMs)).link := by
  by_cases hoption : ∃ v, s = .option v
  · obtain ⟨v, rfl⟩ := hoption
    obtain ⟨direction, sign, rfl⟩ := exists_signVerb v
    obtain ⟨hparser, hcommand⟩ := hat
    have hhears : c.hears (.byte byte nowMs) = some byte := by simp [hears, hopen, hparser]
    refine .inl ⟨direction, sign, rfl, ?_⟩
    rw [(link_act_of_hears host hhears).2, hcommand, code_signVerb]
    exact Link.hears_receiveTelnetOption _ _ _ _ _
  · rw [not_exists] at hoption
    have hparser := parser_ne_option hat hoption
    exact .inr ⟨TelnetGrammar.negotiations_step hoption byte,
      talks_act host (by simp [hears, hparser])⟩

end Conn

-- SUMMARY: What a session says on the wire: whole Telnet tokens, whose option commands are exactly those of its option state.
import TelnetTlsServer.Lib.TelnetStream
import TelnetTlsServer.Negotiation.Steady
import TelnetTlsServer.Session.Probing

/-!
# Speech

A peer that reads the output of a session reads the option commands the session's option
state has sent, in their order, and between them data, prompt markers and
subnegotiations. `Link.Speaks requests l l'` says so for a piece of a run, in which the
session asked for the options `requests`.

After a close was requested nothing is written any more, so all this is about sessions
that are open.
-/

open TelnetGrammar (Token negotiations)

theorem Remark.negotiation {gmcp mssp : Bool} {t : Token} (h : Remark gmcp mssp t) :
    t.negotiation? = none := by
  cases h <;> rfl

/-! ## Option commands -/

/-- The verb that carries a sign in a direction. -/
def signVerb : TelnetQDirection → Bool → TelnetGrammar.Verb
  | .local_, true => .will
  | .local_, false => .wont
  | .remote, true => .do_
  | .remote, false => .dont

theorem code_signVerb (d : TelnetQDirection) (sign : Bool) :
    (signVerb d sign).code = signCommand d sign := by
  cases d <;> cases sign <;> rfl

/-- Every verb carries a sign. -/
theorem exists_signVerb (v : TelnetGrammar.Verb) : ∃ d sign, v = signVerb d sign := by
  cases v with
  | will => exact ⟨.local_, true, rfl⟩
  | wont => exact ⟨.local_, false, rfl⟩
  | do_ => exact ⟨.remote, true, rfl⟩
  | dont => exact ⟨.remote, false, rfl⟩

namespace Link

variable {α : Type} {l l' l'' : Link α}

/-- The tokens `tokens` are written, and `sent` are the option commands among them. -/
structure Writes (gmcp mssp : Bool) (sent : List OptionCommand) (w w' : Wire α) : Prop where
  tokens : ∃ tokens : List Token, (∀ t ∈ tokens, t.WellFormed) ∧
    w'.written = w.written ++ tokens.flatMap Token.encode ∧ negotiations tokens = sent ∧
    ∀ t ∈ tokens, t.negotiation? = none → Remark gmcp mssp t

namespace Writes

variable {gmcp mssp : Bool} {sent sent' : List OptionCommand} {w w' w'' : Wire α}

theorem ofRemarks (h : w.Remarks gmcp mssp w') : Writes gmcp mssp [] w w' := by
  obtain ⟨-, tokens, hwell, hwritten, htokens⟩ := h
  refine ⟨tokens, hwell, hwritten, ?_, fun t ht _ => htokens t ht⟩
  exact List.filterMap_eq_nil_iff.mpr fun t ht => (htokens t ht).negotiation

theorem trans (h : Writes gmcp mssp sent w w') (h' : Writes gmcp mssp sent' w' w'') :
    Writes gmcp mssp (sent ++ sent') w w'' := by
  obtain ⟨tokens, hwell, hwritten, rfl, htokens⟩ := h
  obtain ⟨tokens', hwell', hwritten', rfl, htokens'⟩ := h'
  refine ⟨tokens ++ tokens', ?_, ?_, TelnetGrammar.negotiations_append _ _, ?_⟩
  · exact fun t ht => (List.mem_append.mp ht).elim (hwell t) (hwell' t)
  · rw [hwritten', hwritten, List.append_assoc, List.flatMap_append]
  · exact fun t ht => (List.mem_append.mp ht).elim (htokens t) (htokens' t)

theorem mono {gmcp' mssp' : Bool} (h : Writes gmcp mssp sent w w')
    (hgmcp : gmcp = true → gmcp' = true) (hmssp : mssp = true → mssp' = true) :
    Writes gmcp' mssp' sent w w' := by
  obtain ⟨tokens, hwell, hwritten, hsent, htokens⟩ := h
  exact ⟨tokens, hwell, hwritten, hsent, fun t ht hnone =>
    .mono hgmcp hmssp t (htokens t ht hnone)⟩

/-- The commands of one option go out as they are. -/
theorem sendOptionCommands {q : TelnetQ} {direction : TelnetQDirection} {option : UInt8}
    {result : TelnetQ × List OptionCommand} {side : QMethod.Side × Option Bool}
    (h : ActsAs q direction option result side) (l : Link α)
    (hopen : l.wire.closeRequested = false) :
    Writes gmcp mssp result.2 l.wire (l.sendOptionCommands result).wire := by
  simp only [Link.sendOptionCommands, h.sent]
  cases side.2 with
  | none => exact ofRemarks (.refl _)
  | some sign =>
    refine ⟨[.option (signVerb direction sign) option], List.forall_mem_singleton.mpr trivial,
      ?_, ?_, List.forall_mem_singleton.mpr fun hnone => by cases hnone⟩
    · have hwritten := (OutputOp.apply_written hopen
        (.option (signVerb direction sign) option)).2
      rw [OutputOp.apply, code_signVerb] at hwritten
      exact hwritten
    · simp [negotiations, Token.negotiation?, code_signVerb]

end Writes

/-- What is asked for is `requests`: the option state and the wish for the echo are what
they make of them, and the commands they cost go out among remarks. -/
structure Speaks (requests : List OptionRequest) (l l' : Link α) : Prop where
  options : l'.caps.options = (OptionRequest.run l.caps.options requests).1
  desired : ∀ wish : TelnetQDirection → UInt8 → Bool,
    wish .local_ Telnet.Opt.echo = l.caps.echoDesired →
    requests.foldl OptionRequest.wished wish .local_ Telnet.Opt.echo = l'.caps.echoDesired
  gmcp : l'.mayGmcp = true → l.mayGmcp = true
  closes : l.wire.closeRequested = true → l'.wire.closeRequested = true
  writes : l'.wire.closeRequested = false →
    Writes l.mayGmcp false (OptionRequest.run l.caps.options requests).2 l.wire l'.wire

namespace Speaks

variable {requests requests' : List OptionRequest}

theorem trans (h : Speaks requests l l') (h' : Speaks requests' l' l'') :
    Speaks (requests ++ requests') l l'' where
  options := by rw [h'.options, h.options, OptionRequest.run_append]
  desired wish hwish := by
    rw [List.foldl_append]
    exact h'.desired _ (h.desired wish hwish)
  gmcp := h.gmcp ∘ h'.gmcp
  closes := h'.closes ∘ h.closes
  writes hopen := by
    have hopen' := Bool.eq_false_iff.mpr (mt h'.closes (Bool.eq_false_iff.mp hopen))
    rw [OptionRequest.run_append, ← h.options]
    exact (h.writes hopen').trans ((h'.writes hopen).mono h.gmcp id)

theorem andThen (h : Speaks requests l l') (h' : Speaks [] l' l'') : Speaks requests l l'' := by
  simpa using h.trans h'

theorem ofActs {made : List ApplicationCall} (h : Acts made l l') : Speaks [] l l' where
  options := congrArg Core.options h.core
  desired _ hwish := hwish.trans (congrArg Core.echoDesired h.core).symm
  gmcp := h.gmcp
  closes := h.remarks.closes
  writes _ := .ofRemarks h.remarks

theorem refl (l : Link α) : Speaks [] l l := ofActs (Serves.refl l).toActs

theorem ofWire {wire : Wire α} (h : l.wire.Remarks l.mayGmcp false wire) :
    Speaks [] l { l with wire := wire } :=
  ⟨rfl, fun _ => id, id, h.closes, fun _ => .ofRemarks h⟩

theorem ofUtters {wire : Wire α} (h : l.wire.Utters l.caps.terminal.gmcp wire) :
    Speaks [] l { l with wire := wire } :=
  ofActs (Serves.ofUtters l h).toActs

theorem ofCaps {caps : Capability} (hoptions : caps.options = l.caps.options)
    (hdesired : caps.echoDesired = l.caps.echoDesired)
    (hgmcp : caps.terminal.gmcp = l.caps.terminal.gmcp) : Speaks [] l { l with caps := caps } where
  options := hoptions
  desired _ hwish := hwish.trans hdesired.symm
  gmcp hmay := by simpa only [mayGmcp, Capability.enabled, hoptions, hgmcp] using hmay
  closes := id
  writes _ := .ofRemarks (.refl _)

theorem audit (l : Link α) (event detail : String) : Speaks [] l (l.audit event detail) :=
  ofWire (.emit l.wire l.wire.app _ rfl)

theorem callHook {ρ : Type} (l : Link α) (call : ApplicationCall)
    (hook : α → Wire.HookProgram (ρ × α)) : Speaks [] l (l.callHook call hook).2 :=
  ofWire ((Wire.Writes.callHook l.wire l.caps.terminal call hook).mono
    (Wire.Plain.remark mayGmcp_of_terminal))

/-! ### Requests -/

/-- A request never turns an option on by itself. -/
theorem enabled_of_request {q : TelnetQ} {direction d : TelnetQDirection} {option o : UInt8}
    {enable : Bool}
    (h : telnetQEnabled (telnetQRequest q direction option enable).1 d o = true) :
    telnetQEnabled q d o = true := by
  have hacts := telnetQRequest_actsAs q direction option enable
  by_cases hsame : d = direction ∧ o = option
  · obtain ⟨rfl, rfl⟩ := hsame
    have hyes : (selectSide (telnetQRequest q d o enable).1 d o).state = .yes :=
      of_decide_eq_true h
    have hask : ((selectSide q d o).view.ask enable).1.phase = .yes := by
      rw [← hacts.side, TelnetQSide.view, hyes]
      rfl
    rw [telnetQEnabled]
    generalize selectSide q d o = side at hask ⊢
    obtain ⟨state, queued⟩ := side
    cases enable <;> cases state <;> first | rfl | cases hask
  · rwa [telnetQEnabled, hacts.frame d o hsame] at h

theorem qRequest (l : Link α) {direction : TelnetQDirection} {option : UInt8} (enable : Bool)
    (hecho : ¬ (TelnetQDirection.local_ = direction ∧ Telnet.Opt.echo = option)) :
    Speaks [⟨direction, option, enable⟩] l (l.qRequest direction option enable) where
  options := rfl
  desired wish hwish := by
    simp only [List.foldl_cons, List.foldl_nil, OptionRequest.wished, if_neg hecho]
    exact hwish
  gmcp h := by
    rcases Bool.or_eq_true_iff.mp h with h | h
    · exact mayGmcp_of_terminal h
    · exact Bool.or_eq_true_iff.mpr (.inr (enabled_of_request h))
  closes h := (closeRequested_sendOptionCommands l _).trans h
  writes hopen := by
    rw [Link.qRequest, closeRequested_sendOptionCommands] at hopen
    have hacts := telnetQRequest_actsAs l.caps.options direction option enable
    rw [OptionRequest.run_singleton]
    exact .sendOptionCommands hacts l hopen

/-- The echo is asked for, or given back, and this is what the session then wishes. -/
theorem echo (l : Link α) (wish : Bool) :
    Speaks [⟨.local_, Telnet.Opt.echo, wish⟩] l
      ({ l with caps.echoDesired := wish }.qRequest .local_ Telnet.Opt.echo wish) where
  options := rfl
  desired _ _ := by simp [OptionRequest.wished, Link.qRequest, Link.sendOptionCommands]
  gmcp h := by
    rcases Bool.or_eq_true_iff.mp h with h | h
    · exact mayGmcp_of_terminal h
    · exact Bool.or_eq_true_iff.mpr (.inr (enabled_of_request h))
  closes h := (closeRequested_sendOptionCommands { l with caps.echoDesired := wish } _).trans h
  writes hopen := by
    rw [Link.qRequest, closeRequested_sendOptionCommands] at hopen
    have hacts := telnetQRequest_actsAs l.caps.options .local_ Telnet.Opt.echo wish
    rw [OptionRequest.run_singleton]
    exact .sendOptionCommands hacts { l with caps.echoDesired := wish } hopen

end Speaks

/-- What every session asks for when it starts, but for the last. -/
def alwaysAsked : List (TelnetQDirection × UInt8) :=
  [(.local_, Telnet.Opt.binary), (.remote, Telnet.Opt.binary),
    (.local_, Telnet.Opt.suppressGoAhead), (.remote, Telnet.Opt.suppressGoAhead),
    (.local_, Telnet.Opt.endOfRecord), (.remote, Telnet.Opt.naws),
    (.remote, Telnet.Opt.terminalType), (.local_, Telnet.Opt.charset),
    (.remote, Telnet.Opt.charset), (.remote, Telnet.Opt.newEnviron)]

/-- What a session asks for when it starts. -/
def operational (hooks : Application α) : List (TelnetQDirection × UInt8) :=
  alwaysAsked ++ (if hooks.msspQuery.isSome then [(.local_, Telnet.Opt.mssp)] else []) ++
    [(.local_, Telnet.Opt.gmcp)]

theorem echo_not_operational (hooks : Application α) :
    (TelnetQDirection.local_, Telnet.Opt.echo) ∉ operational hooks := by
  unfold operational
  split <;> decide

theorem negotiateOperationalOptions_eq (hooks : Application α) (l : Link α) :
    l.negotiateOperationalOptions hooks =
      (operational hooks).foldl (fun l (d, o) => l.qRequest d o true) l := by
  unfold negotiateOperationalOptions operational
  split <;> rfl

theorem speaks_negotiateOperationalOptions (hooks : Application α) (l : Link α) :
    Speaks ((operational hooks).map fun (d, o) => ⟨d, o, true⟩) l
      (l.negotiateOperationalOptions hooks) := by
  rw [negotiateOperationalOptions_eq]
  have hecho := echo_not_operational hooks
  generalize operational hooks = options at hecho ⊢
  induction options generalizing l with
  | nil => exact .refl l
  | cons first rest ih =>
    obtain ⟨d, o⟩ := first
    rw [List.mem_cons, not_or] at hecho
    obtain ⟨hfirst, hrest⟩ := hecho
    have hne : ¬ (TelnetQDirection.local_ = d ∧ Telnet.Opt.echo = o) := by
      rintro ⟨rfl, rfl⟩
      exact hfirst rfl
    exact (Speaks.qRequest l true hne).trans (ih _ hrest)

theorem speaks_replayPreAuthGmcpCore (hooks : Application α) (l : Link α) :
    Speaks [] l (l.replayPreAuthGmcpCore hooks) :=
  replayPreAuthGmcpCore_keeps (R := Speaks []) .refl .andThen
    (fun l _ _ _ => .callHook l _ _) (fun _ => .ofCaps rfl rfl rfl) hooks l

end Link

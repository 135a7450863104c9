-- SUMMARY: When the discovery of the terminal type, once it has ended, is taken up again.
import TelnetTlsServer.Session.Probing

/-!
# The end of the discovery

A bare ANSI answer to the first probe and an answer that repeats the last one end the
discovery. The handler only returns without another probe: nothing records that it
ended. The refresh that follows an option command or an environment report therefore
asks again, as long as fewer probes than the limit were sent, and so does the next
report that differs. `prompts` names the messages that do this.
-/

namespace Conn

variable {β α : Type}

/-- The peer's answer ends the discovery. -/
def endsDiscovery (c : Conn β α) (action : Action) : Bool :=
  c.answersType action &&
    (c.link.caps.typeReport? c.parsing.subnegotiation).any c.link.caps.endsWith

/-- The peer ends a message after which the source looks for another type: an option
command other than the one that turns TERMINAL-TYPE off, a NEW-ENVIRON report that is
read to its end, or a terminal type that does not end the discovery. -/
def prompts (c : Conn β α) (action : Action) : Bool :=
  match c.hears action with
  | some option => !(decide (c.parsing.pendingTelnetCommand = Telnet.wont) &&
      decide (option = Telnet.Opt.terminalType))
  | none => c.finishes action &&
      if c.parsing.subnegotiationOption = Telnet.Opt.terminalType then
        c.link.caps.goesOn c.parsing.subnegotiation
      else decide (c.parsing.subnegotiationOption = Telnet.Opt.newEnviron) &&
        (Link.environPayload c.link.caps c.parsing.subnegotiation).any Prod.snd

/-- No answer is awaited, and `sent` probes were sent since TERMINAL-TYPE went on. -/
def Idle (sent : Nat) (c : Conn β α) : Prop :=
  c.allows .terminalType = true → c.link.caps.pace = (sent, false)

theorem wantsType_of_pace {c : Capability} {sent : Nat} (h : c.pace = (sent, false)) :
    c.wantsType = (decide (sent < terminalTypeRequestLimit) && c.allows .terminalType) := by
  obtain ⟨rfl, hwaiting⟩ := Prod.mk.inj h
  have hallows : c.allows .terminalType = c.enabled .remote Telnet.Opt.terminalType := rfl
  rw [Capability.wantsType, hwaiting, hallows, Bool.false_or, Bool.not_or, Bool.not_not]
  simp [← decide_not]

theorem wantsType_of_off {c : Capability} (h : c.allows .terminalType = false) :
    c.wantsType = false := by
  have hoff : c.enabled .remote Telnet.Opt.terminalType = false := h
  rw [Capability.wantsType, hoff]
  simp

/-- The counters stay as they are unless TERMINAL-TYPE goes off. -/
theorem pace_heard (hooks : Application α) {c : Capability} (command option : UInt8)
    (hafter : (Link.heard hooks c command option).allows .terminalType = true) :
    (Link.heard hooks c command option).pace = c.pace := by
  unfold Link.heard at hafter ⊢
  rw [Link.resetDisabled_eq] at hafter ⊢
  have hstays : Link.wentOff c { c with
      options := (telnetQReceive c.options command option (Link.qAccept hooks c)).1 }
      .remote Telnet.Opt.terminalType = false := by
    have hon : Capability.enabled { c with
        options := (telnetQReceive c.options command option (Link.qAccept hooks c)).1 }
        .remote Telnet.Opt.terminalType = true := hafter
    rw [Link.wentOff, hon, Bool.not_true, Bool.and_false]
  simp only [Capability.pace, hstays, Bool.false_eq_true, if_false]

theorem allows_heard (hooks : Application α) {c : Capability}
    (hon : c.allows .terminalType = true) (command option : UInt8) :
    (Link.heard hooks c command option).allows .terminalType =
      !(decide (command = Telnet.wont) && decide (option = Telnet.Opt.terminalType)) := by
  unfold Link.heard
  rw [Link.resetDisabled_eq]
  exact telnetQEnabled_receive_remote hon command option _

theorem allows_of_asksType {host : Host β α} {c : Conn β α} {action : Action}
    (h : c.asksType host action = true) : (c.act host action).allows .terminalType = true := by
  obtain ⟨asked, hdraws⟩ := exists_draws host c action
  have hcount : asked.count .terminalType = 1 := by rw [hdraws.types, h, Bool.toNat_true]
  exact hdraws.allowed _ (List.count_pos_iff.mp (by omega))

/-- While nothing is awaited, a message makes the session ask if and only if it prompts
and the limit is not reached. -/
theorem asksType_of_idle {host : Host β α} {c : Conn β α} {action : Action} {sent : Nat}
    (hidle : c.Idle sent) (hturns : c.turnsOn host .terminalType action = false) :
    c.asksType host action =
      (decide (sent < terminalTypeRequestLimit) && c.allows .terminalType && c.prompts action) := by
  cases hon : c.allows .terminalType with
  | false =>
    have hoff : (c.act host action).allows .terminalType = false := by simpa [turnsOn, hon] using hturns
    rw [Bool.and_false, Bool.false_and, ← Bool.not_eq_true]
    exact fun hasks => by simp [allows_of_asksType hasks] at hoff
  | true =>
    have hpace := hidle hon
    have hwants := wantsType_of_pace hpace
    rw [Bool.and_true]
    unfold asksType prompts
    cases hhears : c.hears action with
    | some option =>
      dsimp only
      rw [← allows_heard host.application hon]
      cases hafter : (Link.heard host.application c.link.caps c.parsing.pendingTelnetCommand
        option).allows .terminalType with
      | false => rw [wantsType_of_off hafter, Bool.and_false]
      | true =>
        have hheard := (pace_heard host.application _ _ hafter).trans hpace
        rw [wantsType_of_pace hheard, hafter]
    | none =>
      have hsent : c.link.caps.terminalTypeRequestsSent = sent := congrArg Prod.fst hpace
      have hallows : c.link.caps.allows .terminalType = true := hon
      dsimp only [Link.asksAfter]
      rw [hwants, hallows, hsent]
      split_ifs
      all_goals cases c.finishes action <;> simp_all [Bool.and_comm]

theorem idle_act {host : Host β α} {c : Conn β α} {action : Action} {sent : Nat}
    (hidle : c.Idle sent) (hturns : c.turnsOn host .terminalType action = false)
    (hquiet : c.asksType host action = false) : (c.act host action).Idle sent := by
  intro hafter
  obtain ⟨asked, hdraws⟩ := exists_draws host c action
  have hon : c.allows .terminalType = true := by simpa [turnsOn, hafter] using hturns
  have hpace := hidle hon
  have hsettled := hdraws.allows .terminalType
  rw [hdraws.pace hquiet]
  rw [hafter] at hsettled
  unfold settled at hsettled ⊢
  cases hhears : c.hears action with
  | some option =>
    rw [hhears] at hsettled
    exact (pace_heard host.application _ _ hsettled.symm).trans hpace
  | none =>
    dsimp only
    unfold Capability.answered
    split_ifs
    · exact congrArg (·.1, false) hpace
    · exact hpace
    · exact hpace

/-- The answer that ends the discovery is not followed by a probe, and ends the wait. -/
theorem idle_of_endsDiscovery (host : Host β α) {c : Conn β α} {action : Action}
    (h : c.endsDiscovery action = true) :
    c.asksType host action = false ∧
      (c.act host action).Idle c.link.caps.terminalTypeRequestsSent := by
  simp only [endsDiscovery, Bool.and_eq_true, Option.any_eq_true] at h
  obtain ⟨hanswers, reported, hreported, hends⟩ := h
  obtain ⟨hfinishes, htype⟩ : c.finishes action = true ∧
      c.parsing.subnegotiationOption = Telnet.Opt.terminalType := by
    simpa [answersType] using hanswers
  have hon : c.link.caps.enabled .remote Telnet.Opt.terminalType = true := by
    by_contra hoff
    simp [Capability.typeReport?, hoff] at hreported
  have hquiet : c.asksType host action = false := by
    simp [asksType, hears_of_finishes hfinishes, Link.asksAfter, htype, Capability.goesOn, hreported,
      hends]
  obtain ⟨asked, hdraws⟩ := exists_draws host c action
  refine ⟨hquiet, fun _ => ?_⟩
  rw [hdraws.pace hquiet]
  simp [settled, hears_of_finishes hfinishes, hanswers, Capability.answered, hon, Capability.pace]

theorem count_act_of_reachable {host : Host β α} {c : Conn β α}
    (hc : (system host).Reachable c) (action : Action) :
    (c.act host action).asked.count .terminalType =
      c.asked.count .terminalType + (c.asksType host action).toNat := by
  obtain ⟨asked, hdraws⟩ := exists_draws host c action
  have hasked : (c.act host action).asked = c.asked ++ asked :=
    (hdraws.wire.asked_eq (framed_of_reachable hc)).2
  rw [hasked, List.count_append, hdraws.types]

/-- After the discovery has ended, and until TERMINAL-TYPE goes on again, no probe is
sent if and only if the limit was reached or, while TERMINAL-TYPE stays on, the peer
sends no message that prompts. -/
theorem discovery_ended_iff {host : Host β α} {c : Conn β α} (hc : (system host).Reachable c)
    {action : Action} (hends : c.endsDiscovery action = true) {rest : List Action}
    (hrest : ∀ before next, before ++ [next] <+: rest →
      ((c.act host action).acts host before).turnsOn host .terminalType next = false) :
    (∀ before, before <+: rest →
        ((c.act host action).acts host before).asked.count .terminalType =
          c.asked.count .terminalType) ↔
      (terminalTypeRequestLimit ≤ c.link.caps.terminalTypeRequestsSent ∨
        ∀ before next, before ++ [next] <+: rest →
          ((c.act host action).acts host before).allows .terminalType = true →
          ((c.act host action).acts host before).prompts next = false) := by
  obtain ⟨hquiet, hidle⟩ := idle_of_endsDiscovery host hends
  have hended := count_act_of_reachable hc action
  rw [hquiet, Bool.toNat_false, Nat.add_zero] at hended
  generalize c.link.caps.terminalTypeRequestsSent = sent at hidle ⊢
  have hnext : ∀ (d : Conn β α) (next : Action), (system host).Reachable d ∧ d.Idle sent →
      d.asked.count .terminalType = c.asked.count .terminalType →
      d.turnsOn host .terminalType next = false →
      ((d.act host next).asked.count .terminalType = c.asked.count .terminalType ↔
        d.asksType host next = false) := by
    intro d next hd hsame _
    rw [count_act_of_reachable hd.1 next, hsame]
    cases d.asksType host next <;> simp
  have halong := Transition.System.along_iff_of
    (I := fun d => (system host).Reachable d ∧ d.Idle sent)
    (P := fun d => d.asked.count .terminalType = c.asked.count .terminalType)
    (G := fun d next => d.turnsOn host .terminalType next = false)
    (K := fun d next => sent < terminalTypeRequestLimit → d.allows .terminalType = true →
      d.prompts next = false)
    ⟨reachable_act hc action, hidle⟩ hended
    (fun d next hd hsame hturns => by
      rw [hnext d next hd hsame hturns, asksType_of_idle hd.2 hturns]
      simp)
    (fun d next hd hsame hturns hcount => ⟨reachable_act hd.1 next,
      idle_act hd.2 hturns ((hnext d next hd hsame hturns).mp hcount)⟩) hrest
  refine halong.trans ⟨fun hall => ?_, fun hcondition before next hbefore hroom hon => ?_⟩
  · rcases Nat.lt_or_ge sent terminalTypeRequestLimit with hroom | hfull
    · exact .inr fun before next hbefore => hall before next hbefore hroom
    · exact .inl hfull
  · exact hcondition.resolve_left (Nat.not_le.mpr hroom) before next hbefore hon

/-- The peer turns TERMINAL-TYPE on and is about to end its answer, ANSI. -/
def answeringAnsi : Conn Unit Unit :=
  (Conn.initial .granting () ()).feedBytes .granting 1
    ([255, 251, 24] ++ [255, 250, 24, 0] ++ ascii "ANSI" ++ [255])

theorem reachable_answeringAnsi : (system Host.granting).Reachable answeringAnsi :=
  reachable_feedBytes (.init ⟨(), (), rfl⟩) 1 _

theorem discovery_ended_iff_ansi :
    answeringAnsi.endsDiscovery (.byte 240 1) = true ∧
      ((∀ before, before <+: [Action.byte 255 1] →
        ((answeringAnsi.act .granting (.byte 240 1)).acts .granting before).asked.count
            .terminalType = answeringAnsi.asked.count .terminalType) ↔
      (terminalTypeRequestLimit ≤ answeringAnsi.link.caps.terminalTypeRequestsSent ∨
        ∀ before next, before ++ [next] <+: [Action.byte 255 1] →
          ((answeringAnsi.act .granting (.byte 240 1)).acts .granting before).allows
            .terminalType = true →
          ((answeringAnsi.act .granting (.byte 240 1)).acts .granting before).prompts next =
            false)) := by
  have hends : answeringAnsi.endsDiscovery (.byte 240 1) = true := by decide +kernel
  refine ⟨hends, discovery_ended_iff reachable_answeringAnsi hends fun before next h => ?_⟩
  obtain rfl : before = [] := List.eq_nil_of_length_eq_zero (by simpa using h.length_le)
  obtain rfl : next = .byte 255 1 := by simpa using h
  decide +kernel

/-- After the ANSI answer the peer agrees to the server's echo, and is asked again. -/
theorem discovery_resumed_by_echo :
    answeringAnsi.endsDiscovery (.byte 240 1) = true ∧
      answeringAnsi.asked.count .terminalType = 1 ∧
      (answeringAnsi.feedBytes .granting 1 [240, 255, 253, 1]).asked.count .terminalType = 2 := by
  decide +kernel

end Conn

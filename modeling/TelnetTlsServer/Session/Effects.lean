-- SUMMARY: What the small steps of a session do to its gated calls, its close request, its violation count and its bounds.
import TelnetTlsServer.Session.Bounds

/-!
# Effects

`Link.Effect calls l l'` says that a step makes the gated calls `calls` and no others,
takes back no close request, counts no protocol violation and keeps the bounds.
-/

namespace Link

variable {α : Type}

structure Effect (calls : List GatedCall) (l l' : Link α) : Prop where
  calls_eq : l'.wire.calls = l.wire.calls ++ calls
  closed : l.wire.closeRequested = true → l'.wire.closeRequested = true
  keeps : l.caps.Keeps l'.caps

/-- No gated call at all. -/
abbrev Quiet (l l' : Link α) : Prop := Effect [] l l'

theorem Effect.trans {calls calls' : List GatedCall} {l l' l'' : Link α}
    (h : Effect calls l l') (h' : Effect calls' l' l'') : Effect (calls ++ calls') l l'' where
  calls_eq := by rw [h'.calls_eq, h.calls_eq, List.append_assoc]
  closed := h'.closed ∘ h.closed
  keeps := h.keeps.trans h'.keeps

namespace Quiet

theorem refl (l : Link α) : l.Quiet l := ⟨by simp, id, .refl _⟩

theorem trans {l l' l'' : Link α} (h : l.Quiet l') (h' : l'.Quiet l'') : l.Quiet l'' :=
  Effect.trans h h'

theorem ite {l a b : Link α} {p : Prop} [Decidable p] (ha : l.Quiet a) (hb : l.Quiet b) :
    l.Quiet (if p then a else b) := by
  split
  · exact ha
  · exact hb

theorem ofCaps (l : Link α) {caps : Capability} (h : l.caps.Keeps caps) :
    l.Quiet { l with caps := caps } :=
  ⟨by simp, id, h⟩

/-- A change of capability fields none of which is bounded. -/
theorem ofFields (l : Link α) {caps : Capability} (h : caps.boundedFields = l.caps.boundedFields) :
    l.Quiet { l with caps := caps } :=
  ofCaps l (.of_fields h)

theorem ofSends (l : Link α) (chunks : List Bytes) :
    l.Quiet { l with wire := l.wire.sends chunks } :=
  ⟨by simp, by simp, .refl _⟩

theorem requestClose {l m : Link α} (h : l.Quiet m) (event : String) (message : Option Bytes) :
    l.Quiet (m.requestClose event message) :=
  h.trans ⟨by simp [Link.requestClose], fun _ => by simp [Link.requestClose], .refl _⟩

end Quiet

/-! ## Option commands -/

theorem foldl_writeTelnetOptionRaw (w : Wire α) (commands : List OptionCommand) :
    commands.foldl (fun w (command, option) => w.writeTelnetOptionRaw command option) w =
      w.sends (commands.map fun (command, option) => [Telnet.iac, command, option]) := by
  induction commands generalizing w with
  | nil => simp
  | cons command rest ih =>
    rw [List.foldl_cons, ih]
    simp

theorem quiet_sendOptionCommands (l : Link α) (result : TelnetQ × List OptionCommand) :
    l.Quiet (l.sendOptionCommands result) := by
  have hcaps : l.Quiet { l with caps := { l.caps with options := result.1 } } := .ofFields l rfl
  unfold sendOptionCommands
  rw [foldl_writeTelnetOptionRaw]
  exact hcaps.trans (.ofSends _ _)

theorem Quiet.qRequest {l m : Link α} (h : l.Quiet m) (direction : TelnetQDirection) (option : UInt8)
    (enable : Bool) : l.Quiet (m.qRequest direction option enable) :=
  h.trans (quiet_sendOptionCommands m _)

theorem quiet_passwordEchoOff (l : Link α) : l.Quiet l.passwordEchoOff := by
  refine .qRequest ?_ _ _ _
  exact .ofFields l rfl

theorem quiet_passwordEchoOn (l : Link α) : l.Quiet l.passwordEchoOn := by
  refine .qRequest ?_ _ _ _
  exact .ofFields l rfl

theorem quiet_negotiateOperationalOptions (hooks : Application α) (l : Link α) :
    l.Quiet (l.negotiateOperationalOptions hooks) := by
  have hfixed : l.Quiet (((((((((((l.qRequest .local_ Telnet.Opt.binary true).qRequest
      .remote Telnet.Opt.binary true).qRequest .local_ Telnet.Opt.suppressGoAhead true).qRequest
      .remote Telnet.Opt.suppressGoAhead true).qRequest .local_ Telnet.Opt.endOfRecord true).qRequest
      .remote Telnet.Opt.naws true).qRequest .remote Telnet.Opt.terminalType true).qRequest
      .local_ Telnet.Opt.charset true).qRequest .remote Telnet.Opt.charset true).qRequest
      .remote Telnet.Opt.newEnviron true)) := by
    apply_rules [Quiet.qRequest, Quiet.refl]
  exact .qRequest (.ite (.qRequest hfixed _ _ _) hfixed) _ _ _

end Link

-- SUMMARY: The SSH editor on whole scripts, and what of one line it carries over to the next.
import TelnetTlsServer.Session.Rates
import TelnetTlsServer.Ssh.Twins

/-!
# The editor from line to line

Within a line the editor is exact: after a script it holds the encoding of the script's
text, however the bytes are cut. Between lines it carries the state of its escape sequences
over, since the end of a line is looked at before them, and the mark of a write that failed
while the application had the line. Two connections that have just completed a line go on
alike if these two are the same, and where no write fails only if they are.
-/

open EditScript Transition.System

/-! ## Within a line -/

/-- After a script of characters and rubouts whose text always fits, the line is the encoding
of the text, in whatever pieces and at whatever times the bytes came. -/
theorem ssh_editing_exact {χ α : Type} {lib : SshLibrary χ} (hlib : lib.Writes)
    (application : Application α) {c : SshConnection χ α} {session : Nat} (hready : c.Ready session)
    (script : TypingScript) (hshort : script.Short) (pieces : List (Bytes × UInt64))
    (hpieces : pieces.flatMap Prod.fst = script.bytes)
    (hadmits : SshConnection.AdmitsAll lib application c pieces) :
    (c.receive lib application pieces).text =
        (text script).flatMap (fun ch => String.utf8EncodeChar ch.1) ∧
      (c.receive lib application pieces).lineLength = script.line.length := by
  have hsome : c.applicationSession.isSome = true := by rw [hready.session]; rfl
  have htyped := hready.typed.receive hlib application hready.shell hsome
    (fun b hb => (TypingScript.mem_bytes (hpieces ▸ hb)).1)
    (hpieces ▸ TypingScript.fits_of_short hshort) hadmits
  rw [hpieces, TypingScript.ssh_line] at htyped
  exact ⟨htyped.text, htyped.length⟩

/-- An `é` cut in two, an `x`, and a rubout. -/
theorem ssh_editing_exact_cut :
    (SshConnection.playing.receive .willing .idle [([0xC3], 5), ([0xA9, 120], 5), ([127], 5)]).text =
      [0xC3, 0xA9] := by
  have hadmits : SshConnection.AdmitsAll .willing .idle SshConnection.playing
      [([0xC3], 5), ([0xA9, 120], 5), ([127], 5)] := by
    unfold SshConnection.AdmitsAll SshConnection.receive
    let admits (c : SshConnection Unit Unit) (piece : Bytes × UInt64) := c.Admits piece.1 piece.2
    exact along_cons (K := admits) ⟨by decide, by decide⟩
      (along_cons (K := admits) ⟨by decide, by decide⟩
        (along_cons (K := admits) ⟨by decide, by decide⟩ along_nil))
  have hexact := ssh_editing_exact SshLibrary.writes_willing .idle SshConnection.ready_playing
    [.type ⟨'é', by decide⟩, .type ⟨'x', by decide⟩, .erase .delete] (by decide) _ (by decide) hadmits
  exact hexact.1.trans (by decide)

/-! ## Behind a completed line -/

namespace SshWire

variable {χ α : Type} {lib : SshLibrary χ} (hlib : lib.Writes) {w : SshWire χ α}

include hlib

theorem writable_writeTerminalText (h : w.Writable) (text : Bytes) :
    (w.writeTerminalText lib text).2.Writable := by
  rw [writeTerminalText, writeTerminalTextFrom_eq]
  generalize textChunks [] none text = chunks
  induction chunks generalizing w with
  | nil => exact h
  | cons chunk chunks ih =>
    obtain ⟨hok, hwritable, -⟩ := writable_channelWriteAll hlib h chunk
    unfold writeChunks
    dsimp only
    rw [hok, Bool.not_true, if_neg Bool.false_ne_true]
    exact ih hwritable

theorem writable_output (h : w.Writable) (call : Wire.OutputCall) :
    (w.output lib call).2.Writable := by
  cases call with
  | writeText text | writePrompt text | writeLink uri text =>
    exact writable_writeTerminalText hlib h text
  | requestClose message =>
    cases message with
    | none => exact ⟨h.channel, h.writeFailed⟩
    | some text =>
      have hwritten := writable_writeTerminalText hlib h text
      exact ⟨hwritten.channel, hwritten.writeFailed⟩
  | sendGmcp => exact h

theorem writable_callHook {ρ : Type} (h : w.Writable) (call : ApplicationCall)
    (hook : α → Wire.HookProgram (ρ × α)) : (w.callHook lib call hook).2.Writable := by
  have hrun : ∀ (program : Wire.HookProgram (ρ × α)) {w : SshWire χ α}, w.Writable →
      (w.runHook lib program).2.Writable := by
    intro program
    induction program with
    | ret result => exact id
    | call c next ih => exact fun h => ih _ (writable_output hlib h c)
  have hdone := hrun (hook w.app) (w := w.emit (.application call)) ⟨h.channel, h.writeFailed⟩
  exact ⟨hdone.channel, hdone.writeFailed⟩

omit hlib in
theorem writable_of_written {data : Bytes} (h : (w.channelWriteAll lib data).1 = true) :
    w.Writable := by
  unfold channelWriteAll at h
  split at h
  · cases h
  · split at h
    · cases h
    case h_2 hchannel hfailed =>
      exact ⟨by rw [hchannel]; rfl, eq_false_of_ne_true hfailed⟩

end SshWire

namespace SshConnection

variable {χ α : Type} {lib : SshLibrary χ} {application : Application α} {c d : SshConnection χ α}
  {session : Nat}

/-- What a CR that completes a line leaves. -/
theorem handleInputByte_completed {c₀ : SshConnection χ α} {nowMs : UInt64}
    (h : c₀.handleInputByte lib application 13 nowMs = (true, c)) :
    ∃ wire window, c₀.wire.channelWriteAll lib [13, 10] = (true, wire) ∧
      c = { cleared { c₀ with pendingCr := false, wire := wire } window
        (handOver lib application c₀.applicationSession wire c₀.text) with pendingCr := true } := by
  rw [handleInputByte, if_neg (by simp)] at h
  dsimp only at h
  rw [if_pos (by simp), handleLineEnd, write] at h
  dsimp only at h
  rcases hwrite : c₀.wire.channelWriteAll lib [13, 10] with ⟨_ | _, wire⟩ <;> rw [hwrite] at h
  · cases h
  · rcases hrate : rateConsume c₀.lineWindow 1 sshInputLinesPerWindow sshInputLinesWindowMs nowMs with
      ⟨_ | _, window⟩
    · simp [completeInputLine, hrate] at h
    · rw [completeInputLine_accepted (c := { c₀ with pendingCr := false, wire := wire }) lib
        application hrate] at h
      exact ⟨wire, window, rfl, (Prod.mk.inj h).2.symm⟩

/-- The connection has just completed a line on a CR, the application has got it, and nobody
wants to close. -/
structure JustCompleted (lib : SshLibrary χ) (application : Application α) (session : Nat)
    (c : SshConnection χ α) : Prop where
  completed : ∃ (c₀ : SshConnection χ α) (nowMs : UInt64), c₀.shellStarted = true ∧
    c₀.applicationSession = some session ∧ c₀.handleInputByte lib application 13 nowMs = (true, c)
  isOpen : c.wire.closeRequested = false

namespace JustCompleted

/-- All of the editor but its escape sequences is as at the start. -/
theorem editor (h : c.JustCompleted lib application session) :
    c.shellStarted = true ∧ c.applicationSession = some session ∧ c.line = .zero 513 ∧
      c.lineLength = 0 ∧ c.pendingCr = true := by
  obtain ⟨c₀, nowMs, hshell, hsession, hstep⟩ := h.completed
  obtain ⟨wire, window, -, rfl⟩ := handleInputByte_completed hstep
  unfold cleared
  split_ifs <;> exact ⟨hshell, hsession, rfl, rfl, rfl⟩

theorem live (hlib : lib.Writes) (h : c.JustCompleted lib application session) : c.wire.Live := by
  obtain ⟨c₀, nowMs, -, -, hstep⟩ := h.completed
  obtain ⟨wire, window, hwrite, rfl⟩ := handleInputByte_completed hstep
  have hok : (c₀.wire.channelWriteAll lib [13, 10]).1 = true := by rw [hwrite]
  have hechoed : wire.Writable := by
    have hready := SshWire.writable_of_written hok
    have hkept := (SshWire.writable_channelWriteAll hlib hready [13, 10]).2.1
    rwa [hwrite] at hkept
  have hgiven : (handOver lib application c₀.applicationSession wire c₀.text).2.Writable := by
    unfold handOver
    split
    · exact SshWire.writable_callHook hlib hechoed _ _
    · exact hechoed
  refine ⟨?_, ?_, h.isOpen⟩
  · unfold cleared
    split_ifs <;> exact hgiven.channel
  · unfold cleared
    split_ifs <;> exact hgiven.writeFailed

theorem twins {S : χ → χ → Prop} {R : α → α → Prop} (hc : c.JustCompleted lib application session)
    (hd : d.JustCompleted lib application session)
    (hchannel : Option.Rel S c.wire.channel d.wire.channel) (happ : R c.wire.app d.wire.app)
    (hbytes : c.byteWindow = d.byteWindow) (hlines : c.lineWindow = d.lineWindow)
    (hescape : c.escapeState = d.escapeState) (hfailed : c.wire.writeFailed = d.wire.writeFailed) :
    Twins S R c.wire.applicationCalls d.wire.applicationCalls c d := by
  obtain ⟨hshell, hsession, hline, hlength, hpending⟩ := hc.editor
  obtain ⟨hshell', hsession', hline', hlength', hpending'⟩ := hd.editor
  refine ⟨⟨hchannel, hfailed, hc.isOpen.trans hd.isOpen.symm, happ, [],
    (List.append_nil _).symm, (List.append_nil _).symm⟩, ?_⟩
  rw [hshell.trans hshell'.symm, hsession.trans hsession'.symm, hline.trans hline'.symm,
    hlength.trans hlength'.symm, hpending.trans hpending'.symm, hbytes, hlines, hescape]

end JustCompleted

/-! ### Typing that tells the escape states apart -/

/-- The bytes of `[a` that an escape sequence swallows. -/
def swallowed : EscapeState → Bytes
  | .ground => []
  | .escape => [91, 97]
  | .sequence => [91]

/-- The keys of `[a` behind them, which are typed. -/
def spared : EscapeState → TypingScript
  | .ground => [.type ⟨'[', by decide⟩, .type ⟨'a', by decide⟩]
  | .escape => []
  | .sequence => [.type ⟨'a', by decide⟩]

theorem swallowed_spared (state : EscapeState) :
    swallowed state ++ (spared state).bytes = [91, 97] := by
  cases state <;> decide

theorem short_spared (state : EscapeState) : (spared state).Short := by
  cases state <;> decide

theorem eq_of_line_spared {state state' : EscapeState}
    (h : (spared state).line = (spared state').line) : state = state' := by
  revert h
  cases state <;> cases state' <;> decide

theorem handleInput_escape (hopen : c.wire.closeRequested = false) (hescape : c.escapeState ≠ .ground)
    {byte : UInt8} (hbyte : byte ≠ 13 ∧ byte ≠ 10 ∧ byte ≠ 4) (nowMs : UInt64) (rest : Bytes) :
    c.handleInput lib application nowMs (byte :: rest) =
      ({ c with pendingCr := false }.handleEscape byte).handleInput lib application nowMs rest := by
  obtain ⟨hcr, hlf, heot⟩ := hbyte
  have hstep : c.handleInputByte lib application byte nowMs =
      (true, { c with pendingCr := false }.handleEscape byte) := by
    rw [handleInputByte, if_neg (by simp [hlf])]
    dsimp only
    rw [if_neg (by simp [hcr, hlf]), handleTypedByte, if_neg heot, if_pos hescape]
  rw [handleInput, hopen, if_neg Bool.false_ne_true, hstep]
  rfl

/-- The swallowed bytes leave an empty line, and no escape sequence. -/
theorem handleInput_swallowed (lib : SshLibrary χ) (application : Application α)
    (hlive : c.wire.Live) (hlength : c.lineLength = 0) (nowMs : UInt64) :
    ∃ c', Typed c [] c' ∧ ∀ rest,
      c.handleInput lib application nowMs (swallowed c.escapeState ++ rest) =
        c'.handleInput lib application nowMs rest := by
  have htext : c.line.bytes.take c.lineLength = [] := by rw [hlength]; rfl
  cases hstate : c.escapeState with
  | ground => exact ⟨c, ⟨hlive, rfl, rfl, rfl, rfl, hstate, hlength, htext⟩, fun _ => rfl⟩
  | escape =>
    refine ⟨{ c with pendingCr := false, escapeState := .ground },
      ⟨hlive, rfl, rfl, rfl, rfl, rfl, hlength, htext⟩, fun rest => ?_⟩
    rw [swallowed, List.cons_append, handleInput_escape hlive.closeRequested (by rw [hstate]; decide)
      (by decide), handleEscape, if_pos hstate]
    exact handleInput_escape (c := { c with pendingCr := false, escapeState := .sequence })
      hlive.closeRequested EscapeState.noConfusion (by decide) nowMs rest
  | sequence =>
    refine ⟨{ c with pendingCr := false, escapeState := .ground },
      ⟨hlive, rfl, rfl, rfl, rfl, rfl, hlength, htext⟩, fun rest => ?_⟩
    rw [swallowed, List.cons_append, handleInput_escape hlive.closeRequested (by rw [hstate]; decide)
      (by decide), handleEscape, if_neg (by rw [hstate]; decide)]
    rfl

/-- `[a` and a CR hand over what the escape state has spared. -/
theorem calls_bracket (hlib : lib.Writes) (hhook : application.line.isSome = true)
    (hlive : c.wire.Live) (hlength : c.lineLength = 0) (hshell : c.shellStarted = true)
    (hsession : c.applicationSession = some session) {nowMs : UInt64}
    (hadmits : c.Admits [91, 97, 13] nowMs) (haccepted : (rateConsume c.lineWindow 1
      sshInputLinesPerWindow sshInputLinesWindowMs nowMs).1 = true) :
    (c.receive lib application [([91, 97, 13], nowMs)]).wire.applicationCalls =
      c.wire.applicationCalls ++ [.line session (spared c.escapeState).line] := by
  obtain ⟨hook, hhook⟩ := Option.isSome_iff_exists.mp hhook
  rw [receive, List.foldl_cons, List.foldl_nil, channelDataCallback_of_admits application hshell
    (by rw [hsession]; rfl) hadmits]
  generalize (rateConsume c.byteWindow _ _ _ _).2 = window
  obtain ⟨c₁, hempty, hskip⟩ := handleInput_swallowed lib application
    (c := { c with byteWindow := window, lastActivityMs := nowMs }) hlive hlength nowMs
  obtain ⟨c₂, htyped, hput⟩ := hempty.handleInput hlib application nowMs
    (fun b hb => (TypingScript.mem_bytes hb).1)
    (TypingScript.fits_of_short (short_spared c.escapeState))
  rw [TypingScript.ssh_line] at htyped
  have hinput : handleInput lib application nowMs
      { c with byteWindow := window, lastActivityMs := nowMs } [91, 97, 13] =
        c₂.handleInput lib application nowMs [13] := by
    rw [← hput, ← hskip, ← List.append_assoc]
    exact congrArg (handleInput lib application nowMs _ <| · ++ [13])
      (swallowed_spared c.escapeState).symm
  rw [hinput]
  have hline : Typed c (spared c.escapeState).line c₂ := ⟨htyped.live, htyped.calls, htyped.session,
    htyped.shell, htyped.lineWindow, htyped.ground, htyped.length, htyped.text⟩
  exact hline.complete hlib hhook hsession haccepted

/-- Of three times that lie apart, two windows leave one. -/
theorem exists_time_of_apart {P Q : UInt64 → Prop}
    (hP : ∀ early late : UInt64, early.toNat + 10000 ≤ late.toNat → P early ∨ P late)
    (hQ : ∀ early late : UInt64, early.toNat + 10000 ≤ late.toNat → Q early ∨ Q late) :
    ∃ nowMs, nowMs ≠ 0 ∧ P nowMs ∧ Q nowMs := by
  by_cases hfirst : P 1 ∧ Q 1
  · exact ⟨1, by decide, hfirst⟩
  have hlater : P 10001 ∧ P 20001 ∨ Q 10001 ∧ Q 20001 := by
    rcases not_and_or.mp hfirst with hnot | hnot
    · exact .inl ⟨(hP 1 10001 (by decide)).resolve_left hnot,
        (hP 1 20001 (by decide)).resolve_left hnot⟩
    · exact .inr ⟨(hQ 1 10001 (by decide)).resolve_left hnot,
        (hQ 1 20001 (by decide)).resolve_left hnot⟩
  rcases hlater with ⟨hsecond, hthird⟩ | ⟨hsecond, hthird⟩
  · rcases hQ 10001 20001 (by decide) with hother | hother
    · exact ⟨10001, by decide, hsecond, hother⟩
    · exact ⟨20001, by decide, hthird, hother⟩
  · rcases hP 10001 20001 (by decide) with hother | hother
    · exact ⟨10001, by decide, hother, hsecond⟩
    · exact ⟨20001, by decide, hother, hthird⟩

theorem exists_admits (c : SshConnection χ α) : ∃ nowMs, c.Admits [91, 97, 13] nowMs ∧
    (rateConsume c.lineWindow 1 sshInputLinesPerWindow sshInputLinesWindowMs nowMs).1 = true := by
  obtain ⟨nowMs, hclock, hbytes, hline⟩ := exists_time_of_apart
    (fun early late hapart => rateConsume_renewed c.byteWindow
      (show 3 ≤ sshInputBytesPerWindow by decide)
      ((Nat.add_le_add_left (show sshInputBytesWindowMs.toNat ≤ 10000 by decide) _).trans hapart))
    (fun early late hapart => rateConsume_renewed c.lineWindow
      (show 1 ≤ sshInputLinesPerWindow by decide)
      (show early.toNat + sshInputLinesWindowMs.toNat ≤ late.toNat from hapart))
  exact ⟨nowMs, ⟨hclock, hbytes⟩, hline⟩

/-! ### The reset -/

/-- Whatever comes next, in whatever pieces and at whatever times, both connections make the
same calls. -/
def SameCalls (lib : SshLibrary χ) (application : Application α) (c d : SshConnection χ α) : Prop :=
  ∀ pieces, ∃ new,
    (c.receive lib application pieces).wire.applicationCalls = c.wire.applicationCalls ++ new ∧
      (d.receive lib application pieces).wire.applicationCalls = d.wire.applicationCalls ++ new

/-- Behind a completed line the calls depend on the bytes before it through the state of the
escape sequences and through whether a write failed while the application had the line. Where
the library writes what it is given the second cannot be, and the first decides. -/
theorem line_reset_iff {S : χ → χ → Prop} {R : α → α → Prop} (hlib : lib.TreatsAlike S)
    (happ : application.TreatsAlike R) (hhook : application.line.isSome = true)
    (hc : c.JustCompleted lib application session) (hd : d.JustCompleted lib application session)
    (hchannel : Option.Rel S c.wire.channel d.wire.channel) (hstate : R c.wire.app d.wire.app)
    (hbytes : c.byteWindow = d.byteWindow) (hlines : c.lineWindow = d.lineWindow) :
    (c.escapeState = d.escapeState ∧ c.wire.writeFailed = d.wire.writeFailed →
        SameCalls lib application c d) ∧
      (lib.Writes → (SameCalls lib application c d ↔
        c.escapeState = d.escapeState ∧ c.wire.writeFailed = d.wire.writeFailed)) := by
  have hsame : c.escapeState = d.escapeState ∧ c.wire.writeFailed = d.wire.writeFailed →
      SameCalls lib application c d := by
    rintro ⟨hescape, hfailed⟩ pieces
    have htwins := hc.twins hd hchannel hstate hbytes hlines hescape hfailed
    exact (htwins.receive hlib happ pieces).1.calls
  refine ⟨hsame, fun hwrites => ⟨fun hcalls => ?_, hsame⟩⟩
  have hlive := hc.live hwrites
  have hlive' := hd.live hwrites
  obtain ⟨hshell, hsession, -, hlength, -⟩ := hc.editor
  obtain ⟨hshell', hsession', -, hlength', -⟩ := hd.editor
  obtain ⟨nowMs, hadmits, haccepted⟩ := exists_admits c
  obtain ⟨new, hnew, hnew'⟩ := hcalls [([91, 97, 13], nowMs)]
  rw [calls_bracket hwrites hhook hlive hlength hshell hsession hadmits haccepted] at hnew
  rw [calls_bracket hwrites hhook hlive' hlength' hshell' hsession'
    (by unfold Admits at hadmits ⊢; rwa [← hbytes]) (by rwa [← hlines])] at hnew'
  have hlast := (List.append_cancel_left hnew).trans (List.append_cancel_left hnew').symm
  simp only [List.cons.injEq, ApplicationCall.line.injEq, and_true, true_and] at hlast
  exact ⟨eq_of_line_spared hlast, hlive.writeFailed.trans hlive'.writeFailed.symm⟩

end SshConnection

/-- A letter and a CR. -/
def SshConnection.afterLetter : SshConnection Unit Unit :=
  SshConnection.playing.receive .willing .idle [([97, 13], 5)]

/-- ESC and a CR. -/
def SshConnection.afterEscape : SshConnection Unit Unit :=
  SshConnection.playing.receive .willing .idle [([27, 13], 5)]

theorem SshConnection.justCompleted_afterLetter : afterLetter.JustCompleted .willing .idle 7 where
  completed := ⟨{ playing with byteWindow := ⟨5, 2⟩, lastActivityMs := 5 }.handleInput .willing .idle 5
    [97], 5, rfl, rfl, rfl⟩
  isOpen := rfl

theorem SshConnection.justCompleted_afterEscape : afterEscape.JustCompleted .willing .idle 7 where
  completed := ⟨{ playing with byteWindow := ⟨5, 2⟩, lastActivityMs := 5 }.handleInput .willing .idle 5
    [27], 5, rfl, rfl, rfl⟩
  isOpen := rfl

/-- The same windows and the same bytes, `a` and a CR: the connection that has seen an ESC
hands over an empty line. -/
theorem line_not_reset :
    SshConnection.afterLetter.JustCompleted .willing .idle 7 ∧
      SshConnection.afterEscape.JustCompleted .willing .idle 7 ∧
      SshConnection.afterLetter.byteWindow = SshConnection.afterEscape.byteWindow ∧
      SshConnection.afterLetter.lineWindow = SshConnection.afterEscape.lineWindow ∧
      (SshConnection.afterLetter.receive .willing .idle [([97, 13], 6)]).wire.applicationCalls =
        SshConnection.afterLetter.wire.applicationCalls ++ [.line 7 [97]] ∧
      (SshConnection.afterEscape.receive .willing .idle [([97, 13], 6)]).wire.applicationCalls =
        SshConnection.afterEscape.wire.applicationCalls ++ [.line 7 []] :=
  ⟨SshConnection.justCompleted_afterLetter, SshConnection.justCompleted_afterEscape, by decide,
    by decide, by decide, by decide⟩

theorem line_reset_iff_escape :
    SshConnection.SameCalls .willing .idle SshConnection.afterLetter SshConnection.afterEscape ↔
      SshConnection.afterLetter.escapeState = SshConnection.afterEscape.escapeState ∧
        SshConnection.afterLetter.wire.writeFailed = SshConnection.afterEscape.wire.writeFailed :=
  (SshConnection.line_reset_iff SshLibrary.willing.treatsAlike_eq Application.idle.treatsAlike_eq rfl
    SshConnection.justCompleted_afterLetter SshConnection.justCompleted_afterEscape (.some rfl) rfl
    rfl rfl).2 SshLibrary.writes_willing

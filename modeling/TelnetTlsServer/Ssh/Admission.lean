-- SUMMARY: An SSH connection over its whole life: refused attempts, one accepted, one shell, and the calls of its application.
import TelnetTlsServer.Ssh.Conduct
import TelnetTlsServer.Session.View

/-!
# Admission over SSH

libssh may call back in any order. Whatever it does, the calls to store, policy and
application form one record: attempts that were refused, at most one that was accepted,
then at most one `open` for the accepted name, and then calls for the session it returned.
A connection is in one of four standings, each with the record it has.
-/

/-- What the policy and the store are asked about: a valid name and a password of a
length that is allowed. -/
structure SshAttempt where
  user : Bytes
  password : Bytes
  nowMs : UInt64
  valid : playerStoreNameValid user = true
  long : playerPasswordMin ≤ password.length
  short : password.length ≤ playerPasswordMax

namespace OutwardCall

/-- The snapshot that comes with a call. -/
def view? : OutwardCall → Option TerminalCapabilities
  | application call => call.view?
  | backend _ => none

/-- The call of store or policy, if it is one. -/
def backend? : OutwardCall → Option BackendCall
  | backend call => some call
  | application _ => none

theorem filterMap_backend_application (calls : List ApplicationCall) :
    (calls.map application).filterMap backend? = [] := by
  simp [backend?]

theorem filterMap_view_backend (calls : List BackendCall) :
    (calls.map backend).filterMap view? = [] := by
  simp [view?]

theorem filterMap_view_application (calls : List ApplicationCall) :
    (calls.map application).filterMap view? = calls.filterMap ApplicationCall.view? := by
  rw [List.filterMap_map]
  rfl

end OutwardCall

namespace SshAttempt

/-- The policy refuses the attempt. -/
def throttled (peer : Bytes) (a : SshAttempt) : List BackendCall :=
  [.allowAuthAttempt peer a.user a.nowMs false]

/-- The store does not accept the password, and the policy is told. -/
def failed (peer : Bytes) (a : SshAttempt) (answer : Int) : List BackendCall :=
  [.allowAuthAttempt peer a.user a.nowMs true, .verifyPassword a.user a.password answer,
    .noteAuthFailure peer a.user a.nowMs]

def accepted (peer : Bytes) (a : SshAttempt) : List BackendCall :=
  [.allowAuthAttempt peer a.user a.nowMs true, .verifyPassword a.user a.password 1,
    .noteAuthSuccess peer a.user a.nowMs]

/-- The calls of an attempt that did not succeed. -/
inductive Refused (peer : Bytes) : List BackendCall → Prop where
  | throttled (a : SshAttempt) : Refused peer (a.throttled peer)
  | failed (a : SshAttempt) {answer : Int} (h : answer ≠ 1) : Refused peer (a.failed peer answer)

end SshAttempt

theorem string_copyTerminalField {n : Nat} {b : Buffer n} {name : Bytes} (hlength : name.length < n)
    (hname : ∀ ch ∈ name, 0x20 ≤ ch ∧ ch ≤ 0x7e) : (copyTerminalField b name).string = name := by
  have hcopied : (name.take (n - 1)).map (fun ch => if 0x20 ≤ ch && ch ≤ 0x7e then ch else 63) =
      name := by
    rw [List.take_of_length_le (Nat.le_sub_one_of_lt hlength)]
    refine (List.map_congr_left fun ch hch => ?_).trans (List.map_id name)
    rw [if_pos (by simpa using hname ch hch)]
    rfl
  rw [copyTerminalField, hcopied]
  refine Buffer.string_copyString hlength fun ch hch hzero => ?_
  have hle := (hname ch hch).1
  rw [hzero] at hle
  exact absurd hle (by decide)

/-- An account field holds every valid name as it is. -/
theorem string_accountName {b : Buffer 16} {name : Bytes} (h : playerStoreNameValid name = true) :
    (copyTerminalField b name).string = name := by
  obtain ⟨-, hmax, hbytes⟩ := playerStoreNameValid_iff.mp h
  refine string_copyTerminalField (Nat.lt_of_le_of_lt hmax (by decide)) fun ch hch => ?_
  have hprintable : ∀ b : UInt8, nameByteValid b = true → 0x20 ≤ b ∧ b ≤ 0x7e :=
    fun b => forall_byte (by decide +kernel) b
  exact hprintable ch (hbytes ch hch)

namespace Backend

variable {β : Type}

/-- What store and policy answer to a call of a login over SSH. -/
inductive Answers (backend : Backend β) (b : β) : BackendCall → β → Prop where
  | allowAuthAttempt {peer name : Bytes} {nowMs : UInt64} {allowed : Bool} {b' : β}
      (h : backend.allowAuthAttempt b peer name nowMs = (allowed, b')) :
      Answers backend b (.allowAuthAttempt peer name nowMs allowed) b'
  | verifyPassword {name password : Bytes} {answer : Int} {rehashed : Bool} {b' : β}
      (h : backend.verifyPassword b name password = ((answer, rehashed), b')) :
      Answers backend b (.verifyPassword name password answer) b'
  | noteAuthFailure (peer name : Bytes) (nowMs : UInt64) :
      Answers backend b (.noteAuthFailure peer name nowMs)
        (backend.noteAuthFailure b peer name nowMs)
  | noteAuthSuccess (peer name : Bytes) (nowMs : UInt64) :
      Answers backend b (.noteAuthSuccess peer name nowMs)
        (backend.noteAuthSuccess b peer name nowMs)

/-- One call after the other. -/
inductive Serves (backend : Backend β) : β → List BackendCall → β → Prop where
  | refl (b : β) : Serves backend b [] b
  | call {b b' b'' : β} {call : BackendCall} {calls : List BackendCall}
      (h : backend.Answers b call b') (h' : Serves backend b' calls b'') :
      Serves backend b (call :: calls) b''

theorem Serves.trans {backend : Backend β} {b b' b'' : β} {calls calls' : List BackendCall}
    (h : backend.Serves b calls b') (h' : backend.Serves b' calls' b'') :
    backend.Serves b (calls ++ calls') b'' := by
  induction h with
  | refl => exact h'
  | call hanswer _ ih => exact .call hanswer (ih h')

end Backend

/-- What the application is told about the terminal, if it can be. -/
def SshTerminal.announcement {χ α : Type} (application : Application α) (t : SshTerminal χ α) :
    List ApplicationCall :=
  match t.connection.applicationSession, application.capabilitiesChanged with
  | some session, some _ => [.capabilitiesChanged session t.capabilities]
  | _, _ => []

namespace SshSession

variable {χ β α : Type}

/-! ## What an action does -/

/-- The calls to the outside so far. -/
def outward (s : SshSession χ β α) : List OutwardCall := s.wire.outward

def backendCalls (s : SshSession χ β α) : List BackendCall :=
  s.outward.filterMap OutwardCall.backend?

/-- The session of the application. -/
def session (s : SshSession χ β α) : Option Nat := s.terminal.connection.applicationSession

def shellStarted (s : SshSession χ β α) : Bool := s.terminal.connection.shellStarted

/-- The calls of a shell request. -/
def opening (host : SshHost χ β α) (s : SshSession χ β α) : List OutwardCall :=
  match host.application.open_ with
  | some _ => [.application (.open_ s.accountName.string s.terminal.capabilities)]
  | none => []

/-- The session a shell request ends with: what `open` returns, if there is that hook. -/
def answered (host : SshHost χ β α) (s : SshSession χ β α) : Option Nat :=
  match host.application.open_ with
  | some hook =>
      (s.wire.callHook host.library (.open_ s.accountName.string s.terminal.capabilities)
        (hook s.accountName.string s.terminal.capabilities)).1
  | none => s.session

/-- The calls `made` are made, and store and policy answer theirs. -/
structure Makes (host : SshHost χ β α) (made : List OutwardCall) (s s' : SshSession χ β α) :
    Prop where
  wire : s.wire.Does made s'.wire
  backend : host.backend.Serves s.backend (made.filterMap OutwardCall.backend?) s'.backend

/-- Neither the account nor the attachment changes. -/
structure Stays (host : SshHost χ β α) (made : List OutwardCall) (s s' : SshSession χ β α) : Prop
    extends Makes host made s s' where
  name : s'.accountName = s.accountName
  authenticated : s'.authenticated = s.authenticated
  session : s'.session = s.session
  shell : s'.shellStarted = s.shellStarted
  tidy : s.terminal.connection.Tidy → s'.terminal.connection.Tidy

/-- A call that a session of the application gets from the event loop. -/
inductive Drives (host : SshHost χ β α) (s : SshSession χ β α) (session : Nat) :
    ApplicationCall → Prop where
  | line {text : Bytes} (hook : host.application.line.isSome = true)
      (hclean : s.terminal.connection.Tidy → CleanLine text) :
      Drives host s session (.line session text)
  | poll (hook : host.application.poll.isSome = true) : Drives host s session (.poll session)

/-- A shell request that is granted. -/
structure Starts (host : SshHost χ β α) (s s' : SshSession χ β α) : Prop
    extends Makes host (s.opening host) s s' where
  authenticated : s.authenticated = true
  new : s.shellStarted = false
  name : s'.accountName = s.accountName
  kept : s'.authenticated = true
  capabilities : s'.terminal.capabilities = s.terminal.capabilities
  shell : s'.shellStarted = true
  session : s'.session = s.answered host
  action : s' = s.act host (.callback .shell)
  tidy : s.terminal.connection.Tidy → s'.terminal.connection.Tidy

/-- What an action can do to a connection. -/
inductive Conducts (host : SshHost χ β α) (s s' : SshSession χ β α) : Prop where
  /-- Whoever is attached goes on. -/
  | goesOn (calls : List ApplicationCall) (hstays : Stays host (calls.map .application) s s')
      (hcapabilities : s'.terminal.capabilities = s.terminal.capabilities)
      (hcalls : ∀ call ∈ calls, ∃ session, s.session = some session ∧ Drives host s session call)
  /-- The terminal is another one, and the application is told. -/
  | hinted
      (hstays : Stays host ((s'.terminal.announcement host.application).map .application) s s')
  | refused (calls : List BackendCall) (hrefused : SshAttempt.Refused host.peerName calls)
      (hanonymous : s.authenticated = false) (hstays : Stays host (calls.map .backend) s s')
  | accepted (a : SshAttempt) (hanonymous : s.authenticated = false)
      (hauth : s'.authenticated = true) (hname : s'.accountName.string = a.user)
      (hsession : s'.session = s.session) (hshell : s'.shellStarted = s.shellStarted)
      (htidy : s.terminal.connection.Tidy → s'.terminal.connection.Tidy)
      (hmakes : Makes host ((a.accepted host.peerName).map .backend) s s')
  | channel (channel : χ) (hauth : s.authenticated = true)
      (hs' : s' = s.onWire ({ · with channel := some channel }))
  | shell (h : Starts host s s')

theorem Makes.trans {host : SshHost χ β α} {made made' : List OutwardCall}
    {s s' s'' : SshSession χ β α} (h : Makes host made s s') (h' : Makes host made' s' s'') :
    Makes host (made ++ made') s s'' :=
  ⟨h.wire.trans h'.wire, List.filterMap_append ▸ h.backend.trans h'.backend⟩

theorem Makes.backendCalls {host : SshHost χ β α} {made : List OutwardCall}
    {s s' : SshSession χ β α} (h : Makes host made s s') :
    s'.backendCalls = s.backendCalls ++ made.filterMap OutwardCall.backend? := by
  rw [SshSession.backendCalls, outward, h.wire.calls, List.filterMap_append]
  rfl

namespace Stays

variable {host : SshHost χ β α} {made made' : List OutwardCall} {s s' s'' : SshSession χ β α}

theorem refl (s : SshSession χ β α) : Stays host [] s s :=
  ⟨⟨.refl _, .refl _⟩, rfl, rfl, rfl, rfl, id⟩

theorem trans (h : Stays host made s s') (h' : Stays host made' s' s'') :
    Stays host (made ++ made') s s'' :=
  ⟨h.toMakes.trans h'.toMakes, h'.name.trans h.name, h'.authenticated.trans h.authenticated,
    h'.session.trans h.session, h'.shell.trans h.shell, fun ht => h'.tidy (h.tidy ht)⟩

theorem andThen (h : Stays host made s s') (h' : Stays host [] s' s'') :
    Stays host made s s'' := by
  simpa using h.trans h'

theorem onWire (s : SshSession χ β α) {f : SshWire χ α → SshWire χ α}
    (h : s.wire.Does made (f s.wire)) (hmade : made.filterMap OutwardCall.backend? = []) :
    Stays host made s (s.onWire f) :=
  ⟨⟨h, hmade ▸ .refl _⟩, rfl, rfl, rfl, rfl, fun ht => ⟨ht.bound, ht.typable⟩⟩

theorem audit (s : SshSession χ β α) (event detail : String) :
    Stays host [] s (s.audit event detail) :=
  onWire s (.auditConnection _ _ _) rfl

theorem tell (host : SshHost χ β α) (s : SshSession χ β α) (text : String) :
    Stays host [] s (s.tell host text) :=
  onWire s (.writeTerminalText host.library _ _) rfl

theorem requestClose (s : SshSession χ β α) : Stays host [] s s.requestClose :=
  onWire s (.setCloseRequested _) rfl

theorem record (s : SshSession χ β α) {call : BackendCall} {b : β}
    (h : host.backend.Answers s.backend call b) :
    Stays host [.backend call] s (s.record call b) :=
  ⟨⟨.emit s.wire (e := .backend call) rfl, .call h (.refl b)⟩, rfl, rfl, rfl, rfl,
    fun ht => ⟨ht.bound, ht.typable⟩⟩

end Stays

namespace Conducts

variable {host : SshHost χ β α}

/-- Nobody is called. -/
theorem quiet {s s' : SshSession χ β α} (hstays : Stays host [] s s')
    (hcapabilities : s'.terminal.capabilities = s.terminal.capabilities) : Conducts host s s' :=
  .goesOn [] hstays hcapabilities (List.forall_mem_nil _)

/-- The account is noted once store and policy have been through it. -/
theorem admitted (a : SshAttempt) {s₀ s : SshSession χ β α} (hanonymous : s₀.authenticated = false)
    (hnoted : Stays host ((a.accepted host.peerName).map .backend) s₀ s)
    (event detail : String) :
    Conducts host s₀
      ({ s with
          accountName := copyTerminalField s.accountName a.user
          authenticated := true
          authenticatedMs := a.nowMs
          terminal.connection.lastActivityMs := a.nowMs }.audit event detail) :=
  .accepted a hanonymous rfl (string_accountName a.valid) hnoted.session hnoted.shell
    (fun ht => ⟨(hnoted.tidy ht).bound, (hnoted.tidy ht).typable⟩)
    ⟨hnoted.wire.andThen (.auditConnection _ _ _), hnoted.backend⟩

theorem checkPassword (a : SshAttempt) {s₀ s : SshSession χ β α}
    (hanonymous : s₀.authenticated = false)
    (hasked : Stays host [.backend (.allowAuthAttempt host.peerName a.user a.nowMs true)] s₀ s) :
    Conducts host s₀ (s.checkPassword host a.user a.password a.nowMs).2 := by
  unfold SshSession.checkPassword
  rcases hverify : host.backend.verifyPassword s.backend a.user a.password with
    ⟨⟨verified, rehashed⟩, backend⟩
  dsimp only
  have hverified := hasked.trans (.record s (.verifyPassword hverify))
  split
  case isTrue hwrong =>
    exact .refused _ (.failed a hwrong) hanonymous
      ((hverified.trans (.record _ (.noteAuthFailure host.peerName a.user a.nowMs))).andThen
        (.audit _ _ _))
  case isFalse hright =>
    obtain rfl : verified = 1 := Decidable.not_not.mp hright
    exact admitted a hanonymous
      (hverified.trans (.record _ (.noteAuthSuccess host.peerName a.user a.nowMs))) _ _

theorem passwordAuthCallback (s : SshSession χ β α) (user password : Option Bytes)
    (nowMs : UInt64) : Conducts host s (s.passwordAuthCallback host user password nowMs).2 := by
  unfold SshSession.passwordAuthCallback
  split
  case h_2 => exact quiet (.refl s) rfl
  case h_1 user password =>
    split_ifs with hstanding hlength hclock
    · exact quiet (.refl s) rfl
    · exact quiet (.audit s _ _) rfl
    · exact quiet (.audit s _ _) rfl
    · rw [Bool.or_eq_true, not_or, Bool.not_eq_true, Bool.not_eq_true', Bool.not_eq_false]
        at hstanding
      rw [Bool.or_eq_true, not_or, decide_eq_true_eq, decide_eq_true_eq, Nat.not_lt, Nat.not_lt]
        at hlength
      let a : SshAttempt := ⟨user, password, nowMs, hstanding.2, hlength.1, hlength.2⟩
      rcases hallow : host.backend.allowAuthAttempt s.backend host.peerName user nowMs with
        ⟨allowed, backend⟩
      have hasked := Stays.record s (.allowAuthAttempt hallow)
      cases allowed with
      | false => exact .refused _ (.throttled a) hstanding.1 (hasked.andThen (.audit _ _ _))
      | true => exact checkPassword a hstanding.1 hasked

theorem sessionChannelCallback (s : SshSession χ β α) (channel : Option χ) (callbacksSet : Bool) :
    Conducts host s (s.sessionChannelCallback channel callbacksSet).2 := by
  unfold SshSession.sessionChannelCallback
  split
  · exact quiet (.refl s) rfl
  case isFalse hauth =>
    rw [Bool.or_eq_true, not_or, Bool.not_eq_true', Bool.not_eq_false] at hauth
    cases channel with
    | none => exact quiet (.refl s) rfl
    | some channel =>
      cases callbacksSet with
      | false => exact quiet (.refl s) rfl
      | true => exact .channel channel hauth.1 rfl

theorem shellRequestCallback (s : SshSession χ β α) :
    Conducts host s (s.shellRequestCallback host).2 := by
  have hs' : (s.shellRequestCallback host).2 = s.act host (.callback .shell) := rfl
  generalize hend : (s.shellRequestCallback host).2 = s' at hs' ⊢
  unfold SshSession.shellRequestCallback at hend
  split at hend
  · exact hend ▸ quiet (.refl s) rfl
  case isFalse hstanding =>
    rw [Bool.or_eq_true, not_or, Bool.not_eq_true', Bool.not_eq_false, Bool.not_eq_true]
      at hstanding
    unfold openApplicationSession at hend
    cases hhook : host.application.open_ with
    | none =>
      rw [hhook] at hend
      subst hend
      refine .shell ⟨⟨?_, by rw [opening, hhook]; exact .refl _⟩, hstanding.1, hstanding.2, rfl,
        hstanding.1, rfl, rfl, by rw [answered, hhook]; rfl, hs',
        fun ht => ⟨ht.bound, ht.typable⟩⟩
      rw [opening, hhook]
      exact (SshWire.Does.writeTerminalText host.library s.wire _).trans (.setCloseRequested _)
    | some hook =>
      simp only [hhook] at hend
      generalize hcall : SshWire.callHook host.library _ (.open_ _ _) _ = called at hend
      have hopened : s.wire.Does (s.opening host) called.2 := by
        rw [← hcall, opening, hhook]
        exact .callHook host.library s.wire rfl _
      have hanswer : s.answered host = called.1 := by rw [← hcall, answered, hhook]; rfl
      have hspared : host.backend.Serves s.backend
          ((s.opening host).filterMap OutwardCall.backend?) s.backend := by
        rw [opening, hhook]
        exact .refl _
      rcases called with ⟨_ | session, wire⟩ <;> subst hend
      · exact .shell ⟨⟨(hopened.andThen (.auditConnection _ _ _)).andThen (.setCloseRequested _),
          hspared⟩, hstanding.1, hstanding.2, rfl, hstanding.1, rfl, rfl, hanswer.symm, hs',
          fun ht => ⟨ht.bound, ht.typable⟩⟩
      · exact .shell ⟨⟨hopened.andThen (.auditConnection _ _ _), hspared⟩, hstanding.1,
          hstanding.2, rfl, hstanding.1, rfl, rfl, hanswer.symm, hs',
          fun ht => ⟨ht.bound, ht.typable⟩⟩

/-- The terminal changes and the application is told. -/
theorem notified (s : SshSession χ β α) (capabilities : TerminalCapabilities) :
    let changed : SshTerminal χ α := { s.terminal with capabilities := capabilities }
    Conducts host s { s with
      terminal := changed.notifyCapabilities host.library host.application } := by
  intro changed
  refine .hinted ?_
  unfold SshTerminal.notifyCapabilities
  split
  case h_1 session hook hsession hhook =>
    have hcalled : s.wire.Does [.application (.capabilitiesChanged session capabilities)] _ :=
      .callHook host.library s.wire rfl (hook session capabilities)
    rw [SshTerminal.announcement, hhook]
    simp only [SshConnection.onWire, hsession]
    exact ⟨⟨hcalled, .refl _⟩, rfl, rfl, hsession.symm, rfl, fun ht => ⟨ht.bound, ht.typable⟩⟩
  case h_2 hnobody =>
    unfold SshTerminal.announcement
    split
    case h_1 session hook hsession hhook => exact absurd hhook (hnobody session hook hsession)
    case h_2 =>
      exact ⟨⟨.refl _, .refl _⟩, rfl, rfl, rfl, rfl, fun ht => ⟨ht.bound, ht.typable⟩⟩

/-- A request about the terminal leaves it as it is, or the application is told. -/
theorem hint (s : SshSession χ β α) (request : SshRequest) :
    Conducts host s { s with
      terminal := request.handle host.library host.application s.terminal } := by
  cases request with
  | pty term width height => exact notified s _
  | windowChange width height => exact notified s _
  | env name value =>
    show Conducts host s { s with
      terminal := (s.terminal.envRequestCallback host.library host.application name value).2 }
    fun_cases SshTerminal.envRequestCallback host.library host.application s.terminal name value
      with
    | case1 | case3 => exact notified s _
    | case2 | case4 | case5 | case6 => exact quiet (.refl s) rfl

theorem data (s : SshSession χ β α) (data : Bytes) (isStderr : Bool) (nowMs : UInt64) :
    Conducts host s (s.onConnection
      (·.channelDataCallback host.library host.application data isStderr nowMs)) := by
  obtain ⟨lines, hreads⟩ := SshConnection.Reads.channelDataCallback host.library host.application
    s.terminal.connection data isStderr nowMs
  cases hsession : s.session with
  | none =>
    have hwire := hreads.wire
    rw [show s.terminal.connection.applicationSession = none from hsession] at hwire
    exact quiet ⟨⟨hwire, .refl _⟩, rfl, rfl, hreads.session, hreads.shell,
      fun ht => (hreads.tidy ht).1⟩ rfl
  | some session =>
    have hwire := hreads.wire
    rw [show s.terminal.connection.applicationSession = some session from hsession] at hwire
    refine .goesOn (lines.map (.line session)) ⟨⟨?_, ?_⟩, rfl, rfl, hreads.session, hreads.shell,
      fun ht => (hreads.tidy ht).1⟩ rfl ?_
    · rw [List.map_map]
      exact hwire
    · rw [OutwardCall.filterMap_backend_application]
      exact .refl _
    · intro call hcall
      obtain ⟨line, hline, rfl⟩ := List.mem_map.mp hcall
      exact ⟨session, hsession, .line (hreads.hooked (List.ne_nil_of_mem hline)).1
        fun ht => (hreads.tidy ht).2 line hline⟩

theorem onCallback (s : SshSession χ β α) (callback : Callback χ) :
    Conducts host s (s.onCallback host callback) := by
  cases callback with
  | password user password nowMs => exact passwordAuthCallback s user password nowMs
  | channel channel callbacksSet => exact sessionChannelCallback s channel callbacksSet
  | hint request => exact hint s request
  | shell => exact shellRequestCallback s
  | exec | subsystem => exact quiet (.audit s _ _) rfl
  | data bytes isStderr nowMs => exact data s bytes isStderr nowMs
  | eof | close => exact quiet (.requestClose s) rfl

/-- The rest of a round follows the poll without a call. -/
theorem pollApplication {s s' : SshSession χ β α}
    (hrest : Stays host [] (s.pollApplication host).2 s')
    (hcapabilities : s'.terminal.capabilities = (s.pollApplication host).2.terminal.capabilities) :
    Conducts host s s' := by
  revert hrest hcapabilities
  unfold SshSession.pollApplication
  split
  case h_1 session hook hsession hhook =>
    split
    · exact fun hrest hcapabilities => quiet hrest hcapabilities
    · intro hrest hcapabilities
      have hpolled : Stays host [.application (.poll session)] s
          (s.onWire fun w => (w.callHook host.library (.poll session) (hook session)).2) :=
        .onWire s (.callHook host.library s.wire rfl (hook session)) rfl
      refine .goesOn [.poll session] (hpolled.andThen hrest) hcapabilities ?_
      exact List.forall_mem_singleton.mpr ⟨session, hsession, .poll (by rw [hhook]; rfl)⟩
  case h_2 => exact fun hrest hcapabilities => quiet hrest hcapabilities

theorem checks (s : SshSession χ β α) (r : Round χ) : Conducts host s (s.checks host r).2 := by
  unfold SshSession.checks
  dsimp only
  split_ifs
  · exact quiet (.audit s _ _) rfl
  · exact quiet (.refl s) rfl
  · exact quiet (.audit s _ _) rfl
  · exact quiet (.audit s _ _) rfl
  · exact quiet ((Stays.tell host s _).trans (.audit _ _ _)) rfl
  · exact pollApplication (.requestClose _) rfl
  · exact pollApplication ((Stays.tell host _ _).trans (.audit _ _ _)) rfl
  · exact pollApplication (.refl _) rfl

theorem act (s : SshSession χ β α) (action : Action χ) : Conducts host s (s.act host action) := by
  cases action with
  | callback callback => exact onCallback s callback
  | checks round => exact checks s round

end Conducts

/-! ## Standing -/

/-- On the way to `s` the shell request for the account `user` called `open` on a terminal
that was `view`, and the answer was `answer`. -/
inductive Opened (host : SshHost χ β α) (s : SshSession χ β α) (user : Bytes)
    (view : TerminalCapabilities) (answer : Option Nat) : Prop where
  | request (s₀ : SshSession χ β α) (hreach : (system host).Reachable s₀)
      (hauth : s₀.authenticated = true) (hnew : s₀.shellStarted = false)
      (huser : s₀.accountName.string = user) (hview : s₀.terminal.capabilities = view)
      (hhook : host.application.open_.isSome = true) (hanswer : s₀.answered host = answer)
      (later : List (Action χ)) (hs : s = (s₀.act host (.callback .shell)).acts host later)

theorem Opened.act {host : SshHost χ β α} {s : SshSession χ β α} {user : Bytes}
    {view : TerminalCapabilities} {answer : Option Nat} (h : Opened host s user view answer)
    (action : Action χ) : Opened host (s.act host action) user view answer := by
  obtain ⟨s₀, hreach, hauth, hnew, huser, hview, hhook, hanswer, later, rfl⟩ := h
  exact ⟨s₀, hreach, hauth, hnew, huser, hview, hhook, hanswer, later ++ [action],
    by rw [acts, acts, List.foldl_append]; rfl⟩

/-- The account of `a` has logged in after some refused attempts, and `calls` went to the
application. -/
structure Known (host : SshHost χ β α) (s : SshSession χ β α) (a : SshAttempt) (shell : Bool)
    (session : Option Nat) (attempts : List (List BackendCall)) (calls : List ApplicationCall) :
    Prop where
  authenticated : s.authenticated = true
  name : s.accountName.string = a.user
  shell : s.shellStarted = shell
  session : s.session = session
  refused : ∀ attempt ∈ attempts, SshAttempt.Refused host.peerName attempt
  record : s.outward = (attempts.flatten ++ a.accepted host.peerName).map .backend ++
    calls.map .application

/-- Where a connection stands, with the record of its calls. -/
inductive Standing (host : SshHost χ β α) (s : SshSession χ β α) : Prop where
  /-- Nobody has logged in: there is no channel either. -/
  | anonymous (hauth : s.authenticated = false) (hchannel : s.wire.channel = none)
      (hshell : s.shellStarted = false) (hsession : s.session = none)
      {attempts : List (List BackendCall)}
      (hattempts : ∀ attempt ∈ attempts, SshAttempt.Refused host.peerName attempt)
      (hcalls : s.outward = attempts.flatten.map .backend)
  /-- No shell was asked for. -/
  | admitted {a : SshAttempt} {attempts : List (List BackendCall)}
      (h : Known host s a false none attempts [])
  /-- The application declined, or there is none. -/
  | turnedAway {a : SshAttempt} {attempts : List (List BackendCall)}
      {opening : List ApplicationCall} (h : Known host s a true none attempts opening)
      (hopening : opening = [] ∧ host.application.open_ = none ∨
        ∃ view, opening = [.open_ a.user view] ∧ Opened host s a.user view none)
  /-- The application has the player. -/
  | attached {a : SshAttempt} {session : Nat} {attempts : List (List BackendCall)}
      {view : TerminalCapabilities} {calls : List ApplicationCall}
      (h : Known host s a true (some session) attempts (.open_ a.user view :: calls))
      (hopened : Opened host s a.user view (some session))
      (hfor : ∀ call ∈ calls, call.isFor session = true)
      (hclean : ∀ text, .line session text ∈ calls → CleanLine text)
      (hview : host.application.capabilitiesChanged.isSome = true →
        ((ApplicationCall.open_ a.user view :: calls).filterMap ApplicationCall.view?).getLast? =
          some s.terminal.capabilities)

theorem Drives.isFor {host : SshHost χ β α} {s : SshSession χ β α} {session : Nat}
    {call : ApplicationCall} (h : Drives host s session call) : call.isFor session = true := by
  cases h <;> simp [ApplicationCall.isFor]

theorem Drives.view {host : SshHost χ β α} {s : SshSession χ β α} {session : Nat}
    {call : ApplicationCall} (h : Drives host s session call) : call.view? = none := by
  cases h <;> rfl

section Step

variable {host : SshHost χ β α} {s s' : SshSession χ β α}

/-- Without a session nobody is driven. -/
theorem nil_of_driven {calls : List ApplicationCall} (hsession : s.session = none)
    (hcalls : ∀ call ∈ calls, ∃ session, s.session = some session ∧ Drives host s session call) :
    calls = [] :=
  List.eq_nil_iff_forall_not_mem.mpr fun call hcall => by
    obtain ⟨session, hsome, -⟩ := hcalls call hcall
    rw [hsession] at hsome
    cases hsome

/-- While no application is attached, a connection that stays makes no call. -/
theorem Stays.driven {calls : List ApplicationCall}
    (hstays : Stays host (calls.map .application) s s') (hsession : s.session = none)
    (hcalls : ∀ call ∈ calls, ∃ session, s.session = some session ∧ Drives host s session call) :
    Stays host [] s s' := by
  obtain rfl := nil_of_driven hsession hcalls
  exact hstays

theorem Stays.announced
    (hstays : Stays host ((s'.terminal.announcement host.application).map .application) s s')
    (hsession : s.session = none) : Stays host [] s s' := by
  have hnone : s'.terminal.connection.applicationSession = none := hstays.session.trans hsession
  rwa [SshTerminal.announcement, hnone] at hstays

theorem channel_none {made : List OutwardCall} (hchannel : s.wire.channel = none)
    (h : s.wire.Does made s'.wire) : s'.wire.channel = none := by
  have hsame := h.channel
  rw [hchannel] at hsame
  exact Option.isSome_eq_false_iff.mp hsame |> Option.isNone_iff_eq_none.mp

namespace Known

variable {a : SshAttempt} {shell : Bool} {attempts : List (List BackendCall)}
  {calls made : List ApplicationCall}

theorem stays {session : Option Nat} (h : Known host s a shell session attempts calls)
    (hstays : Stays host (made.map .application) s s') :
    Known host s' a shell session attempts (calls ++ made) := by
  refine ⟨hstays.authenticated.trans h.authenticated, hstays.name ▸ h.name,
    hstays.shell.trans h.shell, hstays.session.trans h.session, h.refused, ?_⟩
  rw [show s'.outward = s.outward ++ made.map .application from hstays.wire.calls, h.record,
    List.append_assoc, ← List.map_append]

theorem onChannel {session : Option Nat} (h : Known host s a shell session attempts calls)
    (channel : χ) :
    Known host (s.onWire ({ · with channel := some channel })) a shell session attempts calls :=
  ⟨h.authenticated, h.name, h.shell, h.session, h.refused, h.record⟩

/-- Without an application only a shell request makes a difference. -/
theorem conducts (h : Known host s a shell none attempts calls) (hconducts : Conducts host s s') :
    Known host s' a shell none attempts calls ∨ Starts host s s' := by
  have hstill : Stays host [] s s' → Known host s' a shell none attempts calls := fun hstays =>
    List.append_nil calls ▸ h.stays hstays
  cases hconducts with
  | goesOn made hstays _ hdriven => exact .inl (hstill (hstays.driven h.session hdriven))
  | hinted hstays => exact .inl (hstill (hstays.announced h.session))
  | refused _ _ hanonymous | accepted _ hanonymous =>
    exact absurd (h.authenticated.symm.trans hanonymous) (by decide)
  | channel channel _ hs' => exact .inl (hs' ▸ h.onChannel channel)
  | shell hstarts => exact .inr hstarts

end Known

namespace Standing

variable {a : SshAttempt} {attempts : List (List BackendCall)}

theorem of_anonymous (hauth : s.authenticated = false) (hchannel : s.wire.channel = none)
    (hshell : s.shellStarted = false) (hsession : s.session = none)
    (hattempts : ∀ attempt ∈ attempts, SshAttempt.Refused host.peerName attempt)
    (hcalls : s.outward = attempts.flatten.map .backend) (h : Conducts host s s') :
    Standing host s' := by
  have hstill : Stays host [] s s' → Standing host s' := fun hstays =>
    .anonymous (hstays.authenticated.trans hauth) (channel_none hchannel hstays.wire)
      (hstays.shell.trans hshell) (hstays.session.trans hsession) hattempts
      ((hstays.wire.calls.trans (List.append_nil _)).trans hcalls)
  cases h with
  | goesOn calls hstays _ hdriven => exact hstill (hstays.driven hsession hdriven)
  | hinted hstays => exact hstill (hstays.announced hsession)
  | refused calls hrefused _ hstays =>
    have hall : ∀ attempt ∈ attempts ++ [calls], SshAttempt.Refused host.peerName attempt :=
      List.forall_mem_append.mpr ⟨hattempts, List.forall_mem_singleton.mpr hrefused⟩
    refine .anonymous (hstays.authenticated.trans hauth) (channel_none hchannel hstays.wire)
      (hstays.shell.trans hshell) (hstays.session.trans hsession) hall ?_
    rw [List.flatten_concat, List.map_append, ← hcalls]
    exact hstays.wire.calls
  | accepted a _ hauth' hname hsession' hshell' _ hmakes =>
    refine .admitted (a := a) ⟨hauth', hname, hshell'.trans hshell, hsession'.trans hsession,
      hattempts, ?_⟩
    rw [List.map_append, ← hcalls]
    exact hmakes.wire.calls.trans (List.append_nil _).symm
  | channel _ hauth' => exact absurd (hauth'.symm.trans hauth) (by decide)
  | shell hstarts => exact absurd (hstarts.authenticated.symm.trans hauth) (by decide)

theorem of_starts (h : Known host s a false none attempts []) (hreach : (system host).Reachable s)
    (hstarts : Starts host s s') : Standing host s' := by
  have hrecord : s'.outward = s.outward ++ s.opening host := hstarts.wire.calls
  have hanswer := hstarts.session
  rw [h.record, List.map_nil, List.append_nil, opening] at hrecord
  cases hhook : host.application.open_ with
  | none =>
    rw [hhook] at hrecord
    rw [answered, hhook] at hanswer
    have hknown : Known host s' a true none attempts [] :=
      ⟨hstarts.kept, hstarts.name ▸ h.name, hstarts.shell, hanswer.trans h.session, h.refused,
        hrecord⟩
    exact .turnedAway hknown (.inl ⟨rfl, hhook⟩)
  | some hook =>
    rw [hhook, h.name] at hrecord
    have hopened : Opened host s' a.user s.terminal.capabilities s'.session :=
      ⟨s, hreach, h.authenticated, h.shell, h.name, rfl, by rw [hhook]; rfl, hanswer.symm, [],
        hstarts.action⟩
    have hknown : Known host s' a true s'.session attempts
        [.open_ a.user s.terminal.capabilities] :=
      ⟨hstarts.kept, hstarts.name ▸ h.name, hstarts.shell, rfl, h.refused, hrecord⟩
    cases hsession : s'.session with
    | none =>
      rw [hsession] at hopened hknown
      exact .turnedAway hknown (.inr ⟨_, rfl, hopened⟩)
    | some session =>
      rw [hsession] at hopened hknown
      exact .attached hknown hopened (List.forall_mem_nil _) (fun _ => by simp)
        (fun _ => by rw [hstarts.capabilities]; rfl)

theorem more {session : Nat} {view : TerminalCapabilities} {calls made : List ApplicationCall}
    (hknown : Known host s a true (some session) attempts (.open_ a.user view :: calls))
    (hopened : Opened host s' a.user view (some session))
    (hstays : Stays host (made.map .application) s s')
    (hfor : ∀ call ∈ calls ++ made, call.isFor session = true)
    (hclean : ∀ text, .line session text ∈ calls ++ made → CleanLine text)
    (hview : host.application.capabilitiesChanged.isSome = true →
      ((ApplicationCall.open_ a.user view :: calls ++ made).filterMap
        ApplicationCall.view?).getLast? = some s'.terminal.capabilities) : Standing host s' :=
  .attached (hknown.stays hstays) hopened hfor hclean hview

theorem of_attached (htidy : s.terminal.connection.Tidy) {session : Nat}
    {view : TerminalCapabilities} {calls : List ApplicationCall}
    (hknown : Known host s a true (some session) attempts (.open_ a.user view :: calls))
    (hopened : Opened host s' a.user view (some session))
    (hfor : ∀ call ∈ calls, call.isFor session = true)
    (hclean : ∀ text, .line session text ∈ calls → CleanLine text)
    (hview : host.application.capabilitiesChanged.isSome = true →
      ((ApplicationCall.open_ a.user view :: calls).filterMap ApplicationCall.view?).getLast? =
        some s.terminal.capabilities)
    (h : Conducts host s s') : Standing host s' := by
  cases h with
  | goesOn made hstays hcapabilities hdriven =>
    have hdrives : ∀ call ∈ made, Drives host s session call := by
      intro call hcall
      obtain ⟨session', hsession', hdrives⟩ := hdriven call hcall
      rwa [Option.some.inj (hknown.session.symm.trans hsession')]
    refine more hknown hopened hstays
      (List.forall_mem_append.mpr ⟨hfor, fun call hcall => (hdrives call hcall).isFor⟩)
      (fun text htext => ?_) (fun hhook => ?_)
    · rcases List.mem_append.mp htext with hold | hnew
      · exact hclean text hold
      · cases hdrives _ hnew with
        | line _ hcleaned => exact hcleaned htidy
    · have hnone : made.filterMap ApplicationCall.view? = [] :=
        List.filterMap_eq_nil_iff.mpr fun call hcall => (hdrives call hcall).view
      rw [List.filterMap_append, hnone, List.append_nil, hcapabilities]
      exact hview hhook
  | hinted hstays =>
    have hmade : (s'.terminal.announcement host.application) =
        if host.application.capabilitiesChanged.isSome = true then
          [.capabilitiesChanged session s'.terminal.capabilities] else [] := by
      rw [SshTerminal.announcement,
        show s'.terminal.connection.applicationSession = some session from
          hstays.session.trans hknown.session]
      cases host.application.capabilitiesChanged <;> rfl
    have hnotice : ∀ call ∈ s'.terminal.announcement host.application,
        call = .capabilitiesChanged session s'.terminal.capabilities := by
      rw [hmade]
      split <;> simp
    refine more hknown hopened hstays
      (List.forall_mem_append.mpr ⟨hfor, fun call hcall => ?_⟩)
      (fun text htext => ?_) (fun hhook => ?_)
    · rw [hnotice call hcall]
      exact beq_self_eq_true session
    · rcases List.mem_append.mp htext with hold | hnew
      · exact hclean text hold
      · cases hnotice _ hnew
    · rw [hmade, if_pos hhook, List.filterMap_append, List.getLast?_append]
      rfl
  | refused _ _ hanonymous | accepted _ hanonymous =>
    exact absurd (hknown.authenticated.symm.trans hanonymous) (by decide)
  | channel channel _ hs' =>
    subst hs'
    exact .attached (hknown.onChannel channel) hopened hfor hclean hview
  | shell hstarts => exact absurd (hknown.shell.symm.trans hstarts.new) (by decide)

/-- One action after the other. -/
theorem step (hreach : (system host).Reachable s) (htidy : s.terminal.connection.Tidy)
    (hs : Standing host s) (action : Action χ) : Standing host (s.act host action) := by
  have h : Conducts host s (s.act host action) := .act s action
  cases hs with
  | anonymous hauth hchannel hshell hsession hattempts hcalls =>
    exact of_anonymous hauth hchannel hshell hsession hattempts hcalls h
  | admitted hknown =>
    rcases hknown.conducts h with hknown' | hstarts
    · exact .admitted hknown'
    · exact of_starts hknown hreach hstarts
  | turnedAway hknown hopening =>
    rcases hknown.conducts h with hknown' | hstarts
    · refine .turnedAway hknown' (hopening.imp_right ?_)
      rintro ⟨view, hcall, hopened⟩
      exact ⟨view, hcall, hopened.act action⟩
    · exact absurd (hknown.shell.symm.trans hstarts.new) (by decide)
  | attached hknown hopened hfor hclean hview =>
    exact of_attached htidy hknown (hopened.act action) hfor hclean hview h

end Standing

theorem Conducts.tidy (h : Conducts host s s') (htidy : s.terminal.connection.Tidy) :
    s'.terminal.connection.Tidy := by
  cases h with
  | goesOn _ hstays | hinted hstays | refused _ _ _ hstays => exact hstays.tidy htidy
  | accepted _ _ _ _ _ _ hkeeps => exact hkeeps htidy
  | shell hstarts => exact hstarts.tidy htidy
  | channel _ _ hs' =>
    subst hs'
    exact ⟨htidy.bound, htidy.typable⟩

theorem Conducts.orderly (h : Conducts host s s') (hs : s.wire.Orderly) : s'.wire.Orderly := by
  cases h with
  | goesOn _ hstays | hinted hstays | refused _ _ _ hstays => exact hs.does hstays.wire
  | accepted _ _ _ _ _ _ _ hmakes => exact hs.does hmakes.wire
  | shell hstarts => exact hs.does hstarts.wire
  | channel _ _ hs' =>
    subst hs'
    exact hs

/-- What an action asks of store and policy is on record with their answers. -/
theorem Conducts.serves (h : Conducts host s s') :
    ∃ made, s'.backendCalls = s.backendCalls ++ made ∧
      host.backend.Serves s.backend made s'.backend := by
  cases h with
  | goesOn _ hstays | hinted hstays | refused _ _ _ hstays =>
    exact ⟨_, hstays.backendCalls, hstays.backend⟩
  | accepted _ _ _ _ _ _ _ hmakes => exact ⟨_, hmakes.backendCalls, hmakes.backend⟩
  | shell hstarts => exact ⟨_, hstarts.backendCalls, hstarts.backend⟩
  | channel _ _ hs' =>
    subst hs'
    exact ⟨[], (List.append_nil _).symm, .refl _⟩

theorem serves_acts (host : SshHost χ β α) (s : SshSession χ β α) (actions : List (Action χ)) :
    ∃ made, (s.acts host actions).backendCalls = s.backendCalls ++ made ∧
      host.backend.Serves s.backend made (s.acts host actions).backend := by
  induction actions generalizing s with
  | nil => exact ⟨[], (List.append_nil _).symm, .refl _⟩
  | cons action rest ih =>
    have hconducts : Conducts host s (s.act host action) := .act s action
    obtain ⟨made, hcalls, hserves⟩ := hconducts.serves
    obtain ⟨made', hcalls', hserves'⟩ := ih (s.act host action)
    refine ⟨made ++ made', ?_, hserves.trans hserves'⟩
    rw [acts, List.foldl_cons, ← acts, hcalls', hcalls, List.append_assoc]

end Step

/-! ## Whole connections -/

theorem tidy_of_reachable {host : SshHost χ β α} {s : SshSession χ β α}
    (hs : (system host).Reachable s) : s.terminal.connection.Tidy := by
  refine hs.invariant (I := fun s => s.terminal.connection.Tidy) ?_
    fun action s s' _ htidy hstep => ?_
  · rintro _ ⟨clientBanner, nowMs, backend, app, rfl⟩
    exact ⟨Nat.zero_le _, List.forall_mem_nil _⟩
  · rw [hstep]
    exact (Conducts.act s action).tidy htidy

theorem orderly_of_reachable {host : SshHost χ β α} {s : SshSession χ β α}
    (hs : (system host).Reachable s) : s.wire.Orderly := by
  refine hs.invariant (I := fun s => s.wire.Orderly) ?_ fun action s s' _ horderly hstep => ?_
  · rintro _ ⟨clientBanner, nowMs, backend, app, rfl⟩
    rfl
  · rw [hstep]
    exact (Conducts.act s action).orderly horderly

theorem standing_of_reachable {host : SshHost χ β α} {s : SshSession χ β α}
    (hs : (system host).Reachable s) : Standing host s := by
  refine hs.invariant ?_ fun action s s' hreach hstanding hstep => ?_
  · rintro _ ⟨clientBanner, nowMs, backend, app, rfl⟩
    exact .anonymous rfl rfl rfl rfl (List.forall_mem_nil _) rfl
  · rw [hstep]
    exact hstanding.step hreach (tidy_of_reachable hreach) action

/-- The last call to a session of the application, if there is a hook for it. -/
def closing (host : SshHost χ β α) (session : Nat) : List ApplicationCall :=
  if host.application.close.isSome then [.close session] else []

/-- The calls of a connection from its first to its last, which `s` is the state of when
its loop ends. -/
inductive Life (host : SshHost χ β α) (s : SshSession χ β α) : List OutwardCall → Prop where
  | refused (hsession : s.session = none) {attempts : List (List BackendCall)}
      (hattempts : ∀ attempt ∈ attempts, SshAttempt.Refused host.peerName attempt) :
      Life host s (attempts.flatten.map .backend)
  /-- There was no shell request, or no application for one. -/
  | accepted (a : SshAttempt) (hsession : s.session = none)
      (hnobody : s.shellStarted = false ∨ host.application.open_ = none)
      {attempts : List (List BackendCall)}
      (hattempts : ∀ attempt ∈ attempts, SshAttempt.Refused host.peerName attempt) :
      Life host s ((attempts.flatten ++ a.accepted host.peerName).map .backend)
  /-- The application declined. -/
  | rejected (a : SshAttempt) (hsession : s.session = none) {view : TerminalCapabilities}
      (hdeclined : Opened host s a.user view none) {attempts : List (List BackendCall)}
      (hattempts : ∀ attempt ∈ attempts, SshAttempt.Refused host.peerName attempt) :
      Life host s ((attempts.flatten ++ a.accepted host.peerName).map .backend ++
        [.application (.open_ a.user view)])
  | lived (a : SshAttempt) {session : Nat} (hsession : s.session = some session)
      {view : TerminalCapabilities} (hopened : Opened host s a.user view (some session))
      {attempts : List (List BackendCall)}
      (hattempts : ∀ attempt ∈ attempts, SshAttempt.Refused host.peerName attempt)
      {calls : List ApplicationCall} (hfor : ∀ call ∈ calls, call.isFor session = true)
      (hclean : ∀ text, .line session text ∈ calls → CleanLine text) :
      Life host s ((attempts.flatten ++ a.accepted host.peerName).map .backend ++
        (.open_ a.user view :: calls ++ closing host session).map .application)

/-- What the end of a connection adds to its record. -/
def lastCalls (host : SshHost χ β α) (s : SshSession χ β α) : List OutwardCall :=
  match s.session, host.application.close with
  | some session, some _ => [.application (.close session)]
  | _, _ => []

theorem outward_cleanup (host : SshHost χ β α) (s : SshSession χ β α) :
    (s.cleanup host).outward = s.outward ++ s.lastCalls host := by
  unfold cleanup lastCalls
  split
  case h_1 session hook hsession hhook =>
    rw [show s.session = some session from hsession, hhook]
    have hclosed : s.wire.Does [.application (.close session)] _ :=
      .callHook host.library s.wire rfl (hook session)
    exact hclosed.calls
  case h_2 hnobody =>
    split
    case h_1 session hook hsession hhook => exact absurd hhook (hnobody session hook hsession)
    case h_2 => exact (List.append_nil _).symm

theorem orderly_cleanup (host : SshHost χ β α) {s : SshSession χ β α} (hs : s.wire.Orderly) :
    (s.cleanup host).wire.Orderly := by
  unfold SshSession.cleanup
  split
  case h_1 session hook hsession hhook =>
    have hclosed : s.wire.Does [.application (.close session)] _ :=
      .callHook host.library s.wire rfl (hook session)
    have horderly := hs.does hclosed
    exact horderly
  case h_2 => exact hs

theorem session_cleanup {host : SshHost χ β α} (s : SshSession χ β α)
    (hclose : host.application.close.isSome = true) : (s.cleanup host).session = none := by
  obtain ⟨hook, hhook⟩ := Option.isSome_iff_exists.mp hclose
  unfold cleanup
  split
  case h_1 => rfl
  case h_2 hnobody =>
    cases hsession : s.session with
    | none => exact hsession
    | some session => exact absurd hhook (hnobody session hook hsession)

theorem Standing.life {host : SshHost χ β α} {s : SshSession χ β α} (h : Standing host s) :
    Life host s (s.cleanup host).outward := by
  rw [outward_cleanup, lastCalls]
  cases h with
  | anonymous _ _ _ hsession hattempts hcalls =>
    rw [hsession, hcalls]
    exact List.append_nil _ ▸ .refused hsession hattempts
  | @admitted a _ hknown =>
    rw [hknown.session, hknown.record]
    simpa using Life.accepted a hknown.session (.inl hknown.shell) hknown.refused
  | @turnedAway a _ _ hknown hopening =>
    rw [hknown.session, hknown.record]
    rcases hopening with ⟨rfl, hnone⟩ | ⟨view, rfl, hdeclined⟩
    · simpa using Life.accepted a hknown.session (.inr hnone) hknown.refused
    · exact List.append_nil _ ▸ .rejected a hknown.session hdeclined hknown.refused
  | @attached a _ _ _ _ hknown hopened hfor hclean _ =>
    have hlife := Life.lived a hknown.session hopened hknown.refused hfor hclean
    rw [hknown.session, hknown.record]
    cases hhook : host.application.close with
    | none => simpa [closing, hhook] using hlife
    | some hook => simpa [closing, hhook] using hlife

/-- The record of a connection in any state that callbacks in any order lead to. Before
a password was accepted there is neither a channel nor an application, and all that was
asked are attempts that were refused: each with a valid name, a password of allowed length,
the policy's word first, and the policy told about a wrong password. Afterwards the
account is the one whose password was accepted, nobody is asked again, and what
follows is at most one `open` for that account and calls for the session it returned. -/
theorem admission_gate {host : SshHost χ β α} {s : SshSession χ β α}
    (hs : (system host).Reachable s) :
    ∃ attempts : List (List BackendCall),
      (∀ attempt ∈ attempts, SshAttempt.Refused host.peerName attempt) ∧
      (s.authenticated = false → s.wire.channel = none ∧ s.session = none ∧
        s.outward = attempts.flatten.map .backend) ∧
      (s.authenticated = true → ∃ (a : SshAttempt) (calls : List ApplicationCall),
        s.accountName.string = a.user ∧
        s.outward = (attempts.flatten ++ a.accepted host.peerName).map .backend ++
          calls.map .application ∧
        (calls = [] ∨ ∃ view later, calls = .open_ a.user view :: later ∧
          ∀ call ∈ later, ∃ session, s.session = some session ∧ call.isFor session = true)) := by
  cases standing_of_reachable hs with
  | anonymous hauth hchannel hshell hsession hattempts hcalls =>
    exact ⟨_, hattempts, fun _ => ⟨hchannel, hsession, hcalls⟩, fun h => by simp [hauth] at h⟩
  | @admitted a _ hknown =>
    exact ⟨_, hknown.refused, fun h => by simp [hknown.authenticated] at h,
      fun _ => ⟨a, [], hknown.name, hknown.record, .inl rfl⟩⟩
  | @turnedAway a _ _ hknown hopening =>
    refine ⟨_, hknown.refused, fun h => by simp [hknown.authenticated] at h,
      fun _ => ⟨a, _, hknown.name, hknown.record, ?_⟩⟩
    rcases hopening with ⟨rfl, -⟩ | ⟨view, rfl, -⟩
    · exact .inl rfl
    · exact .inr ⟨view, [], rfl, List.forall_mem_nil _⟩
  | @attached a session _ _ _ hknown _ hfor =>
    exact ⟨_, hknown.refused, fun h => by simp [hknown.authenticated] at h,
      fun _ => ⟨a, _, hknown.name, hknown.record,
        .inr ⟨_, _, rfl, fun call hcall => ⟨session, hknown.session, hfor call hcall⟩⟩⟩⟩

/-- A client that logs in and types a command. -/
def visit : List (Callback Unit) :=
  [.password (some (ascii "zoe")) (some (ascii "open sesame")) 5, .channel (some ()) true,
    .hint (.pty (some (ascii "xterm")) 80 24), .shell, .data (ascii "look\r") false 9]

def visitor : SshSession Unit Unit Unit :=
  visit.foldl (onCallback SshHost.welcoming) (initial none 1 () ())

theorem reachable_visitor : (system SshHost.welcoming).Reachable visitor :=
  reachable_callbacks (.init ⟨none, 1, (), (), rfl⟩) visit

theorem admission_gate_visitor :
    visitor.authenticated = true ∧ ∃ (a : SshAttempt) (calls : List ApplicationCall),
      visitor.accountName.string = a.user ∧ (calls = [] ∨ ∃ view later,
        calls = .open_ a.user view :: later ∧ ∀ call ∈ later,
          ∃ session, visitor.session = some session ∧ call.isFor session = true) := by
  have hauth : visitor.authenticated = true := by decide +kernel
  obtain ⟨_, -, -, hadmitted⟩ := admission_gate reachable_visitor
  obtain ⟨a, calls, hname, -, hcalls⟩ := hadmitted hauth
  exact ⟨hauth, a, calls, hname, hcalls⟩

/-- A connection when its loop has ended, if it came to that. -/
def served (host : SshHost χ β α) (clientBanner : Option Bytes) (nowMs : UInt64) (setUp : Bool)
    (backend : β) (app : α) (rounds : List (Round χ)) : SshSession χ β α :=
  let s := initial clientBanner nowMs backend app
  if nowMs = 0 || !setUp then s else s.eventLoop host rounds

/-- A whole connection, from the first callback to the cleanup. The application that was
attached when the loop ended, and no other, has had calls after `open`, and it is the
one that is closed. -/
theorem connection_life (host : SshHost χ β α) (clientBanner : Option Bytes) (nowMs : UInt64)
    (setUp : Bool) (backend : β) (app : α) (rounds : List (Round χ)) :
    let s := served host clientBanner nowMs setUp backend app rounds
    let run := runConnection host clientBanner nowMs setUp backend app rounds
    run.2 = s.cleanup host ∧ Life host s run.2.outward ∧ run.2.wire.channel = none ∧
      (host.application.close.isSome = true → run.2.session = none) := by
  intro s run
  have hnew : (system host).Reachable (initial clientBanner nowMs backend app) :=
    .init ⟨clientBanner, nowMs, backend, app, rfl⟩
  have hs : (system host).Reachable s := by
    unfold s served
    dsimp only
    split
    · exact hnew
    · exact reachable_eventLoop hnew rounds
  have hrun : run.2 = s.cleanup host := by
    unfold run s runConnection served
    dsimp only
    split <;> rfl
  rw [hrun]
  exact ⟨rfl, (standing_of_reachable hs).life, rfl, session_cleanup s⟩

/-! ## What the application knows, and when it is left alone -/

/-- The last snapshot of the terminal that the application got. -/
def lastView (s : SshSession χ β α) : Option TerminalCapabilities :=
  (s.outward.filterMap OutwardCall.view?).getLast?

/-- Unlike over Telnet, the view of an application is current in every state: whatever
changes the terminal tells the application, if it can be told. -/
theorem ssh_view_current {host : SshHost χ β α} {s : SshSession χ β α}
    (hs : (system host).Reachable s)
    (hchanged : host.application.capabilitiesChanged.isSome = true)
    (hattached : s.session.isSome = true) : s.lastView = some s.terminal.capabilities := by
  cases standing_of_reachable hs with
  | anonymous _ _ _ hsession =>
    rw [hsession] at hattached
    cases hattached
  | admitted hknown | turnedAway hknown =>
    rw [hknown.session] at hattached
    cases hattached
  | attached hknown _ _ _ hview =>
    rw [lastView, hknown.record, List.filterMap_append, OutwardCall.filterMap_view_backend,
      OutwardCall.filterMap_view_application]
    exact hview hchanged

theorem ssh_view_current_visitor :
    (SshHost.welcoming.application.capabilitiesChanged.isSome = true ∧
      visitor.session.isSome = true) ∧ visitor.lastView = some visitor.terminal.capabilities :=
  have hattached : visitor.session.isSome = true := by decide +kernel
  ⟨⟨rfl, hattached⟩, ssh_view_current reachable_visitor rfl hattached⟩

/-- The request to close is on record once it was made, nothing that follows it, in the
same callback or later, is a line for the application, and the loop does not begin
another round. -/
theorem no_line_after_close {host : SshHost χ β α} {s : SshSession χ β α}
    (hs : (system host).Reachable s) :
    (s.wire.closeRequested = true ↔ .closeRequest ∈ s.wire.trace) ∧
      (∀ before after, (s.cleanup host).wire.trace = before ++ .closeRequest :: after →
        ∀ session text, .application (.line session text) ∉ after) ∧
      (s.wire.closeRequested = true → ∀ rounds, s.eventLoop host rounds = s) := by
  have horderly := orderly_of_reachable hs
  refine ⟨(Event.foldlM_sshAfter horderly).trans (by simp),
    fun before after => Event.no_line_of_orderly (orderly_cleanup host horderly),
    fun hclosed rounds => ?_⟩
  cases rounds with
  | nil => rfl
  | cons r rest => rw [eventLoop, hclosed, Bool.true_or, if_pos rfl]

/-- The visitor hangs up; what they typed comes late. -/
theorem no_line_after_close_visitor :
    let s := visitor.onCallback SshHost.welcoming .eof
    let late := s.onCallback SshHost.welcoming (.data (ascii "quit\r") false 9)
    late.wire.closeRequested = true ∧ late.eventLoop SshHost.welcoming [] = late ∧
      ∀ before after,
        (late.cleanup SshHost.welcoming).wire.trace = before ++ .closeRequest :: after →
        ∀ session text, .application (.line session text) ∉ after := by
  intro s late
  have hlate : (system SshHost.welcoming).Reachable late :=
    reachable_callbacks reachable_visitor [.eof, .data (ascii "quit\r") false 9]
  have hclosed : late.wire.closeRequested = true := by decide +kernel
  obtain ⟨-, hsilent, hloop⟩ := no_line_after_close hlate
  exact ⟨hclosed, hloop hclosed [], hsilent⟩

end SshSession

-- SUMMARY: Logins over the shared service: whoever is in game has given the password of the account.
import TelnetTlsServer.Server.Service
import TelnetTlsServer.Ssh.Admission

/-!
# Logins against the shared service

The sessions of a server, Telnet and SSH, over the store and the policy they share. What
a session is told is right by the accounts there are, and no session ever changes a
password. So a player is in game under a name only with the password the account of that
name has, whichever session has created it and over whichever transport.
-/

open Interleaving Verification

variable {ι : Type} [Fintype ι] [DecidableEq ι]

namespace Service

variable {crypto : Crypto} {directory : Bytes}

/-! ## The backend -/

section Backend

variable (crypto) (hroomy : Roomy directory) (s : Service ι)

section Store

include hroomy

theorem leads_exists (name : Bytes) :
    Leads crypto s [.exists_ name ((backend crypto directory).exists_ s name).1]
      ((backend crypto directory).exists_ s name).2 :=
  leads_call (fun r => [.exists_ name r]) fun h =>
    Safe.mono (fun _ _ h => ⟨h.resting, List.forall_mem_singleton.mpr h.right_faulted⟩)
      (safe_playerStoreExists careful_steadfast (locates_of_roomy hroomy name) h)

theorem leads_verifyPassword (name password : Bytes) :
    Leads crypto s
      [.verifyPassword name password
        ((backend crypto directory).verifyPassword s name password).1.1]
      ((backend crypto directory).verifyPassword s name password).2 :=
  leads_call (fun r => [.verifyPassword name password r.1]) fun h =>
    Safe.mono (fun _ _ h => ⟨h.resting, List.forall_mem_singleton.mpr h.right_faulted⟩)
      (safe_playerStoreVerifyPassword careful_steadfast subset_rfl (locates_of_roomy hroomy name)
        h)

theorem leads_create {password : Bytes} {token : Buffer 256}
    (htoken : StoreCall.Token crypto password token) (name : Bytes) :
    Leads crypto s [.create name token ((backend crypto directory).create s name token).1]
      ((backend crypto directory).create s name token).2 := by
  refine leads_call (fun r => [.create name token r]) fun h => ?_
  have hcreate : Behaves (steadfast crypto) crypto recordLeaves Set.univ none
      (Done crypto none _ (.create ⟨name, token⟩)) (playerStoreCreate directory name token) _ :=
    safe_playerStoreCreate hroomy htoken (Set.mem_univ _) h
  exact Safe.mono (fun _ _ h => ⟨h.resting,
    List.forall_mem_singleton.mpr ⟨⟨password, htoken⟩, h.right⟩⟩) hcreate

end Store

theorem leads_preparePassword (directory password : Bytes) (token : Buffer 256) :
    Leads crypto s
      [.preparePassword password
        ((backend crypto directory).preparePassword s password token).1.1
        ((backend crypto directory).preparePassword s password token).1.2]
      ((backend crypto directory).preparePassword s password token).2 := by
  refine leads_call (fun r : Int × Buffer 256 => [.preparePassword password r.1 r.2]) ?_
  intro before w h
  have hanswer : ∀ {w : World (Option ι)} (r : Int × Buffer 256),
      Resting crypto recordLeaves none before Unnoted w →
      Behaves (steadfast crypto) crypto recordLeaves Set.univ none
        (fun r w => Resting crypto recordLeaves none before Unnoted w ∧
          ∀ call ∈ [BackendCall.preparePassword password r.1 r.2],
            call.Right crypto before (w.accounts crypto) (Faulted (w.log none))) (pure r) w :=
    fun r h => Safe.pure (fun _ _ hR h => ⟨stable_keeping _ _ hR h.1,
      List.forall_mem_singleton.mpr trivial⟩) ⟨h, List.forall_mem_singleton.mpr trivial⟩
  unfold playerStorePreparePassword
  refine Safe.ite (fun _ => hanswer _ h) fun _ => ?_
  refine safe_sys careful_steadfast.onDisk stable_keeping h fun w choice hash d h hperform => ?_
  obtain ⟨rfl, -⟩ := Disk.pwhash_cases hperform
  obtain ⟨hG, h⟩ := calm_unnoted.idle w (.pwhash password) hash rfl h
  refine ⟨hG, ?_⟩
  cases hash with
  | none => exact hanswer _ h
  | some hash => exact hanswer _ h

variable (directory : Bytes)

theorem leads_allowAuthAttempt (peer name : Bytes) (nowMs : UInt64) :
    Leads crypto s
      [.allowAuthAttempt peer name nowMs
        ((backend crypto directory).allowAuthAttempt s peer name nowMs).1]
      ((backend crypto directory).allowAuthAttempt s peer name nowMs).2 :=
  leads_policy _ fun _ _ _ => trivial

theorem leads_noteAuthFailure (peer name : Bytes) (nowMs : UInt64) :
    Leads crypto s [.noteAuthFailure peer name nowMs]
      ((backend crypto directory).noteAuthFailure s peer name nowMs) :=
  leads_policy _ fun _ _ _ => trivial

theorem leads_noteAuthSuccess (peer name : Bytes) (nowMs : UInt64) :
    Leads crypto s [.noteAuthSuccess peer name nowMs]
      ((backend crypto directory).noteAuthSuccess s peer name nowMs) :=
  leads_policy _ fun _ _ _ => trivial

/-- The calls of a login over SSH. -/
theorem leads_of_serves (hroomy : Roomy directory) {s s' : Service ι} {calls : List BackendCall}
    (h : (backend crypto directory).Serves s calls s') : Leads crypto s calls s' := by
  induction h with
  | refl s => exact .refl crypto s
  | @call s s₁ _ call _ h _ ih =>
    have hcall : Leads crypto s [call] s₁ := by
      cases h with
      | @allowAuthAttempt peer name nowMs _ _ h =>
        have hallow := leads_allowAuthAttempt crypto s directory peer name nowMs
        rwa [h] at hallow
      | @verifyPassword name password _ _ _ h =>
        have hverify := leads_verifyPassword crypto hroomy s name password
        rwa [h] at hverify
      | noteAuthFailure => exact leads_noteAuthFailure crypto s directory _ _ _
      | noteAuthSuccess => exact leads_noteAuthSuccess crypto s directory _ _ _
    exact hcall.trans ih

theorem leads_allowAccountCreation (peer : Bytes) (nowMs : UInt64) :
    Leads crypto s
      [.allowAccountCreation peer nowMs
        ((backend crypto directory).allowAccountCreation s peer nowMs).1]
      ((backend crypto directory).allowAccountCreation s peer nowMs).2 :=
  leads_policy _ fun _ _ _ => trivial

end Backend

/-- A password that matches a token is the one it was made from. -/
theorem token_of_matches {token : Buffer 256} {password : Bytes}
    (h : playerStorePasswordMatches crypto token password = 1) :
    StoreCall.Token crypto password token := by
  unfold playerStorePasswordMatches at h
  split_ifs at h with hlong hfilled hverify
  case neg => cases h
  simp only [Bool.or_eq_true, decide_eq_true_eq, Bool.not_eq_true', not_or, Bool.not_eq_false,
    List.contains_iff_mem] at hfilled
  exact ⟨by simpa [Crypto.verify] using hverify, hfilled.1, hfilled.2⟩

theorem leads_passwordMatches (crypto : Crypto) (directory : Bytes) (s : Service ι)
    (token : Buffer 256) (password : Bytes) :
    Leads crypto s
      [.passwordMatches token password
        ((backend crypto directory).passwordMatches s token password).1] s :=
  fun h => ⟨h, subset_rfl, id, List.forall_mem_singleton.mpr fun h => (token_of_matches h).isHash⟩

end Service

/-! ## A Telnet session -/

def GatedCall.backend? : GatedCall → Option BackendCall
  | .backend call => some call
  | .open_ _ => none

namespace Dialogue

open Service (Leads)

variable {α : Type} {crypto : Crypto} {directory : Bytes} {host : Host (Service ι) α}

omit [Fintype ι] [DecidableEq ι] in
theorem filterMap_openCalls (host : Host (Service ι) α) (name : Bytes) :
    (openCalls host name).filterMap GatedCall.backend? = [] := by
  unfold openCalls
  split <;> rfl

section Functions

variable (hbackend : host.backend = Service.backend crypto directory) (hroomy : Roomy directory)
  (d : Dialogue (Service ι)) (line : Bytes) (nowMs : UInt64)

include hbackend hroomy

theorem leads_giveName :
    Leads crypto d.backend ((d.giveName host line).calls.filterMap GatedCall.backend?)
      (d.giveName host line).dialogue.backend := by
  unfold giveName
  split
  · exact .refl crypto d.backend
  have hexists := Service.leads_exists crypto hroomy d.backend line
  rw [← hbackend] at hexists
  rcases hfound : host.backend.exists_ d.backend line with ⟨found, backend⟩
  rw [hfound] at hexists
  dsimp only
  split_ifs <;> exact hexists

theorem leads_givePassword :
    Leads crypto d.backend ((d.givePassword host line nowMs).calls.filterMap GatedCall.backend?)
      (d.givePassword host line nowMs).dialogue.backend := by
  unfold givePassword
  have hallow := Service.leads_allowAuthAttempt crypto d.backend directory host.remoteId
    d.playerName nowMs
  rw [← hbackend] at hallow
  rcases hallowed : host.backend.allowAuthAttempt d.backend host.remoteId d.playerName nowMs with
    ⟨_ | _, b₁⟩ <;> rw [hallowed] at hallow <;> simp only [hallowed]
  · exact hallow
  have hverify := Service.leads_verifyPassword crypto hroomy b₁ d.playerName line
  rw [← hbackend] at hverify
  rcases hverified : host.backend.verifyPassword b₁ d.playerName line with ⟨⟨verified, _⟩, b₂⟩
  rw [hverified] at hverify
  simp only [hverified, Bool.not_true, Bool.false_eq_true, if_false]
  split
  case isTrue hone =>
    have hsuccess := Service.leads_noteAuthSuccess crypto b₂ directory host.remoteId
      d.playerName nowMs
    rw [← hbackend] at hsuccess
    rw [List.filterMap_append, filterMap_openCalls, List.append_nil]
    exact (hallow.trans hverify).trans hsuccess
  case isFalse =>
    have hfailure := Service.leads_noteAuthFailure crypto b₂ directory host.remoteId
      d.playerName nowMs
    have hagain := Service.leads_allowAuthAttempt crypto
      (host.backend.noteAuthFailure b₂ host.remoteId d.playerName nowMs) directory host.remoteId
      d.playerName nowMs
    rw [← hbackend] at hfailure hagain
    exact ((hallow.trans hverify).trans hfailure).trans hagain

omit hroomy in
theorem leads_choosePassword :
    Leads crypto d.backend ((d.choosePassword host line).calls.filterMap GatedCall.backend?)
      (d.choosePassword host line).dialogue.backend := by
  unfold choosePassword
  split
  · exact .refl crypto d.backend
  have hprepare := Service.leads_preparePassword crypto d.backend directory line
    d.pendingPassword
  rw [← hbackend] at hprepare
  rcases hprepared : host.backend.preparePassword d.backend line d.pendingPassword with
    ⟨⟨prepared, token⟩, backend⟩
  rw [hprepared] at hprepare
  dsimp only
  split <;> exact hprepare

theorem leads_confirmPassword :
    Leads crypto d.backend
      ((d.confirmPassword host line nowMs).calls.filterMap GatedCall.backend?)
      (d.confirmPassword host line nowMs).dialogue.backend := by
  unfold confirmPassword
  have hmatch := Service.leads_passwordMatches crypto directory
    d.backend d.pendingPassword line
  have hmatching : host.backend.passwordMatches d.backend d.pendingPassword line =
      (playerStorePasswordMatches crypto d.pendingPassword line, d.backend) := by
    rw [hbackend]
    rfl
  simp only [hmatching]
  split
  case isTrue => exact hmatch
  case isFalse hmatched =>
    have htoken := Service.token_of_matches (not_not.mp hmatched)
    have hallow := Service.leads_allowAccountCreation crypto d.backend directory
      host.remoteId nowMs
    rw [← hbackend] at hallow
    rcases hallowed : host.backend.allowAccountCreation d.backend host.remoteId nowMs with
      ⟨_ | _, b₂⟩ <;> rw [hallowed] at hallow <;> simp only [hallowed]
    · exact hmatch.trans hallow
    have hcreate := Service.leads_create crypto hroomy b₂ htoken d.playerName
    rw [← hbackend] at hcreate
    rcases hcreated : host.backend.create b₂ d.playerName d.pendingPassword with ⟨created, b₃⟩
    rw [hcreated] at hcreate
    simp only [hcreated, Bool.not_true, Bool.false_eq_true, if_false]
    split
    case isTrue => exact (hmatch.trans hallow).trans hcreate
    case isFalse =>
      have hsuccess := Service.leads_noteAuthSuccess crypto b₃ directory host.remoteId
        d.playerName nowMs
      rw [← hbackend] at hsuccess
      rw [List.filterMap_append, filterMap_openCalls, List.append_nil]
      exact ((hmatch.trans hallow).trans hcreate).trans hsuccess

theorem leads_complete (t : Typing) :
    Leads crypto d.backend ((d.complete host t nowMs).calls.filterMap GatedCall.backend?)
      (d.complete host t nowMs).dialogue.backend := by
  unfold complete
  split
  case isTrue =>
    have habandon : d.abandon.backend = d.backend := by
      unfold abandon
      cases d.login <;> rfl
    rw [habandon]
    exact .refl crypto d.backend
  case isFalse =>
    cases d.login with
    | name => exact leads_giveName hbackend hroomy d t.text
    | password => exact leads_givePassword hbackend hroomy d t.text nowMs
    | newPassword => exact leads_choosePassword hbackend d t.text
    | confirmPassword => exact leads_confirmPassword hbackend hroomy d t.text nowMs
    | inGame => exact .refl crypto d.backend

end Functions

end Dialogue

/-- The calls show that `password` was given for `name`: it was verified, or the account
was created with it. -/
def Proven (calls : List BackendCall) (name password : Bytes) : Prop :=
  .verifyPassword name password 1 ∈ calls ∨
    ∃ token, .passwordMatches token password 1 ∈ calls ∧ .create name token 0 ∈ calls

theorem Proven.append {calls : List BackendCall} {name password : Bytes}
    (h : Proven calls name password) (later : List BackendCall) :
    Proven (calls ++ later) name password := by
  rcases h with h | ⟨token, hmatch, hcreate⟩
  · exact .inl (List.mem_append_left later h)
  · exact .inr ⟨token, List.mem_append_left later hmatch, List.mem_append_left later hcreate⟩

theorem Proven.prepend {calls : List BackendCall} {name password : Bytes}
    (h : Proven calls name password) (earlier : List BackendCall) :
    Proven (earlier ++ calls) name password := by
  rcases h with h | ⟨token, hmatch, hcreate⟩
  · exact .inl (List.mem_append_right earlier h)
  · exact .inr ⟨token, List.mem_append_right earlier hmatch,
      List.mem_append_right earlier hcreate⟩

theorem Dialogue.Turn.proven {β α : Type} {host : Host β α} {d : Dialogue β} {t : Typing}
    {nowMs : UInt64} {r : Dialogue.Reply β} (h : d.Turn host t nowMs r)
    (hbefore : d.login ≠ .inGame) (hr : r.dialogue.login = .inGame) :
    Proven (r.calls.filterMap GatedCall.backend?) r.dialogue.playerName t.text := by
  cases h with
  | verified hlogin backend => exact .inl (by simp [verifiedCalls, GatedCall.backend?])
  | created hlogin backend =>
    exact .inr ⟨d.pendingPassword, by simp [createdCalls, GatedCall.backend?, forgetPassword]⟩
  | ignored => exact absurd hr hbefore
  | abandoned => exact absurd (d.login_abandon.2.mp hr) hbefore
  | unreadable hlogin | throttled hlogin | rejected hlogin | known hlogin | unknown hlogin
  | unprepared hlogin | prepared hlogin | mismatched hlogin | limited hlogin | uncreated hlogin =>
    simp [hlogin, restart] at hr

/-- The account then has this password. -/
theorem Proven.account {crypto : Crypto} {before now : Set Account} {faulted : Prop}
    {calls : List BackendCall} {name password : Bytes} (h : Proven calls name password)
    (hright : ∀ call ∈ calls, call.Right crypto before now faulted) :
    ∃ account ∈ now, account.leaf = playerLeaf name ∧ account.password = password := by
  rcases h with hverify | ⟨token, hmatch, hcreate⟩
  · exact AccountCall.Right.verify_one (hright _ hverify)
  · obtain ⟨account, ⟨hname, hhash⟩, hthere, -⟩ := (hright _ hcreate).2.create_zero
    exact ⟨account, hthere, congrArg playerLeaf hname,
      Option.some.inj (hhash.symm.trans (hright _ hmatch rfl))⟩

namespace Conn

open Service (Leads)

variable {α : Type} {crypto : Crypto} {directory : Bytes} {host : Host (Service ι) α}

def backendCalls (c : Conn (Service ι) α) : List BackendCall := c.calls.filterMap GatedCall.backend?

theorem leads_act (hbackend : host.backend = Service.backend crypto directory)
    (hroomy : Roomy directory) {c : Conn (Service ι) α} (hc : (system host).Reachable c)
    (action : Action) :
    ∃ made, (c.act host action).backendCalls = c.backendCalls ++ made ∧
      Leads crypto c.dialogue.backend made (c.act host action).dialogue.backend := by
  obtain ⟨r, hmoves, hdialogue, hcalls⟩ := exists_moves hc action
  rw [hdialogue, backendCalls, hcalls]
  cases hmoves with
  | idle => exact ⟨[], (List.append_nil _).symm, .refl crypto _⟩
  | interrupted =>
    have hinterrupt : c.dialogue.interrupt.backend = c.dialogue.backend := by
      unfold Dialogue.interrupt
      cases c.dialogue.login <;> rfl
    exact ⟨[], (List.append_nil _).symm, hinterrupt ▸ .refl crypto _⟩
  | @completed byte nowMs t ht =>
    exact ⟨_, List.filterMap_append, Dialogue.leads_complete hbackend hroomy c.dialogue nowMs t⟩

theorem leads_acts (hbackend : host.backend = Service.backend crypto directory)
    (hroomy : Roomy directory) (b : Service ι) (app : α) (actions : List Action) :
    Leads crypto b ((Conn.initial host b app).acts host actions).backendCalls
      ((Conn.initial host b app).acts host actions).dialogue.backend := by
  induction actions using List.reverseRecOn with
  | nil => exact .refl crypto b
  | append_singleton actions action ih =>
    have hreach : (system host).Reachable ((Conn.initial host b app).acts host actions) :=
      reachable_acts (.init ⟨b, app, rfl⟩) actions
    obtain ⟨made, hmade, hleads⟩ := leads_act hbackend hroomy hreach action
    rw [acts_concat, hmade]
    exact ih.trans hleads

omit [Fintype ι] [DecidableEq ι] in
/-- Who is in game has given a password. -/
theorem proven_of_inGame {c : Conn (Service ι) α} (hc : (system host).Reachable c) :
    c.dialogue.login = .inGame →
      ∃ password, Proven c.backendCalls c.dialogue.playerName password := by
  refine hc.invariant (I := fun c => c.dialogue.login = .inGame →
    ∃ password, Proven c.backendCalls c.dialogue.playerName password) ?_ ?_
  · rintro c ⟨backend, app, rfl⟩ hlogin
    cases hlogin
  · rintro action c c' hc h rfl hin
    obtain ⟨r, hmoves, hdialogue, hcalls⟩ := exists_moves hc action
    rw [hdialogue] at hin ⊢
    rw [backendCalls, hcalls]
    cases hmoves with
    | idle => exact h hin
    | interrupted =>
      have hbefore := (Dialogue.login_interrupt c.dialogue).2.mp hin
      rw [Dialogue.interrupt_of_inGame hbefore]
      exact h hbefore
    | @completed byte nowMs t ht =>
      have hturn := Dialogue.turn_complete host c.dialogue t nowMs
      change ∃ password, Proven ((c.calls ++ _).filterMap GatedCall.backend?) _ password
      rw [List.filterMap_append]
      by_cases hbefore : c.dialogue.login = .inGame
      · obtain ⟨password, hproven⟩ := h hbefore
        rw [hturn.of_inGame hbefore]
        exact ⟨password, hproven.append _⟩
      · exact ⟨t.text, (hturn.proven hbefore hin).prepend _⟩

end Conn

/-! ## An SSH session -/

namespace SshSession

variable {χ β α : Type}

/-- Who is logged in has given a password. -/
theorem proven_of_authenticated {host : SshHost χ β α} {s : SshSession χ β α}
    (hs : (system host).Reachable s) (hauth : s.authenticated = true) :
    ∃ password, .verifyPassword s.accountName.string password 1 ∈ s.backendCalls := by
  have haccepted : ∀ {a : SshAttempt} {shell : Bool} {session : Option Nat}
      {attempts : List (List BackendCall)} {calls : List ApplicationCall},
      Known host s a shell session attempts calls →
      ∃ password, .verifyPassword s.accountName.string password 1 ∈ s.backendCalls := by
    intro a shell session attempts calls h
    refine ⟨a.password, ?_⟩
    rw [backendCalls, h.record, h.name]
    simp [OutwardCall.backend?, SshAttempt.accepted]
  cases standing_of_reachable hs with
  | anonymous hanonymous => rw [hauth] at hanonymous; cases hanonymous
  | admitted h => exact haccepted h
  | turnedAway h => exact haccepted h
  | attached h => exact haccepted h

end SshSession

/-! ## Visits -/

/-- A session over one of the transports, with all it does. -/
inductive Visit (ι χ α : Type) where
  | telnet (host : Host (Service ι) α) (app : α) (actions : List Conn.Action)
  | ssh (host : SshHost χ (Service ι) α) (clientBanner : Option Bytes) (nowMs : UInt64) (app : α)
      (actions : List (SshSession.Action χ))

namespace Visit

open Service (Leads)

variable {χ α : Type}

def host : Visit ι χ α → Backend (Service ι)
  | telnet host _ _ => host.backend
  | ssh host _ _ _ _ => host.backend

/-- The session as it ends, if it starts with the service `b`. -/
def telnetEnd (b : Service ι) (host : Host (Service ι) α) (app : α) (actions : List Conn.Action) :
    Conn (Service ι) α :=
  (Conn.initial host b app).acts host actions

def sshEnd (b : Service ι) (host : SshHost χ (Service ι) α) (clientBanner : Option Bytes)
    (nowMs : UInt64) (app : α) (actions : List (SshSession.Action χ)) :
    SshSession χ (Service ι) α :=
  (SshSession.initial clientBanner nowMs b app).acts host actions

/-- The service after the visit. -/
def leaves (b : Service ι) : Visit ι χ α → Service ι
  | telnet host app actions => (telnetEnd b host app actions).dialogue.backend
  | ssh host clientBanner nowMs app actions =>
      (sshEnd b host clientBanner nowMs app actions).backend

def calls (b : Service ι) : Visit ι χ α → List BackendCall
  | telnet host app actions => (telnetEnd b host app actions).backendCalls
  | ssh host clientBanner nowMs app actions =>
      (sshEnd b host clientBanner nowMs app actions).backendCalls

/-- Who is logged in at the end. -/
def player? (b : Service ι) : Visit ι χ α → Option Bytes
  | telnet host app actions =>
      let c := telnetEnd b host app actions
      if c.dialogue.login = .inGame then some c.dialogue.playerName else none
  | ssh host clientBanner nowMs app actions =>
      let s := sshEnd b host clientBanner nowMs app actions
      if s.authenticated then some s.accountName.string else none

variable {crypto : Crypto} {directory : Bytes} {b : Service ι} {v : Visit ι χ α}

theorem leads (hhost : v.host = Service.backend crypto directory) (hroomy : Roomy directory) :
    Leads crypto b (v.calls b) (v.leaves b) := by
  cases v with
  | telnet host app actions => exact Conn.leads_acts hhost hroomy b app actions
  | ssh host clientBanner nowMs app actions =>
    obtain ⟨made, hcalls, hserves⟩ := SshSession.serves_acts host
      (SshSession.initial clientBanner nowMs b app) actions
    rw [show host.backend = Service.backend crypto directory from hhost] at hserves
    rw [calls, sshEnd, hcalls]
    exact Service.leads_of_serves crypto directory hroomy hserves

omit [Fintype ι] [DecidableEq ι] in
theorem proven {name : Bytes} (h : v.player? b = some name) :
    ∃ password, Proven (v.calls b) name password := by
  cases v with
  | telnet host app actions =>
    have hreach : (Conn.system host).Reachable (telnetEnd b host app actions) :=
      Conn.reachable_acts (.init ⟨b, app, rfl⟩) actions
    obtain ⟨hin, hname⟩ := Option.ite_none_right_eq_some.mp h
    obtain ⟨password, hproven⟩ := Conn.proven_of_inGame hreach hin
    exact ⟨password, Option.some.inj hname ▸ hproven⟩
  | ssh host clientBanner nowMs app actions =>
    have hreach : (SshSession.system host).Reachable
        (sshEnd b host clientBanner nowMs app actions) :=
      SshSession.reachable_acts (.init ⟨clientBanner, nowMs, b, app, rfl⟩) actions
    obtain ⟨hauth, hname⟩ := Option.ite_none_right_eq_some.mp h
    obtain ⟨password, hverified⟩ := SshSession.proven_of_authenticated hreach hauth
    exact ⟨password, .inl (Option.some.inj hname ▸ hverified)⟩

/-! ## Visits one after the other -/

/-- A visit, and the script of what happens during it. -/
structure Busy (ι χ α : Type) where
  script : List (Turn ι)
  visit : Visit ι χ α

/-- The service as a visit finds it: of its own system calls there are none yet. -/
def Busy.start (x : Busy ι χ α) (b : Service ι) : Service ι :=
  { b with script := x.script, world := Service.forget b.world }

/-- The service after all these visits. The store calls of others go on from one to the
next. -/
def day (b : Service ι) (visits : List (Busy ι χ α)) : Service ι :=
  visits.foldl (fun b x => x.visit.leaves (x.start b)) b

/-- The visit is to the server with this store. -/
def Busy.On (crypto : Crypto) (directory : Bytes) (x : Busy ι χ α) : Prop :=
  x.visit.host = Service.backend crypto directory

omit [Fintype ι] in
theorem holds_init {κ : Type} (hroomy : Roomy directory) {calls : ι → StoreCall}
    (hready : ∀ i, (calls i).Ready crypto) {d : Disk κ}
    (hd : (d.found : Disk (Option ι)).Recorded crypto recordLeaves) (policy : SecurityPolicy) :
    (Service.start crypto directory calls d policy).Holds crypto where
  amid i := Safe.mono (fun _ _ _ => trivial) (safe_storeCall hroomy (hready i)
    (Set.subset_univ _) ⟨sound_start hd, subset_rfl, rfl, trivial⟩)
  sound := sound_start hd
  held := rfl

omit [Fintype ι] in
theorem Busy.holds_start (x : Busy ι χ α) (h : b.Holds crypto) : (x.start b).Holds crypto where
  amid i := (h.amid i).of_rely ((Service.compatible_all crypto).trans _)
    (Service.rely_forget b.world i)
  sound := Service.sound_forget h.sound
  held := rfl

/-- Accounts stay, with their passwords. -/
theorem holds_day (hroomy : Roomy directory) {visits : List (Busy ι χ α)}
    (hvisits : ∀ x ∈ visits, x.On crypto directory) (h : b.Holds crypto) :
    (day b visits).Holds crypto ∧ b.accounts crypto ⊆ (day b visits).accounts crypto := by
  induction visits generalizing b with
  | nil => exact ⟨h, subset_rfl⟩
  | cons x rest ih =>
    obtain ⟨hx, hrest⟩ := List.forall_mem_cons.mp hvisits
    have hvisit := leads hx hroomy (x.holds_start h)
    obtain ⟨hend, hgrown⟩ := ih hrest hvisit.holds
    exact ⟨hend, hvisit.grown.trans hgrown⟩

/-- What a visit is told about an account that was there before. -/
theorem checks_account (hhost : v.host = Service.backend crypto directory)
    (hroomy : Roomy directory) (hb : b.Holds crypto) {name : Bytes} {account : Account}
    (haccount : account ∈ b.accounts crypto) (hleaf : account.leaf = playerLeaf name) :
    (∀ password answer, .verifyPassword name password answer ∈ v.calls b →
      (answer = 1 ∧ password = account.password) ∨ (answer = 0 ∧ password ≠ account.password) ∨
        (answer = -1 ∧ ((v.leaves b).faulted = true ∨ playerStoreNameValid name = false ∨
          playerPasswordMax < password.length))) ∧
      (v.player? b = some name → .verifyPassword name account.password 1 ∈ v.calls b) := by
  have hvisit := leads hhost hroomy hb
  have hsame : ∀ {other : Account}, other ∈ (v.leaves b).accounts crypto →
      other.leaf = playerLeaf name → other = account := fun hother hown =>
    Disk.accounts_unique hother (hvisit.grown haccount) (hown.trans hleaf.symm)
  constructor
  · intro password answer hcall
    have hright : (AccountCall.verify name password).Right _ _ _ answer := hvisit.right _ hcall
    cases hright with
    | verified hthere hown => exact .inl ⟨rfl, congrArg Account.password (hsame hthere hown)⟩
    | denied hthere hown hwrong => exact .inr (.inl ⟨rfl, hsame hthere hown ▸ hwrong⟩)
    | nobody hnone => exact absurd hleaf (hnone account haccount)
    | tooLong hlong => exact .inr (.inr ⟨rfl, .inr (.inr hlong)⟩)
    | invalid hname => exact .inr (.inr ⟨rfl, .inr (.inl hname)⟩)
    | failed h => exact .inr (.inr ⟨rfl, .inl h⟩)
  · intro hplayer
    obtain ⟨password, hproven⟩ := proven hplayer
    obtain ⟨other, hother, hown, rfl⟩ := hproven.account hvisit.right
    obtain rfl := hsame hother hown
    rcases hproven with hverified | ⟨token, -, hcreate⟩
    · exact hverified
    · -- an account that is there is not created again
      obtain ⟨created, ⟨hname, -⟩, -, hnew⟩ := (hvisit.right _ hcreate).2.create_zero
      exact absurd (hleaf.trans (congrArg playerLeaf hname).symm) (hnew other haccount)

section Server

variable {κ : Type} (hroomy : Roomy directory) {calls : ι → StoreCall}
  (hready : ∀ i, (calls i).Ready crypto) {d : Disk κ}
  (hd : (d.found : Disk (Option ι)).Recorded crypto recordLeaves) (policy : SecurityPolicy)
  {earlier : List (Busy ι χ α)} (hearlier : ∀ x ∈ earlier, x.On crypto directory)

include hroomy hready hd hearlier

omit hroomy hready hd hearlier

/-! A newcomer registers over Telnet while somebody else creates the same account. -/

/-- The rival has written its record by then, and finds the name taken. -/
def registering : List (Turn Unit) :=
  [⟨[], .succeed⟩,
    ⟨[.store () (.temp (ascii "bbbbbb") 1), .store () .succeed], .hash (ascii "tin roof 9 rivers")⟩,
    ⟨[.store () (.count 35)], .succeed⟩, ⟨[], .temp (ascii "aaaaaa") 0⟩,
    ⟨[.store () .succeed, .store () .succeed], .succeed⟩, ⟨[], .count 49⟩, ⟨[], .succeed⟩,
    ⟨[], .succeed⟩, ⟨[], .succeed⟩, ⟨[.store () .taken], .succeed⟩] ++
    List.replicate 4 ⟨[.store () .succeed], .succeed⟩

def newcomer : Busy Unit Unit Unit :=
  ⟨registering, .telnet
    ⟨ascii "192.0.2.1", true, Service.backend Crypto.plainText (ascii "/srv"), .idle⟩ ()
    ((ascii "ada\ntin roof 9 rivers\ntin roof 9 rivers\n").map (.byte · 1))⟩

/-- A server on its first day. -/
abbrev opened : Service Unit :=
  day (Service.start Crypto.plainText (ascii "/srv") (fun _ => .create (Creation.rivals true))
    Disk.empty .securityPolicyCreate) ([] : List (Busy Unit Unit Unit))

theorem ready_opened :
    (StoreCall.create (Creation.rivals true)).Ready Crypto.plainText :=
  ⟨ascii "two", by decide, by decide, by decide⟩

include hroomy hready hd hearlier

/-- A name has one password. Who logs in has given it, and from then on, through any
number of visits over either transport and in either spelling, the store accepts this
password and no other; nobody is logged in under the name who has not given it. -/
theorem one_name_one_password {first : Busy ι χ α} (hfirst : first.On crypto directory)
    {name : Bytes}
    (hplayer : first.visit.player? (first.start
      (day (Service.start crypto directory calls d policy) earlier)) = some name) :
    let b := first.start (day (Service.start crypto directory calls d policy) earlier)
    ∃ password, Proven (first.visit.calls b) name password ∧
      ∀ (visits : List (Busy ι χ α)) (later : Busy ι χ α), (∀ x ∈ visits, x.On crypto directory) →
        later.On crypto directory → ∀ name', playerLeaf name' = playerLeaf name →
        let b' := later.start (day (first.visit.leaves b) visits)
        (∀ password' answer, .verifyPassword name' password' answer ∈ later.visit.calls b' →
          (answer = 1 ∧ password' = password) ∨ (answer = 0 ∧ password' ≠ password) ∨
            (answer = -1 ∧ ((later.visit.leaves b').faulted = true ∨
              playerStoreNameValid name' = false ∨ playerPasswordMax < password'.length))) ∧
          (later.visit.player? b' = some name' →
            .verifyPassword name' password 1 ∈ later.visit.calls b') := by
  have hb := holds_day hroomy hearlier (holds_init hroomy hready hd policy)
  have hvisit := leads hfirst hroomy (first.holds_start hb.1)
  obtain ⟨password, hproven⟩ := proven hplayer
  obtain ⟨account, hthere, hleaf, rfl⟩ := hproven.account hvisit.right
  refine ⟨account.password, hproven, fun visits later hvisits hlater name' hname' => ?_⟩
  obtain ⟨hend, hgrown⟩ := holds_day hroomy hvisits hvisit.holds
  exact checks_account hlater hroomy (later.holds_start hend) (hgrown hthere)
    (hleaf.trans hname'.symm)

omit hroomy hready hd hearlier

/-! The newcomer comes back over SSH. -/

def returning : Busy Unit Unit Unit :=
  ⟨List.replicate 9 ⟨[], .succeed⟩, .ssh
    ⟨ascii "192.0.2.2", .willing, Service.backend Crypto.plainText (ascii "/srv"), .idle⟩
    none 2 () [.callback (.password (some (ascii "ADA")) (some (ascii "tin roof 9 rivers")) 3)]⟩

abbrev registered : Service Unit :=
  day (newcomer.visit.leaves (newcomer.start opened)) ([] : List (Busy Unit Unit Unit))

theorem one_name_one_password_returning :
    ∃ password, Proven (newcomer.visit.calls (newcomer.start opened)) (ascii "ada") password ∧
      .verifyPassword (ascii "ADA") password 1 ∈
        returning.visit.calls (returning.start registered) := by
  have hplayer : newcomer.visit.player? (newcomer.start opened) = some (ascii "ada") := by
    decide +kernel
  have hback : returning.visit.player? (returning.start registered) = some (ascii "ADA") := by
    decide +kernel
  obtain ⟨password, hproven, hlater⟩ := one_name_one_password (by unfold Roomy; decide)
    (fun _ => ready_opened) (Disk.recorded_empty _ _) .securityPolicyCreate
    (List.forall_mem_nil _) (show newcomer.On Crypto.plainText (ascii "/srv") from rfl) hplayer
  have hleaf : playerLeaf (ascii "ADA") = playerLeaf (ascii "ada") := by decide
  exact ⟨password, hproven, (hlater [] returning (List.forall_mem_nil _) rfl _ hleaf).2 hback⟩

end Server

end Visit

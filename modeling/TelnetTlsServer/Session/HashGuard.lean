-- SUMMARY: The policy's account-creation limit and the password hashes of the new-account dialogue, over all runs of a session.
import TelnetTlsServer.Session.Authentication

/-!
# Password hashes and the creation limit

The policy limits account creations to protect password hashing. The dialogue
asks it after a new password has been confirmed, and the hash is made before
that, when the password is chosen. So no hash of the dialogue stands under the
limit (`hash_guarded_iff`): a run in which every hash was allowed first is a run
without a hash.

A run is recorded as a list of marks: its gated calls, and each time the dialogue
goes from the name to the new password.
-/

/-- What the record of a run holds. -/
inductive Mark where
  | call (call : GatedCall)
  | entered
deriving DecidableEq, Repr

/-- The policy allows the peer to create an account. -/
def Mark.consent {β α : Type} (host : Host β α) (m : Mark) : Prop :=
  ∃ nowMs, m = .call (.backend (.allowAccountCreation host.remoteId nowMs true))

def Mark.hash : Mark → Bool
  | .call (.backend (.preparePassword ..)) => true
  | _ => false

/-- Each hash follows a consent that is later than the last `entered`. -/
def Guarded {β α : Type} (host : Host β α) (marks : List Mark) : Prop :=
  ∀ pre m post, marks = pre ++ m :: post → m.hash = true →
    ∃ before since, pre = before ++ since ∧ .entered ∉ since ∧ ∃ m ∈ since, m.consent host

namespace Conn

variable {β α : Type}

/-! ## Runs -/

/-- The gated calls an action makes. -/
def made (host : Host β α) (c : Conn β α) (action : Action) : List GatedCall :=
  (c.act host action).calls.drop c.calls.length

/-- The marks of one action. -/
def stepMarks (host : Host β α) (c : Conn β α) (action : Action) : List Mark :=
  (c.made host action).map .call ++
    if c.dialogue.login = .name ∧ (c.act host action).dialogue.login = .newPassword then [.entered]
    else []

/-- The marks of a sequence of actions. -/
def marks (host : Host β α) : Conn β α → List Action → List Mark
  | _, [] => []
  | c, action :: rest => c.stepMarks host action ++ marks host (c.act host action) rest

theorem marks_append (host : Host β α) (c : Conn β α) (a b : List Action) :
    marks host c (a ++ b) = marks host c a ++ marks host (c.acts host a) b := by
  induction a generalizing c with
  | nil => rfl
  | cons action rest ih =>
    simp only [List.cons_append, marks, ih, List.append_assoc]
    rfl

theorem mem_marks {host : Host β α} {c : Conn β α} {actions : List Action} {m : Mark}
    (h : m ∈ marks host c actions) : ∃ before action after, actions = before ++ action :: after ∧
      m ∈ (c.acts host before).stepMarks host action := by
  induction actions generalizing c with
  | nil => cases h
  | cons action rest ih =>
    rcases List.mem_append.mp h with h | h
    · exact ⟨[], action, rest, rfl, h⟩
    · obtain ⟨before, later, after, rfl, hm⟩ := ih h
      exact ⟨action :: before, later, after, rfl, hm⟩

theorem marks_at (host : Host β α) (c : Conn β α) (before after : List Action) (action : Action) :
    ∃ later, marks host c (before ++ action :: after) =
      marks host c before ++ ((c.acts host before).stepMarks host action ++ later) :=
  ⟨_, marks_append host c before (action :: after)⟩

end Conn

/-! ## Lines that are hashed -/

namespace Dialogue

variable {β α : Type} {host : Host β α} {d : Dialogue β} {t : Typing} {nowMs : UInt64}
  {r : Reply β}

/-- A new password waits to be chosen or confirmed. -/
def Choosing (d : Dialogue β) : Prop := d.login = .newPassword ∨ d.login = .confirmPassword

theorem choosing_interrupt : d.interrupt.Choosing ↔ d.Choosing := by
  unfold interrupt Choosing
  cases hlogin : d.login <;> simp [hlogin]

theorem choosing_abandon : d.abandon.Choosing ↔ d.Choosing := by
  unfold abandon Choosing
  cases hlogin : d.login <;> simp [hlogin]

/-- The choice of a password begins after a name, and goes on without a consent. -/
theorem Turn.choosing (h : d.Turn host t nowMs r) (hr : r.dialogue.Choosing) :
    (d.login = .name ∧ r.dialogue.login = .newPassword) ∨
      (d.Choosing ∧ ∀ x ∈ r.calls, ¬ (Mark.call x).consent host) := by
  cases h with
  | ignored => exact .inr ⟨hr, by simp⟩
  | abandoned => exact .inr ⟨choosing_abandon.mp hr, by simp⟩
  | unknown hlogin => exact .inl ⟨hlogin, rfl⟩
  | prepared hlogin => exact .inr ⟨.inl hlogin, by simp [Mark.consent]⟩
  | mismatched hlogin => exact .inr ⟨.inr hlogin, by simp [Mark.consent]⟩
  | unreadable hlogin | throttled hlogin | rejected hlogin => simp [Choosing, hlogin] at hr
  | known | verified | unprepared | limited | uncreated | created =>
    simp [Choosing, restart] at hr

theorem Turn.login_of_hash (h : d.Turn host t nowMs r) {x : GatedCall} (hx : x ∈ r.calls)
    (hhash : (Mark.call x).hash = true) : d.login = .newPassword := by
  have hopen : ∀ name, x ∉ openCalls host name := by
    intro name hmem
    unfold openCalls at hmem
    split at hmem
    · obtain rfl := List.mem_singleton.mp hmem
      cases hhash
    · cases hmem
  cases h with
  | unprepared hlogin | prepared hlogin => exact hlogin
  | ignored | abandoned => cases hx
  | unreadable | known | unknown | throttled | rejected | mismatched | limited | uncreated =>
    simp only [List.mem_cons, List.not_mem_nil, or_false] at hx
    rcases hx with rfl | rfl | rfl | rfl <;> cases hhash
  | verified | created =>
    rcases List.mem_append.mp hx with hx | hx
    · simp only [List.mem_cons, List.not_mem_nil, or_false] at hx
      rcases hx with rfl | rfl | rfl | rfl <;> cases hhash
    · exact absurd hx (hopen _)

/-- A line that is long enough and allowed is hashed, and nothing else is called. -/
theorem choosePassword_hashes (host : Host β α) {line : Bytes} (hlength : playerPasswordMin ≤ line.length)
    (hallowed : playerStorePasswordAllowed d.playerName line = 1) :
    ∃ answer token, (d.choosePassword host line).calls =
      [.backend (.preparePassword line answer token)] := by
  unfold choosePassword
  rw [if_neg (by simp [hallowed, Nat.not_lt.mpr hlength])]
  rcases host.backend.preparePassword d.backend line d.pendingPassword with
    ⟨⟨answer, token⟩, backend⟩
  refine ⟨answer, token, ?_⟩
  dsimp only
  split <;> rfl

theorem fits_of_choosePassword {line : Bytes} {x : GatedCall}
    (h : x ∈ (d.choosePassword host line).calls) :
    playerPasswordMin ≤ line.length ∧ playerStorePasswordAllowed d.playerName line = 1 := by
  unfold choosePassword at h
  split at h
  case isTrue => cases h
  case isFalse hfits =>
    simp only [ne_eq, Bool.or_eq_true, decide_eq_true_eq, not_or, not_not, not_lt] at hfits
    exact hfits

end Dialogue

/-! ## Runs without a guard -/

namespace Conn

variable {β α : Type} {host : Host β α} {c : Conn β α} {action : Action}

/-- The action completes a line that is chosen as a new password: it was not too
fast or too long, it has the length of a password and is allowed as one. -/
def Hashes (c : Conn β α) : Action → Prop
  | .byte byte nowMs => c.closed = false ∧ c.parsing.parser = .data ∧ byte = 10 ∧
      (rateConsume c.lineWindow 1 inputLinesPerWindow inputLinesWindowMs nowMs).1 = true ∧
      c.dialogue.login = .newPassword ∧ c.input.lineOverflow = false ∧
      playerPasswordMin ≤ c.input.lineLength ∧
      playerStorePasswordAllowed c.dialogue.playerName c.input.text = 1
  | _ => False

theorem made_of_calls {made : List GatedCall} (h : (c.act host action).calls = c.calls ++ made) :
    c.made host action = made := by
  rw [Conn.made, h, List.drop_left]

theorem Reads.hashes_iff {nowMs : UInt64} {t : Typing} (h : c.Reads action nowMs t) :
    c.Hashes action ↔ c.dialogue.login = .newPassword ∧ t.overflow = false ∧
      playerPasswordMin ≤ t.text.length ∧
      playerStorePasswordAllowed c.dialogue.playerName t.text = 1 := by
  obtain ⟨rfl, hopen, hparser, haccepted, ht⟩ := h
  simp [Hashes, hopen, hparser, haccepted, ht.overflow, ht.length, ht.text_eq]

/-- A step that hashes leaves the hash as its only mark. -/
theorem Hashes.stepMarks (host : Host β α) (hc : c.Good) (h : c.Hashes action) :
    c.dialogue.login = .newPassword ∧
      ∃ m, c.stepMarks host action = [m] ∧ m.hash = true := by
  obtain ⟨t, ht, -⟩ := hc.line
  have hread : ∃ nowMs, c.Reads action nowMs t := by
    cases action with
    | byte byte nowMs =>
      obtain ⟨hopen, hparser, rfl, haccepted, -⟩ := h
      exact ⟨nowMs, rfl, hopen, hparser, haccepted, ht⟩
    | start | poll | byteFlood => cases h
  obtain ⟨nowMs, hread⟩ := hread
  obtain ⟨hlogin, hoverflow, hlength, hallowed⟩ := hread.hashes_iff.mp h
  obtain ⟨answer, token, hcalls⟩ := Dialogue.choosePassword_hashes host hlength hallowed
  have hmade : c.made host action = [.backend (.preparePassword t.text answer token)] := by
    refine made_of_calls ((congrArg Dialogue.Reply.calls hread.account).trans ?_)
    rw [answered, Dialogue.complete, if_neg (by simp [hoverflow]), hlogin, ← hcalls]
  refine ⟨hlogin, .call (.backend (.preparePassword t.text answer token)), ?_, rfl⟩
  simp [Conn.stepMarks, hmade, hlogin]

/-- No other step hashes. -/
theorem hashes_of_stepMarks (hc : c.Good) {m : Mark} (hm : m ∈ c.stepMarks host action)
    (hhash : m.hash = true) : c.Hashes action := by
  obtain ⟨made, dialogue, hhandles, hcalls, -⟩ := exists_handles host hc action
  have hmade : ∃ x ∈ made, m = .call x := by
    rw [Conn.stepMarks, made_of_calls hcalls] at hm
    rcases List.mem_append.mp hm with hm | hm
    · obtain ⟨x, hx, rfl⟩ := List.mem_map.mp hm
      exact ⟨x, hx, rfl⟩
    · split at hm
      · rw [List.mem_singleton.mp hm] at hhash
        cases hhash
      · cases hm
  obtain ⟨x, hx, rfl⟩ := hmade
  cases hhandles with
  | idle | interrupted => cases hx
  | @read nowMs t hread =>
    have hlogin := (Dialogue.turn_complete host c.dialogue t nowMs).login_of_hash hx hhash
    unfold Dialogue.complete at hx
    split at hx
    case isTrue => cases hx
    case isFalse hoverflow =>
      rw [hlogin] at hx
      exact hread.hashes_iff.mpr
        ⟨hlogin, Bool.not_eq_true _ ▸ hoverflow, Dialogue.fits_of_choosePassword hx⟩

/-- While a password is chosen, no consent stands after the last `entered`. -/
def Unconsented (host : Host β α) (marks : List Mark) : Prop :=
  ∃ before since, marks = before ++ .entered :: since ∧ ∀ m ∈ since, ¬ m.consent host

theorem Unconsented.append {marks later : List Mark} (h : Unconsented host marks)
    (hlater : ∀ m ∈ later, ¬ m.consent host) : Unconsented host (marks ++ later) := by
  obtain ⟨before, since, rfl, hsince⟩ := h
  refine ⟨before, since ++ later, by simp, fun m hm => ?_⟩
  rcases List.mem_append.mp hm with hm | hm
  · exact hsince m hm
  · exact hlater m hm

/-- One step: the choice begins with `entered`, and goes on without a consent. -/
theorem Unconsented.step (hc : c.Good) {marks : List Mark}
    (h : c.dialogue.Choosing → Unconsented host marks)
    (hnext : (c.act host action).dialogue.Choosing) :
    Unconsented host (marks ++ c.stepMarks host action) := by
  obtain ⟨made, dialogue, hhandles, hcalls, hdialogue⟩ := exists_handles host hc action
  have hmade : ∀ {m : Mark}, m ∈ c.stepMarks host action → m = .entered ∨ ∃ x ∈ made, m = .call x := by
    intro m hm
    rw [stepMarks, made_of_calls hcalls] at hm
    rcases List.mem_append.mp hm with hm | hm
    · obtain ⟨x, hx, rfl⟩ := List.mem_map.mp hm
      exact .inr ⟨x, hx, rfl⟩
    · split at hm
      · exact .inl (List.mem_singleton.mp hm)
      · cases hm
  have hgoes : c.dialogue.Choosing → (∀ x ∈ made, ¬ (Mark.call x).consent host) →
      Unconsented host (marks ++ c.stepMarks host action) := by
    intro hchoosing hcalls
    refine (h hchoosing).append fun m hm => ?_
    rcases hmade hm with rfl | ⟨x, hx, rfl⟩
    · simp [Mark.consent]
    · exact hcalls x hx
  rw [hdialogue] at hnext
  cases hhandles with
  | idle => exact hgoes hnext (by simp)
  | interrupted => exact hgoes (Dialogue.choosing_interrupt.mp hnext) (by simp)
  | @read nowMs t hread =>
    rcases (Dialogue.turn_complete host c.dialogue t nowMs).choosing hnext with
      ⟨hname, hnew⟩ | ⟨hchoosing, hnone⟩
    · refine ⟨marks ++ (c.made host action).map .call, [], ?_, by simp⟩
      rw [stepMarks, if_pos ⟨hname, hdialogue ▸ hnew⟩, List.append_assoc]
    · exact hgoes hchoosing hnone

theorem unconsented_marks (hc : (system host).Reachable c) (hname : c.dialogue.login = .name)
    (actions : List Action) (h : (c.acts host actions).dialogue.Choosing) :
    Unconsented host (marks host c actions) := by
  induction actions using List.reverseRecOn with
  | nil => simp [acts, Dialogue.Choosing, hname] at h
  | append_singleton actions action ih =>
    rw [marks_append]
    rw [acts_concat] at h
    have hgood := good_of_reachable (reachable_acts hc actions)
    simpa [marks] using Unconsented.step hgood ih h

/-- A hash after such marks is not guarded. -/
theorem Unconsented.not_guarded {marks later : List Mark} {m : Mark} (h : Unconsented host marks)
    (hhash : m.hash = true) : ¬ Guarded host (marks ++ m :: later) := by
  intro hguarded
  obtain ⟨before, since, hsplit, hno, consent, hmem, hconsent⟩ := hguarded _ m later rfl hhash
  obtain ⟨before', since', rfl, hnone⟩ := h
  -- Both are ends of the marks; the one without `entered` lies within the other.
  rcases List.append_eq_append_iff.mp hsplit with ⟨mid, -, hmid⟩ | ⟨mid, -, hmid⟩
  · cases mid with
    | nil =>
      rw [List.nil_append] at hmid
      exact hno (hmid ▸ List.mem_cons_self)
    | cons x mid =>
      obtain ⟨rfl, hrest⟩ := List.cons.inj hmid
      exact hnone consent (hrest ▸ List.mem_append_right mid hmem) hconsent
  · exact hno (hmid ▸ List.mem_append_right mid List.mem_cons_self)

/-- In a run of a session every hash was allowed first if and only if nothing was
hashed: a hash is never allowed first. -/
theorem hash_guarded_iff (host : Host β α) (backend : β) (app : α) (actions : List Action) :
    Guarded host (marks host (.initial host backend app) actions) ↔
      ∀ before action after, actions = before ++ action :: after →
        ¬ ((initial host backend app).acts host before).Hashes action := by
  have hreach : (system host).Reachable (initial host backend app) := .init ⟨backend, app, rfl⟩
  have hgood := fun before => good_of_reachable (reachable_acts hreach before)
  constructor
  · rintro hguarded before action after rfl hhashes
    obtain ⟨hlogin, m, hmarks, hhash⟩ := hhashes.stepMarks host (hgood before)
    obtain ⟨later, hlater⟩ := marks_at host (initial host backend app) before after action
    rw [hlater, hmarks] at hguarded
    exact (unconsented_marks hreach rfl before (.inl hlogin)).not_guarded hhash hguarded
  · intro hnone pre m post hsplit hhash
    have hmem : m ∈ marks host (initial host backend app) actions := by simp [hsplit]
    obtain ⟨before, action, after, heq, hm⟩ := mem_marks hmem
    exact absurd (hashes_of_stepMarks (hgood before) hm hhash) (hnone before action after heq)

/-- A host on which no name has an account. -/
def newcomerHost : Host Unit Unit :=
  { Host.granting with backend := { Backend.granting with exists_ := fun _ _ => (0, ()) } }

/-- A name and a new password are typed. -/
def newcomer : List Action := (ascii "bob\ncorrect-horse\n").map fun byte => .byte byte 1

/-- The password is hashed right after the name, without a question to the policy. -/
theorem hash_unguarded :
    ¬ Guarded newcomerHost (marks newcomerHost (.initial newcomerHost () ()) newcomer) := by
  have hmarks : marks newcomerHost (.initial newcomerHost () ()) newcomer =
      [.call (.backend (.exists_ (ascii "bob") 0)), .entered] ++
        .call (.backend (.preparePassword (ascii "correct-horse") 0 (Buffer.zero 256))) :: [] := by
    decide +kernel
  rw [hmarks]
  exact Unconsented.not_guarded ⟨[.call (.backend (.exists_ (ascii "bob") 0))], [], rfl, by simp⟩ rfl

end Conn

-- SUMMARY: What filling a temporary file and synchronising the directory do, for any rely and guarantee that leave the file to its writer.
import TelnetTlsServer.Store.PlayerStore

/-!
# Writing a record

`write_new_record_atomic` and `replace_record_atomic` fill their temporary file in
the same way. What that achieves does not depend on what else happens in the
directory, as long as the file is left to its writer, and when it achieves nothing a
call has failed; the two functions differ in how they publish the file, and are
treated where that is done.
-/

open Interleaving

variable {ι : Type} [DecidableEq ι]

/-- A call that neither takes nor gives up a temporary name. -/
def Call.quiet : (call : Call) → call.Answer → Bool
  | .mkstemp _, some _ => false
  | .unlink _, _ => false
  | _, _ => true

/-- The answers after which a function of the store gives up. -/
def Call.fault : (call : Call) → call.Answer → Bool
  | .mkstemp _, answer => answer.isNone
  | .fchmod _, answer => !answer
  | .write _ _, answer => answer.getD 0 = 0
  | .fsync _, answer => !answer
  | .close _, answer => !answer
  | .link _ _, answer => answer = .failed
  | .rename _ _, answer => !answer
  | .openDirectory, answer => !answer
  | .fsyncDirectory, answer => !answer
  | .openRead _, answer => answer = .failed
  | .fstat _, answer => answer.isNone
  | .fdopen _, answer => !answer
  | .fgets _ _ _, answer => answer.isNone
  | .fclose _, answer => !answer
  | .pwhash _, answer => answer.isNone
  | .unlink _, _ | .closeDirectory, _ | .closeRead _, _ | .needsRehash _, _ => false

/-- A call with such an answer is on the log. -/
def faulty (log : List (Σ call : Call, call.Answer)) : Bool := log.any fun e => e.1.fault e.2

theorem faulty_concat (log : List (Σ call : Call, call.Answer)) (call : Call) (a : call.Answer) :
    faulty (log ++ [⟨call, a⟩]) = (faulty log || call.fault a) := by
  simp [faulty, List.any_append]

namespace World

variable {w : World ι} {i : ι}

theorem log_record_self {call : Call} (a : call.Answer) (d : Disk ι) :
    (w.record i call a d).log i = w.log i ++ [⟨call, a⟩] := Function.update_self ..

theorem log_record_of_ne {j : ι} (hj : j ≠ i) {call : Call} (a : call.Answer) (d : Disk ι) :
    (w.record i call a d).log j = w.log j := Function.update_of_ne hj ..

theorem faulty_record {call : Call} (a : call.Answer) (d : Disk ι) :
    faulty ((w.record i call a d).log i) = (faulty (w.log i) || call.fault a) := by
  rw [log_record_self, faulty_concat]

end World

/-- In `sem`, `i` makes its calls on the player directory. -/
structure OnDisk (crypto : Crypto) (unlinkFails : Bool) (sem : Sem ι (World ι) Call Call.Answer)
    (i : ι) (R : World ι → World ι → Prop) : Prop where
  refl : ∀ w, R w w
  log : ∀ w w', R w w' → w'.log i = w.log i
  perform : ∀ call w a w', sem i call w a w' →
    ∃ choice d, w.disk.perform crypto unlinkFails i call choice = some (a, d) ∧
      w' = w.record i call a d

section

variable {crypto : Crypto} {unlinkFails : Bool} {sem : Sem ι (World ι) Call Call.Answer} {i : ι}
  {R G : World ι → World ι → Prop} {ρ : Type} {post : ρ → World ι → Prop} {w : World ι}

/-- The rule of one system call, from a stable precondition `P`. -/
theorem safe_sys (hsem : OnDisk crypto unlinkFails sem i R) {P : World ι → Prop} {call : Call}
    {k : call.Answer → StoreProg ρ} (hstable : Stable R P) (h : P w)
    (hstep : ∀ w choice a d, P w → w.disk.perform crypto unlinkFails i call choice = some (a, d) →
      G w (w.record i call a d) ∧ Safe sem i R G post (k a) (w.record i call a d)) :
    Safe sem i R G post (sys call >>= k) w := by
  refine Safe.perform hstable h fun w a w' hP hcall => ?_
  obtain ⟨choice, d, hperform, rfl⟩ := hsem.perform call w a w' hcall
  exact hstep w choice a d hP hperform

/-- `P` survives the others, and calls of `i` itself that change nothing. -/
structure Calm (i : ι) (R G : World ι → World ι → Prop) (P : World ι → Prop) : Prop where
  stable : Stable R P
  idle : ∀ w call a, call.quiet a = true → P w →
    G w (w.record i call a w.disk) ∧ P (w.record i call a w.disk)

/-- `fd` is an open file of `i`'s, in the state `f` when `P f` holds. -/
structure FileWriter (i : ι) (R G : World ι → World ι → Prop) (fd : Nat)
    (P : File ι → World ι → Prop) : Prop where
  calm : ∀ f, Calm i R G (P f)
  alter : ∀ f w call a g, call.quiet a = true → (∀ f : File ι, (g f).author = f.author) →
    f.isClosed = false → P f w →
    G w (w.record i call a (w.disk.alter fd g)) ∧ P (g f) (w.record i call a (w.disk.alter fd g))

theorem Calm.safe_syncDirectory (hsem : OnDisk crypto unlinkFails sem i R) {P : World ι → Prop}
    (hP : Calm i R G P) (h : P w) :
    Safe sem i R G (fun _ => P) syncDirectory w := by
  refine safe_sys hsem hP.stable h fun w _ opened d h hperform => ?_
  obtain rfl := Disk.plain_cases hperform
  obtain ⟨hG, h⟩ := hP.idle w .openDirectory opened rfl h
  refine ⟨hG, ?_⟩
  cases opened with
  | false => exact Safe.pure hP.stable h
  | true =>
    refine safe_sys hsem hP.stable h fun w _ synced d h hperform => ?_
    obtain rfl := Disk.plain_cases hperform
    obtain ⟨hG, h⟩ := hP.idle w .fsyncDirectory synced rfl h
    refine ⟨hG, safe_sys hsem hP.stable h fun w _ closed d h hperform => ?_⟩
    obtain rfl := Disk.plain_cases hperform
    obtain ⟨hG, h⟩ := hP.idle w .closeDirectory closed rfl h
    exact ⟨hG, Safe.pure hP.stable h⟩

namespace FileWriter

variable {fd : Nat} {P : File ι → World ι → Prop}

/-- The file is still open, and `text` has been added to it if all went well. -/
def Added (i : ι) (P : File ι → World ι → Prop) (f : File ι) (text : Bytes) (ok : Bool)
    (w : World ι) : Prop :=
  ∃ content, P { f with content } w ∧
    if ok then content = f.content ++ text else faulty (w.log i) = true

theorem stable_added (hsem : OnDisk crypto unlinkFails sem i R) (hP : FileWriter i R G fd P)
    (f : File ι) (text : Bytes) (ok : Bool) : Stable R (Added i P f text ok) := by
  rintro w w' hR ⟨content, hw, hok⟩
  exact ⟨content, (hP.calm _).stable w w' hR hw, by rwa [hsem.log w w' hR]⟩

theorem safe_writeAllFrom (hsem : OnDisk crypto unlinkFails sem i R) (hP : FileWriter i R G fd P)
    (fuel : Nat) :
    ∀ (f : File ι) (text : Bytes) (w : World ι), text.length ≤ fuel → f.isClosed = false →
      P f w → Safe sem i R G (Added i P f text) (writeAllFrom fd fuel text) w := by
  induction fuel with
  | zero =>
    intro f text w hfuel hopen h
    obtain rfl := List.eq_nil_of_length_eq_zero (Nat.le_zero.mp hfuel)
    exact Safe.pure (hP.stable_added hsem f [] true) ⟨f.content, h, by simp⟩
  | succ fuel ih =>
    intro f text w hfuel hopen h
    cases text with
    | nil => exact Safe.pure (hP.stable_added hsem f [] true) ⟨f.content, h, by simp⟩
    | cons b rest =>
      refine safe_sys hsem (hP.calm f).stable h fun w _ a d h hperform => ?_
      rcases Disk.write_cases hperform with ⟨rfl, rfl⟩ | ⟨n, hn, rfl, rfl⟩
      · obtain ⟨hG, h⟩ := (hP.calm f).idle w (.write fd (b :: rest)) none rfl h
        exact ⟨hG, Safe.pure (hP.stable_added hsem f _ false)
          ⟨f.content, h, by simp [World.faulty_record, Call.fault]⟩⟩
      · obtain ⟨hG, h⟩ := hP.alter f w (.write fd (b :: rest)) (some n)
          (fun f => { f with content := f.content ++ (b :: rest).take n }) rfl (fun _ => rfl) hopen h
        refine ⟨hG, ?_⟩
        change Safe sem i R G _ (if n = 0 then _ else _) _
        split
        case isTrue hzero =>
          exact Safe.pure (hP.stable_added hsem f _ false)
            ⟨_, h, by simp [World.faulty_record, Call.fault, hzero]⟩
        case isFalse hpos =>
          have hrest : ((b :: rest).drop n).length ≤ fuel := by
            rw [List.length_drop]
            omega
          refine Safe.mono ?_ (ih { f with content := f.content ++ (b :: rest).take n }
            ((b :: rest).drop n) _ hrest hopen h)
          rintro ok w ⟨content, hw, hok⟩
          refine ⟨content, hw, ?_⟩
          cases ok with
          | false => exact hok
          | true =>
            simp only [if_true] at hok ⊢
            rw [hok, List.append_assoc, List.take_append_drop]

/-- The temporary file is closed, and holds all of `text` if all went well. -/
def Filled (i : ι) (P : File ι → World ι → Prop) (author : Option ι) (text : Bytes) (ok : Bool)
    (w : World ι) : Prop :=
  ∃ f, P f w ∧ if ok then f = ⟨text, true, true, author⟩ else faulty (w.log i) = true

theorem stable_filled (hsem : OnDisk crypto unlinkFails sem i R) (hP : FileWriter i R G fd P)
    (author : Option ι) (text : Bytes) (ok : Bool) : Stable R (Filled i P author text ok) := by
  rintro w w' hR ⟨f, hw, hok⟩
  exact ⟨f, (hP.calm f).stable w w' hR hw, by rwa [hsem.log w w' hR]⟩

/-- Up to its `fsync` the file stays open. -/
theorem safe_writeSynced (hsem : OnDisk crypto unlinkFails sem i R) (hP : FileWriter i R G fd P)
    {author : Option ι} {text : Bytes} (h : P ⟨[], true, false, author⟩ w) :
    Safe sem i R G (Added i P ⟨[], true, false, author⟩ text) (writeSynced fd text) w := by
  refine safe_sys hsem (hP.calm _).stable h fun w _ a d h hperform => ?_
  rcases Disk.fchmod_cases hperform with ⟨rfl, rfl⟩ | ⟨rfl, rfl⟩
  · obtain ⟨hG, h⟩ := hP.alter _ w (.fchmod fd) true (fun f => { f with isPrivate := true })
      rfl (fun _ => rfl) rfl h
    refine ⟨hG, Safe.bind hsem.refl (Safe.mono ?_
      (hP.safe_writeAllFrom hsem text.length _ text _ (Nat.le_refl _) rfl h))⟩
    intro ok w hadded
    cases ok with
    | false => exact Safe.pure (hP.stable_added hsem _ _ false) hadded
    | true =>
      change Safe sem i R G _ (sys (.fsync fd) >>= pure) w
      refine safe_sys hsem (hP.stable_added hsem _ text true) hadded
        fun w _ synced d hadded hperform => ?_
      obtain rfl := Disk.plain_cases hperform
      obtain ⟨content, hw, hok⟩ := hadded
      obtain ⟨hG, h⟩ := (hP.calm _).idle w (.fsync fd) synced rfl hw
      refine ⟨hG, Safe.pure (hP.stable_added hsem _ _ synced) ⟨content, h, ?_⟩⟩
      cases synced with
      | false => simp [World.faulty_record, Call.fault]
      | true => exact hok
  · obtain ⟨hG, h⟩ := (hP.calm _).idle w (.fchmod fd) false rfl h
    exact ⟨hG, Safe.pure (hP.stable_added hsem _ _ false)
      ⟨[], h, by simp [World.faulty_record, Call.fault]⟩⟩

/-- The `close` at the end comes whether or not all went well. -/
theorem safe_fillTemp (hsem : OnDisk crypto unlinkFails sem i R) (hP : FileWriter i R G fd P)
    {author : Option ι} {text : Bytes} (h : P ⟨[], true, false, author⟩ w) :
    Safe sem i R G (Filled i P author text) (fillTemp fd text) w := by
  refine Safe.bind hsem.refl (Safe.mono ?_ (hP.safe_writeSynced hsem h))
  intro written w hadded
  refine safe_sys hsem (hP.stable_added hsem _ text written) hadded
    fun w _ closed d hadded hperform => ?_
  obtain rfl := Disk.close_cases hperform
  obtain ⟨content, hw, hok⟩ := hadded
  obtain ⟨hG, h⟩ := hP.alter _ w (.close fd) closed (fun f => { f with isClosed := true })
    rfl (fun _ => rfl) rfl hw
  refine ⟨hG, Safe.pure (hP.stable_filled hsem _ _ _) ⟨_, h, ?_⟩⟩
  cases written with
  | false => simp [World.faulty_record, show faulty (w.log i) = true from hok]
  | true =>
    cases closed with
    | false => simp [World.faulty_record, Call.fault]
    | true => simp [show content = text from hok]

end FileWriter

end

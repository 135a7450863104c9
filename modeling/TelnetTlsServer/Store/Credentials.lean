-- SUMMARY: The credentials of an account survive every run of verifications, as long as no temporary name is taken twice.
import TelnetTlsServer.Store.Replacement

/-!
# Credentials

What a player can do with a password after the account was created, whatever
other sessions verify at the same time. That temporary names are unclaimed is
needed: a run is given in which they are not, and the record is lost.
-/

open Interleaving

variable {ι : Type} [DecidableEq ι]

/-! ## Whole calls -/

/-- What a call may answer where the accounts are `before` at its start and `now` at its end.
`faulted` says that a system call has failed in it. -/
inductive AccountCall.Right (before now : Set Account) (faulted : Prop) : AccountCall → Int → Prop
    where
  | known {name : Bytes} {account : Account} (hthere : account ∈ now)
      (hleaf : account.leaf = playerLeaf name) : Right before now faulted (.probe name) 1
  | unknown {name : Bytes} (hnone : ∀ account ∈ before, account.leaf ≠ playerLeaf name) :
      Right before now faulted (.probe name) 0
  | verified {name : Bytes} {account : Account} (hthere : account ∈ now)
      (hleaf : account.leaf = playerLeaf name) :
      Right before now faulted (.verify name account.password) 1
  | denied {name password : Bytes} {account : Account} (hthere : account ∈ now)
      (hleaf : account.leaf = playerLeaf name) (hwrong : password ≠ account.password) :
      Right before now faulted (.verify name password) 0
  | nobody {name password : Bytes} (hnone : ∀ account ∈ before, account.leaf ≠ playerLeaf name) :
      Right before now faulted (.verify name password) (-1)
  | tooLong {name password : Bytes} (hlong : playerPasswordMax < password.length) :
      Right before now faulted (.verify name password) (-1)
  | invalid {call : AccountCall} (hname : playerStoreNameValid call.name = false) :
      Right before now faulted call (-1)
  | failed {call : AccountCall} (hfaulted : faulted) : Right before now faulted call (-1)

/-- An answer stays right, from earlier accounts to later ones. -/
theorem AccountCall.Right.mono {before before' now now' : Set Account} {faulted faulted' : Prop}
    {call : AccountCall} {r : Int} (h : call.Right before now faulted r)
    (hbefore : before' ⊆ before) (hnow : now ⊆ now') (hfaulted : faulted → faulted') :
    call.Right before' now' faulted' r := by
  cases h with
  | known hthere hleaf => exact .known (hnow hthere) hleaf
  | unknown hnone => exact .unknown fun account h => hnone account (hbefore h)
  | verified hthere hleaf => exact .verified (hnow hthere) hleaf
  | denied hthere hleaf hwrong => exact .denied (hnow hthere) hleaf hwrong
  | nobody hnone => exact .nobody fun account h => hnone account (hbefore h)
  | tooLong hlong => exact .tooLong hlong
  | invalid hname => exact .invalid hname
  | failed h => exact .failed (hfaulted h)

/-- Only the password of an account is verified. -/
theorem AccountCall.Right.verify_one {before now : Set Account} {faulted : Prop}
    {name password : Bytes} (h : (AccountCall.verify name password).Right before now faulted 1) :
    ∃ account ∈ now, account.leaf = playerLeaf name ∧ account.password = password := by
  cases h with
  | verified hthere hleaf => exact ⟨_, hthere, hleaf, rfl⟩

namespace Verification

variable {crypto : Crypto} {leaves : Set Bytes} {new before : Set Account} {i : ι} {w : World ι}
  {sem : Sem ι (World ι) Call Call.Answer} {directory : Bytes}

/-- What a call leaves and returns. -/
structure Answered (crypto : Crypto) (leaves : Set Bytes) (i : ι) (before : Set Account)
    (call : AccountCall) (r : Int × Bool) (w : World ι) : Prop where
  resting : Resting crypto leaves i before Unnoted w
  right : call.Right before (w.disk.accounts crypto leaves) (Noted loadFault (w.log i)) r.1
  rehashed : r.2 = true → Noted (replacement (playerLeaf call.name)) (w.log i)

theorem stable_answered (call : AccountCall) (r : Int × Bool) :
    Stable (Rely crypto leaves i) (Answered crypto leaves i before call r) := by
  intro w w' hR h
  refine ⟨stable_keeping _ _ hR h.resting, ?_, ?_⟩
  · rw [hR.log]
    exact h.right.mono subset_rfl (hR.sound h.resting.sound).2 id
  · rw [hR.log]
    exact h.rehashed

/-- An answer that reports no new hash. -/
theorem safe_answer {call : AccountCall} {r : Int} (h : Resting crypto leaves i before Unnoted w)
    (hright : call.Right before (w.disk.accounts crypto leaves) (Noted loadFault (w.log i)) r) :
    Behaves sem crypto leaves new i (Answered crypto leaves i before call) (pure (r, false)) w :=
  Safe.pure (stable_answered call _) ⟨h, hright, (absurd · Bool.false_ne_true)⟩

/-- The path of the record of `name`, where `name` is one, is a leaf that is looked at. -/
def Locates (leaves : Set Bytes) (directory name : Bytes) : Prop :=
  playerStoreNameValid name = true →
    buildPlayerPath directory name = some (playerLeaf name) ∧ playerLeaf name ∈ leaves

theorem loadRecord_invalid {name : Bytes} (h : playerStoreNameValid name = false) :
    loadRecord directory name = pure .failed := by
  rw [loadRecord, buildPlayerPath, h]
  rfl

variable (hsem : Careful crypto sem)

include hsem

theorem safe_playerStoreVerifyPassword (hleaves : leaves ⊆ recordLeaves) {name password : Bytes}
    (hname : Locates leaves directory name) (h : Resting crypto leaves i before Unnoted w) :
    Behaves sem crypto leaves new i (Answered crypto leaves i before (.verify name password))
      (playerStoreVerifyPassword crypto directory name password) w := by
  unfold playerStoreVerifyPassword
  split
  case isTrue hlong => exact safe_answer h (.tooLong hlong)
  case isFalse =>
  cases hvalid : playerStoreNameValid name with
  | false =>
    rw [loadRecord_invalid hvalid]
    exact safe_answer h (.invalid hvalid)
  | true =>
  obtain ⟨hpath, hleaf⟩ := hname hvalid
  refine Safe.bind rely_refl (Safe.mono ?_ (safe_loadRecord hsem hpath hleaf h))
  intro loaded w hloads
  have hresting := hloads.resting
  cases hloads with
  | absent hnone h => exact safe_answer h (.nobody hnone)
  | failed h => exact safe_answer hresting (.failed h.note)
  | @record account hash hown hhash h =>
    have hthere : ∀ {w : World ι}, Resting crypto leaves i (insert account before) Unnoted w →
        account ∈ w.disk.accounts crypto leaves := fun h => h.grown (Set.mem_insert _ _)
    have hverify : crypto.verify hash password = decide (account.password = password) := by
      simp [Crypto.verify, hhash]
    change Safe _ _ _ _ _ (if (!crypto.verify hash password) = true then _ else _) w
    rw [hverify]
    split
    case isTrue hwrong =>
      have hne : account.password ≠ password := by simpa using hwrong
      exact safe_answer hresting (.denied (hthere h) hown hne.symm)
    case isFalse hright =>
    obtain rfl : account.password = password := by simpa using hright
    have hverified : ∀ {w : World ι}, Resting crypto leaves i (insert account before) Unnoted w →
        Behaves sem crypto leaves new i
          (Answered crypto leaves i before (.verify name account.password)) (pure (1, false)) w :=
      fun h => safe_answer (h.mono (Set.subset_insert _ _)) (.verified (hthere h) hown)
    refine safe_sys hsem.onDisk stable_keeping h fun w _ needed d h hperform => ?_
    obtain rfl := Disk.plain_cases hperform
    obtain ⟨hG, h⟩ := calm_unnoted.idle w (.needsRehash hash) needed rfl h
    refine ⟨hG, ?_⟩
    cases needed with
    | false => exact hverified h
    | true =>
      refine safe_sys hsem.onDisk stable_keeping h fun w _ updated d h hperform => ?_
      obtain ⟨rfl, hcases⟩ := Disk.pwhash_cases hperform
      obtain ⟨hG, h⟩ := calm_unnoted.idle w (.pwhash account.password) updated rfl h
      refine ⟨hG, ?_⟩
      rcases hcases with rfl | ⟨updatedHash, hupdated, rfl⟩
      · exact hverified h
      · refine Safe.bind rely_refl (Safe.mono ?_
          (safe_replaceRecordAtomic hsem hleaves hupdated (Set.mem_insert _ _) h))
        intro replaced w h
        refine Safe.pure (stable_answered _ _) ⟨h.resting.mono (Set.subset_insert _ _),
          .verified (hthere h.resting) hown, fun hzero => ?_⟩
        exact hown ▸ h.renamed (of_decide_eq_true hzero)

theorem safe_playerStoreExists {name : Bytes} (hname : Locates leaves directory name)
    (h : Resting crypto leaves i before Unnoted w) :
    Behaves sem crypto leaves new i
      (fun r => Answered crypto leaves i before (.probe name) (r, false))
      (playerStoreExists directory name) w := by
  have hanswer : ∀ {w : World ι} {r : Int}, Resting crypto leaves i before Unnoted w →
      AccountCall.Right before (w.disk.accounts crypto leaves) (Noted loadFault (w.log i))
        (.probe name) r →
      Behaves sem crypto leaves new i
        (fun r => Answered crypto leaves i before (.probe name) (r, false)) (pure r) w :=
    fun h hright => Safe.pure (stable_answered _ _) ⟨h, hright, (absurd · Bool.false_ne_true)⟩
  unfold playerStoreExists
  cases hvalid : playerStoreNameValid name with
  | false =>
    rw [loadRecord_invalid hvalid]
    exact hanswer h (.invalid hvalid)
  | true =>
  obtain ⟨hpath, hleaf⟩ := hname hvalid
  refine Safe.bind rely_refl (Safe.mono ?_ (safe_loadRecord hsem hpath hleaf h))
  intro loaded w hloads
  have hresting := hloads.resting
  cases hloads with
  | record hown _ h => exact hanswer hresting (.known (h.grown (Set.mem_insert _ _)) hown)
  | absent hnone h => exact hanswer h (.unknown hnone)
  | failed h => exact hanswer hresting (.failed h.note)

theorem safe_prog (hleaves : leaves ⊆ recordLeaves) {call : AccountCall}
    (hname : Locates leaves directory call.name) (h : Resting crypto leaves i before Unnoted w) :
    Behaves sem crypto leaves new i (Answered crypto leaves i before call)
      (call.prog crypto directory) w := by
  cases call with
  | verify name password => exact safe_playerStoreVerifyPassword hsem hleaves hname h
  | probe name =>
    exact Safe.bind rely_refl (Safe.mono (fun _ _ h => Safe.pure (stable_answered _ _) h)
      (safe_playerStoreExists hsem hname h))

end Verification

/-! ## Many calls -/

namespace Verification

variable {κ : Type} [DecidableEq κ] {crypto : Crypto} {directory : Bytes}
  {requests : κ → CreateRequest} {d : Disk Empty} {created : Pool κ (World κ) Call Call.Answer Int}
  {c : κ} {password : Bytes} {calls : ι → AccountCall}
  {p : Pool ι (World ι) Call Call.Answer (Int × Bool)}

theorem careful_unclaimed : Careful (ι := ι) crypto (unclaimed crypto) := fun _ _ _ _ _ h => h

omit [DecidableEq ι] in
/-- A call of `player_store_create` that returned 0 has left its account. -/
theorem sound_created (hcreated : (createSystem crypto directory requests d).Reachable created)
    (hc : created.threads c = .ret 0)
    (htoken : crypto.passwordOf (requests c).prepared.string = some password) :
    Sound crypto {(requests c).leaf} (World.start (created.shared.disk.found : Disk ι)) ∧
      ⟨(requests c).name, password⟩ ∈
        (created.shared.disk.found : Disk ι).accounts crypto {(requests c).leaf} := by
  obtain ⟨hpath, id, hholds⟩ := (Creation.created hcreated hc).record rfl
  have hentry : created.shared.disk.entry (some c) (playerLeaf (requests c).name) = some id := by
    rw [hholds.entry, if_pos List.mem_cons_self]
  have hfile := (Disk.file_eq_some.mp hholds.file).1
  have hthere : ⟨(requests c).name, password⟩ ∈
      (created.shared.disk.found : Disk ι).accounts crypto {(requests c).leaf} := by
    refine ⟨rfl, id, ⟨(requests c).text, true, true, none⟩, (requests c).prepared.string,
      (Disk.entry_eq_some.mp hentry).1, ?_, rfl, htoken, (buildPlayerPath_eq_some hpath).1, rfl,
      rfl⟩
    simp only [Disk.found, hfile]
    rfl
  exact ⟨sound_start fun leaf hleaf _ => ⟨_, hthere, hleaf.symm⟩, hthere⟩

theorem safe_calls (hcreated : (createSystem crypto directory requests d).Reachable created)
    (hc : created.threads c = .ret 0)
    (htoken : crypto.passwordOf (requests c).prepared.string = some password)
    (hnames : ∀ i, asciiEqualIgnoreCase (requests c).name (calls i).name = true) (i : ι) :
    Behaves (unclaimed crypto) crypto {(requests c).leaf} ∅ i
      (Answered crypto {(requests c).leaf} i {⟨(requests c).name, password⟩} (calls i))
      ((calls i).prog crypto directory) (World.start created.shared.disk.found) := by
  obtain ⟨hpath, -⟩ := (Creation.created hcreated hc).record rfl
  have hleaf : playerLeaf (requests c).name = playerLeaf (calls i).name :=
    playerLeaf_eq_iff.mpr (hnames i)
  obtain ⟨hsound, hthere⟩ := sound_created hcreated hc htoken (ι := ι)
  refine safe_prog careful_unclaimed ?_ (fun _ => ⟨?_, hleaf.symm⟩)
    ⟨hsound, Set.singleton_subset_iff.mpr hthere, rfl, trivial⟩
  · rintro _ rfl
    exact ⟨_, (buildPlayerPath_eq_some hpath).1, rfl⟩
  · -- the path of the account does not depend on the case of its name
    rwa [buildPlayerPath_congr (hnames i), hleaf] at hpath

omit [DecidableEq ι] in
/-- The answer of a verification that could read the record. -/
theorem Answered.result {account : Account} {i : ι} {w : World ι} {name attempt : Bytes}
    {r : Int × Bool} {leaves : Set Bytes}
    (h : Answered crypto leaves i {account} (.verify name attempt) r w)
    (hname : playerLeaf name = account.leaf) (hshort : attempt.length ≤ playerPasswordMax)
    (hfault : ¬ Noted loadFault (w.log i)) :
    r.1 = if attempt = account.password then 1 else 0 := by
  have hthere := h.resting.grown rfl
  have hvalid : playerStoreNameValid name = true := by
    rw [playerStoreNameValid_congr (playerLeaf_eq_iff.mp hname)]
    exact Disk.valid_of_mem hthere
  generalize hr : r.1 = answer
  have hright := h.right
  rw [hr] at hright
  cases hright with
  | verified hother hleaf =>
    obtain rfl := Disk.accounts_unique hother hthere (hleaf.trans hname)
    exact (if_pos rfl).symm
  | denied hother hleaf hwrong =>
    obtain rfl := Disk.accounts_unique hother hthere (hleaf.trans hname)
    exact (if_neg hwrong).symm
  | nobody hnone => exact absurd hname.symm (hnone account rfl)
  | tooLong hlong => omega
  | invalid hinvalid =>
    rw [show playerStoreNameValid (AccountCall.verify name attempt).name = _ from hvalid]
      at hinvalid
    cases hinvalid
  | failed h => exact absurd h hfault

end Verification

/-- The credentials of an account are stable, as long as no temporary name is given
to a call while another still goes by it. After the creation of an account its leaf
always holds a complete record with the name it was created with and a hash of its
password. A verification for which opening the record, its `fstat`, its lines and
its stream do not fail returns 1 for that password and 0 for any other, and a call
reports a new hash only after a rename onto the leaf. -/
theorem credentials_stable {κ : Type} [DecidableEq κ] (crypto : Crypto) (directory : Bytes)
    (requests : κ → CreateRequest) (d : Disk Empty)
    {created : Pool κ (World κ) Call Call.Answer Int}
    (hcreated : (createSystem crypto directory requests d).Reachable created) {c : κ}
    (hc : created.threads c = .ret 0) {password : Bytes}
    (htoken : crypto.passwordOf (requests c).prepared.string = some password)
    (calls : ι → AccountCall)
    (hnames : ∀ i, asciiEqualIgnoreCase (requests c).name (calls i).name = true)
    {p : Pool ι (World ι) Call Call.Answer (Int × Bool)}
    (hp : (unclaimedSystem crypto directory calls created.shared.disk).Reachable p) :
    (∃ hash, crypto.passwordOf hash = some password ∧
      p.shared.disk.contentAt (requests c).leaf = some (recordText (requests c).name hash)) ∧
    (∀ i name attempt r, calls i = .verify name attempt → p.threads i = .ret r →
      attempt.length ≤ playerPasswordMax → (p.shared.log i).any readFailure = false →
      (p.shared.log i).any streamFailure = false →
      r.1 = if attempt = password then 1 else 0) ∧
    (∀ i r, p.threads i = .ret r → r.2 = true →
      (p.shared.log i).any (replacement (requests c).leaf) = true) := by
  have hsafe := Verification.safe_calls hcreated hc htoken hnames
  have hcompatible := Verification.compatible crypto {(requests c).leaf} fun _ : ι => ∅
  refine ⟨?_, ?_, ?_⟩
  · obtain ⟨hsound, hthere⟩ := Verification.sound_created hcreated hc htoken (ι := ι)
    obtain ⟨-, hgrown, -⟩ := Verification.accounts_of_reachable hsound hsafe hp
    obtain ⟨-, id, f, hash, hdir, hfile, hrecord⟩ := hgrown hthere
    have hdir' : p.shared.disk.dir (requests c).leaf = some id := hdir
    exact ⟨hash, hrecord.isHash, by simp [Disk.contentAt, hdir', hfile, hrecord.content]⟩
  · intro i name attempt r hcall hi hlength hread hstream
    have hanswered := Pool.post_of_ret hcompatible hsafe hp hi
    have hname := hnames i
    rw [hcall] at hanswered hname
    refine hanswered.result (playerLeaf_eq_iff.mpr hname).symm hlength fun hnoted => ?_
    obtain ⟨e, he, hfault⟩ := List.any_eq_true.mp hnoted
    rcases Verification.failure_of_loadFault hfault with hfailure | hfailure
    · rw [List.any_eq_true.mpr ⟨e, he, hfailure⟩] at hread
      cases hread
    · rw [List.any_eq_true.mpr ⟨e, he, hfailure⟩] at hstream
      cases hstream
  · intro i r hi hrehashed
    have hanswered := Pool.post_of_ret hcompatible hsafe hp hi
    have hleaf : (requests c).leaf = playerLeaf (calls i).name := playerLeaf_eq_iff.mpr (hnames i)
    rw [hleaf]
    exact hanswered.rehashed hrehashed

/-! Runs of verifications of one account, after a call that creates it. -/

namespace Verification

def creation : List (Unit × Choice) :=
  [((), .temp (ascii "aaaaaa") 0), ((), .succeed), ((), .count 35), ((), .succeed), ((), .succeed),
    ((), .succeed), ((), .succeed), ((), .succeed), ((), .succeed), ((), .succeed)]

def adaCreation : Transition.System (Pool Unit (World Unit) Call Call.Answer Int) Unit :=
  createSystem Crypto.plainText (ascii "/srv") (fun _ => Creation.rivals false) Disk.empty

def adaVerification : AccountCall := .verify (ascii "ADA") (ascii "one")

/-- From the `open` of the record to a new hash. -/
def rehash {ι : Type} (i : ι) : List (ι × Choice) :=
  List.replicate 8 (i, .succeed) ++ [(i, .hash (ascii "one"))]

/-- From `mkstemp` to `close`. -/
def fill {ι : Type} (i : ι) (id : Nat) : List (ι × Choice) :=
  [(i, .temp (ascii "aaaaaa") id), (i, .succeed), (i, .count 35), (i, .succeed), (i, .succeed)]

/-- A call alone finds every name unclaimed. -/
theorem unclaimed_alone (crypto : Crypto) (i : Unit) (call : Call) (w : World Unit)
    (a : call.Answer) (w' : World Unit) (h : semOf (World.run crypto true) i call w a w') :
    unclaimed crypto i call w a w' := by
  refine ⟨h, ?_⟩
  cases call with
  | mkstemp template =>
    cases a with
    | none => trivial
    | some temp => exact fun j hj => absurd rfl hj
  | _ => trivial

/-- A verification that finds its hash outdated and replaces the record. -/
theorem exists_alone :
    ∃ created, adaCreation.Reachable created ∧ created.threads () = .ret 0 ∧
      ∃ p : Pool Unit (World Unit) Call Call.Answer (Int × Bool),
        (unclaimedSystem Crypto.plainText (ascii "/srv") (fun _ => adaVerification)
          created.shared.disk).Reachable p ∧ p.threads () = .ret (1, true) :=
  ⟨_, Pool.reachable_of_replay creation (.init rfl) rfl, rfl, _,
    Pool.reachable_mono (unclaimed_alone _) (Pool.reachable_of_replay
      (rehash () ++ fill () 1 ++ List.replicate 5 ((), .succeed)) (.init rfl) rfl), rfl⟩

end Verification

theorem credentials_stable_alone :
    ∃ created, Verification.adaCreation.Reachable created ∧ created.threads () = .ret 0 ∧
      ∃ p : Pool Unit (World Unit) Call Call.Answer (Int × Bool),
        (unclaimedSystem Crypto.plainText (ascii "/srv") (fun _ => Verification.adaVerification)
          created.shared.disk).Reachable p ∧
        p.threads () = .ret (1, true) ∧
        ∃ hash, Crypto.plainText.passwordOf hash = some (ascii "one") ∧
          p.shared.disk.contentAt (ascii "ada.player") = some (recordText (ascii "ada") hash) := by
  obtain ⟨created, hcreated, hc, p, hp, hret⟩ := Verification.exists_alone
  exact ⟨created, hcreated, hc, p, hp, hret,
    (credentials_stable _ _ _ _ hcreated hc rfl _ (fun _ => rfl) hp).1⟩

/-- Three verifications race for one temporary name. The first has renamed its file
onto the leaf, so that `mkstemp` gives its name to the second. The first then removes
the file of the second with its last `unlink`, `mkstemp` gives the name to the third,
and the second renames the third's empty file onto the leaf. -/
theorem record_lost_to_unlink :
    ∃ created, Verification.adaCreation.Reachable created ∧ created.threads () = .ret 0 ∧
      ∃ p : Pool (Fin 3) (World (Fin 3)) Call Call.Answer (Int × Bool),
        (verifySystem Crypto.plainText (ascii "/srv") (fun _ => Verification.adaVerification)
          created.shared.disk).Reachable p ∧
        p.shared.disk.contentAt (ascii "ada.player") = some [] :=
  ⟨_, Pool.reachable_of_replay Verification.creation (.init rfl) rfl, rfl, _,
    Pool.reachable_of_replay
      (Verification.rehash 0 ++ Verification.fill 0 1 ++ [(0, .succeed)] ++
        Verification.rehash 1 ++ Verification.fill 1 2 ++ List.replicate 4 (0, .succeed) ++
        Verification.rehash 2 ++ [(2, .temp (ascii "aaaaaa") 3), (1, .succeed)])
      (.init rfl) rfl, rfl⟩

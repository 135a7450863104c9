-- SUMMARY: The player store as a set of accounts that only grows, whatever calls of it overlap.
import Mathlib.Data.Fintype.Option
import TelnetTlsServer.Store.Credentials

/-!
# The store as a set of accounts

What the store is for: a player has one password, whatever hash of it is on disk and
however the name is spelled. Calls of the store overlap, one system call at a time, and any
system call may fail. Two things are left out. A temporary name is not given to a call while
another still goes by it, as before. And the directory can be synchronised once a new record
has been linked there: the code would otherwise remove the record again, which others may
have read by then.
-/

open Interleaving

/-! ## Tokens -/

def playerStorePreparePassword (password : Bytes) (prepared : Buffer 256) :
    StoreProg (Int × Buffer 256) :=
  if password.length < playerPasswordMin || password.length > playerPasswordMax then
    pure (-1, prepared)
  else do
    match ← sys (.pwhash password) with
    | none => pure (-1, Buffer.zero 256)
    | some hash => pure (0, (Buffer.zero 256).copyString hash)

def playerStorePasswordMatches (crypto : Crypto) (prepared : Buffer 256) (password : Bytes) :
    Int :=
  if password.length > playerPasswordMax then -1
  else if prepared.string = [] || !prepared.bytes.contains 0 then -1
  else if crypto.verify prepared.string password then 1
  else 0

/-! ## Calls -/

/-- A call of the store with its arguments. -/
inductive StoreCall where
  | account (call : AccountCall)
  | create (request : CreateRequest)

namespace StoreCall

def prog (crypto : Crypto) (directory : Bytes) : StoreCall → StoreProg Int
  | account call => do
      let (answer, _) ← call.prog crypto directory
      pure answer
  | create request => playerStoreCreate directory request.name request.prepared

/-- A token that holds a hash of `password`. -/
structure Token (crypto : Crypto) (password : Bytes) (prepared : Buffer 256) : Prop where
  isHash : crypto.passwordOf prepared.string = some password
  filled : prepared.string ≠ []
  ended : 0 ∈ prepared.bytes

/-- Accounts are created with tokens that were prepared. -/
def Ready (crypto : Crypto) : StoreCall → Prop
  | account _ => True
  | create request => ∃ password, Token crypto password request.prepared

/-- The account a call is to create. -/
def created (crypto : Crypto) : StoreCall → Set Account
  | account _ => ∅
  | create request => {account | account.name = request.name ∧
      crypto.passwordOf request.prepared.string = some account.password}

/-- What a call may answer where the accounts are `before` at its start and `now` at its
end. `faulted` says that a system call has failed in it. -/
inductive Right (crypto : Crypto) (before now : Set Account) (faulted : Prop) :
    StoreCall → Int → Prop where
  | account {call : AccountCall} {r : Int} (h : call.Right before now faulted r) :
      Right crypto before now faulted (.account call) r
  | created {request : CreateRequest} {account : Account}
      (hown : account ∈ (StoreCall.create request).created crypto) (hthere : account ∈ now)
      (hnew : ∀ other ∈ before, other.leaf ≠ account.leaf) :
      Right crypto before now faulted (.create request) 0
  | taken {request : CreateRequest} {other : Account} (hthere : other ∈ now)
      (hleaf : other.leaf = request.leaf) : Right crypto before now faulted (.create request) 1
  | invalid {request : CreateRequest} (hname : playerStoreNameValid request.name = false) :
      Right crypto before now faulted (.create request) (-1)
  | failed {request : CreateRequest} (hfaulted : faulted) :
      Right crypto before now faulted (.create request) (-1)

/-- Only the account of a call is created by it. -/
theorem Right.create_zero {crypto : Crypto} {before now : Set Account} {faulted : Prop}
    {request : CreateRequest} (h : (create request).Right crypto before now faulted 0) :
    ∃ account ∈ (create request).created crypto, account ∈ now ∧
      ∀ other ∈ before, other.leaf ≠ account.leaf := by
  cases h with
  | created hown hthere hnew => exact ⟨_, hown, hthere, hnew⟩

/-- An answer stays right, from earlier accounts to later ones. -/
theorem Right.mono {crypto : Crypto} {before before' now now' : Set Account}
    {faulted faulted' : Prop} {call : StoreCall} {r : Int}
    (h : call.Right crypto before now faulted r) (hbefore : before' ⊆ before) (hnow : now ⊆ now')
    (hfaulted : faulted → faulted') : call.Right crypto before' now' faulted' r := by
  cases h with
  | account h => exact .account (h.mono hbefore hnow hfaulted)
  | created hown hthere hnew =>
    exact .created hown (hnow hthere) fun other h => hnew other (hbefore h)
  | taken hthere hleaf => exact .taken (hnow hthere) hleaf
  | invalid hname => exact .invalid hname
  | failed h => exact .failed (hfaulted h)

end StoreCall

/-- The paths of the store's files fit their buffers. -/
def Roomy (directory : Bytes) : Prop := directory.length + 1 + 22 < pathMax

theorem Roomy.path {directory name : Bytes} (h : Roomy directory)
    (hvalid : playerStoreNameValid name = true) :
    buildPlayerPath directory name = some (playerLeaf name) := by
  have hmax := (playerStoreNameValid_iff.mp hvalid).2.1
  have hlength : (playerLeaf name).length = name.length + 7 := by
    simp [playerLeaf, playerFileSuffix, ascii]
  have hfits : pathFits directory (playerLeaf name) = true := by
    unfold Roomy at h
    simp only [playerNameMax] at hmax
    simp only [pathFits, decide_eq_true_eq]
    omega
  simp [buildPlayerPath, hvalid, hfits]

theorem Roomy.template {directory : Bytes} (h : Roomy directory) :
    pathFits directory (writeTemplate ++ ascii "XXXXXX") = true := by
  unfold Roomy at h
  simp [pathFits, ascii, writeTemplate]
  omega

/-! ## The system -/

/-- Whether the file that a caller has created last has been linked. -/
def linkStep (linked : Bool) : (Σ call : Call, call.Answer) → Bool
  | ⟨.mkstemp _, some _⟩ => false
  | ⟨.link _ _, answer⟩ => linked || answer = .linked
  | _ => linked

def hasLinked (log : List (Σ call : Call, call.Answer)) : Bool := log.foldl linkStep false

variable {ι : Type} [DecidableEq ι]

/-- The directory has not failed to synchronise after a link. -/
def World.Kept (w : World ι) (i : ι) : (call : Call) → call.Answer → Prop
  | .openDirectory, false => hasLinked (w.log i) = false
  | .fsyncDirectory, false => hasLinked (w.log i) = false
  | _, _ => True

/-- Calls after which no record is withdrawn, and no temporary name taken twice. -/
def steadfast (crypto : Crypto) : Sem ι (World ι) Call Call.Answer :=
  fun i call w a w' => unclaimed crypto i call w a w' ∧ w.Kept i call a

/-- A link to `leaf` that succeeded. -/
def linkTo (leaf : Bytes) : (Σ call : Call, call.Answer) → Bool
  | ⟨.link _ new, answer⟩ => new = leaf && answer = .linked
  | _ => false

/-! ## A new account -/

namespace Verification

variable {crypto : Crypto} {leaves : Set Bytes} {new before : Set Account} {account : Account}
  {i : ι} {w : World ι} {id : Nat} {hash temp directory : Bytes}

theorem careful_steadfast : Careful (ι := ι) crypto (steadfast crypto) :=
  fun _ _ _ _ _ h => h.1

/-- The record has been linked, which the log says. -/
def Published (leaf : Bytes) (log : List (Σ call : Call, call.Answer)) : Prop :=
  hasLinked log = true ∧ Noted (linkTo leaf) log

theorem hasLinked_concat (log : List (Σ call : Call, call.Answer)) (e : Σ call : Call, call.Answer) :
    hasLinked (log ++ [e]) = linkStep (hasLinked log) e := by
  simp [hasLinked, List.foldl_append]

theorem lasting_published (leaf : Bytes) : Lasting (Published leaf) := by
  rintro log call a hquiet ⟨hlinked, hnoted⟩
  refine ⟨?_, hnoted.concat _⟩
  rw [hasLinked_concat, hlinked]
  cases call with
  | mkstemp template =>
    cases a with
    | none => rfl
    | some temp => cases hquiet
  | _ => rfl

/-- Some call has failed, which the log says. -/
def Faulted (log : List (Σ call : Call, call.Answer)) : Prop := faulty log = true

/-- The end of a creation, in a `state` that knows of some accounts and of a log. -/
inductive Outcome (account : Account) (before : Set Account)
    (state : Set Account → (List (Σ call : Call, call.Answer) → Prop) → Prop) : Int → Prop where
  | created (hnew : ∀ other ∈ before, other.leaf ≠ account.leaf)
      (h : state (insert account before) (Published account.leaf)) :
      Outcome account before state 0
  | taken {other : Account} (hleaf : other.leaf = account.leaf)
      (h : state (insert other before) Unnoted) : Outcome account before state 1
  | failed (h : state before Faulted) : Outcome account before state (-1)

theorem Outcome.mono {state state' : Set Account → (List (Σ call : Call, call.Answer) → Prop) → Prop}
    {r : Int} (hstate : ∀ known note, state known note → state' known note)
    (h : Outcome account before state r) : Outcome account before state' r := by
  cases h with
  | created hnew h => exact .created hnew (hstate _ _ h)
  | taken hleaf h => exact .taken hleaf (hstate _ _ h)
  | failed h => exact .failed (hstate _ _ h)

/-- Publishing a complete record of a new account. -/
theorem Writing.link (hleaf : account.leaf ∈ leaves)
    (hvalid : playerStoreNameValid account.name = true)
    (hhash : crypto.passwordOf hash = some account.password) (hown : account ∈ new)
    (h : Writing crypto leaves i before temp Unnoted id
      ⟨recordText account.name hash, true, true, some i⟩ w)
    (hfree : w.disk.dir account.leaf = none) :
    Guarantee crypto leaves new i w
        (w.record i (.link temp account.leaf) .linked (w.disk.link temp account.leaf)) ∧
      Holding crypto leaves i (insert account before) temp (Published account.leaf)
        (w.record i (.link temp account.leaf) .linked (w.disk.link temp account.leaf)) := by
  have hsound := h.holding.sound
  have hdir : ∀ name, name ∉ ({account.leaf} : Set Bytes) →
      (w.disk.link temp account.leaf).dir name = w.disk.dir name :=
    fun name hname => Function.update_of_ne hname _ _
  have hthere : account ∈ (w.disk.link temp account.leaf).accounts crypto leaves := by
    refine mem_accounts_of_file hleaf hvalid hhash ?_ (Disk.file_eq_some.mp h.file).1
    exact (Function.update_self ..).trans h.entry
  have hputs : Disk.Puts crypto leaves account w.disk (w.disk.link temp account.leaf) := by
    refine ⟨hthere, fun other hother hsame => ?_, fun leaf _ hne => hdir leaf hne, rfl⟩
    obtain ⟨-, id', -, -, hdir', -⟩ := hother
    rw [hsame, hfree] at hdir'
    cases hdir'
  have hgrown : w.disk.accounts crypto leaves ⊆
      (w.disk.link temp account.leaf).accounts crypto leaves :=
    fun other hother => hputs.mem_accounts.mpr (.inr hother)
  refine ⟨guarantee_names {account.leaf} (fun hs => ⟨hs.quiet _ rfl (hputs.recorded hs.recorded),
    hgrown, fun other hother => ?_⟩) rfl hdir ?_, ?_⟩
  · exact (hputs.mem_accounts.mp hother).elim (fun heq => .inr (heq ▸ hown)) .inl
  · rintro j name hj hheld rfl
    exact hsound.apart j _ hheld hleaf
  · have hnote : Published account.leaf
        (w.log i ++ [⟨.link temp account.leaf, LinkAnswer.linked⟩]) :=
      ⟨by simp [hasLinked_concat, linkStep], noted_concat (by simp [linkTo])⟩
    have hholding := h.holding.record _ rfl (hputs.recorded hsound.recorded) hgrown hnote
    exact hholding.insert hthere

/-- After a link the directory is synchronised. -/
theorem safe_syncPublished {leaf : Bytes}
    (h : Holding crypto leaves i before temp (Published leaf) w) :
    Behaves (steadfast crypto) crypto leaves new i
      (fun synced w => synced = true ∧ Holding crypto leaves i before temp (Published leaf) w)
      syncDirectory w := by
  have hcalm : Calm i (Rely crypto leaves i) (Guarantee crypto leaves new i)
      (Holding crypto leaves i before temp (Published leaf)) :=
    calm_keeping (lasting_published leaf)
  refine Safe.perform stable_keeping h fun w opened w' h hcall => ?_
  obtain ⟨choice, d, hperform, rfl⟩ := World.exists_perform hcall.1.1
  obtain rfl := Disk.plain_cases hperform
  obtain ⟨hG, hholding⟩ := hcalm.idle w .openDirectory opened rfl h
  refine ⟨hG, ?_⟩
  cases opened with
  | false => exact absurd (hcall.2.symm.trans h.note.1) (by decide)
  | true =>
    refine Safe.perform stable_keeping hholding fun w synced w' h hcall => ?_
    obtain ⟨choice, d, hperform, rfl⟩ := World.exists_perform hcall.1.1
    obtain rfl := Disk.plain_cases hperform
    obtain ⟨hG, hholding⟩ := hcalm.idle w .fsyncDirectory synced rfl h
    refine ⟨hG, ?_⟩
    cases synced with
    | false => exact absurd (hcall.2.symm.trans h.note.1) (by decide)
    | true =>
      refine safe_sys careful_steadfast.onDisk stable_keeping hholding fun w _ a d h hperform => ?_
      obtain rfl := Disk.plain_cases hperform
      obtain ⟨hG, h⟩ := hcalm.idle w .closeDirectory a rfl h
      exact ⟨hG, Safe.pure (fun w w' hR h => ⟨h.1, stable_keeping w w' hR h.2⟩) ⟨rfl, h⟩⟩

/-- Where `link_record` leaves its caller. What was linked stays. -/
def Linked (crypto : Crypto) (leaves : Set Bytes) (i : ι) (before : Set Account) (temp : Bytes)
    (account : Account) (outcome : Int × Bool) (w : World ι) : Prop :=
  (outcome.1 ≠ 0 && outcome.2) = false ∧
    Outcome account before (fun known note => Holding crypto leaves i known temp note w) outcome.1

theorem stable_linked (outcome : Int × Bool) :
    Stable (Rely crypto leaves i) (Linked crypto leaves i before temp account outcome) :=
  fun _ _ hR h => ⟨h.1, h.2.mono fun _ _ => stable_keeping _ _ hR⟩

theorem safe_linkRecord (hleaf : account.leaf ∈ leaves)
    (hvalid : playerStoreNameValid account.name = true)
    (hhash : crypto.passwordOf hash = some account.password) (hown : account ∈ new)
    (h : Writing crypto leaves i before temp Unnoted id ⟨[], true, false, some i⟩ w) :
    Behaves (steadfast crypto) crypto leaves new i (Linked crypto leaves i before temp account)
      (linkRecord id temp account.leaf (recordText account.name hash)) w := by
  have hwriter : FileWriter i (Rely crypto leaves i) (Guarantee crypto leaves new i) id
      (Writing crypto leaves i before temp Unnoted id) := writer_writing lasting_unnoted
  refine Safe.bind rely_refl (Safe.mono ?_ (hwriter.safe_fillTemp careful_steadfast.onDisk h))
  rintro ok w ⟨f, h, hok⟩
  cases ok with
  | false =>
    exact Safe.pure (stable_linked _) ⟨rfl, .failed (h.holding.noting hok)⟩
  | true =>
    obtain rfl : f = _ := hok
    refine safe_sys careful_steadfast.onDisk (hwriter.calm _).stable h
      fun w _ answer d h hperform => ?_
    rcases Disk.link_cases hperform with ⟨rfl, hfree, rfl, -⟩ | ⟨hne, rfl, htaken⟩
    · obtain ⟨hG, hholding⟩ := h.link hleaf hvalid hhash hown hfree
      refine ⟨hG, Safe.bind rely_refl (Safe.mono ?_ (safe_syncPublished hholding))⟩
      rintro synced w' ⟨rfl, hholding⟩
      refine Safe.pure (stable_linked _) ⟨rfl, .created (fun other hother hsame => ?_) hholding⟩
      obtain ⟨-, id', -, -, hdir, -⟩ := h.holding.grown hother
      rw [hsame, hfree] at hdir
      cases hdir
    · obtain ⟨hG, hwriting⟩ := (hwriter.calm _).idle w (.link temp account.leaf) answer rfl h
      have hholding := hwriting.holding
      refine ⟨hG, ?_⟩
      cases answer with
      | linked => exact absurd rfl hne
      | taken =>
        obtain ⟨other, hother, hsame⟩ :=
          h.holding.sound.recorded account.leaf hleaf (htaken rfl)
        exact Safe.pure (stable_linked _) ⟨rfl, .taken hsame (hholding.insert hother)⟩
      | failed =>
        refine Safe.pure (stable_linked _) ⟨rfl, .failed (hholding.noting ?_)⟩
        simp [Faulted, World.faulty_record, Call.fault]

/-- What a creation answers and leaves. -/
def Created (crypto : Crypto) (leaves : Set Bytes) (i : ι) (before : Set Account)
    (account : Account) (r : Int) (w : World ι) : Prop :=
  Outcome account before (fun known note => Resting crypto leaves i known note w) r

theorem stable_created (r : Int) :
    Stable (Rely crypto leaves i) (Created crypto leaves i before account r) :=
  fun _ _ hR h => h.mono fun _ _ => stable_keeping _ _ hR

theorem safe_publishNew (hleaf : account.leaf ∈ leaves)
    (hvalid : playerStoreNameValid account.name = true)
    (hhash : crypto.passwordOf hash = some account.password) (hown : account ∈ new)
    (h : Writing crypto leaves i before temp Unnoted id ⟨[], true, false, some i⟩ w) :
    Behaves (steadfast crypto) crypto leaves new i (Created crypto leaves i before account)
      (publishNew account.leaf (recordText account.name hash) (temp, id)) w := by
  refine Safe.bind rely_refl (Safe.mono ?_ (safe_linkRecord hleaf hvalid hhash hown h))
  rintro ⟨r, linked⟩ w hlinked
  refine Safe.ite (fun hremoved => absurd (hremoved.symm.trans hlinked.1) (by decide)) fun _ => ?_
  refine safe_sys careful_steadfast.onDisk (stable_linked (r, linked)) hlinked
    fun w _ a d hlinked hperform => ?_
  obtain ⟨-, houtcome : Outcome account before _ r⟩ := hlinked
  cases houtcome with
  | created hnew h =>
    have hnote : Published account.leaf (w.log i ++ [⟨.unlink temp, a⟩]) :=
      ⟨(hasLinked_concat _ _).trans h.note.1, h.note.2.concat _⟩
    obtain ⟨hG, h, -⟩ := h.unlink hperform hnote
    exact ⟨hG, Safe.pure (stable_created 0) (.created hnew h)⟩
  | taken hsame h =>
    obtain ⟨hG, h, -⟩ := h.unlink hperform (show Unnoted _ from trivial)
    exact ⟨hG, Safe.pure (stable_created 1) (.taken hsame h)⟩
  | failed h =>
    have hnote : Faulted (w.log i ++ [⟨.unlink temp, a⟩]) := by
      rw [Faulted, faulty_concat, show faulty (w.log i) = true from h.note]
      rfl
    obtain ⟨hG, h, -⟩ := h.unlink hperform hnote
    exact ⟨hG, Safe.pure (stable_created (-1)) (.failed h)⟩

theorem safe_writeNewRecordAtomic (hroomy : Roomy directory) (hleaves : leaves ⊆ recordLeaves)
    (hleaf : account.leaf ∈ leaves) (hvalid : playerStoreNameValid account.name = true)
    (hhash : crypto.passwordOf hash = some account.password) (hown : account ∈ new)
    (h : Resting crypto leaves i before Unnoted w) :
    Behaves (steadfast crypto) crypto leaves new i (Created crypto leaves i before account)
      (writeNewRecordAtomic directory account.name hash) w := by
  unfold writeNewRecordAtomic
  rw [hroomy.path hvalid, hroomy.template, buildRecordText_fits hvalid (crypto.short _ _ hhash)]
  refine Safe.perform stable_keeping h fun w a w' h hcall => ?_
  obtain ⟨choice, d, hperform, rfl⟩ := World.exists_perform hcall.1.1
  rcases Disk.mkstemp_cases hperform with ⟨rfl, rfl⟩ | ⟨suffix, id, -, hfree, hid, rfl, rfl⟩
  · refine ⟨guarantee_quiet (.mkstemp writeTemplate) none rfl, Safe.pure (stable_created _)
      (.failed (h.quiet (.mkstemp writeTemplate) none rfl ?_))⟩
    simp [Faulted, faulty_concat, Call.fault]
  · obtain ⟨hG, h⟩ := h.mkstemp ⟨[], true, false, some i⟩ rfl (hidden_not_mem hleaves _) hfree hid
      hcall.1.2 (show Unnoted _ from trivial)
    exact ⟨hG, safe_publishNew hleaf hvalid hhash hown h⟩

/-! ## Whole calls -/

/-- What a call of the store answers and leaves. -/
structure Done (crypto : Crypto) (i : ι) (before : Set Account) (call : StoreCall) (r : Int)
    (w : World ι) : Prop where
  resting : Resting crypto recordLeaves i before Unnoted w
  right : call.Right crypto before (w.disk.accounts crypto recordLeaves) (Faulted (w.log i)) r
  linked : ∀ request, call = .create request → r = 0 → Noted (linkTo request.leaf) (w.log i)

theorem stable_done (call : StoreCall) (r : Int) :
    Stable (Rely crypto recordLeaves i) (Done crypto i before call r) := by
  intro w w' hR h
  refine ⟨stable_keeping _ _ hR h.resting, ?_, by rw [hR.log]; exact h.linked⟩
  rw [hR.log]
  exact h.right.mono subset_rfl (hR.sound h.resting.sound).2 id

/-- Where paths fit, those of records are looked at. -/
theorem locates_of_roomy (hroomy : Roomy directory) (name : Bytes) :
    Locates recordLeaves directory name :=
  fun hvalid => ⟨hroomy.path hvalid, name, hvalid, rfl⟩

omit [DecidableEq ι] in
/-- What may keep a call from a record is a failed system call. -/
theorem Answered.right_faulted {call : AccountCall} {r : Int × Bool}
    (h : Answered crypto leaves i before call r w) :
    call.Right before (w.disk.accounts crypto leaves) (Faulted (w.log i)) r.1 := by
  refine h.right.mono subset_rfl subset_rfl fun hnoted => ?_
  obtain ⟨e, he, hfault⟩ := List.any_eq_true.mp hnoted
  exact List.any_eq_true.mpr ⟨e, he, fault_of_loadFault hfault⟩

omit [DecidableEq ι] in
theorem Answered.done {call : AccountCall} {r : Int × Bool}
    (h : Answered crypto recordLeaves i before call r w) :
    Done crypto i before (.account call) r.1 w where
  resting := h.resting
  right := .account h.right_faulted
  linked _ hcall := nomatch hcall

omit [DecidableEq ι] in
theorem Created.done {request : CreateRequest} {password : Bytes} {r : Int}
    (hhash : crypto.passwordOf request.prepared.string = some password)
    (h : Created crypto recordLeaves i before ⟨request.name, password⟩ r w) :
    Done crypto i before (.create request) r w := by
  cases h with
  | created hnew h =>
    exact ⟨(h.mono (Set.subset_insert _ _)).noting trivial,
      .created ⟨rfl, hhash⟩ (h.grown (Set.mem_insert _ _)) hnew,
      fun _ hcall _ => StoreCall.create.inj hcall ▸ h.note.2⟩
  | taken hleaf h =>
    exact ⟨h.mono (Set.subset_insert _ _), .taken (h.grown (Set.mem_insert _ _)) hleaf,
      fun _ _ hr => absurd hr (by decide)⟩
  | failed h =>
    exact ⟨h.noting trivial, .failed h.note, fun _ _ hr => absurd hr (by decide)⟩

theorem safe_playerStoreCreate (hroomy : Roomy directory) {request : CreateRequest}
    {password : Bytes} (htoken : StoreCall.Token crypto password request.prepared)
    (hown : ⟨request.name, password⟩ ∈ new) (h : Resting crypto recordLeaves i before Unnoted w) :
    Behaves (steadfast crypto) crypto recordLeaves new i (Done crypto i before (.create request))
      (playerStoreCreate directory request.name request.prepared) w := by
  unfold playerStoreCreate
  cases hvalid : playerStoreNameValid request.name with
  | false =>
    exact Safe.pure (stable_done _ _) ⟨h, .invalid hvalid, fun _ _ hr => absurd hr (by decide)⟩
  | true =>
    have hshort := crypto.short _ _ htoken.isHash
    rw [if_neg (by simp), if_neg (by simp [htoken.filled, htoken.ended, hshort])]
    have hnew : Behaves (steadfast crypto) crypto recordLeaves new i
        (Created crypto recordLeaves i before ⟨request.name, password⟩)
        (writeNewRecordAtomic directory request.name request.prepared.string) w :=
      safe_writeNewRecordAtomic hroomy subset_rfl ⟨_, hvalid, rfl⟩ hvalid htoken.isHash hown h
    exact Safe.mono (fun _ _ h => Created.done htoken.isHash h) hnew

theorem safe_storeCall (hroomy : Roomy directory) {call : StoreCall} (hready : call.Ready crypto)
    (hown : call.created crypto ⊆ new) (h : Resting crypto recordLeaves i before Unnoted w) :
    Behaves (steadfast crypto) crypto recordLeaves new i (Done crypto i before call)
      (call.prog crypto directory) w := by
  cases call with
  | account call =>
    exact Safe.bind rely_refl (Safe.mono (fun _ _ h => Safe.pure (stable_done _ _) h.done)
      (safe_prog careful_steadfast subset_rfl (locates_of_roomy hroomy call.name) h))
  | create request =>
    obtain ⟨password, htoken⟩ := hready
    exact safe_playerStoreCreate hroomy htoken (hown ⟨rfl, htoken.isHash⟩) h

/-! ## One link for each name -/

/-- Who has linked a record is the only one. -/
structure Exclusive (w : World ι) : Prop where
  there : ∀ i leaf, leaf ∈ recordLeaves → Noted (linkTo leaf) (w.log i) → w.disk.dir leaf ≠ none
  alone : ∀ i j leaf, leaf ∈ recordLeaves → Noted (linkTo leaf) (w.log i) →
    Noted (linkTo leaf) (w.log j) → i = j

/-- A link that is on the log was there before, or has just been made. -/
theorem noted_linkTo_record {call : Call} {a : call.Answer} {d : Disk ι} {choice : Choice}
    (hperform : w.disk.perform crypto true i call choice = some (a, d)) {j : ι} {leaf : Bytes}
    (h : Noted (linkTo leaf) ((w.record i call a d).log j)) :
    Noted (linkTo leaf) (w.log j) ∨ (j = i ∧ w.disk.dir leaf = none ∧ d.dir leaf ≠ none) := by
  by_cases hj : j = i
  · subst hj
    rw [World.log_record_self, Noted, List.any_append, Bool.or_eq_true] at h
    refine h.imp_right fun hnow => ⟨rfl, ?_⟩
    cases call with
    | link old name =>
      obtain ⟨rfl, rfl⟩ : name = leaf ∧ a = .linked := by simpa [linkTo] using hnow
      rcases Disk.link_cases hperform with ⟨-, hfree, -, hthere⟩ | ⟨hne, -⟩
      · exact ⟨hfree, hthere⟩
      · exact absurd rfl hne
    | _ => simp [linkTo] at hnow
  · rw [World.log_record_of_ne hj] at h
    exact .inl h

theorem Exclusive.record {call : Call} {a : call.Answer} {d : Disk ι} {choice : Choice}
    (h : Exclusive w) (hsound : Sound crypto recordLeaves w)
    (hgrown : w.disk.accounts crypto recordLeaves ⊆ d.accounts crypto recordLeaves)
    (hperform : w.disk.perform crypto true i call choice = some (a, d)) :
    Exclusive (w.record i call a d) where
  there j leaf hleaf hj := by
    rcases noted_linkTo_record hperform hj with hj | ⟨-, -, hdir⟩
    · obtain ⟨account, haccount, rfl⟩ := hsound.recorded leaf hleaf (h.there j leaf hleaf hj)
      obtain ⟨-, id, -, -, hdir, -⟩ := hgrown haccount
      exact fun hnone => Option.some_ne_none id (hdir.symm.trans hnone)
    · exact hdir
  alone j k leaf hleaf hj hk := by
    rcases noted_linkTo_record hperform hj with hold | ⟨hji, hnone, -⟩ <;>
      rcases noted_linkTo_record hperform hk with hold' | ⟨hki, hnone', -⟩
    · exact h.alone j k leaf hleaf hold hold'
    · exact absurd hnone' (h.there j leaf hleaf hold)
    · exact absurd hnone (h.there k leaf hleaf hold')
    · rw [hji, hki]

end Verification

/-! ## Many calls -/

/-- The accounts there are. -/
abbrev World.accounts (crypto : Crypto) (w : World ι) : Set Account :=
  w.disk.accounts crypto recordLeaves

namespace Verification

section Runs

variable {κ : Type} {crypto : Crypto} {directory : Bytes} {calls : ι → StoreCall} {d : Disk κ}
  {p p' : Pool ι (World ι) Call Call.Answer Int}

variable (hroomy : Roomy directory) (hready : ∀ i, (calls i).Ready crypto)
  (hd : (d.found : Disk ι).Recorded crypto recordLeaves)

include hroomy hready hd

end Runs

end Verification

namespace World

section Choices

variable [Fintype ι] (crypto : Crypto) (i : ι) (call : Call) (w : World ι)

instance (a : call.Answer) : Decidable (w.Unclaimed i call a) := by
  unfold Unclaimed
  split <;> infer_instance

instance (a : call.Answer) : Decidable (w.Kept i call a) := by
  unfold Kept
  split <;> infer_instance

/-- One call with the outcome that was chosen, if it can have it. -/
def attempt (choice : Choice) : Option (call.Answer × World ι) :=
  (w.run crypto true i call choice).filter fun r => w.Unclaimed i call r.1 ∧ w.Kept i call r.1

variable {crypto i call w}

theorem steadfast_of_attempt {choice : Choice} {r : call.Answer × World ι}
    (h : w.attempt crypto i call choice = some r) : steadfast crypto i call w r.1 r.2 := by
  obtain ⟨hrun, hpermitted⟩ := Option.filter_eq_some_iff.mp h
  obtain ⟨hunclaimed, hkept⟩ := of_decide_eq_true hpermitted
  exact ⟨⟨⟨choice, hrun⟩, hunclaimed⟩, hkept⟩

variable (crypto i call w)

/-- What a call can do in any case: fail, but for the directory after a link. -/
def fallback : Option (call.Answer × World ι) :=
  (w.attempt crypto i call .fail).or (w.attempt crypto i call .succeed)

theorem isSome_fallback : (w.fallback crypto i call).isSome = true := by
  cases call with
  | openDirectory | fsyncDirectory =>
    cases hlinked : hasLinked (w.log i) <;>
      simp [fallback, attempt, run, Disk.perform, Disk.plain, Unclaimed, Kept, hlinked]
  | _ => simp [fallback, attempt, run, Disk.perform, Disk.plain, Disk.mkstemp, Unclaimed, Kept]

/-- One call with the outcome that was chosen, or else one it can have in any case. -/
def settle (choice : Choice) : call.Answer × World ι :=
  (w.attempt crypto i call choice).getD
    ((w.fallback crypto i call).get (w.isSome_fallback crypto i call))

theorem steadfast_settle (choice : Choice) :
    steadfast crypto i call w (w.settle crypto i call choice).1
      (w.settle crypto i call choice).2 := by
  unfold settle
  cases hattempt : w.attempt crypto i call choice with
  | some r => exact steadfast_of_attempt hattempt
  | none =>
    have hfallback := Option.some_get (w.isSome_fallback crypto i call)
    rcases Option.or_eq_some_iff.mp hfallback.symm with h | ⟨-, h⟩
    · exact steadfast_of_attempt h
    · exact steadfast_of_attempt h

end Choices

end World

/-! An account is created while its player tries to log in. -/

omit [DecidableEq ι] in
theorem Disk.recorded_empty (crypto : Crypto) (leaves : Set Bytes) :
    (Disk.empty.found : Disk ι).Recorded crypto leaves :=
  fun _ _ hdir => absurd rfl hdir

namespace Verification

end Verification

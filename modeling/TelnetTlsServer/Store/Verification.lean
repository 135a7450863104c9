-- SUMMARY: The calls about an existing account, what each relies on and guarantees, and how its record is loaded.
import Mathlib.Data.Set.Lattice
import TelnetTlsServer.Store.Creation
import TelnetTlsServer.Store.RoundTrip

/-!
# Verifying passwords

A verification reads the record of an account and may replace it by one with a
newer password string. The leaves are therefore shared by all the calls, and what
holds of them is an invariant: each refers to a closed file with a complete record of
an account, if to any. Accounts are never lost, and one that a call adds is its own.
The temporary name of a call is its own from `mkstemp` to its last `unlink`, but the
directory guarantees this only until the `rename`. After that `mkstemp` may give the
same name to another call, whose file the `unlink` then removes. The guarantee of a
call is kept where this does not happen.

Which leaves are looked at is a parameter: one account after its creation, or all there
can be.
-/

open Interleaving

variable {ι : Type} [DecidableEq ι]

/-! ## Temporary names -/

/-- The effect of a call on the temporary name its caller goes by. -/
def holdStep (held : Option Bytes) : (Σ call : Call, call.Answer) → Option Bytes
  | ⟨.mkstemp _, some temp⟩ => some temp.1
  | ⟨.unlink name, _⟩ => if held = some name then none else held
  | _ => held

/-- The temporary name a caller with this log goes by, up to its last `unlink`. -/
def heldName (log : List (Σ call : Call, call.Answer)) : Option Bytes := log.foldl holdStep none

/-- `mkstemp` has not found a name that another caller still goes by. -/
def World.Unclaimed (w : World ι) (i : ι) : (call : Call) → call.Answer → Prop
  | .mkstemp _, some temp => ∀ j, j ≠ i → heldName (w.log j) ≠ some temp.1
  | _, _ => True

/-! ## The calls -/

/-- A call about an account after its creation. -/
inductive AccountCall where
  | verify (name password : Bytes)
  | probe (name : Bytes)

def AccountCall.name : AccountCall → Bytes
  | .verify name _ => name
  | .probe name => name

/-- The result, and what `*rehashed` is set to. -/
def AccountCall.prog (crypto : Crypto) (directory : Bytes) : AccountCall → StoreProg (Int × Bool)
  | .verify name password => playerStoreVerifyPassword crypto directory name password
  | .probe name => do
      let answer ← playerStoreExists directory name
      pure (answer, false)

/-- The runs of `calls` in the directory of `d`, in which any system call may fail. -/
def verifySystem {κ : Type} (crypto : Crypto) (directory : Bytes) (calls : ι → AccountCall)
    (d : Disk κ) : Transition.System (Pool ι (World ι) Call Call.Answer (Int × Bool)) ι :=
  Pool.system (semOf (World.run crypto true)) (World.start d.found) fun i =>
    (calls i).prog crypto directory

/-- Calls of which every `mkstemp` finds a name no other caller goes by. -/
def unclaimed (crypto : Crypto) : Sem ι (World ι) Call Call.Answer :=
  fun i call w a w' => semOf (World.run crypto true) i call w a w' ∧ w.Unclaimed i call a

/-- The runs of `calls` with such calls only. -/
def unclaimedSystem {κ : Type} (crypto : Crypto) (directory : Bytes) (calls : ι → AccountCall)
    (d : Disk κ) : Transition.System (Pool ι (World ι) Call Call.Answer (Int × Bool)) ι :=
  Pool.system (unclaimed crypto) (World.start d.found) fun i => (calls i).prog crypto directory

/-- The system calls that read a record: opening it, its state, its lines. -/
def readFailure : (Σ call : Call, call.Answer) → Bool
  | ⟨.openRead _, answer⟩ => match answer with
      | .opened _ => false
      | _ => true
  | ⟨.fstat _, answer⟩ => answer.isNone
  | ⟨.fgets _ _ _, answer⟩ => answer.isNone
  | _ => false

/-- The calls around them that make a stream of the descriptor and close it. -/
def streamFailure : (Σ call : Call, call.Answer) → Bool
  | ⟨.fdopen _, answer⟩ => !answer
  | ⟨.fclose _, answer⟩ => !answer
  | _ => false

/-- A rename onto `leaf` that succeeded. -/
def replacement (leaf : Bytes) : (Σ call : Call, call.Answer) → Bool
  | ⟨.rename _ new, answer⟩ => new = leaf && answer
  | _ => false

/-! ## Accounts -/

/-- An account as it was created. -/
structure Account where
  name : Bytes
  password : Bytes

def Account.leaf (account : Account) : Bytes := playerLeaf account.name

/-- The names that records go by. -/
def recordLeaves : Set Bytes :=
  {leaf | ∃ name, playerStoreNameValid name = true ∧ playerLeaf name = leaf}

/-- A complete record of the account, which nobody is writing to any more. -/
structure RecordFile (crypto : Crypto) (account : Account) (hash : Bytes) (f : File ι) : Prop where
  content : f.content = recordText account.name hash
  isHash : crypto.passwordOf hash = some account.password
  valid : playerStoreNameValid account.name = true
  isPrivate : f.isPrivate = true
  isClosed : f.isClosed = true

omit [DecidableEq ι] in
/-- A file is the record of one account at most. -/
theorem RecordFile.unique {crypto : Crypto} {account other : Account} {hash hash' : Bytes}
    {f : File ι} (h : RecordFile crypto account hash f) (h' : RecordFile crypto other hash' f) :
    account = other := by
  have hread : ∀ {account : Account} {hash : Bytes}, RecordFile crypto account hash f →
      ∀ wanted, readContent wanted f.content =
        if asciiEqualIgnoreCase account.name wanted then .record ⟨account.name, hash⟩
        else .failed := by
    intro account hash h wanted
    have hplain : PlainLine hash := crypto.plain hash _ h.isHash
    rw [h.content, readContent_recordText wanted h.valid hplain.strippedLine
      (crypto.short hash _ h.isHash)]
  have hsame := (hread h account.name).symm.trans (hread h' account.name)
  rw [if_pos (asciiEqualIgnoreCase_iff.mpr rfl)] at hsame
  split at hsame
  · obtain ⟨hname, rfl⟩ := LoadedRecord.mk.inj (Loaded.record.inj hsame)
    have hpassword := Option.some.inj (h.isHash.symm.trans h'.isHash)
    cases account
    cases other
    simp_all
  · cases hsame

namespace Disk

variable {crypto : Crypto} {leaves : Set Bytes} {d d' : Disk ι} {account : Account}

/-- The accounts whose records are among `leaves`. -/
def accounts (crypto : Crypto) (leaves : Set Bytes) (d : Disk ι) : Set Account :=
  {account | account.leaf ∈ leaves ∧ ∃ id f hash, d.dir account.leaf = some id ∧
    d.files id = some f ∧ RecordFile crypto account hash f}

/-- Where `leaves` refer to anything, it is a record. -/
def Recorded (crypto : Crypto) (leaves : Set Bytes) (d : Disk ι) : Prop :=
  ∀ leaf ∈ leaves, d.dir leaf ≠ none → ∃ account ∈ d.accounts crypto leaves, account.leaf = leaf

omit [DecidableEq ι] in
theorem valid_of_mem (h : account ∈ d.accounts crypto leaves) :
    playerStoreNameValid account.name = true := by
  obtain ⟨_, _, _, _, _, _, hrecord⟩ := h
  exact hrecord.valid

omit [DecidableEq ι] in
/-- There is one account of a name. -/
theorem accounts_unique {other : Account} (h : account ∈ d.accounts crypto leaves)
    (h' : other ∈ d.accounts crypto leaves) (hleaf : account.leaf = other.leaf) :
    account = other := by
  obtain ⟨-, id, f, hash, hdir, hfile, hrecord⟩ := h
  obtain ⟨-, id', f', hash', hdir', hfile', hrecord'⟩ := h'
  rw [hleaf, hdir'] at hdir
  obtain rfl := Option.some.inj hdir
  rw [hfile'] at hfile
  obtain rfl := Option.some.inj hfile
  exact hrecord.unique hrecord'

omit [DecidableEq ι] in
theorem mem_accounts_congr (hdir : d'.dir account.leaf = d.dir account.leaf)
    (hfiles : ∀ id, d.dir account.leaf = some id → d'.files id = d.files id) :
    account ∈ d'.accounts crypto leaves ↔ account ∈ d.accounts crypto leaves := by
  refine and_congr_right fun _ => exists_congr fun id => exists_congr fun f => exists_congr
    fun hash => ?_
  rw [hdir]
  exact and_congr_right fun hid => by rw [hfiles id hid]

/-- What `leaves` refer to is as it was. -/
structure SameLeaves (leaves : Set Bytes) (d d' : Disk ι) : Prop where
  dir : ∀ leaf ∈ leaves, d'.dir leaf = d.dir leaf
  files : ∀ leaf ∈ leaves, ∀ id, d.dir leaf = some id → d'.files id = d.files id

namespace SameLeaves

omit [DecidableEq ι]

theorem accounts (h : SameLeaves leaves d d') :
    d'.accounts crypto leaves = d.accounts crypto leaves := by
  refine Set.ext fun account => ?_
  by_cases hleaf : account.leaf ∈ leaves
  · exact mem_accounts_congr (h.dir _ hleaf) (h.files _ hleaf)
  · exact iff_of_false (fun h => hleaf h.1) fun h => hleaf h.1

theorem recorded (h : SameLeaves leaves d d') (hd : d.Recorded crypto leaves) :
    d'.Recorded crypto leaves := by
  intro leaf hleaf hdir
  rw [h.dir leaf hleaf] at hdir
  rw [h.accounts]
  exact hd leaf hleaf hdir

end SameLeaves

/-- A record of the account takes its leaf, which no other account has. -/
structure Puts (crypto : Crypto) (leaves : Set Bytes) (account : Account) (d d' : Disk ι) : Prop
    where
  there : account ∈ d'.accounts crypto leaves
  alone : ∀ other ∈ d.accounts crypto leaves, other.leaf = account.leaf → other = account
  others : ∀ leaf ∈ leaves, leaf ≠ account.leaf → d'.dir leaf = d.dir leaf
  files : d'.files = d.files

namespace Puts

omit [DecidableEq ι]

theorem mem_accounts (h : Puts crypto leaves account d d') {other : Account} :
    other ∈ d'.accounts crypto leaves ↔ other = account ∨ other ∈ d.accounts crypto leaves := by
  by_cases hleaf : other.leaf = account.leaf
  · constructor
    · exact fun hother => .inl (accounts_unique hother h.there hleaf)
    · rintro (rfl | hother)
      · exact h.there
      · exact h.alone other hother hleaf ▸ h.there
  · have hsame : other ∈ d'.accounts crypto leaves ↔ other ∈ d.accounts crypto leaves := by
      by_cases hwatched : other.leaf ∈ leaves
      · exact mem_accounts_congr (h.others _ hwatched hleaf) fun _ _ => by rw [h.files]
      · exact iff_of_false (fun h => hwatched h.1) fun h => hwatched h.1
    rw [hsame, or_iff_right]
    rintro rfl
    exact hleaf rfl

theorem recorded (h : Puts crypto leaves account d d') (hd : d.Recorded crypto leaves) :
    d'.Recorded crypto leaves := by
  intro leaf hleaf hdir
  by_cases hown : leaf = account.leaf
  · exact ⟨account, h.there, hown.symm⟩
  · rw [h.others leaf hleaf hown] at hdir
    obtain ⟨other, hother, hother'⟩ := hd leaf hleaf hdir
    exact ⟨other, h.mem_accounts.mpr (.inr hother), hother'⟩

end Puts

end Disk

/-! ## Rely and guarantee -/

namespace Verification

/-- What holds between any two system calls. -/
structure Sound (crypto : Crypto) (leaves : Set Bytes) (w : World ι) : Prop where
  recorded : w.disk.Recorded crypto leaves
  apart : ∀ i temp, heldName (w.log i) = some temp → temp ∉ leaves
  distinct : ∀ i j temp, heldName (w.log i) = some temp → heldName (w.log j) = some temp → i = j

omit [DecidableEq ι] in
/-- Nobody goes by a temporary name at the start. -/
theorem sound_start {crypto : Crypto} {leaves : Set Bytes} {d : Disk ι}
    (hd : d.Recorded crypto leaves) : Sound crypto leaves (World.start d) where
  recorded := hd
  apart _ _ hheld := by cases hheld
  distinct _ _ _ hheld := by cases hheld

structure Rely (crypto : Crypto) (leaves : Set Bytes) (i : ι) (w w' : World ι) : Prop where
  sound : Sound crypto leaves w →
    Sound crypto leaves w' ∧ w.disk.accounts crypto leaves ⊆ w'.disk.accounts crypto leaves
  log : w'.log i = w.log i
  own : ∀ id, w'.disk.file (some i) id = w.disk.file (some i) id
  closed : ∀ id f, w.disk.files id = some f → f.isClosed = true → w'.disk.files id = some f
  temp : ∀ temp, heldName (w.log i) = some temp → w'.disk.dir temp = w.disk.dir temp

/-- The accounts that `i` may add are `new`. -/
structure Guarantee (crypto : Crypto) (leaves : Set Bytes) (new : Set Account) (i : ι)
    (w w' : World ι) : Prop where
  sound : Sound crypto leaves w → Sound crypto leaves w' ∧
    w.disk.accounts crypto leaves ⊆ w'.disk.accounts crypto leaves ∧
    w'.disk.accounts crypto leaves ⊆ w.disk.accounts crypto leaves ∪ new
  log : ∀ j, j ≠ i → w'.log j = w.log j
  own : ∀ a, a ≠ some i → ∀ id, w'.disk.file a id = w.disk.file a id
  closed : ∀ id f, w.disk.files id = some f → f.isClosed = true → w'.disk.files id = some f
  temp : ∀ j temp, j ≠ i → heldName (w.log j) = some temp → w'.disk.dir temp = w.disk.dir temp

variable {crypto : Crypto} {leaves : Set Bytes} {new before : Set Account} {i : ι} {w : World ι}

theorem rely_refl (w : World ι) : Rely crypto leaves i w w :=
  ⟨fun h => ⟨h, subset_rfl⟩, rfl, fun _ => rfl, fun _ _ h _ => h, fun _ _ => rfl⟩

theorem compatible (crypto : Crypto) (leaves : Set Bytes) (new : ι → Set Account) :
    Compatible (Rely crypto leaves) (fun i => Guarantee crypto leaves (new i) i) where
  refl i := rely_refl
  trans i s t u h h' :=
    { sound := fun hs =>
        have ht := h.sound hs
        have hu := h'.sound ht.1
        ⟨hu.1, ht.2.trans hu.2⟩
      log := h'.log.trans h.log
      own := fun id => (h'.own id).trans (h.own id)
      closed := fun id f hf hclosed => h'.closed id f (h.closed id f hf hclosed) hclosed
      temp := fun temp hheld =>
        (h'.temp temp (by rw [h.log]; exact hheld)).trans (h.temp temp hheld) }
  within i j hij s t h :=
    { sound := fun hs => ⟨(h.sound hs).1, (h.sound hs).2.1⟩
      log := h.log j (Ne.symm hij)
      own := h.own (some j) (by simpa using Ne.symm hij)
      closed := h.closed
      temp := fun temp hheld => h.temp j temp (Ne.symm hij) hheld }

/-- Thread `i` keeps to the two. -/
abbrev Behaves {ρ : Type} (sem : Sem ι (World ι) Call Call.Answer) (crypto : Crypto)
    (leaves : Set Bytes) (new : Set Account) (i : ι) (post : ρ → World ι → Prop) :
    StoreProg ρ → World ι → Prop :=
  Safe sem i (Rely crypto leaves i) (Guarantee crypto leaves new i) post

variable {sem : Sem ι (World ι) Call Call.Answer}

/-- Over a run of calls that behave, accounts are only added, and only those they may add. -/
theorem accounts_of_reachable {ρ : Type} {news : ι → Set Account} {post : ι → ρ → World ι → Prop}
    {progs : ι → StoreProg ρ} {p : Pool ι (World ι) Call Call.Answer ρ} (hw : Sound crypto leaves w)
    (hprogs : ∀ j, Behaves sem crypto leaves (news j) j (post j) (progs j) w)
    (hp : (Pool.system sem w progs).Reachable p) :
    Sound crypto leaves p.shared ∧
      w.disk.accounts crypto leaves ⊆ p.shared.disk.accounts crypto leaves ∧
      p.shared.disk.accounts crypto leaves ⊆ w.disk.accounts crypto leaves ∪ ⋃ j, news j := by
  refine Pool.shared_invariant (compatible crypto leaves news) hprogs
    (I := fun w' => Sound crypto leaves w' ∧
      w.disk.accounts crypto leaves ⊆ w'.disk.accounts crypto leaves ∧
      w'.disk.accounts crypto leaves ⊆ w.disk.accounts crypto leaves ∪ ⋃ j, news j)
    ⟨hw, subset_rfl, Set.subset_union_left⟩ ?_ hp
  rintro j s s' hG ⟨hs, hgrown, hbounded⟩
  obtain ⟨hs', hgrown', hbounded'⟩ := hG.sound hs
  refine ⟨hs', hgrown.trans hgrown', hbounded'.trans (Set.union_subset hbounded ?_)⟩
  exact (Set.subset_iUnion news j).trans Set.subset_union_right

/-- In `sem`, `mkstemp` finds unclaimed names only. -/
def Careful (crypto : Crypto) (sem : Sem ι (World ι) Call Call.Answer) : Prop :=
  ∀ i call w a w', sem i call w a w' → unclaimed crypto i call w a w'

theorem Careful.onDisk (hsem : Careful crypto sem) :
    OnDisk crypto true sem i (Rely crypto leaves i) where
  refl := rely_refl
  log _ _ h := h.log
  perform i w a w' h := World.exists_perform (hsem _ i w a w' h).1

/-! ### What a call records -/

theorem heldName_concat (log : List (Σ call : Call, call.Answer)) (e : Σ call : Call, call.Answer) :
    heldName (log ++ [e]) = holdStep (heldName log) e := by
  simp [heldName, List.foldl_append]

theorem holdStep_quiet (held : Option Bytes) {call : Call} (a : call.Answer)
    (h : call.quiet a = true) : holdStep held ⟨call, a⟩ = held := by
  cases call with
  | mkstemp template =>
    cases a with
    | none => rfl
    | some temp => cases h
  | unlink name => cases h
  | _ => rfl

/-- Nobody's temporary name changes with a quiet call. -/
theorem heldName_record_quiet (j : ι) {call : Call} (a : call.Answer) (hquiet : call.quiet a = true)
    (d : Disk ι) : heldName ((w.record i call a d).log j) = heldName (w.log j) := by
  by_cases hj : j = i
  · subst hj
    rw [World.log_record_self, heldName_concat, holdStep_quiet _ a hquiet]
  · rw [World.log_record_of_ne hj]

/-- A call keeps the invariant when it keeps the records, and the name its caller
then goes by is neither a leaf nor another caller's. -/
theorem Sound.record (h : Sound crypto leaves w) {call : Call} {a : call.Answer} {d : Disk ι}
    (hd : d.Recorded crypto leaves)
    (hi : ∀ name, heldName ((w.record i call a d).log i) = some name →
      name ∉ leaves ∧ ∀ j, j ≠ i → heldName (w.log j) ≠ some name) :
    Sound crypto leaves (w.record i call a d) where
  recorded := hd
  apart j name hj := by
    by_cases hji : j = i
    · subst hji
      exact (hi name hj).1
    · exact h.apart j name (by rwa [World.log_record_of_ne hji] at hj)
  distinct j k name hj hk := by
    by_cases hji : j = i <;> by_cases hki : k = i
    · rw [hji, hki]
    · rw [World.log_record_of_ne hki] at hk
      exact absurd hk ((hi name (hji ▸ hj)).2 k hki)
    · rw [World.log_record_of_ne hji] at hj
      exact absurd hj ((hi name (hki ▸ hk)).2 j hji)
    · rw [World.log_record_of_ne hji] at hj
      rw [World.log_record_of_ne hki] at hk
      exact h.distinct j k name hj hk

theorem Sound.quiet (h : Sound crypto leaves w) {call : Call} (a : call.Answer)
    (hquiet : call.quiet a = true) {d : Disk ι} (hd : d.Recorded crypto leaves) :
    Sound crypto leaves (w.record i call a d) := by
  refine h.record hd fun name hi => ?_
  rw [heldName_record_quiet i _ hquiet] at hi
  exact ⟨h.apart i name hi, fun j hj hheld => hj (h.distinct j i name hheld hi)⟩

/-- Calls that leave the directory as it is. -/
theorem guarantee_quiet (call : Call) (a : call.Answer) (hquiet : call.quiet a = true) :
    Guarantee crypto leaves new i w (w.record i call a w.disk) where
  sound h := ⟨h.quiet a hquiet h.recorded, subset_rfl, Set.subset_union_left⟩
  log _ hj := World.log_record_of_ne hj a _
  own _ _ _ := rfl
  closed _ _ h _ := h
  temp _ _ _ _ := rfl

/-! ### What a caller knows -/

/-- A caller that goes by the name `temp`, if by any, since whose start the accounts `before`
have been there; `note` is what its log says. -/
structure Keeping (crypto : Crypto) (leaves : Set Bytes) (i : ι) (before : Set Account)
    (temp : Option Bytes) (note : List (Σ call : Call, call.Answer) → Prop) (w : World ι) :
    Prop where
  sound : Sound crypto leaves w
  grown : before ⊆ w.disk.accounts crypto leaves
  held : heldName (w.log i) = temp
  note : note (w.log i)

/-- A caller without a temporary file. -/
abbrev Resting (crypto : Crypto) (leaves : Set Bytes) (i : ι) (before : Set Account)
    (note : List (Σ call : Call, call.Answer) → Prop) : World ι → Prop :=
  Keeping crypto leaves i before none note

/-- Notes that later quiet calls do not invalidate. -/
def Lasting (note : List (Σ call : Call, call.Answer) → Prop) : Prop :=
  ∀ log (call : Call) (a : call.Answer), call.quiet a = true → note log → note (log ++ [⟨call, a⟩])

def Unnoted (_ : List (Σ call : Call, call.Answer)) : Prop := True

/-- Some call has a property. -/
def Noted (p : (Σ call : Call, call.Answer) → Bool) (log : List (Σ call : Call, call.Answer)) :
    Prop :=
  log.any p = true

theorem lasting_unnoted : Lasting Unnoted := fun _ _ _ _ _ => trivial

theorem noted_concat {p : (Σ call : Call, call.Answer) → Bool}
    {log : List (Σ call : Call, call.Answer)} {e : Σ call : Call, call.Answer} (he : p e = true) :
    Noted p (log ++ [e]) := by
  simp [Noted, he]

theorem Noted.concat {p : (Σ call : Call, call.Answer) → Bool}
    {log : List (Σ call : Call, call.Answer)} (h : Noted p log) (e : Σ call : Call, call.Answer) :
    Noted p (log ++ [e]) := by
  rw [Noted, List.any_append]
  rw [Noted] at h
  simp [h]

theorem lasting_noted (p : (Σ call : Call, call.Answer) → Bool) : Lasting (Noted p) :=
  fun _ _ _ _ h => h.concat _

variable {temp : Option Bytes} {note : List (Σ call : Call, call.Answer) → Prop}

theorem Keeping.record (h : Keeping crypto leaves i before temp note w) {call : Call}
    (a : call.Answer) (hquiet : call.quiet a = true) {d : Disk ι} (hd : d.Recorded crypto leaves)
    (hgrown : w.disk.accounts crypto leaves ⊆ d.accounts crypto leaves)
    {note' : List (Σ call : Call, call.Answer) → Prop} (hnote : note' (w.log i ++ [⟨call, a⟩])) :
    Keeping crypto leaves i before temp note' (w.record i call a d) where
  sound := h.sound.quiet a hquiet hd
  grown := h.grown.trans hgrown
  held := (heldName_record_quiet i a hquiet _).trans h.held
  note := by rwa [World.log_record_self]

theorem Keeping.quiet (h : Keeping crypto leaves i before temp note w) (call : Call)
    (a : call.Answer) (hquiet : call.quiet a = true)
    {note' : List (Σ call : Call, call.Answer) → Prop} (hnote : note' (w.log i ++ [⟨call, a⟩])) :
    Keeping crypto leaves i before temp note' (w.record i call a w.disk) :=
  h.record a hquiet h.sound.recorded subset_rfl hnote

omit [DecidableEq ι] in
theorem Keeping.mono {before' : Set Account} (h : Keeping crypto leaves i before temp note w)
    (hbefore : before' ⊆ before) : Keeping crypto leaves i before' temp note w :=
  ⟨h.sound, hbefore.trans h.grown, h.held, h.note⟩

omit [DecidableEq ι] in
/-- The caller has seen an account. -/
theorem Keeping.insert {other : Account} (h : Keeping crypto leaves i before temp note w)
    (hother : other ∈ w.disk.accounts crypto leaves) :
    Keeping crypto leaves i (insert other before) temp note w :=
  ⟨h.sound, Set.insert_subset hother h.grown, h.held, h.note⟩

omit [DecidableEq ι] in
theorem Keeping.noting {note' : List (Σ call : Call, call.Answer) → Prop}
    (h : Keeping crypto leaves i before temp note w) (hnote : note' (w.log i)) :
    Keeping crypto leaves i before temp note' w :=
  ⟨h.sound, h.grown, h.held, hnote⟩

theorem stable_keeping :
    Stable (Rely crypto leaves i) (Keeping crypto leaves i before temp note) := by
  intro _ _ hR h
  obtain ⟨hsound, hgrown⟩ := hR.sound h.sound
  exact ⟨hsound, h.grown.trans hgrown, by rw [hR.log]; exact h.held, by rw [hR.log]; exact h.note⟩

theorem calm_keeping (hnote : Lasting note) :
    Calm i (Rely crypto leaves i) (Guarantee crypto leaves new i)
      (Keeping crypto leaves i before temp note) where
  stable := stable_keeping
  idle _ call a hquiet h :=
    ⟨guarantee_quiet call a hquiet, h.quiet call a hquiet (hnote _ _ _ hquiet h.note)⟩

/-! ## Loading a record -/

/-- The failures that may keep a caller from a record that is there. -/
def loadFault : (Σ call : Call, call.Answer) → Bool
  | ⟨.openRead _, answer⟩ => answer = .failed
  | ⟨.fstat _, answer⟩ => answer.isNone
  | ⟨.fdopen _, answer⟩ => !answer
  | ⟨.fgets _ _ _, answer⟩ => answer.isNone
  | ⟨.fclose _, answer⟩ => !answer
  | _ => false

theorem fault_of_loadFault {e : Σ call : Call, call.Answer} (h : loadFault e = true) :
    e.1.fault e.2 = true := by
  obtain ⟨call, a⟩ := e
  cases call <;> first | exact h | cases h

theorem failure_of_loadFault {e : Σ call : Call, call.Answer} (h : loadFault e = true) :
    readFailure e = true ∨ streamFailure e = true := by
  obtain ⟨call, a⟩ := e
  cases call with
  | openRead name =>
    obtain rfl : a = .failed := of_decide_eq_true h
    exact .inl rfl
  | fstat | fgets => exact .inl h
  | fdopen | fclose => exact .inr h
  | _ => cases h

theorem calm_failed : Calm i (Rely crypto leaves i) (Guarantee crypto leaves new i)
    (Resting crypto leaves i before (Noted loadFault)) :=
  calm_keeping (lasting_noted loadFault)

theorem calm_unnoted : Calm i (Rely crypto leaves i) (Guarantee crypto leaves new i)
    (Resting crypto leaves i before Unnoted) :=
  calm_keeping lasting_unnoted

/-- A caller with a record open. -/
structure Reading (crypto : Crypto) (leaves : Set Bytes) (i : ι) (before : Set Account)
    (account : Account) (id : Nat) (hash : Bytes) (f : File ι) (w : World ι) : Prop where
  resting : Resting crypto leaves i (insert account before) Unnoted w
  file : w.disk.files id = some f
  record : RecordFile crypto account hash f

variable {account : Account} {id : Nat} {hash : Bytes} {f : File ι}

theorem stable_reading :
    Stable (Rely crypto leaves i) (Reading crypto leaves i before account id hash f) :=
  fun w w' hR h => ⟨stable_keeping w w' hR h.resting, hR.closed id f h.file h.record.isClosed,
    h.record⟩

/-- A call has failed, which the log says. -/
theorem Reading.failed (h : Reading crypto leaves i before account id hash f w) (call : Call)
    (a : call.Answer) (hquiet : call.quiet a = true) (hfault : loadFault ⟨call, a⟩ = true) :
    Resting crypto leaves i before (Noted loadFault) (w.record i call a w.disk) :=
  (h.resting.quiet call a hquiet (noted_concat hfault)).mono (Set.subset_insert _ _)

theorem calm_reading : Calm i (Rely crypto leaves i) (Guarantee crypto leaves new i)
    (Reading crypto leaves i before account id hash f) where
  stable := stable_reading
  idle w call a hquiet h := by
    obtain ⟨hG, hresting⟩ := calm_unnoted.idle w call a hquiet h.resting
    exact ⟨hG, hresting, h.file, h.record⟩

/-- The outcomes of looking for a record: what it says, that there was none, or a failure
that is on the log. -/
inductive Loads (crypto : Crypto) (leaves : Set Bytes) (i : ι) (before : Set Account)
    (leaf : Bytes) (w : World ι) : Loaded → Prop where
  | record {account : Account} {hash : Bytes} (hleaf : account.leaf = leaf)
      (hhash : crypto.passwordOf hash = some account.password)
      (h : Resting crypto leaves i (insert account before) Unnoted w) :
      Loads crypto leaves i before leaf w (.record ⟨account.name, hash⟩)
  | absent (hnone : ∀ account ∈ before, account.leaf ≠ leaf)
      (h : Resting crypto leaves i before Unnoted w) : Loads crypto leaves i before leaf w .absent
  | failed (h : Resting crypto leaves i before (Noted loadFault) w) :
      Loads crypto leaves i before leaf w .failed

variable {leaf : Bytes}

theorem stable_loads (loaded : Loaded) :
    Stable (Rely crypto leaves i) fun w => Loads crypto leaves i before leaf w loaded := by
  intro w w' hR h
  cases h with
  | record hleaf hhash h => exact .record hleaf hhash (stable_keeping _ _ hR h)
  | absent hnone h => exact .absent hnone (stable_keeping _ _ hR h)
  | failed h => exact .failed (stable_keeping _ _ hR h)

theorem safe_loadFailed (h : Resting crypto leaves i before (Noted loadFault) w) :
    Behaves sem crypto leaves new i (fun loaded w => Loads crypto leaves i before leaf w loaded)
      (pure .failed) w :=
  Safe.pure (stable_loads _) (.failed h)

variable (hsem : Careful crypto sem)

include hsem

/-- One line of the record. -/
theorem safe_fgets {ρ : Type} {post : ρ → World ι → Prop} {offset size : Nat}
    {k : Option Bytes → StoreProg ρ} (h : Reading crypto leaves i before account id hash f w)
    (hfailed : ∀ w, Resting crypto leaves i before (Noted loadFault) w →
      Behaves sem crypto leaves new i post (k none) w)
    (hline : ∀ w, Reading crypto leaves i before account id hash f w →
      Behaves sem crypto leaves new i post
        (k (some (lineUpTo (size - 1) ((recordText account.name hash).drop offset)))) w) :
    Behaves sem crypto leaves new i post (sys (.fgets id offset size) >>= k) w := by
  refine safe_sys hsem.onDisk stable_reading h fun w _ a d h hperform => ?_
  obtain ⟨rfl, hcases⟩ := Disk.fgets_cases hperform
  obtain ⟨hG, hreading⟩ := calm_reading.idle w (.fgets id offset size) a rfl h
  refine ⟨hG, ?_⟩
  rcases hcases with rfl | ⟨g, hg, rfl⟩
  · exact hfailed _ (h.failed (.fgets id offset size) none rfl rfl)
  · rw [h.file] at hg
    obtain rfl := Option.some.inj hg
    rw [h.record.content]
    rw [h.record.content] at hreading
    exact hline _ hreading

variable {directory wanted : Bytes}

theorem safe_readRecord (hleaf : account.leaf = playerLeaf wanted)
    (h : Reading crypto leaves i before account id hash f w) :
    Behaves sem crypto leaves new i
      (fun loaded w => Loads crypto leaves i before (playerLeaf wanted) w loaded)
      (readRecord id wanted) w := by
  have hvalid := h.record.valid
  have hplain : PlainLine hash := crypto.plain hash _ h.record.isHash
  have hshort := crypto.short hash _ h.record.isHash
  refine safe_fgets hsem h (fun _ => safe_loadFailed) fun w h => ?_
  rw [lineUpTo_version]
  refine safe_fgets hsem h (fun _ => safe_loadFailed) fun w h => ?_
  rw [lineUpTo_nameLine hvalid]
  refine safe_fgets hsem h (fun _ => safe_loadFailed) fun w h => ?_
  rw [lineUpTo_hashLine hplain hshort]
  change Safe _ _ _ _ _ (pure (parseRecord wanted _ _ _)) w
  rw [parseRecord_lines hvalid (playerLeaf_eq_iff.mp hleaf) hplain hshort]
  exact Safe.pure (stable_loads _) (.record hleaf h.record.isHash h.resting)

/-- The end of a failed load, which closes the descriptor. -/
theorem safe_closeRead (h : Resting crypto leaves i before (Noted loadFault) w) :
    Behaves sem crypto leaves new i (fun loaded w => Loads crypto leaves i before leaf w loaded)
      (do let _ ← sys (.closeRead id); pure .failed) w := by
  refine safe_sys hsem.onDisk stable_keeping h fun w _ a d h hperform => ?_
  obtain rfl := Disk.plain_cases hperform
  obtain ⟨hG, h⟩ := calm_failed.idle w (.closeRead id) a rfl h
  exact ⟨hG, safe_loadFailed h⟩

omit hsem in
theorem Loads.quiet {loaded : Loaded} (h : Loads crypto leaves i before leaf w loaded) (call : Call)
    (a : call.Answer) (hquiet : call.quiet a = true) :
    Loads crypto leaves i before leaf (w.record i call a w.disk) loaded := by
  cases h with
  | record hleaf hhash h => exact .record hleaf hhash (h.quiet call a hquiet trivial)
  | absent hnone h => exact .absent hnone (h.quiet call a hquiet trivial)
  | failed h => exact .failed (h.quiet call a hquiet (h.note.concat _))

omit hsem [DecidableEq ι] in
theorem Loads.resting {loaded : Loaded} (h : Loads crypto leaves i before leaf w loaded) :
    Resting crypto leaves i before Unnoted w := by
  cases h with
  | record _ _ h => exact h.mono (Set.subset_insert _ _)
  | absent _ h => exact h
  | failed h => exact h.noting trivial

theorem safe_loadStream (hleaf : account.leaf = playerLeaf wanted)
    (h : Reading crypto leaves i before account id hash f w) :
    Behaves sem crypto leaves new i
      (fun loaded w => Loads crypto leaves i before (playerLeaf wanted) w loaded)
      (loadStream id wanted) w := by
  refine safe_sys hsem.onDisk stable_reading h fun w _ opened d h hperform => ?_
  obtain rfl := Disk.plain_cases hperform
  obtain ⟨hG, hreading⟩ := calm_reading.idle w (.fdopen id) opened rfl h
  refine ⟨hG, ?_⟩
  cases opened with
  | false => exact safe_closeRead hsem (h.failed (.fdopen id) false rfl rfl)
  | true =>
    refine Safe.bind rely_refl (Safe.mono ?_ (safe_readRecord hsem hleaf hreading))
    intro loaded w hloads
    refine safe_sys hsem.onDisk (stable_loads loaded) hloads fun w _ closed d hloads hperform => ?_
    obtain rfl := Disk.plain_cases hperform
    refine ⟨guarantee_quiet (.fclose id) closed rfl, ?_⟩
    cases closed with
    | false =>
      exact safe_loadFailed (hloads.resting.quiet (.fclose id) false rfl (noted_concat rfl))
    | true => exact Safe.pure (stable_loads loaded) (hloads.quiet (.fclose id) true rfl)

theorem safe_loadRecord (hpath : buildPlayerPath directory wanted = some (playerLeaf wanted))
    (hleaf : playerLeaf wanted ∈ leaves) (h : Resting crypto leaves i before Unnoted w) :
    Behaves sem crypto leaves new i
      (fun loaded w => Loads crypto leaves i before (playerLeaf wanted) w loaded)
      (loadRecord directory wanted) w := by
  unfold loadRecord
  rw [hpath]
  refine safe_sys hsem.onDisk stable_keeping h fun w _ answer d h hperform => ?_
  obtain ⟨rfl, hcases⟩ := Disk.openRead_cases hperform
  refine ⟨guarantee_quiet _ answer rfl, ?_⟩
  rcases hcases with rfl | ⟨hnone, rfl⟩ | ⟨id, hdir, rfl⟩
  · exact safe_loadFailed (h.quiet (.openRead (playerLeaf wanted)) .failed rfl (noted_concat rfl))
  · refine Safe.pure (stable_loads _) (.absent (fun account hbefore hown => ?_)
      (h.quiet (.openRead (playerLeaf wanted)) .absent rfl trivial))
    obtain ⟨-, id, f, hash, hdir, -⟩ := h.grown hbefore
    rw [hown, hnone] at hdir
    cases hdir
  obtain ⟨account, hthere, hown⟩ :=
    h.sound.recorded (playerLeaf wanted) hleaf (by rw [hdir]; exact Option.some_ne_none id)
  obtain ⟨id', f, hash, hdir', hfile, hrecord⟩ := hthere.2
  rw [hown, hdir] at hdir'
  obtain rfl := Option.some.inj hdir'
  have hopened : Resting crypto leaves i before Unnoted
      (w.record i (.openRead (playerLeaf wanted)) (.opened id) w.disk) :=
    h.quiet (.openRead (playerLeaf wanted)) (.opened id) rfl trivial
  have hreading : Reading crypto leaves i before account id hash f
      (w.record i (.openRead (playerLeaf wanted)) (.opened id) w.disk) :=
    ⟨hopened.insert hthere, hfile, hrecord⟩
  refine safe_sys hsem.onDisk stable_reading hreading
    fun w _ state d h hperform => ?_
  obtain ⟨rfl, hcases⟩ := Disk.fstat_cases hperform
  obtain ⟨hG, hreading⟩ := calm_reading.idle w (.fstat id) state rfl h
  refine ⟨hG, ?_⟩
  rcases hcases with rfl | ⟨g, hg, rfl⟩
  · exact safe_closeRead hsem (h.failed (.fstat id) none rfl rfl)
  rw [h.file] at hg
  obtain rfl := Option.some.inj hg
  rw [h.record.isPrivate] at hreading ⊢
  exact safe_loadStream hsem hown hreading

end Verification

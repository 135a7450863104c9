-- SUMMARY: The player directory as shared state, and the system calls player_store.c makes on it.
import TelnetTlsServer.Codes
import TelnetTlsServer.Lib.Interleaving

/-!
# The player directory

The directory maps names to files, and a descriptor stays on its file whatever
happens to the names. Each system call is one step. What the system decides (that
a call fails, how much a write takes, which name `mkstemp` finds) is a `Choice`,
so that a run can be replayed; the semantics of a call is that some choice gives
its answer.

A `write` that is interrupted before it wrote anything is repeated by the code
and changes nothing, so it is not a step of its own.
-/

/-- The length bound of libsodium's password strings, terminator included. -/
def cryptoPwhashStrBytes : Nat := 128

/-- What the store assumes of libsodium: a password string belongs to at most one
password, and is a line of text that fits its buffer. -/
structure Crypto where
  passwordOf : Bytes → Option Bytes
  plain : ∀ hash password, passwordOf hash = some password → ∀ b ∈ hash, b ≠ 0 ∧ b ≠ 10 ∧ b ≠ 13
  short : ∀ hash password, passwordOf hash = some password → hash.length < cryptoPwhashStrBytes

def Crypto.verify (crypto : Crypto) (hash password : Bytes) : Bool :=
  crypto.passwordOf hash = some password

/-- A file. `author` is the call that created it, none for a file found in the
directory; `isClosed` says that its author has closed it. No call reads these two. -/
structure File (ι : Type) where
  content : Bytes
  isPrivate : Bool
  isClosed : Bool
  author : Option ι

structure Disk (ι : Type) where
  dir : Bytes → Option Nat
  files : Nat → Option (File ι)
  linked : ∀ name id, dir name = some id → (files id).isSome = true

/-! ## Calls -/

inductive Call where
  | mkstemp (template : Bytes)
  | fchmod (fd : Nat)
  | write (fd : Nat) (data : Bytes)
  | fsync (fd : Nat)
  | close (fd : Nat)
  | link (old new : Bytes)
  | rename (old new : Bytes)
  | unlink (name : Bytes)
  | openDirectory
  | fsyncDirectory
  | closeDirectory
  | openRead (name : Bytes)
  | fstat (fd : Nat)
  | closeRead (fd : Nat)
  | fdopen (fd : Nat)
  | fgets (fd offset size : Nat)
  | fclose (fd : Nat)
  | needsRehash (hash : Bytes)
  | pwhash (password : Bytes)

inductive LinkAnswer where
  | linked
  | taken
  | failed
deriving DecidableEq

inductive OpenAnswer where
  | opened (fd : Nat)
  | absent
  | failed
deriving DecidableEq

/-- The answers of a call. `none` and `false` stand for an error; `fstat` answers
whether the file is a regular one of the server's own that nobody else may touch. -/
abbrev Call.Answer : Call → Type
  | .mkstemp _ => Option (Bytes × Nat)
  | .write _ _ => Option Nat
  | .link _ _ => LinkAnswer
  | .openRead _ => OpenAnswer
  | .fstat _ => Option Bool
  | .fgets _ _ _ => Option Bytes
  | .pwhash _ => Option Bytes
  | _ => Bool

inductive Choice where
  | succeed
  | fail
  | taken
  | temp (suffix : Bytes) (id : Nat)
  | count (n : Nat)
  | hash (hash : Bytes)

/-- What `fgets` takes from `rest` into a buffer with room for `n` bytes of text. -/
def lineUpTo : Nat → Bytes → Bytes
  | 0, _ => []
  | _, [] => []
  | n + 1, b :: rest => if b = 10 then [b] else b :: lineUpTo n rest

namespace Disk

variable {ι κ : Type}

def create (d : Disk ι) (name : Bytes) (id : Nat) (file : File ι) : Disk ι where
  dir := Function.update d.dir name (some id)
  files := Function.update d.files id (some file)
  linked n k h := by
    by_cases hk : k = id
    · simp [hk]
    · have hn : n ≠ name := by
        rintro rfl
        simp only [Function.update_self, Option.some.injEq] at h
        exact hk h.symm
      rw [Function.update_of_ne hn] at h
      simpa [Function.update_of_ne hk] using d.linked n k h

def alter (d : Disk ι) (fd : Nat) (f : File ι → File ι) : Disk ι where
  dir := d.dir
  files := Function.update d.files fd ((d.files fd).map f)
  linked n k h := by
    have hk := d.linked n k h
    by_cases hfd : k = fd
    · subst hfd
      simpa using hk
    · simpa [Function.update_of_ne hfd] using hk

def link (d : Disk ι) (old new : Bytes) : Disk ι where
  dir := Function.update d.dir new (d.dir old)
  files := d.files
  linked n k h := by
    by_cases hn : n = new
    · subst hn
      rw [Function.update_self] at h
      exact d.linked old k h
    · rw [Function.update_of_ne hn] at h
      exact d.linked n k h

def unlink (d : Disk ι) (name : Bytes) : Disk ι where
  dir := Function.update d.dir name none
  files := d.files
  linked n k h := by
    by_cases hn : n = name
    · subst hn
      simp at h
    · rw [Function.update_of_ne hn] at h
      exact d.linked n k h

/-- Two names of one file are left alone. -/
def rename (d : Disk ι) (old new : Bytes) : Disk ι :=
  if d.dir old = d.dir new then d else (d.link old new).unlink old

/-- The same directory for other calls: all its files are files found there. -/
def found (d : Disk κ) : Disk ι where
  dir := d.dir
  files id := (d.files id).map fun f => ⟨f.content, f.isPrivate, f.isClosed, none⟩
  linked n k h := by simpa using d.linked n k h

/-- A call that changes nothing and succeeds or fails. -/
def plain (d : Disk ι) : Choice → Option (Bool × Disk ι)
  | .succeed => some (true, d)
  | .fail => some (false, d)
  | _ => none

def mkstemp (i : ι) (d : Disk ι) (template : Bytes) :
    Choice → Option (Option (Bytes × Nat) × Disk ι)
  | .temp suffix id =>
      if suffix.length = 6 ∧ d.dir (template ++ suffix) = none ∧ (d.files id).isNone then
        some (some (template ++ suffix, id),
          d.create (template ++ suffix) id ⟨[], true, false, some i⟩)
      else none
  | .fail => some (none, d)
  | _ => none

/-- One call of `i`. `unlinkFails` says whether removing an existing name may fail. -/
def perform (crypto : Crypto) (unlinkFails : Bool) (i : ι) (d : Disk ι) :
    (call : Call) → Choice → Option (call.Answer × Disk ι)
  | .mkstemp template, choice => d.mkstemp i template choice
  | .fchmod fd, .succeed => some (true, d.alter fd fun f => { f with isPrivate := true })
  | .fchmod _, .fail => some (false, d)
  | .write fd data, .count n =>
      if n ≤ data.length then
        some (some n, d.alter fd fun f => { f with content := f.content ++ data.take n })
      else none
  | .write _ _, .fail => some (none, d)
  -- the descriptor is gone even when `close` reports an error
  | .close fd, .succeed => some (true, d.alter fd fun f => { f with isClosed := true })
  | .close fd, .fail => some (false, d.alter fd fun f => { f with isClosed := true })
  | .link old new, .succeed =>
      if (d.dir old).isSome ∧ d.dir new = none then some (.linked, d.link old new) else none
  | .link _ new, .taken => if (d.dir new).isSome then some (.taken, d) else none
  | .link _ _, .fail => some (.failed, d)
  | .rename old new, .succeed =>
      if (d.dir old).isSome then some (true, d.rename old new) else none
  | .rename _ _, .fail => some (false, d)
  | .unlink name, .succeed => some ((d.dir name).isSome, d.unlink name)
  | .unlink name, .fail => if unlinkFails ∨ d.dir name = none then some (false, d) else none
  | .openRead name, .succeed =>
      match d.dir name with
      | some id => some (.opened id, d)
      | none => some (.absent, d)
  | .openRead _, .fail => some (.failed, d)
  | .fstat fd, .succeed => (d.files fd).map fun f => (some f.isPrivate, d)
  | .fstat _, .fail => some (none, d)
  | .fgets fd offset size, .succeed =>
      (d.files fd).bind fun f =>
        let line := lineUpTo (size - 1) (f.content.drop offset)
        if line = [] then none else some (some line, d)
  | .fgets _ _ _, .fail => some (none, d)
  | .pwhash password, .hash hash =>
      if crypto.passwordOf hash = some password then some (some hash, d) else none
  | .pwhash _, .fail => some (none, d)
  | .fsync _, choice => d.plain choice
  | .openDirectory, choice => d.plain choice
  | .fsyncDirectory, choice => d.plain choice
  | .closeDirectory, choice => d.plain choice
  | .closeRead _, choice => d.plain choice
  | .fdopen _, choice => d.plain choice
  | .fclose _, choice => d.plain choice
  | .needsRehash _, choice => d.plain choice
  | _, _ => none

/-! ### What a call can do -/

section Cases

variable {crypto : Crypto} {unlinkFails : Bool} {i : ι} {d d' : Disk ι} {choice : Choice}

theorem mkstemp_cases {template : Bytes} {a : Option (Bytes × Nat)}
    (h : d.perform crypto unlinkFails i (.mkstemp template) choice = some (a, d')) :
    (a = none ∧ d' = d) ∨ ∃ suffix id, suffix.length = 6 ∧ d.dir (template ++ suffix) = none ∧
      d.files id = none ∧ a = some (template ++ suffix, id) ∧
      d' = d.create (template ++ suffix) id ⟨[], true, false, some i⟩ := by
  cases choice with
  | temp suffix id =>
    simp only [perform, mkstemp, Option.isNone_iff_eq_none, Option.ite_none_right_eq_some,
      Option.some.injEq, Prod.mk.injEq] at h
    obtain ⟨⟨hlen, hname, hid⟩, ha, hd⟩ := h
    exact .inr ⟨suffix, id, hlen, hname, hid, ha.symm, hd.symm⟩
  | fail =>
    simp only [perform, mkstemp, Option.some.injEq, Prod.mk.injEq] at h
    exact .inl ⟨h.1.symm, h.2.symm⟩
  | succeed | taken | count _ | hash _ => simp [perform, mkstemp] at h

theorem fchmod_cases {fd : Nat} {a : Bool}
    (h : d.perform crypto unlinkFails i (.fchmod fd) choice = some (a, d')) :
    (a = true ∧ d' = d.alter fd fun f => { f with isPrivate := true }) ∨ (a = false ∧ d' = d) := by
  cases choice with
  | succeed => cases h; exact .inl ⟨rfl, rfl⟩
  | fail => cases h; exact .inr ⟨rfl, rfl⟩
  | taken | temp _ _ | count _ | hash _ => cases h

theorem write_cases {fd : Nat} {data : Bytes} {a : Option Nat}
    (h : d.perform crypto unlinkFails i (.write fd data) choice = some (a, d')) :
    (a = none ∧ d' = d) ∨ ∃ n, n ≤ data.length ∧ a = some n ∧
      d' = d.alter fd fun f => { f with content := f.content ++ data.take n } := by
  cases choice with
  | count n =>
    obtain ⟨hn, h⟩ := Option.ite_none_right_eq_some.mp h
    cases h
    exact .inr ⟨n, hn, rfl, rfl⟩
  | fail => cases h; exact .inl ⟨rfl, rfl⟩
  | succeed | taken | temp _ _ | hash _ => cases h

theorem close_cases {fd : Nat} {a : Bool}
    (h : d.perform crypto unlinkFails i (.close fd) choice = some (a, d')) :
    d' = d.alter fd fun f => { f with isClosed := true } := by
  cases choice with
  | succeed | fail => cases h; rfl
  | taken | temp _ _ | count _ | hash _ => cases h

theorem link_cases {old new : Bytes} {a : LinkAnswer}
    (h : d.perform crypto unlinkFails i (.link old new) choice = some (a, d')) :
    (a = .linked ∧ d.dir new = none ∧ d' = d.link old new ∧ d'.dir new ≠ none) ∨
      (a ≠ .linked ∧ d' = d ∧ (a = .taken → d.dir new ≠ none)) := by
  cases choice with
  | succeed =>
    obtain ⟨⟨hold, hnew⟩, h⟩ := Option.ite_none_right_eq_some.mp h
    cases h
    exact .inl ⟨rfl, hnew, rfl,
      (Function.update_self ..).trans_ne (Option.isSome_iff_ne_none.mp hold)⟩
  | taken =>
    obtain ⟨hnew, h⟩ := Option.ite_none_right_eq_some.mp h
    cases h
    exact .inr ⟨by decide, rfl, fun _ => Option.isSome_iff_ne_none.mp hnew⟩
  | fail => cases h; exact .inr ⟨by decide, rfl, fun h => by cases h⟩
  | temp _ _ | count _ | hash _ => cases h

theorem rename_cases {old new : Bytes} {a : Bool}
    (h : d.perform crypto unlinkFails i (.rename old new) choice = some (a, d')) :
    (a = true ∧ d' = d.rename old new) ∨ (a = false ∧ d' = d) := by
  cases choice with
  | succeed =>
    obtain ⟨-, h⟩ := Option.ite_none_right_eq_some.mp h
    cases h
    exact .inl ⟨rfl, rfl⟩
  | fail => cases h; exact .inr ⟨rfl, rfl⟩
  | taken | temp _ _ | count _ | hash _ => cases h

theorem unlink_cases {name : Bytes} {a : Bool}
    (h : d.perform crypto unlinkFails i (.unlink name) choice = some (a, d')) :
    d' = d.unlink name ∨ (d' = d ∧ (unlinkFails = true ∨ d.dir name = none)) := by
  cases choice with
  | succeed => cases h; exact .inl rfl
  | fail =>
    obtain ⟨hfails, h⟩ := Option.ite_none_right_eq_some.mp h
    cases h
    exact .inr ⟨rfl, hfails⟩
  | taken | temp _ _ | count _ | hash _ => cases h

theorem openRead_cases {name : Bytes} {a : OpenAnswer}
    (h : d.perform crypto unlinkFails i (.openRead name) choice = some (a, d')) :
    d' = d ∧ (a = .failed ∨ (d.dir name = none ∧ a = .absent) ∨
      ∃ id, d.dir name = some id ∧ a = .opened id) := by
  cases choice with
  | succeed =>
    simp only [perform] at h
    split at h
    case h_1 id hdir => cases h; exact ⟨rfl, .inr (.inr ⟨id, hdir, rfl⟩)⟩
    case h_2 hdir => cases h; exact ⟨rfl, .inr (.inl ⟨hdir, rfl⟩)⟩
  | fail => cases h; exact ⟨rfl, .inl rfl⟩
  | taken | temp _ _ | count _ | hash _ => cases h

theorem fstat_cases {fd : Nat} {a : Option Bool}
    (h : d.perform crypto unlinkFails i (.fstat fd) choice = some (a, d')) :
    d' = d ∧ (a = none ∨ ∃ f, d.files fd = some f ∧ a = some f.isPrivate) := by
  cases choice with
  | succeed =>
    obtain ⟨f, hf, heq⟩ := Option.map_eq_some_iff.mp h
    cases heq
    exact ⟨rfl, .inr ⟨f, hf, rfl⟩⟩
  | fail => cases h; exact ⟨rfl, .inl rfl⟩
  | taken | temp _ _ | count _ | hash _ => cases h

theorem fgets_cases {fd offset size : Nat} {a : Option Bytes}
    (h : d.perform crypto unlinkFails i (.fgets fd offset size) choice = some (a, d')) :
    d' = d ∧ (a = none ∨
      ∃ f, d.files fd = some f ∧ a = some (lineUpTo (size - 1) (f.content.drop offset))) := by
  cases choice with
  | succeed =>
    obtain ⟨f, hf, h⟩ := Option.bind_eq_some_iff.mp h
    obtain ⟨-, heq⟩ := Option.ite_none_left_eq_some.mp h
    cases heq
    exact ⟨rfl, .inr ⟨f, hf, rfl⟩⟩
  | fail => cases h; exact ⟨rfl, .inl rfl⟩
  | taken | temp _ _ | count _ | hash _ => cases h

theorem pwhash_cases {password : Bytes} {a : Option Bytes}
    (h : d.perform crypto unlinkFails i (.pwhash password) choice = some (a, d')) :
    d' = d ∧ (a = none ∨ ∃ hash, crypto.passwordOf hash = some password ∧ a = some hash) := by
  cases choice with
  | hash hash =>
    obtain ⟨hhash, heq⟩ := Option.ite_none_right_eq_some.mp h
    cases heq
    exact ⟨rfl, .inr ⟨hash, hhash, rfl⟩⟩
  | fail => cases h; exact ⟨rfl, .inl rfl⟩
  | succeed | taken | temp _ _ | count _ => cases h

theorem plain_cases {a : Bool} (h : d.plain choice = some (a, d')) : d' = d := by
  cases choice with
  | succeed | fail => cases h; rfl
  | taken | temp _ _ | count _ | hash _ => cases h

end Cases

end Disk

/-! ## Calls of several parties -/

/-- The directory, and the calls each party has made so far with their answers. -/
structure World (ι : Type) where
  disk : Disk ι
  log : ι → List (Σ call : Call, call.Answer)

namespace World

variable {ι : Type} [DecidableEq ι]

def start (d : Disk ι) : World ι := ⟨d, fun _ => []⟩

def record (w : World ι) (i : ι) (call : Call) (answer : call.Answer) (d : Disk ι) : World ι :=
  ⟨d, Function.update w.log i (w.log i ++ [⟨call, answer⟩])⟩

def run (crypto : Crypto) (unlinkFails : Bool) (i : ι) (call : Call) (w : World ι)
    (choice : Choice) : Option (call.Answer × World ι) :=
  (w.disk.perform crypto unlinkFails i call choice).map fun r =>
    (r.1, w.record i call r.1 r.2)

theorem exists_perform {crypto : Crypto} {unlinkFails : Bool} {i : ι} {call : Call} {w w' : World ι}
    {answer : call.Answer}
    (h : Interleaving.semOf (World.run crypto unlinkFails) i call w answer w') :
    ∃ choice d, w.disk.perform crypto unlinkFails i call choice = some (answer, d) ∧
      w' = w.record i call answer d := by
  obtain ⟨choice, h⟩ := h
  obtain ⟨r, hr, heq⟩ := Option.map_eq_some_iff.mp h
  obtain ⟨rfl, rfl⟩ := Prod.mk.inj heq
  exact ⟨choice, r.2, hr, rfl⟩

end World

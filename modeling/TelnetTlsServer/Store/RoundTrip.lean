-- SUMMARY: What load_record accepts of a file is what build_record_text writes, and each undoes the other.
import TelnetTlsServer.Store.RecordFormat

/-!
# Records there and back

`load_record` reads three lines into buffers of fixed sizes and does not look at what
follows. Too long a line is cut, so that its rest is read as the next line; lines may end
in carriage returns, in a zero or at the end of the file. Whatever a file is like, what is
accepted of it is a pair that can be written and is then read back.
-/

open Interleaving

namespace Disk

variable {ι : Type}

/-- A call that fails only where it cannot succeed. -/
def unfailing (crypto : Crypto) (i : ι) (call : Call) (d : Disk ι) : Option (call.Answer × Disk ι) :=
  (d.perform crypto false i call .succeed).or (d.perform crypto false i call .fail)

theorem perform_of_unfailing {crypto : Crypto} {i : ι} {call : Call} {d d' : Disk ι}
    {answer : call.Answer} (h : d.unfailing crypto i call = some (answer, d')) :
    ∃ choice, d.perform crypto false i call choice = some (answer, d') := by
  rcases Option.or_eq_some_iff.mp h with h | ⟨-, h⟩
  · exact ⟨_, h⟩
  · exact ⟨_, h⟩

/-- The record of `name` is a private regular file of the server with this content. -/
structure HoldsFile (d : Disk ι) (directory name content : Bytes) : Prop where
  fits : pathFits directory (playerLeaf name) = true
  file : ∃ id f, d.dir (playerLeaf name) = some id ∧ d.files id = some f ∧
    f.isPrivate = true ∧ f.content = content

section Unfailing

variable {crypto : Crypto} {i : ι} {d : Disk ι} {fd : Nat} {f : File ι}

theorem unfailing_openRead {name : Bytes} (h : d.dir name = some fd) :
    d.unfailing crypto i (.openRead name) = some (.opened fd, d) := by
  simp [unfailing, perform, h]

theorem unfailing_fstat (h : d.files fd = some f) :
    d.unfailing crypto i (.fstat fd) = some (some f.isPrivate, d) := by
  simp [unfailing, perform, h]

/-- At the end of the file there is no line. -/
theorem unfailing_fgets (h : d.files fd = some f) (offset size : Nat) :
    d.unfailing crypto i (.fgets fd offset size) =
      some (if lineUpTo (size - 1) (f.content.drop offset) = [] then none
        else some (lineUpTo (size - 1) (f.content.drop offset)), d) := by
  simp only [unfailing, perform, h, Option.bind_some]
  split <;> rfl

end Unfailing

end Disk

/-! ## Reading a content -/

/-- What `load_record` makes of the content of a file. -/
def readContent (name content : Bytes) : Loaded :=
  let versionLine := lineUpTo (64 - 1) content
  let nameLine := lineUpTo (64 - 1) (content.drop versionLine.length)
  let hashLine := lineUpTo (cryptoPwhashStrBytes + 16 - 1)
    (content.drop (versionLine.length + nameLine.length))
  if versionLine = [] ∨ nameLine = [] ∨ hashLine = [] then .failed
  else parseRecord name versionLine nameLine hashLine

theorem readContent_recordText (wanted : Bytes) {name hash : Bytes}
    (hvalid : playerStoreNameValid name = true) (hhash : StrippedLine hash)
    (hshort : hash.length < cryptoPwhashStrBytes) :
    readContent wanted (recordText name hash) =
      if asciiEqualIgnoreCase name wanted then .record ⟨name, hash⟩ else .failed := by
  have hversion : lineUpTo (64 - 1) (recordText name hash) = recordVersion ++ [10] :=
    lineUpTo_version
  rw [readContent, hversion, lineUpTo_nameLine hvalid, lineUpTo_hashField hhash hshort,
    if_neg (by simp), parseRecord_fields wanted hvalid hhash hshort]

/-- The lines that are parsed were stripped, so the accepted fields are. -/
theorem parseRecord_eq_record {wanted versionLine nameLine hashLine : Bytes} {record : LoadedRecord}
    (h : parseRecord wanted versionLine nameLine hashLine = .record record) :
    playerStoreNameValid record.name = true ∧ asciiEqualIgnoreCase record.name wanted = true ∧
      record.passwordHash.length < cryptoPwhashStrBytes ∧
      stripLineEnding hashLine = ascii "hash=" ++ record.passwordHash := by
  unfold parseRecord at h
  dsimp only at h
  split_ifs at h with hfields hname hlong
  simp only [Bool.or_eq_true, decide_eq_true_eq, not_or, Decidable.not_not] at hfields
  simp only [Bool.or_eq_true, Bool.not_eq_true', not_or, Bool.not_eq_false] at hname
  cases h
  exact ⟨hname.1, hname.2, Nat.lt_of_not_le hlong, by rw [← hfields.2, List.take_append_drop]⟩

theorem readContent_eq_record {wanted content : Bytes} {record : LoadedRecord}
    (h : readContent wanted content = .record record) :
    playerStoreNameValid record.name = true ∧ asciiEqualIgnoreCase record.name wanted = true ∧
      record.passwordHash.length < cryptoPwhashStrBytes ∧ StrippedLine record.passwordHash := by
  unfold readContent at h
  dsimp only at h
  split_ifs at h
  obtain ⟨hvalid, hname, hshort, hhash⟩ := parseRecord_eq_record h
  have hline := strippedLine_strip (cryptoPwhashStrBytes + 16 - 1) (content.drop
    ((lineUpTo (64 - 1) content).length +
      (lineUpTo (64 - 1) (content.drop (lineUpTo (64 - 1) content).length)).length))
  rw [hhash] at hline
  exact ⟨hvalid, hname, hshort, hline.of_append⟩

/-- A record has room for every name and password string. -/
theorem buildRecordText_fits {name hash : Bytes} (hvalid : playerStoreNameValid name = true)
    (hshort : hash.length < cryptoPwhashStrBytes) :
    buildRecordText name hash = some (recordText name hash) := by
  have hmax := (playerStoreNameValid_iff.mp hvalid).2.1
  have hlength : (recordText name hash).length =
      recordVersion.length + 6 + name.length + 6 + hash.length + 1 := by
    simp [recordText, ascii]
    omega
  have hversion : recordVersion.length = 16 := rfl
  simp only [playerNameMax, cryptoPwhashStrBytes] at hmax hshort
  rw [buildRecordText, if_neg (by omega)]

section Load

variable {ι : Type} {crypto : Crypto} {i : ι} {d : Disk ι} {directory name content : Bytes}

theorem eval_readRecord {fd : Nat} {f : File ι} (h : d.files fd = some f) :
    (readRecord fd name).eval (fun call d => d.unfailing crypto i call) d =
      some (readContent name f.content, d) := by
  unfold readRecord
  rw [Prog.eval_perform (Disk.unfailing_fgets h _ _), List.drop_zero, readContent]
  by_cases hversion : lineUpTo (64 - 1) f.content = []
  · rw [if_pos hversion, if_pos (.inl hversion)]
    rfl
  rw [if_neg hversion]
  dsimp only
  rw [Prog.eval_perform (Disk.unfailing_fgets h _ _)]
  by_cases hname : lineUpTo (64 - 1)
      (f.content.drop (lineUpTo (64 - 1) f.content).length) = []
  · rw [if_pos hname, if_pos (.inr (.inl hname))]
    rfl
  rw [if_neg hname]
  dsimp only
  rw [Prog.eval_perform (Disk.unfailing_fgets h _ _)]
  split_ifs with hhash hshort hshort
  · rfl
  · exact absurd (.inr (.inr hhash)) hshort
  · exact absurd ((hshort.resolve_left hversion).resolve_left hname) hhash
  · rfl

/-- `load_record` alone, on a directory whose calls do not fail without a reason. -/
def loaded (crypto : Crypto) (i : ι) (directory name : Bytes) (d : Disk ι) :
    Option (Loaded × Disk ι) :=
  (loadRecord directory name).eval (fun call d => d.unfailing crypto i call) d

/-- It is one of the runs the directory allows. -/
theorem loaded_steps {result : Loaded} {d' : Disk ι}
    (h : loaded crypto i directory name d = some (result, d')) :
    (loadRecord directory name).Steps
      (semOf fun i call d choice => d.perform crypto false i call choice) i d (.ret result) d' := by
  refine Prog.steps_of_eval ?_ h
  intro call d answer d' hcall
  exact Disk.perform_of_unfailing hcall

theorem loaded_eq (h : d.HoldsFile directory name content) :
    loaded crypto i directory name d =
      some (if playerStoreNameValid name then readContent name content else .failed, d) := by
  unfold loaded
  obtain ⟨hfits, id, f, hdir, hfile, hprivate, rfl⟩ := h
  cases hvalid : playerStoreNameValid name with
  | false =>
    have hpath : buildPlayerPath directory name = none := by simp [buildPlayerPath, hvalid]
    rw [loadRecord, hpath]
    rfl
  | true =>
    have hpath : buildPlayerPath directory name = some (playerLeaf name) := by
      simp [buildPlayerPath, hvalid, hfits]
    rw [loadRecord, hpath]
    dsimp only
    rw [Prog.eval_perform (Disk.unfailing_openRead hdir)]
    dsimp only
    rw [Prog.eval_perform (Disk.unfailing_fstat hfile), hprivate, if_pos rfl, loadStream]
    have hopen : d.unfailing crypto i (.fdopen id) = some (true, d) := rfl
    have hclose : d.unfailing crypto i (.fclose id) = some (true, d) := rfl
    rw [Prog.eval_perform hopen, if_pos rfl, Prog.eval_bind (eval_readRecord hfile),
      Prog.eval_perform hclose]
    rfl

/-- A record is only accepted for a valid name. -/
theorem readContent_of_loaded {d' : Disk ι} {record : LoadedRecord}
    (h : d.HoldsFile directory name content)
    (hload : loaded crypto i directory name d = some (.record record, d')) :
    playerStoreNameValid name = true ∧ readContent name content = .record record := by
  rw [loaded_eq h] at hload
  split_ifs at hload with hvalid
  · exact ⟨hvalid, (Prod.mk.inj (Option.some.inj hload)).1⟩
  · cases hload

/-- Reading what was written, for any name. -/
theorem loaded_recordText {wanted hash : Bytes} (hvalid : playerStoreNameValid name = true)
    (hhash : StrippedLine hash) (hshort : hash.length < cryptoPwhashStrBytes)
    (h : d.HoldsFile directory wanted (recordText name hash)) :
    loaded crypto i directory wanted d =
      some (if asciiEqualIgnoreCase name wanted then .record ⟨name, hash⟩ else .failed, d) := by
  rw [loaded_eq h, readContent_recordText wanted hvalid hhash hshort]
  by_cases hname : asciiEqualIgnoreCase name wanted = true
  · rw [← playerStoreNameValid_congr hname, if_pos hvalid]
  · rw [if_neg hname]
    split_ifs <;> rfl

end Load

/-- A record that was written is accepted exactly for the names of its player, and then as it
was written; and what is accepted of any file is the valid name of the player that was
looked for, with a password string that fits, and is accepted again when it is written. -/
theorem record_round_trip {ι : Type} (crypto : Crypto) (i : ι) (directory : Bytes) :
    (∀ name hash : Bytes, playerStoreNameValid name = true → PlainLine hash →
      hash.length < cryptoPwhashStrBytes →
      ∃ text, buildRecordText name hash = some text ∧
        ∀ (wanted : Bytes) (d : Disk ι), d.HoldsFile directory wanted text →
          ((∃ record d', loaded crypto i directory wanted d = some (.record record, d')) ↔
            asciiEqualIgnoreCase wanted name = true) ∧
          (asciiEqualIgnoreCase wanted name = true →
            loaded crypto i directory wanted d = some (.record ⟨name, hash⟩, d))) ∧
    ∀ (wanted content : Bytes) (d d' : Disk ι) (record : LoadedRecord),
      d.HoldsFile directory wanted content →
      loaded crypto i directory wanted d = some (.record record, d') →
      playerStoreNameValid record.name = true ∧ asciiEqualIgnoreCase record.name wanted = true ∧
      record.passwordHash.length < cryptoPwhashStrBytes ∧
      ∃ text, buildRecordText record.name record.passwordHash = some text ∧
        ∀ again : Disk ι, again.HoldsFile directory wanted text →
          loaded crypto i directory wanted again = some (.record record, again) := by
  constructor
  · intro name hash hvalid hplain hshort
    refine ⟨_, buildRecordText_fits hvalid hshort, fun wanted d hfile => ?_⟩
    have hload : loaded crypto i directory wanted d = _ :=
      loaded_recordText hvalid hplain.strippedLine hshort hfile
    have hcomm : asciiEqualIgnoreCase wanted name = true ↔ asciiEqualIgnoreCase name wanted = true := by
      rw [asciiEqualIgnoreCase_iff, asciiEqualIgnoreCase_iff, eq_comm]
    rw [hcomm, hload]
    refine ⟨⟨?_, fun hname => ⟨⟨name, hash⟩, d, by rw [if_pos hname]⟩⟩, fun hname => by rw [if_pos hname]⟩
    rintro ⟨record, d', heq⟩
    by_contra hname
    rw [if_neg hname] at heq
    cases heq
  · intro wanted content d d' record hfile hload
    obtain ⟨-, hread⟩ := readContent_of_loaded hfile hload
    obtain ⟨hvalid, hname, hshort, hhash⟩ := readContent_eq_record hread
    refine ⟨hvalid, hname, hshort, _, buildRecordText_fits hvalid hshort, fun again hagain => ?_⟩
    rw [loaded_recordText hvalid hhash hshort hagain, if_pos hname]

/-- A directory with one private file. -/
def Disk.holding (name content : Bytes) : Disk Unit where
  dir other := if other = name then some 0 else none
  files _ := some ⟨content, true, true, none⟩
  linked _ _ _ := rfl

/-- A library that knows no password. -/
def Crypto.unknown : Crypto where
  passwordOf _ := none
  plain _ _ h := by cases h
  short _ _ h := by cases h

/-- The record of `Ada` is found under `ADA`. -/
theorem record_round_trip_ada : ∃ text, buildRecordText (ascii "Ada") (ascii "$argon2id$") = some text ∧
    loaded Crypto.unknown () (ascii "/srv") (ascii "ADA") (Disk.holding (ascii "ada.player") text) =
      some (.record ⟨ascii "Ada", ascii "$argon2id$"⟩, Disk.holding (ascii "ada.player") text) := by
  obtain ⟨text, htext, hload⟩ := (record_round_trip Crypto.unknown () (ascii "/srv")).1 (ascii "Ada")
    (ascii "$argon2id$") (by decide) (by decide) (by decide)
  have hfile : (Disk.holding (ascii "ada.player") text).HoldsFile (ascii "/srv") (ascii "ADA") text :=
    ⟨by decide, 0, ⟨text, true, true, none⟩, rfl, rfl, rfl, rfl⟩
  exact ⟨text, htext, (hload (ascii "ADA") _ hfile).2 (by decide)⟩

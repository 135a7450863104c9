-- SUMMARY: The record functions of player_store.c as threads over the player directory.
import Mathlib.Data.List.DropRight
import TelnetTlsServer.Store.Disk
import TelnetTlsServer.Store.PlayerRules

/-!
# Player store

Creating, loading and verifying accounts, call by call. Paths are names within
the store's directory; how long the full path is still decides whether a function
gives up. What the code keeps in local variables is a variable here too, and
clearing secrets from memory is left out.
-/

open Interleaving

abbrev StoreProg := Prog Call Call.Answer

/-- One system call. -/
abbrev sys (call : Call) : StoreProg call.Answer := .perform call

def playerFileSuffix : Bytes := ascii ".player"
def recordVersion : Bytes := ascii "player-record-v1"

def pathFits (directory leaf : Bytes) : Bool := directory.length + 1 + leaf.length < pathMax

/-- The name of the record of the player called `name`. -/
def playerLeaf (name : Bytes) : Bytes := name.map asciiLower ++ playerFileSuffix

def buildPlayerPath (directory name : Bytes) : Option Bytes :=
  if !playerStoreNameValid name then none
  else if pathFits directory (playerLeaf name) then some (playerLeaf name)
  else none

theorem buildPlayerPath_eq_some {directory name path : Bytes}
    (h : buildPlayerPath directory name = some path) :
    playerStoreNameValid name = true ∧ path = playerLeaf name := by
  unfold buildPlayerPath at h
  split at h
  · cases h
  case isFalse hvalid =>
    obtain ⟨-, hpath⟩ := Option.ite_none_right_eq_some.mp h
    exact ⟨by simpa using hvalid, (Option.some.inj hpath).symm⟩

theorem asciiLower_ne_dot {ch : UInt8} (h : nameByteValid ch = true) : asciiLower ch ≠ 46 := by
  unfold asciiLower
  split
  case isTrue hupper =>
    obtain ⟨hlow, hhigh⟩ := hupper
    rw [UInt8.le_iff_toNat_le] at hlow hhigh
    intro heq
    have hnat : (ch + 32).toNat = 46 := by rw [heq]; rfl
    rw [UInt8.toNat_add] at hnat
    simp only [UInt8.reduceToNat] at hlow hhigh hnat
    omega
  case isFalse =>
    rintro rfl
    exact absurd h (by decide)

/-- Records are never hidden files, as temporary ones are. -/
theorem playerLeaf_ne_dot {name rest : Bytes} (h : playerStoreNameValid name = true) :
    playerLeaf name ≠ 46 :: rest := by
  obtain ⟨hmin, -, hall⟩ := playerStoreNameValid_iff.mp h
  cases name with
  | nil => simp [playerNameMin] at hmin
  | cons ch name =>
    intro heq
    exact asciiLower_ne_dot (hall ch List.mem_cons_self) (List.cons.inj heq).1

theorem playerLeaf_eq_iff {name other : Bytes} :
    playerLeaf name = playerLeaf other ↔ asciiEqualIgnoreCase name other = true := by
  rw [asciiEqualIgnoreCase_iff, playerLeaf, playerLeaf, List.append_left_inj]

theorem buildPlayerPath_congr {directory name other : Bytes}
    (h : asciiEqualIgnoreCase name other = true) :
    buildPlayerPath directory name = buildPlayerPath directory other := by
  rw [buildPlayerPath, buildPlayerPath, playerStoreNameValid_congr h, playerLeaf_eq_iff.mpr h]

/-! ## Writing records -/

/-- The loop of `write_all`. Each round writes at least a byte, so the length of
the text bounds the rounds. -/
def writeAllFrom (fd : Nat) : Nat → Bytes → StoreProg Bool
  | _, [] => pure true
  | 0, _ :: _ => pure false
  | fuel + 1, b :: rest => do
      match ← sys (.write fd (b :: rest)) with
      | none => pure false
      | some written =>
          if written = 0 then pure false
          else writeAllFrom fd fuel ((b :: rest).drop written)

def writeAll (fd : Nat) (data : Bytes) : StoreProg Bool := writeAllFrom fd data.length data

def recordText (name hash : Bytes) : Bytes :=
  recordVersion ++ ascii "\nname=" ++ name ++ ascii "\nhash=" ++ hash ++ [10]

def buildRecordText (name hash : Bytes) : Option Bytes :=
  if (recordText name hash).length ≥ 512 then none else some (recordText name hash)

theorem buildRecordText_eq_some {name hash text : Bytes}
    (h : buildRecordText name hash = some text) : text = recordText name hash := by
  obtain ⟨-, htext⟩ := Option.ite_none_left_eq_some.mp h
  exact (Option.some.inj htext).symm

def syncDirectory : StoreProg Bool := do
  if ← sys .openDirectory then
    let synced ← sys .fsyncDirectory
    let _ ← sys .closeDirectory
    pure synced
  else pure false

/-- `fchmod`, `write_all` and `fsync`, up to the first that fails. -/
def writeSynced (fd : Nat) (text : Bytes) : StoreProg Bool := do
  if ← sys (.fchmod fd) then
    if ← writeAll fd text then sys (.fsync fd) else pure false
  else pure false

/-- What both writers do with their temporary file before they publish it. When
writing failed, its `close` is the one of the cleanup. -/
def fillTemp (fd : Nat) (text : Bytes) : StoreProg Bool := do
  let written ← writeSynced fd text
  let closed ← sys (.close fd)
  pure (written && closed)

/-- The `result` and `linked` of `write_new_record_atomic` at its cleanup. -/
def linkRecord (fd : Nat) (tempPath finalPath text : Bytes) : StoreProg (Int × Bool) := do
  if ← fillTemp fd text then
    match ← sys (.link tempPath finalPath) with
    | .taken => pure (1, false)
    | .failed => pure (-1, false)
    | .linked => do
        if ← syncDirectory then pure (0, true) else pure (-1, true)
  else pure (-1, false)

/-- `write_new_record_atomic` after its `mkstemp`, cleanup included. -/
def publishNew (finalPath text : Bytes) (temp : Bytes × Nat) : StoreProg Int := do
  let outcome ← linkRecord temp.2 temp.1 finalPath text
  if outcome.1 ≠ 0 && outcome.2 then
    let _ ← sys (.unlink finalPath)
    let _ ← sys (.unlink temp.1)
    pure outcome.1
  else
    let _ ← sys (.unlink temp.1)
    pure outcome.1

def writeTemplate : Bytes := ascii ".player-write-"

def writeNewRecordAtomic (directory name hash : Bytes) : StoreProg Int :=
  match buildPlayerPath directory name with
  | none => pure (-1)
  | some finalPath =>
      if !pathFits directory (writeTemplate ++ ascii "XXXXXX") then pure (-1)
      else
        match buildRecordText name hash with
        | none => pure (-1)
        | some text => do
            match ← sys (.mkstemp writeTemplate) with
            | none => pure (-1)
            | some temp => publishNew finalPath text temp

/-- The `result` of `replace_record_atomic` at its cleanup. -/
def renameRecord (fd : Nat) (tempPath finalPath text : Bytes) : StoreProg Int := do
  if ← fillTemp fd text then
    if ← sys (.rename tempPath finalPath) then
      if ← syncDirectory then pure 0 else pure (-1)
    else pure (-1)
  else pure (-1)

/-- `replace_record_atomic` after its `mkstemp`. The name of the temporary file is
removed also after a rename, when it is no longer this call's own. -/
def publishReplacement (finalPath text : Bytes) (temp : Bytes × Nat) : StoreProg Int := do
  let result ← renameRecord temp.2 temp.1 finalPath text
  let _ ← sys (.unlink temp.1)
  pure result

def rehashTemplate : Bytes := ascii ".player-rehash-"

def replaceRecordAtomic (directory name hash : Bytes) : StoreProg Int :=
  match buildPlayerPath directory name with
  | none => pure (-1)
  | some finalPath =>
      if !pathFits directory (rehashTemplate ++ ascii "XXXXXX") then pure (-1)
      else
        match buildRecordText name hash with
        | none => pure (-1)
        | some text => do
            match ← sys (.mkstemp rehashTemplate) with
            | none => pure (-1)
            | some temp => publishReplacement finalPath text temp

/-! ## Loading records -/

structure LoadedRecord where
  name : Bytes
  passwordHash : Bytes
deriving DecidableEq

/-- The results 0, 1 and -1 of `load_record`. -/
inductive Loaded where
  | record (record : LoadedRecord)
  | absent
  | failed
deriving DecidableEq

def stripLineEnding (line : Bytes) : Bytes := (cString line).rdropWhile fun b => b = 10 || b = 13

def parseRecord (name versionLine nameLine hashLine : Bytes) : Loaded :=
  let version := stripLineEnding versionLine
  let nameText := stripLineEnding nameLine
  let hashText := stripLineEnding hashLine
  if version ≠ recordVersion || nameText.take 5 ≠ ascii "name=" ||
      hashText.take 5 ≠ ascii "hash=" then .failed
  else if !playerStoreNameValid (nameText.drop 5) ||
      !asciiEqualIgnoreCase (nameText.drop 5) name then .failed
  else if (hashText.drop 5).length ≥ cryptoPwhashStrBytes then .failed
  else .record ⟨nameText.drop 5, hashText.drop 5⟩

/-- The three lines of a record, read one after the other. -/
def readRecord (fd : Nat) (name : Bytes) : StoreProg Loaded := do
  match ← sys (.fgets fd 0 64) with
  | none => pure .failed
  | some versionLine => do
      match ← sys (.fgets fd versionLine.length 64) with
      | none => pure .failed
      | some nameLine => do
          match ← sys (.fgets fd (versionLine.length + nameLine.length)
              (cryptoPwhashStrBytes + 16)) with
          | none => pure .failed
          | some hashLine => pure (parseRecord name versionLine nameLine hashLine)

/-- `load_record` from its `fdopen` on. -/
def loadStream (fd : Nat) (name : Bytes) : StoreProg Loaded := do
  if ← sys (.fdopen fd) then
    let loaded ← readRecord fd name
    if ← sys (.fclose fd) then pure loaded else pure .failed
  else
    let _ ← sys (.closeRead fd)
    pure .failed

def loadRecord (directory name : Bytes) : StoreProg Loaded :=
  match buildPlayerPath directory name with
  | none => pure .failed
  | some path => do
      match ← sys (.openRead path) with
      | .absent => pure .absent
      | .failed => pure .failed
      | .opened fd => do
          if (← sys (.fstat fd)) = some true then loadStream fd name
          else
            let _ ← sys (.closeRead fd)
            pure .failed

/-! ## The interface -/

def playerStoreExists (directory name : Bytes) : StoreProg Int := do
  match ← loadRecord directory name with
  | .record _ => pure 1
  | .absent => pure 0
  | .failed => pure (-1)

def playerStoreCreate (directory name : Bytes) (prepared : Buffer 256) : StoreProg Int :=
  if !playerStoreNameValid name then pure (-1)
  else if prepared.string = [] || !prepared.bytes.contains 0 ||
      prepared.string.length ≥ cryptoPwhashStrBytes then pure (-1)
  else writeNewRecordAtomic directory name prepared.string

/-- The result, and what `*rehashed` is set to. -/
def playerStoreVerifyPassword (crypto : Crypto) (directory name password : Bytes) :
    StoreProg (Int × Bool) :=
  if password.length > playerPasswordMax then pure (-1, false)
  else do
    match ← loadRecord directory name with
    | .absent => pure (-1, false)
    | .failed => pure (-1, false)
    | .record record =>
        if !crypto.verify record.passwordHash password then pure (0, false)
        else
          if ← sys (.needsRehash record.passwordHash) then
            match ← sys (.pwhash password) with
            | none => pure (1, false)
            | some updatedHash => do
                let replaced ← replaceRecordAtomic directory record.name updatedHash
                pure (1, replaced = 0)
          else pure (1, false)

-- SUMMARY: The player store and the security policy identify the same accounts, and no record file is named like another file of the store.
import TelnetTlsServer.Policy.SecurityPolicy
import TelnetTlsServer.Store.PlayerStore

/-!
# Account identity

A player name becomes a file name in the store and a key in the policy. Both fold the
case of its letters and nothing else, so a lockout, a record and a login agree on which
names are one account.
-/

/-- The string `build_player_path` leaves in its buffer, for a file of the directory. -/
def fullPath (directory leaf : Bytes) : Bytes := directory ++ 47 :: leaf

theorem fullPath_inj {directory leaf leaf' : Bytes} :
    fullPath directory leaf = fullPath directory leaf' ↔ leaf = leaf' := by
  simp [fullPath]

/-- A valid name is short enough to be a key as a whole. -/
theorem normalizeAccount_name (name : PlayerName) :
    normalizeAccount accountKeyBytes name.val = name.val.map asciiLower := by
  obtain ⟨-, hmax, -⟩ := playerStoreNameValid_iff.mp name.property
  rw [normalizeAccount, List.take_of_length_le]
  exact hmax.trans (by decide)

theorem normalizeAccount_eq_iff (name other : PlayerName) :
    normalizeAccount accountKeyBytes name.val = normalizeAccount accountKeyBytes other.val ↔
      asciiEqualIgnoreCase name.val other.val = true := by
  rw [normalizeAccount_name, normalizeAccount_name, asciiEqualIgnoreCase_iff]

theorem asciiLower_ne_slash {ch : UInt8} : nameByteValid ch = true → asciiLower ch ≠ 47 :=
  forall_byte (by decide +kernel) ch

theorem slash_not_mem_playerLeaf (name : PlayerName) : 47 ∉ playerLeaf name.val := by
  obtain ⟨-, -, hall⟩ := playerStoreNameValid_iff.mp name.property
  intro hmem
  rcases List.mem_append.mp hmem with hname | hsuffix
  · obtain ⟨ch, hch, heq⟩ := List.mem_map.mp hname
    exact asciiLower_ne_slash (hall ch hch) heq
  · exact absurd hsuffix (by decide)

theorem buildPlayerPath_name {name : PlayerName} {directory : Bytes}
    (h : pathFits directory (playerLeaf name.val) = true) :
    buildPlayerPath directory name.val = some (playerLeaf name.val) := by
  rw [buildPlayerPath, name.property, h]
  rfl

/-- Two valid names have one path in a directory exactly if they have one key in the policy,
and exactly if they are equal up to case. The file is named by the name in small letters
and the suffix; it is in the directory itself, not hidden, and so neither the directory, its
parent nor a temporary file. -/
theorem account_identity (name other : PlayerName) (directory : Bytes)
    (hname : pathFits directory (playerLeaf name.val) = true)
    (hother : pathFits directory (playerLeaf other.val) = true) :
    ((buildPlayerPath directory name.val).map (fullPath directory) =
        (buildPlayerPath directory other.val).map (fullPath directory) ↔
      normalizeAccount accountKeyBytes name.val = normalizeAccount accountKeyBytes other.val) ∧
    (normalizeAccount accountKeyBytes name.val = normalizeAccount accountKeyBytes other.val ↔
      asciiEqualIgnoreCase name.val other.val = true) ∧
    ∃ leaf, buildPlayerPath directory name.val = some leaf ∧
      leaf = name.val.map asciiLower ++ ascii ".player" ∧ 47 ∉ leaf ∧ leaf.head? ≠ some 46 ∧
      leaf ≠ ascii "." ∧ leaf ≠ ascii ".." ∧
      ∀ suffix, leaf ≠ writeTemplate ++ suffix ∧ leaf ≠ rehashTemplate ++ suffix := by
  have hhidden : ∀ rest, playerLeaf name.val ≠ 46 :: rest :=
    fun rest => playerLeaf_ne_dot name.property
  rw [buildPlayerPath_name hname, buildPlayerPath_name hother]
  refine ⟨?_, normalizeAccount_eq_iff name other, _, rfl, rfl, slash_not_mem_playerLeaf name, ?_,
    hhidden _, hhidden _, fun suffix => ⟨hhidden _, hhidden _⟩⟩
  · rw [Option.map_some, Option.map_some, Option.some.injEq, fullPath_inj, playerLeaf_eq_iff,
      normalizeAccount_eq_iff]
  · rw [Ne, List.head?_eq_some_iff]
    rintro ⟨rest, hrest⟩
    exact hhidden rest hrest

/-- `Ada` and `aDA` are one account in `/var/players`. -/
theorem account_identity_ada :
    (buildPlayerPath (ascii "/var/players") (ascii "Ada")).map (fullPath (ascii "/var/players")) =
      (buildPlayerPath (ascii "/var/players") (ascii "aDA")).map (fullPath (ascii "/var/players")) :=
  let same := account_identity ⟨ascii "Ada", by decide⟩ ⟨ascii "aDA", by decide⟩
    (ascii "/var/players") (by decide) (by decide)
  same.1.mpr (same.2.1.mpr (by decide))

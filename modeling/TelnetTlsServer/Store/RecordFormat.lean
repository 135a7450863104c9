-- SUMMARY: A record that player_store.c wrote is read back as it was written.
import TelnetTlsServer.Store.PlayerStore

/-!
# Record format

A record is three lines. `fgets` cuts a complete record at its line ends, the
buffers of `load_record` are large enough for every line it can have, and what is
left after the line endings and the field names is the name and the password
string that were written.
-/

/-- A line of text: a C string without line endings. -/
def PlainLine (line : Bytes) : Prop := ∀ b ∈ line, b ≠ 0 ∧ b ≠ 10 ∧ b ≠ 13

instance PlainLine.decidable (line : Bytes) : Decidable (PlainLine line) :=
  List.decidableBAll (fun b => b ≠ 0 ∧ b ≠ 10 ∧ b ≠ 13) line

theorem PlainLine.append {line rest : Bytes} (h : PlainLine line) (hrest : PlainLine rest) :
    PlainLine (line ++ rest) := by
  intro b hb
  rcases List.mem_append.mp hb with hb | hb
  · exact h b hb
  · exact hrest b hb

theorem plainLine_of_valid {name : Bytes} (h : playerStoreNameValid name = true) :
    PlainLine name := by
  intro b hb
  have hvalid := (playerStoreNameValid_iff.mp h).2.2 b hb
  refine ⟨?_, ?_, ?_⟩ <;> rintro rfl <;> exact absurd hvalid (by decide)

/-- What is left of a line when its ending has been taken off: a C string that may hold
carriage returns, but not at its end. -/
structure StrippedLine (line : Bytes) : Prop where
  string : 0 ∉ line
  oneLine : 10 ∉ line
  stripped : ∀ init, line ≠ init ++ [13]

theorem PlainLine.strippedLine {line : Bytes} (h : PlainLine line) : StrippedLine line where
  string hmem := (h 0 hmem).1 rfl
  oneLine hmem := (h 10 hmem).2.1 rfl
  stripped init heq := (h 13 (by rw [heq]; simp)).2.2 rfl

/-- A field name in front of a value. -/
theorem StrippedLine.append {line field : Bytes} (h : StrippedLine line) (hfield : PlainLine field) :
    StrippedLine (field ++ line) where
  string hmem := (List.mem_append.mp hmem).elim (fun hf => (hfield 0 hf).1 rfl) h.string
  oneLine hmem := (List.mem_append.mp hmem).elim (fun hf => (hfield 10 hf).2.1 rfl) h.oneLine
  stripped init heq := by
    rcases List.eq_nil_or_concat' line with rfl | ⟨init', last, rfl⟩
    · rw [List.append_nil] at heq
      exact hfield.strippedLine.stripped init heq
    · rw [← List.append_assoc] at heq
      obtain ⟨-, rfl⟩ := List.append_singleton_inj.mp heq
      exact h.stripped init' rfl

theorem StrippedLine.of_append {line field : Bytes} (h : StrippedLine (field ++ line)) :
    StrippedLine line where
  string hmem := h.string (List.mem_append_right _ hmem)
  oneLine hmem := h.oneLine (List.mem_append_right _ hmem)
  stripped init heq := h.stripped (field ++ init) (by rw [heq, List.append_assoc])

theorem lineUpTo_ended {n : Nat} {line : Bytes} (rest : Bytes) (h : 10 ∉ line)
    (hlength : line.length < n) : lineUpTo n (line ++ [10] ++ rest) = line ++ [10] := by
  induction line generalizing n with
  | nil =>
    obtain ⟨n, rfl⟩ := Nat.exists_eq_succ_of_ne_zero (Nat.ne_of_gt hlength)
    rfl
  | cons b line ih =>
    obtain ⟨n, rfl⟩ := Nat.exists_eq_succ_of_ne_zero (Nat.ne_zero_of_lt hlength)
    obtain ⟨hb, hline⟩ := not_or.mp (mt List.mem_cons.mpr h)
    simp only [List.cons_append, lineUpTo, Ne.symm hb, if_false]
    rw [ih hline (Nat.lt_of_succ_lt_succ hlength)]

theorem lineUpTo_line {n : Nat} {line : Bytes} (rest : Bytes) (h : PlainLine line)
    (hlength : line.length < n) : lineUpTo n (line ++ [10] ++ rest) = line ++ [10] :=
  lineUpTo_ended rest h.strippedLine.oneLine hlength

theorem stripLineEnding_ended {line : Bytes} (h : StrippedLine line) :
    stripLineEnding (line ++ [10]) = line := by
  have hstring : cString (line ++ [10]) = line ++ [10] := by
    apply List.takeWhile_eq_self_iff.mpr
    intro b hb
    rcases List.mem_append.mp hb with hb | hb
    · rw [decide_eq_true_eq]
      rintro rfl
      exact h.string hb
    · simp only [List.mem_singleton] at hb
      simp [hb]
  rw [stripLineEnding, hstring, List.rdropWhile_concat_pos _ _ _ (by simp), List.rdropWhile_eq_self_iff]
  intro hne
  obtain ⟨init, last, hlast⟩ := (List.eq_nil_or_concat' line).resolve_left hne
  have hlf : last ≠ 10 := by
    rintro rfl
    exact h.oneLine (by simp [hlast])
  have hcr : last ≠ 13 := by
    rintro rfl
    exact h.stripped init hlast
  subst hlast
  simp [hlf, hcr]

theorem stripLineEnding_line {line : Bytes} (h : PlainLine line) :
    stripLineEnding (line ++ [10]) = line :=
  stripLineEnding_ended h.strippedLine

/-- A line feed can only be the last byte `fgets` takes. -/
theorem eq_of_prefix_lineUpTo {n : Nat} {rest line : Bytes} (hline : line <+: lineUpTo n rest)
    (hmem : 10 ∈ line) : ∃ init, line = init ++ [10] := by
  induction n generalizing rest line with
  | zero =>
    obtain rfl := List.prefix_nil.mp hline
    cases hmem
  | succ n ih =>
    cases rest with
    | nil =>
      obtain rfl := List.prefix_nil.mp hline
      cases hmem
    | cons b rest =>
      cases line with
      | nil => cases hmem
      | cons c line =>
        rw [lineUpTo] at hline
        split at hline
        case isTrue hb =>
          obtain ⟨rfl, hnil⟩ := List.cons_prefix_cons.mp hline
          obtain rfl := List.prefix_nil.mp hnil
          exact ⟨[], by rw [hb]; rfl⟩
        case isFalse hb =>
          obtain ⟨rfl, hrest⟩ := List.cons_prefix_cons.mp hline
          obtain ⟨init, rfl⟩ := ih hrest ((List.mem_cons.mp hmem).resolve_left (Ne.symm hb))
          exact ⟨c :: init, rfl⟩

/-- Whatever `fgets` read, the line is stripped afterwards. -/
theorem strippedLine_strip (n : Nat) (rest : Bytes) :
    StrippedLine (stripLineEnding (lineUpTo n rest)) := by
  have hstring : stripLineEnding (lineUpTo n rest) <+: cString (lineUpTo n rest) :=
    List.rdropWhile_prefix _ _
  have hend : ∀ init (b : UInt8), (b = 10 || b = 13) = true →
      stripLineEnding (lineUpTo n rest) ≠ init ++ [b] := by
    intro init b hb heq
    have hlast := List.rdropWhile_last_not (fun b => b = 10 || b = 13) (cString (lineUpTo n rest))
      (by rw [← stripLineEnding, heq]; simp)
    simp only [← stripLineEnding.eq_1, heq, List.getLast_append_singleton] at hlast
    exact hlast hb
  refine ⟨fun hmem => ?_, fun hmem => ?_, fun init => hend init 13 (by decide)⟩
  · have hzero := List.mem_takeWhile_imp (hstring.subset hmem)
    simp at hzero
  · obtain ⟨init, heq⟩ := eq_of_prefix_lineUpTo (hstring.trans (List.takeWhile_prefix _)) hmem
    exact hend init 10 (by decide) heq

/-! ## The three lines -/

def nameLine (name : Bytes) : Bytes := ascii "name=" ++ name

def hashLine (hash : Bytes) : Bytes := ascii "hash=" ++ hash

theorem recordText_eq (name hash : Bytes) :
    recordText name hash =
      recordVersion ++ [10] ++ (nameLine name ++ [10] ++ (hashLine hash ++ [10])) := by
  have hname : ascii "\nname=" = 10 :: ascii "name=" := rfl
  have hhash : ascii "\nhash=" = 10 :: ascii "hash=" := rfl
  simp [recordText, nameLine, hashLine, hname, hhash, List.append_assoc]

section Lines

variable {name hash : Bytes}

theorem plainLine_recordVersion : PlainLine recordVersion := by decide

theorem plainLine_nameLine (h : PlainLine name) : PlainLine (nameLine name) :=
  .append (by decide) h

theorem strippedLine_hashLine (h : StrippedLine hash) : StrippedLine (hashLine hash) :=
  h.append (by decide)

/-- What the first `fgets` of `load_record` takes from a record. -/
theorem lineUpTo_version :
    lineUpTo (64 - 1) ((recordText name hash).drop 0) = recordVersion ++ [10] := by
  rw [recordText_eq, List.drop_zero]
  exact lineUpTo_line _ plainLine_recordVersion (by decide)

/-- The second `fgets`, for which a name is never too long. -/
theorem lineUpTo_nameLine (h : playerStoreNameValid name = true) :
    lineUpTo (64 - 1) ((recordText name hash).drop (recordVersion ++ [10]).length) =
      nameLine name ++ [10] := by
  have hmax := (playerStoreNameValid_iff.mp h).2.1
  have hlength : (nameLine name).length = 5 + name.length := List.length_append
  rw [recordText_eq, List.drop_left]
  refine lineUpTo_line _ (plainLine_nameLine (plainLine_of_valid h)) ?_
  rw [hlength]
  simp only [playerNameMax] at hmax
  omega

theorem lineUpTo_hashField (h : StrippedLine hash) (hshort : hash.length < cryptoPwhashStrBytes) :
    lineUpTo (cryptoPwhashStrBytes + 16 - 1) ((recordText name hash).drop
      ((recordVersion ++ [10]).length + (nameLine name ++ [10]).length)) = hashLine hash ++ [10] := by
  have hlength : (hashLine hash).length = 5 + hash.length := List.length_append
  rw [recordText_eq, ← List.append_assoc, ← List.length_append, List.drop_left]
  rw [← List.append_nil (hashLine hash ++ [10]), lineUpTo_ended [] (strippedLine_hashLine h).oneLine,
    List.append_nil]
  rw [hlength]
  simp only [cryptoPwhashStrBytes] at hshort ⊢
  omega

/-- The third `fgets`, for which a password string is never too long. -/
theorem lineUpTo_hashLine (h : PlainLine hash) (hshort : hash.length < cryptoPwhashStrBytes) :
    lineUpTo (cryptoPwhashStrBytes + 16 - 1) ((recordText name hash).drop
      ((recordVersion ++ [10]).length + (nameLine name ++ [10]).length)) = hashLine hash ++ [10] :=
  lineUpTo_hashField h.strippedLine hshort

/-- What `load_record` makes of the lines of a record, whichever player it looks for. -/
theorem parseRecord_fields (wanted : Bytes) (hvalid : playerStoreNameValid name = true)
    (hhash : StrippedLine hash) (hshort : hash.length < cryptoPwhashStrBytes) :
    parseRecord wanted (recordVersion ++ [10]) (nameLine name ++ [10]) (hashLine hash ++ [10]) =
      if asciiEqualIgnoreCase name wanted then .record ⟨name, hash⟩ else .failed := by
  have htake : (nameLine name).take 5 = ascii "name=" := List.take_left' rfl
  have hdrop : (nameLine name).drop 5 = name := List.drop_left' rfl
  have htake' : (hashLine hash).take 5 = ascii "hash=" := List.take_left' rfl
  have hdrop' : (hashLine hash).drop 5 = hash := List.drop_left' rfl
  simp only [parseRecord, stripLineEnding_line plainLine_recordVersion,
    stripLineEnding_line (plainLine_nameLine (plainLine_of_valid hvalid)),
    stripLineEnding_ended (strippedLine_hashLine hhash), htake, hdrop, htake', hdrop']
  cases asciiEqualIgnoreCase name wanted <;> simp [hvalid, Nat.not_le.mpr hshort]

/-- What `load_record` makes of the lines of a record of the player it looks for. -/
theorem parseRecord_lines {wanted : Bytes} (hvalid : playerStoreNameValid name = true)
    (hname : asciiEqualIgnoreCase name wanted = true) (hplain : PlainLine hash)
    (hshort : hash.length < cryptoPwhashStrBytes) :
    parseRecord wanted (recordVersion ++ [10]) (nameLine name ++ [10]) (hashLine hash ++ [10]) =
      .record ⟨name, hash⟩ := by
  rw [parseRecord_fields wanted hvalid hplain.strippedLine hshort, if_pos hname]

end Lines

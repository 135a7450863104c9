-- SUMMARY: The grammar of NEW-ENVIRON reports: which entries the handler reads, and that an encoded list is read back.
import TelnetTlsServer.Session.Knowledge

/-!
# The grammar of NEW-ENVIRON reports

A report is a sequence of entries. An entry is a type byte and a name, and a value
after VAL if it has one. The four codes can stand in a name or a value only behind
ESC; any other byte may, and need not, be quoted too. `EntriesSpell` says of a byte
string that it spells a list of entries, and the handler reads exactly these.
-/

/-- A name or a value as it stands in a report. -/
inductive Spells : Bytes → Bytes → Prop where
  | nil : Spells [] []
  | plain {b : UInt8} {bytes text : Bytes} (hb : 3 < b) (h : Spells bytes text) :
      Spells (b :: bytes) (b :: text)
  | quoted {b : UInt8} {bytes text : Bytes} (h : Spells bytes text) :
      Spells (newEnvironEsc :: b :: bytes) (b :: text)

def IsEntryType (token : UInt8) : Prop := token = newEnvironVar ∨ token = newEnvironUservar

/-- Nothing follows, or another entry does. -/
def AtEntry (rest : Bytes) : Prop := ∀ token ∈ rest.head?, IsEntryType token

inductive EntrySpells : Bytes → EnvironEntry → Prop where
  | bare {token : UInt8} {bytes name : Bytes} (htoken : IsEntryType token)
      (hname : Spells bytes name) (hshort : name.length ≤ 64) :
      EntrySpells (token :: bytes) ⟨token, name, []⟩
  | valued {token : UInt8} {bytes name bytes' value : Bytes} (htoken : IsEntryType token)
      (hname : Spells bytes name) (hshort : name.length ≤ 64) (hvalue : Spells bytes' value)
      (hshort' : value.length ≤ 128) :
      EntrySpells (token :: (bytes ++ newEnvironVal :: bytes')) ⟨token, name, value⟩

inductive EntriesSpell : Bytes → List EnvironEntry → Prop where
  | nil : EntriesSpell [] []
  | cons {bytes bytes' : Bytes} {entry : EnvironEntry} {entries : List EnvironEntry}
      (h : EntrySpells bytes entry) (h' : EntriesSpell bytes' entries) :
      EntriesSpell (bytes ++ bytes') (entry :: entries)

/-! ## What is spelled is read -/

/-- A byte above 3 is none of the codes. -/
theorem ne_codes {b : UInt8} (hb : 3 < b) : b ≠ newEnvironEsc ∧ b ≠ newEnvironVal ∧
    b ≠ newEnvironVar ∧ b ≠ newEnvironUservar := by
  refine ⟨?_, ?_, ?_, ?_⟩ <;> rintro rfl <;> exact absurd hb (by decide)

theorem three_lt_of_ne {b : UInt8} (hesc : b ≠ newEnvironEsc) (hval : b ≠ newEnvironVal)
    (hvar : b ≠ newEnvironVar) (huservar : b ≠ newEnvironUservar) : 3 < b := by
  have hall : ∀ n : Fin 4, UInt8.ofNat n.val = newEnvironEsc ∨ UInt8.ofNat n.val = newEnvironVal ∨
      UInt8.ofNat n.val = newEnvironVar ∨ UInt8.ofNat n.val = newEnvironUservar := by decide
  by_contra hle
  have hlt : b.toNat < 4 := Nat.lt_succ_of_le (UInt8.le_iff_toNat_le.mp (UInt8.not_lt.mp hle))
  have hb := hall ⟨b.toNat, hlt⟩
  simp only [UInt8.ofNat_toNat] at hb
  tauto

/-- A loop that takes every byte while there is room for it reads what is spelled. -/
theorem Spells.read_append {ρ : Type} {read : Bytes → Bytes → ρ} {room : Nat}
    (hplain : ∀ {b : UInt8} {taken : Bytes} (rest), 3 < b → ¬ taken.length ≥ room →
      read taken (b :: rest) = read (taken ++ [b]) rest)
    (hquoted : ∀ {b : UInt8} {taken : Bytes} (rest), ¬ taken.length ≥ room →
      read taken (newEnvironEsc :: b :: rest) = read (taken ++ [b]) rest)
    {bytes text : Bytes} (h : Spells bytes text) {taken : Bytes}
    (hroom : taken.length + text.length ≤ room) (rest : Bytes) :
    read taken (bytes ++ rest) = read (taken ++ text) rest := by
  induction h generalizing taken with
  | nil => rw [List.nil_append, List.append_nil]
  | plain hb h ih =>
    rw [List.length_cons] at hroom
    rw [List.append_cons taken, List.cons_append, hplain _ hb (by omega)]
    exact ih (by rw [List.length_append, List.length_singleton]; omega)
  | quoted h ih =>
    rw [List.length_cons] at hroom
    rw [List.append_cons taken, List.cons_append, List.cons_append, hquoted _ (by omega)]
    exact ih (by rw [List.length_append, List.length_singleton]; omega)

theorem environName_append {bytes text : Bytes} (h : Spells bytes text) {name : Bytes}
    (hroom : name.length + text.length ≤ 64) (rest : Bytes) :
    environName name (bytes ++ rest) = environName (name ++ text) rest := by
  refine h.read_append (fun rest hb hfits => ?_) (fun rest hfits => ?_) hroom rest
  · rw [environName.eq_def]
    simp only [ne_codes hb, if_false, hfits, decide_false, Bool.or_self, Bool.false_eq_true]
  · rw [environName.eq_def]
    simp only [if_true, hfits, if_false]

theorem environValue_append {bytes text : Bytes} (h : Spells bytes text) {value : Bytes}
    (hroom : value.length + text.length ≤ 128) (rest : Bytes) :
    environValue value (bytes ++ rest) = environValue (value ++ text) rest := by
  refine h.read_append (fun rest hb hfits => ?_) (fun rest hfits => ?_) hroom rest
  · rw [environValue.eq_def]
    simp only [ne_codes hb, if_false, hfits, decide_false, Bool.or_self, Bool.false_eq_true]
  · rw [environValue.eq_def]
    simp only [if_true, hfits, if_false]

theorem environName_atEntry {rest : Bytes} (h : AtEntry rest) (name : Bytes) :
    environName name rest = some (name, false, rest) := by
  cases rest with
  | nil => rfl
  | cons token rest =>
    rw [environName.eq_def]
    rcases h token rfl with rfl | rfl <;> rfl

theorem environValue_atEntry {rest : Bytes} (h : AtEntry rest) (value : Bytes) :
    environValue value rest = some (value, rest) := by
  cases rest with
  | nil => rfl
  | cons token rest =>
    rw [environValue.eq_def]
    rcases h token rfl with rfl | rfl <;> rfl

/-- The calls an entry gives: an entry without a name is skipped. -/
def EnvironEntry.calls (entry : EnvironEntry) : List EnvironEntry :=
  if entry.name ≠ [] then [entry] else []

theorem EnvironEntry.calls_append (entry : EnvironEntry) (entries : List EnvironEntry) :
    entry.calls ++ entries = if entry.name ≠ [] then entry :: entries else entries := by
  unfold calls
  split <;> rfl

theorem environName_bare {bytes name rest : Bytes} (hname : Spells bytes name)
    (hshort : name.length ≤ 64) (hrest : AtEntry rest) :
    environName [] (bytes ++ rest) = some (name, false, rest) := by
  rw [environName_append hname (by simpa using hshort), List.nil_append, environName_atEntry hrest]

theorem environName_valued {bytes name : Bytes} (hname : Spells bytes name)
    (hshort : name.length ≤ 64) (rest : Bytes) :
    environName [] (bytes ++ newEnvironVal :: rest) = some (name, true, rest) := by
  rw [environName_append hname (by simpa using hshort), List.nil_append, environName.eq_def]
  rfl

theorem environValue_eq {bytes value rest : Bytes} (hvalue : Spells bytes value)
    (hshort : value.length ≤ 128) (hrest : AtEntry rest) :
    environValue [] (bytes ++ rest) = some (value, rest) := by
  rw [environValue_append hvalue (by simpa using hshort), List.nil_append,
    environValue_atEntry hrest]

theorem environReport_entry {bytes rest : Bytes} {entry : EnvironEntry}
    (h : EntrySpells bytes entry) (hrest : AtEntry rest) (rounds : Nat) :
    environReport (rounds + 1) (bytes ++ rest) =
      (entry.calls ++ (environReport rounds rest).1, (environReport rounds rest).2) := by
  have htype : ∀ {token : UInt8}, IsEntryType token →
      ¬ ((decide (token ≠ newEnvironVar) && decide (token ≠ newEnvironUservar)) = true) := by
    rintro token (rfl | rfl) <;> decide
  rw [EnvironEntry.calls_append]
  cases h with
  | bare htoken hname hshort =>
    rw [List.cons_append, environReport, if_neg (htype htoken), environName_bare hname hshort hrest]
    rfl
  | valued htoken hname hshort hvalue hshort' =>
    rw [List.cons_append, List.append_assoc, List.cons_append, environReport,
      if_neg (htype htoken), environName_valued hname hshort]
    simp only [if_true, environValue_eq hvalue hshort' hrest]

theorem EntrySpells.atEntry {bytes : Bytes} {entry : EnvironEntry} (h : EntrySpells bytes entry)
    (rest : Bytes) : AtEntry (bytes ++ rest) := by
  cases h with
  | bare htoken => exact fun token hhead => Option.some.inj hhead ▸ htoken
  | valued htoken => exact fun token hhead => Option.some.inj hhead ▸ htoken

theorem EntriesSpell.atEntry {bytes rest : Bytes} {entries : List EnvironEntry}
    (h : EntriesSpell bytes entries) (hrest : AtEntry rest) : AtEntry (bytes ++ rest) := by
  cases h with
  | nil => exact hrest
  | cons hentry => exact List.append_assoc _ _ _ ▸ hentry.atEntry _

/-- The entries in front of the rest are read, one a round. -/
theorem environReport_entries {bytes rest : Bytes} {entries : List EnvironEntry}
    (h : EntriesSpell bytes entries) (hrest : AtEntry rest) (rounds : Nat) :
    environReport (rounds + entries.length) (bytes ++ rest) =
      (entries.flatMap EnvironEntry.calls ++ (environReport rounds rest).1,
        (environReport rounds rest).2) := by
  induction h with
  | nil => rfl
  | @cons bytes bytes' entry entries hentry h' ih =>
    rw [List.append_assoc, List.length_cons, ← Nat.add_assoc,
      environReport_entry hentry (h'.atEntry hrest), ih, List.flatMap_cons, List.append_assoc]

/-! ## What is read was spelled -/

theorem atEntry_cons {token : UInt8} (rest : Bytes)
    (h : (decide (token = newEnvironVar) || decide (token = newEnvironUservar)) = true) :
    AtEntry (token :: rest) := by
  intro first hfirst
  obtain rfl := Option.some.inj hfirst
  simpa [IsEntryType] using h

theorem spells_of_environName {name input name' rest : Bytes} {hasValue : Bool}
    (hshort : name.length ≤ 64) (h : environName name input = some (name', hasValue, rest)) :
    ∃ bytes text, Spells bytes text ∧ name' = name ++ text ∧ name'.length ≤ 64 ∧
      (hasValue = true ∧ input = bytes ++ newEnvironVal :: rest ∨
        hasValue = false ∧ input = bytes ++ rest ∧ AtEntry rest) := by
  fun_induction environName name input with
  | case1 name =>
    obtain ⟨rfl, rfl, rfl⟩ := by simpa using h
    exact ⟨[], [], .nil, by simp, hshort, .inr ⟨rfl, rfl, by simp [AtEntry]⟩⟩
  | case2 | case3 | case7 => cases h
  | case4 name quoted input hroom ih =>
    obtain ⟨bytes, text, hspells, rfl, hlength, hinput⟩ :=
      ih (by rw [List.length_append, List.length_singleton]; omega) h
    refine ⟨_, quoted :: text, .quoted hspells, by simp, hlength, ?_⟩
    rcases hinput with ⟨hvalue, rfl⟩ | ⟨hvalue, rfl, hrest⟩
    · exact .inl ⟨hvalue, rfl⟩
    · exact .inr ⟨hvalue, rfl, hrest⟩
  | case5 name input =>
    obtain ⟨rfl, rfl, rfl⟩ := by simpa using h
    exact ⟨[], [], .nil, by simp, hshort, .inl ⟨rfl, rfl⟩⟩
  | case6 name b input hesc hval htype =>
    obtain ⟨rfl, rfl, rfl⟩ := by simpa using h
    exact ⟨[], [], .nil, by simp, hshort, .inr ⟨rfl, rfl, atEntry_cons input htype⟩⟩
  | case8 name b input hesc hval htype hroom ih =>
    simp only [Bool.or_eq_true, decide_eq_true_eq, not_or] at htype
    obtain ⟨bytes, text, hspells, rfl, hlength, hinput⟩ :=
      ih (by rw [List.length_append, List.length_singleton]; omega) h
    refine ⟨_, b :: text, .plain (three_lt_of_ne hesc hval htype.1 htype.2) hspells, by simp,
      hlength, ?_⟩
    rcases hinput with ⟨hvalue, rfl⟩ | ⟨hvalue, rfl, hrest⟩
    · exact .inl ⟨hvalue, rfl⟩
    · exact .inr ⟨hvalue, rfl, hrest⟩

theorem spells_of_environValue {value input value' rest : Bytes} (hshort : value.length ≤ 128)
    (h : environValue value input = some (value', rest)) :
    ∃ bytes text, Spells bytes text ∧ value' = value ++ text ∧ value'.length ≤ 128 ∧
      input = bytes ++ rest ∧ AtEntry rest := by
  fun_induction environValue value input with
  | case1 value =>
    obtain ⟨rfl, rfl⟩ := by simpa using h
    exact ⟨[], [], .nil, by simp, hshort, rfl, by simp [AtEntry]⟩
  | case2 | case3 | case6 => cases h
  | case4 value quoted input hroom ih =>
    obtain ⟨bytes, text, hspells, rfl, hlength, rfl, hrest⟩ :=
      ih (by rw [List.length_append, List.length_singleton]; omega) h
    exact ⟨_, quoted :: text, .quoted hspells, by simp, hlength, rfl, hrest⟩
  | case5 value b input hesc htype =>
    obtain ⟨rfl, rfl⟩ := by simpa using h
    exact ⟨[], [], .nil, by simp, hshort, rfl, atEntry_cons input htype⟩
  | case7 value b input hesc htype hroom ih =>
    simp only [Bool.or_eq_true, decide_eq_true_eq, not_or] at htype hroom
    obtain ⟨bytes, text, hspells, rfl, hlength, rfl, hrest⟩ :=
      ih (by rw [List.length_append, List.length_singleton]; omega) h
    exact ⟨_, b :: text, .plain (three_lt_of_ne hesc hroom.1 htype.1 htype.2) hspells, by simp,
      hlength, rfl, hrest⟩

theorem EntrySpells.of_read {token : UInt8} {input name value rest : Bytes} {hasValue : Bool}
    (htoken : IsEntryType token) {after : Bytes}
    (hname : environName [] input = some (name, hasValue, after))
    (hvalue : (if hasValue then environValue [] after else some ([], after)) = some (value, rest)) :
    ∃ bytes, EntrySpells bytes ⟨token, name, value⟩ ∧ token :: input = bytes ++ rest ∧
      AtEntry rest := by
  obtain ⟨bytes, text, hspells, rfl, hshort, ⟨rfl, rfl⟩ | ⟨rfl, rfl, hrest⟩⟩ :=
    spells_of_environName (Nat.zero_le _) hname
  · obtain ⟨bytes', text', hspells', rfl, hshort', rfl, hrest⟩ :=
      spells_of_environValue (Nat.zero_le _) hvalue
    exact ⟨_, .valued htoken hspells hshort hspells' hshort', by simp, hrest⟩
  · obtain ⟨rfl, rfl⟩ := by simpa using hvalue
    exact ⟨_, .bare htoken hspells hshort, rfl, hrest⟩

/-- The report begins with these entries, each with another one behind it. -/
def BeginsWith (report : Bytes) (entries : List EnvironEntry) : Prop :=
  ∃ bytes rest, EntriesSpell bytes entries ∧ report = bytes ++ rest ∧
    (entries = [] ∨ rest ≠ [] ∧ AtEntry rest)

theorem beginsWith_nil (report : Bytes) : BeginsWith report [] := ⟨[], report, .nil, rfl, .inl rfl⟩

theorem BeginsWith.cons {bytes rest : Bytes} {entry : EnvironEntry} {entries : List EnvironEntry}
    (hentry : EntrySpells bytes entry) (hmore : rest ≠ []) (hrest : AtEntry rest)
    (h : BeginsWith rest entries) : BeginsWith (bytes ++ rest) (entry :: entries) := by
  obtain ⟨bytes', rest', hentries, rfl, hbehind⟩ := h
  refine ⟨bytes ++ bytes', rest', .cons hentry hentries, (List.append_assoc _ _ _).symm, .inr ?_⟩
  rcases hbehind with rfl | hbehind
  · obtain rfl : bytes' = [] := by cases hentries; rfl
    exact ⟨hmore, hrest⟩
  · exact hbehind

/-- The entries that are applied before a report is given up stand at its beginning. -/
theorem beginsWith_of_environReport {rounds : Nat} {report : Bytes} {applied : List EnvironEntry}
    (h : environReport rounds report = (applied, false)) :
    ∃ entries, BeginsWith report entries ∧ applied = entries.flatMap EnvironEntry.calls := by
  have hnone : ∀ {report : Bytes} {applied : List EnvironEntry}, [] = applied →
      ∃ entries, BeginsWith report entries ∧ applied = entries.flatMap EnvironEntry.calls :=
    fun happlied => ⟨[], beginsWith_nil _, happlied.symm⟩
  induction rounds generalizing report applied with
  | zero =>
    cases report with
    | nil => simp [environReport] at h
    | cons token input => exact hnone (by simpa [environReport] using h)
  | succ rounds ih =>
    cases report with
    | nil => simp [environReport] at h
    | cons token input =>
      rw [environReport] at h
      split at h
      case isTrue => exact hnone (congrArg Prod.fst h)
      case isFalse htype =>
        have htoken : IsEntryType token := by
          simp only [ne_eq, Bool.and_eq_true, decide_eq_true_eq, not_and_or, not_not] at htype
          exact htype
        split at h
        case h_1 => exact hnone (congrArg Prod.fst h)
        case h_2 name hasValue after hname =>
          split at h
          case h_1 => exact hnone (congrArg Prod.fst h)
          case h_2 value rest hvalue =>
            obtain ⟨bytes, hentry, hinput, hrest⟩ := EntrySpells.of_read htoken hname hvalue
            rcases hread : environReport rounds rest with ⟨applied', complete⟩
            rw [hread] at h
            obtain ⟨rfl, rfl⟩ := Prod.mk.inj h
            have hmore : rest ≠ [] := by
              rintro rfl
              cases rounds <;> simp [environReport] at hread
            obtain ⟨entries, hentries, rfl⟩ := ih hread
            rw [hinput]
            refine ⟨_ :: entries, .cons hentry hmore hrest hentries, ?_⟩
            rw [List.flatMap_cons, EnvironEntry.calls_append]

theorem EntriesSpell.length_le {bytes : Bytes} {entries : List EnvironEntry}
    (h : EntriesSpell bytes entries) : entries.length ≤ bytes.length := by
  induction h with
  | nil => exact Nat.le_refl 0
  | cons hentry _ ih =>
    cases hentry <;> simp only [List.length_append, List.length_cons] <;> omega

/-- Whatever the report goes on with, the entries it begins with are applied. -/
theorem BeginsWith.applied {report : Bytes} {entries : List EnvironEntry}
    (h : BeginsWith report entries) :
    entries.flatMap EnvironEntry.calls <+: (environReport report.length report).1 := by
  obtain ⟨bytes, rest, hentries, rfl, rfl | ⟨-, hrest⟩⟩ := h
  · exact List.nil_prefix
  · obtain ⟨rounds, hrounds⟩ : ∃ rounds, (bytes ++ rest).length = rounds + entries.length :=
      Nat.exists_eq_add_of_le' (by
        rw [List.length_append]
        exact hentries.length_le.trans (Nat.le_add_right _ _))
    rw [hrounds, environReport_entries hentries hrest]
    exact List.prefix_append _ _

/-! ## The encoder of RFC 1572 -/

structure EnvironVariable where
  token : UInt8
  name : Bytes
  value : Option Bytes
deriving DecidableEq, Repr

/-- The four codes are quoted. -/
def environQuote (b : UInt8) : Bytes := if b ≤ 3 then [newEnvironEsc, b] else [b]

namespace EnvironVariable

def encode (v : EnvironVariable) : Bytes :=
  v.token :: (v.name.flatMap environQuote ++
    (v.value.map fun value => newEnvironVal :: value.flatMap environQuote).getD [])

structure WellFormed (v : EnvironVariable) : Prop where
  token : v.token = newEnvironVar ∨ v.token = newEnvironUservar
  name : v.name ≠ [] ∧ v.name.length ≤ 64
  value : ∀ value ∈ v.value, value.length ≤ 128

/-- What the handler is to call `apply_new_environ_value` with. -/
def entry (v : EnvironVariable) : EnvironEntry := ⟨v.token, v.name, v.value.getD []⟩

theorem spells_flatMap (text : Bytes) : Spells (text.flatMap environQuote) text := by
  induction text with
  | nil => exact .nil
  | cons b text ih =>
    rw [List.flatMap_cons]
    unfold environQuote
    split
    case isTrue => exact .quoted ih
    case isFalse hb => exact .plain (UInt8.not_le.mp hb) ih

theorem entrySpells_encode {v : EnvironVariable} (h : v.WellFormed) : EntrySpells v.encode v.entry := by
  obtain ⟨token, name, value⟩ := v
  cases value with
  | none =>
    have hbytes : encode ⟨token, name, none⟩ = token :: name.flatMap environQuote :=
      congrArg _ (List.append_nil _)
    rw [hbytes]
    exact .bare h.token (spells_flatMap name) h.name.2
  | some value =>
    exact .valued h.token (spells_flatMap name) h.name.2 (spells_flatMap value) (h.value value rfl)

theorem entriesSpell_encode {vars : List EnvironVariable} (h : ∀ v ∈ vars, v.WellFormed) :
    EntriesSpell (vars.flatMap encode) (vars.map entry) := by
  induction vars with
  | nil => exact .nil
  | cons v vars ih =>
    obtain ⟨hv, hrest⟩ := List.forall_mem_cons.mp h
    exact .cons (entrySpells_encode hv) (ih hrest)

theorem flatMap_calls {vars : List EnvironVariable} (h : ∀ v ∈ vars, v.WellFormed) :
    (vars.map entry).flatMap EnvironEntry.calls = vars.map entry := by
  induction vars with
  | nil => rfl
  | cons v vars ih =>
    obtain ⟨hv, hrest⟩ := List.forall_mem_cons.mp h
    have hcalls : v.entry.calls = [v.entry] := if_pos hv.name.1
    rw [List.map_cons, List.flatMap_cons, hcalls, ih hrest, List.singleton_append]

theorem environReport_encode {vars : List EnvironVariable} (h : ∀ v ∈ vars, v.WellFormed) :
    environReport (vars.flatMap encode).length (vars.flatMap encode) = (vars.map entry, true) := by
  have hend : AtEntry [] := by simp [AtEntry]
  have hspells := entriesSpell_encode h
  obtain ⟨rounds, hrounds⟩ := Nat.exists_eq_add_of_le' hspells.length_le
  have hread := environReport_entries hspells hend rounds
  have hdone : environReport rounds [] = ([], true) := by cases rounds <;> rfl
  rw [← hrounds, List.append_nil, hdone, List.append_nil, flatMap_calls h] at hread
  exact hread

end EnvironVariable

namespace Link

variable {α : Type}

theorem handleNewEnviron_of_report {hooks : Application α} {l : Link α}
    (hon : l.caps.enabled .remote Telnet.Opt.newEnviron = true) {command : UInt8}
    (hcommand : command = newEnvironIs ∨ command = newEnvironInfo) {report : Bytes}
    {entries : List EnvironEntry} {complete : Bool}
    (hreport : environReport report.length report = (entries, complete)) :
    l.handleNewEnviron hooks (command :: report) =
      if complete then { l with caps := entries.foldl .applyEntry l.caps }.updateOptionMetadata hooks
      else { l with caps := entries.foldl .applyEntry l.caps } := by
  have hknown : ¬ ((decide (command ≠ newEnvironIs) && decide (command ≠ newEnvironInfo)) = true) := by
    rcases hcommand with rfl | rfl <;> decide
  rw [handleNewEnviron, hon, Bool.not_true, if_neg (by simp)]
  dsimp only
  rw [if_neg hknown, Capability.environEntries_eq, hreport]

/-- A report that was encoded from variables makes the handler apply each of them
once, in order and as it was, and then refresh the metadata. -/
theorem environ_round_trip (hooks : Application α) {l : Link α}
    (hon : l.caps.enabled .remote Telnet.Opt.newEnviron = true) {command : UInt8}
    (hcommand : command = newEnvironIs ∨ command = newEnvironInfo) {vars : List EnvironVariable}
    (hvars : ∀ v ∈ vars, v.WellFormed) :
    environReport (vars.flatMap EnvironVariable.encode).length
        (vars.flatMap EnvironVariable.encode) = (vars.map EnvironVariable.entry, true) ∧
      l.handleNewEnviron hooks (command :: vars.flatMap EnvironVariable.encode) =
        { l with caps := vars.foldl (fun caps (v : EnvironVariable) =>
            caps.applyNewEnvironValue v.token v.name (v.value.getD [])) l.caps
          }.updateOptionMetadata hooks := by
  have hreport := EnvironVariable.environReport_encode hvars
  refine ⟨hreport, ?_⟩
  rw [handleNewEnviron_of_report hon hcommand hreport, List.foldl_map]
  rfl

/-- A client whose environment can be asked for. -/
def reporting : Link Unit :=
  (TelnetSession.granted.feedAt .granting [Telnet.iac, Telnet.will, Telnet.Opt.newEnviron] 1).2.conn.link

/-- A version with the codes in it, and a name alone. -/
theorem environ_round_trip_reporting :
    reporting.handleNewEnviron (.absent Unit)
        ([newEnvironIs, newEnvironVar] ++ ascii "CLIENT_VERSION" ++ [1, 2, 0, 65, 2, 2, 3] ++
          ascii "X") =
      { reporting with caps := (reporting.caps.applyNewEnvironValue newEnvironVar
        (ascii "CLIENT_VERSION") [0, 65, 2]).applyNewEnvironValue newEnvironUservar (ascii "X") []
        }.updateOptionMetadata (.absent Unit) := by
  have hvars : ∀ v ∈ [EnvironVariable.mk newEnvironVar (ascii "CLIENT_VERSION") (some [0, 65, 2]),
      ⟨newEnvironUservar, ascii "X", none⟩], v.WellFormed := by
    refine List.forall_mem_cons.mpr ⟨⟨by decide, by decide, by decide⟩,
      List.forall_mem_singleton.mpr ⟨by decide, by decide, by decide⟩⟩
  have hon : reporting.caps.enabled .remote Telnet.Opt.newEnviron = true := by decide +kernel
  exact (environ_round_trip (.absent Unit) hon (.inl rfl) hvars).2

end Link

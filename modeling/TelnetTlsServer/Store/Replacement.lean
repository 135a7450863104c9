-- SUMMARY: replace_record_atomic puts a complete record in the place of another, where temporary names are unclaimed.
import TelnetTlsServer.Store.Verification

/-!
# Replacing a record

The one writer besides creation. Its file is open only under its temporary name;
what it renames onto the leaf is closed and complete.
-/

open Interleaving

variable {ι : Type} [DecidableEq ι]

namespace Verification

variable {crypto : Crypto} {leaves : Set Bytes} {new before : Set Account} {account : Account}
  {i : ι} {w : World ι} {id : Nat} {hash : Bytes} {f : File ι} {temp directory : Bytes}
  {note : List (Σ call : Call, call.Answer) → Prop} {sem : Sem ι (World ι) Call Call.Answer}

/-- A caller that goes by the name `temp`. -/
abbrev Holding (crypto : Crypto) (leaves : Set Bytes) (i : ι) (before : Set Account) (temp : Bytes)
    (note : List (Σ call : Call, call.Answer) → Prop) : World ι → Prop :=
  Keeping crypto leaves i before (some temp) note

/-- A caller whose temporary file is `id`, in the state `f`. -/
structure Writing (crypto : Crypto) (leaves : Set Bytes) (i : ι) (before : Set Account)
    (temp : Bytes) (note : List (Σ call : Call, call.Answer) → Prop) (id : Nat) (f : File ι)
    (w : World ι) : Prop where
  holding : Holding crypto leaves i before temp note w
  entry : w.disk.dir temp = some id
  file : w.disk.file (some i) id = some f

/-- A change to an open file of `i` is no concern of the records. -/
theorem sameLeaves_alter {d : Disk ι} (hd : d.Recorded crypto leaves)
    (hfile : d.file (some i) id = some f) (hopen : f.isClosed = false) (g : File ι → File ι) :
    d.SameLeaves leaves (d.alter id g) where
  dir _ _ := rfl
  files leaf hleaf k hk := by
    obtain ⟨account, ⟨-, k', f', hash, hdir, hf', hrecord⟩, rfl⟩ :=
      hd leaf hleaf (by rw [hk]; exact Option.some_ne_none k)
    obtain rfl : k' = k := Option.some.inj (hdir.symm.trans hk)
    refine Function.update_of_ne ?_ _ _
    rintro rfl
    rw [(Disk.file_eq_some.mp hfile).1] at hf'
    obtain rfl := Option.some.inj hf'
    rw [hrecord.isClosed] at hopen
    cases hopen

/-- Files stay as they are, and names too but for the caller's own. -/
theorem guarantee_names (own : Set Bytes) {call : Call} {a : call.Answer} {d : Disk ι}
    (hsound : Sound crypto leaves w → Sound crypto leaves (w.record i call a d) ∧
      w.disk.accounts crypto leaves ⊆ d.accounts crypto leaves ∧
      d.accounts crypto leaves ⊆ w.disk.accounts crypto leaves ∪ new)
    (hfiles : d.files = w.disk.files) (hdir : ∀ name ∉ own, d.dir name = w.disk.dir name)
    (hown : ∀ j temp, j ≠ i → heldName (w.log j) = some temp → temp ∉ own) :
    Guarantee crypto leaves new i w (w.record i call a d) where
  sound := hsound
  log _ hj := World.log_record_of_ne hj a _
  own _ _ _ := Disk.file_congr (by rw [World.record, hfiles])
  closed k f hk _ := by
    rw [World.record, hfiles]
    exact hk
  temp j temp hj hheld := hdir temp (hown j temp hj hheld)

theorem writer_writing (hnote : Lasting note) :
    FileWriter i (Rely crypto leaves i) (Guarantee crypto leaves new i) id
      (Writing crypto leaves i before temp note id) where
  calm f :=
    { stable := fun w w' hR h =>
        ⟨stable_keeping w w' hR h.holding, (hR.temp temp h.holding.held).trans h.entry,
          (hR.own id).trans h.file⟩
      idle := fun w call a hquiet h =>
        have hcalm := (calm_keeping hnote).idle w call a hquiet h.holding
        ⟨hcalm.1, hcalm.2, h.entry, h.file⟩ }
  alter f w call a g hquiet hg hopen h := by
    obtain ⟨hf, hauthor⟩ := Disk.file_eq_some.mp h.file
    have hsame := sameLeaves_alter h.holding.sound.recorded h.file hopen g
    have hrecorded := hsame.recorded h.holding.sound.recorded
    refine ⟨⟨fun hs => ⟨hs.quiet a hquiet hrecorded, hsame.accounts.ge, ?_⟩,
      fun j hj => World.log_record_of_ne hj a _, ?_, ?_, fun _ _ _ _ => rfl⟩,
      h.holding.record a hquiet hrecorded hsame.accounts.ge (hnote _ _ _ hquiet h.holding.note),
      h.entry, ?_⟩
    · exact hsame.accounts.le.trans Set.subset_union_left
    · intro b hb
      exact (Disk.sameEstate_alter hg
        (Disk.authored_other (Disk.authored_of_file h.file) hb)).file
    · intro k f' hk hclosed
      have hne : k ≠ id := by
        rintro rfl
        rw [hf] at hk
        obtain rfl := Option.some.inj hk
        rw [hopen] at hclosed
        cases hclosed
      exact (Function.update_of_ne hne _ _).trans hk
    · simp [World.record, Disk.file, Disk.alter, hf, Option.filter, hg, hauthor]

omit [DecidableEq ι] in
/-- A complete file, under the leaf of the account. -/
theorem mem_accounts_of_file {d : Disk ι} (hleaf : account.leaf ∈ leaves)
    (hvalid : playerStoreNameValid account.name = true)
    (hhash : crypto.passwordOf hash = some account.password)
    (hdir : d.dir account.leaf = some id)
    (hfile : d.files id = some ⟨recordText account.name hash, true, true, some i⟩) :
    account ∈ d.accounts crypto leaves :=
  ⟨hleaf, id, _, hash, hdir, hfile, rfl, hhash, hvalid, rfl, rfl⟩

/-- Publishing a complete record of an account in the place of another. -/
theorem Writing.rename (hhash : crypto.passwordOf hash = some account.password)
    (hbefore : account ∈ before)
    (h : Writing crypto leaves i before temp note id
      ⟨recordText account.name hash, true, true, some i⟩ w) :
    Guarantee crypto leaves new i w
        (w.record i (.rename temp account.leaf) true (w.disk.rename temp account.leaf)) ∧
      Holding crypto leaves i before temp (Noted (replacement account.leaf))
        (w.record i (.rename temp account.leaf) true (w.disk.rename temp account.leaf)) := by
  have hsound := h.holding.sound
  have hthere := h.holding.grown hbefore
  have hleaf : account.leaf ≠ temp := fun hleaf =>
    hsound.apart i temp h.holding.held (hleaf ▸ hthere.1)
  have hfiles : (w.disk.rename temp account.leaf).files = w.disk.files := by
    unfold Disk.rename
    split <;> rfl
  have hdir : ∀ name, name ≠ temp → name ≠ account.leaf →
      (w.disk.rename temp account.leaf).dir name = w.disk.dir name := by
    intro name htemp hname
    unfold Disk.rename
    split
    · rfl
    · simp [Disk.unlink, Disk.link, Function.update_of_ne htemp, Function.update_of_ne hname]
  have hputs : Disk.Puts crypto leaves account w.disk (w.disk.rename temp account.leaf) := by
    refine ⟨?_, fun other hother hsame => Disk.accounts_unique hother hthere hsame,
      fun leaf hmem hne => hdir leaf ?_ hne, hfiles⟩
    · unfold Disk.rename
      split
      · exact hthere
      · refine mem_accounts_of_file hthere.1 (Disk.valid_of_mem hthere) hhash ?_
          (Disk.file_eq_some.mp h.file).1
        simp [Disk.unlink, Disk.link, Function.update_of_ne hleaf, h.entry]
    · rintro rfl
      exact hsound.apart i leaf h.holding.held hmem
  have hgrown : w.disk.accounts crypto leaves ⊆
      (w.disk.rename temp account.leaf).accounts crypto leaves :=
    fun other hother => hputs.mem_accounts.mpr (.inr hother)
  refine ⟨guarantee_names {temp, account.leaf} (fun hs => ⟨hs.quiet _ rfl
    (hputs.recorded hs.recorded), hgrown, fun other hother => .inl ?_⟩) hfiles ?_ ?_,
    h.holding.record _ rfl (hputs.recorded hsound.recorded) hgrown ?_⟩
  · exact (hputs.mem_accounts.mp hother).elim (fun heq => heq ▸ hthere) fun hold => hold
  · intro name hname
    simp only [Set.mem_insert_iff, Set.mem_singleton_iff, not_or] at hname
    exact hdir name hname.1 hname.2
  · rintro j name hj hheld (rfl | hname)
    · exact hj (hsound.distinct j i name hheld h.holding.held)
    · exact hsound.apart j name hheld (hname ▸ hthere.1)
  · exact noted_concat (by simp [replacement])

/-- Giving up the temporary name, whether or not it could be removed. -/
theorem Keeping.unlink {a : Bool} {d : Disk ι} {choice : Choice}
    (h : Holding crypto leaves i before temp note w)
    (hperform : w.disk.perform crypto true i (.unlink temp) choice = some (a, d))
    {note' : List (Σ call : Call, call.Answer) → Prop}
    (hnote : note' (w.log i ++ [⟨.unlink temp, a⟩])) :
    Guarantee crypto leaves new i w (w.record i (.unlink temp) a d) ∧
      Resting crypto leaves i before note' (w.record i (.unlink temp) a d) ∧
      d.accounts crypto leaves = w.disk.accounts crypto leaves := by
  have hfiles : d.files = w.disk.files := by
    rcases Disk.unlink_cases hperform with rfl | ⟨rfl, -⟩ <;> rfl
  have hdir : ∀ name, name ≠ temp → d.dir name = w.disk.dir name := by
    intro name hname
    rcases Disk.unlink_cases hperform with rfl | ⟨rfl, -⟩
    · exact Function.update_of_ne hname _ _
    · rfl
  have hnone : heldName ((w.record i (.unlink temp) a d).log i) = none := by
    rw [World.log_record_self, heldName_concat, h.held]
    exact if_pos rfl
  have hsame : w.disk.SameLeaves leaves d := by
    refine ⟨fun leaf hleaf => hdir leaf ?_, fun _ _ _ _ => by rw [hfiles]⟩
    rintro rfl
    exact h.sound.apart i leaf h.held hleaf
  have hsound : Sound crypto leaves (w.record i (.unlink temp) a d) := by
    refine h.sound.record (hsame.recorded h.sound.recorded) fun name hi => ?_
    rw [hnone] at hi
    cases hi
  refine ⟨guarantee_names {temp} (fun _ => ⟨hsound, hsame.accounts.ge,
    hsame.accounts.le.trans Set.subset_union_left⟩) hfiles hdir ?_,
    ⟨hsound, h.grown.trans hsame.accounts.ge, hnone, by rwa [World.log_record_self]⟩,
    hsame.accounts⟩
  rintro j name hj hheld rfl
  exact hj (h.sound.distinct j i name hheld h.held)

/-- No record goes by a hidden name. -/
theorem hidden_not_mem (hleaves : leaves ⊆ recordLeaves) (rest : Bytes) : 46 :: rest ∉ leaves := by
  intro hmem
  obtain ⟨name, hvalid, hleaf⟩ := hleaves hmem
  exact playerLeaf_ne_dot hvalid hleaf

/-- Taking a temporary name that no other caller goes by. -/
theorem Keeping.mkstemp {template : Bytes} (file : File ι) (hauthor : file.author = some i)
    (h : Resting crypto leaves i before note w) (hleaf : temp ∉ leaves)
    (hfree : w.disk.dir temp = none) (hid : w.disk.files id = none)
    (hunclaimed : ∀ j, j ≠ i → heldName (w.log j) ≠ some temp)
    {note' : List (Σ call : Call, call.Answer) → Prop}
    (hnote : note' (w.log i ++ [⟨.mkstemp template, some (temp, id)⟩])) :
    Guarantee crypto leaves new i w
        (w.record i (.mkstemp template) (some (temp, id)) (w.disk.create temp id file)) ∧
      Writing crypto leaves i before temp note' id file
        (w.record i (.mkstemp template) (some (temp, id)) (w.disk.create temp id file)) := by
  have hne : ∀ k, (w.disk.files k).isSome = true → k ≠ id := by
    rintro k hk rfl
    rw [hid] at hk
    cases hk
  have hheld : heldName ((w.record i (.mkstemp template) (some (temp, id))
      (w.disk.create temp id file)).log i) = some temp := by
    rw [World.log_record_self, heldName_concat]
    rfl
  have hsame : w.disk.SameLeaves leaves (w.disk.create temp id file) := by
    refine ⟨fun leaf hmem => Function.update_of_ne (ne_of_mem_of_not_mem hmem hleaf) _ _,
      fun leaf _ k hk => Function.update_of_ne (hne k (w.disk.linked leaf k hk)) _ _⟩
  have hsound : Sound crypto leaves
      (w.record i (.mkstemp template) (some (temp, id)) (w.disk.create temp id file)) := by
    refine h.sound.record (hsame.recorded h.sound.recorded) fun name hi => ?_
    rw [hheld] at hi
    obtain rfl := Option.some.inj hi
    exact ⟨hleaf, hunclaimed⟩
  refine ⟨⟨fun _ => ⟨hsound, hsame.accounts.ge, hsame.accounts.le.trans Set.subset_union_left⟩,
    fun j hj => World.log_record_of_ne hj _ _, ?_, ?_, ?_⟩,
    ⟨hsound, h.grown.trans hsame.accounts.ge, hheld, by rwa [World.log_record_self]⟩,
    Function.update_self .., ?_⟩
  · intro a ha
    exact (Disk.sameEstate_create hfree hid (by rw [hauthor]; exact Ne.symm ha)).file
  · intro k f hk _
    exact (Function.update_of_ne (hne k (by rw [hk]; rfl)) _ _).trans hk
  · intro j name hj hname
    refine Function.update_of_ne ?_ _ _
    rintro rfl
    exact hunclaimed j hj hname
  · exact Disk.file_eq_some.mpr ⟨Function.update_self .., hauthor⟩

/-- What replacing the record amounts to: a result of 0 means a rename onto the leaf. -/
structure Replaced (crypto : Crypto) (leaves : Set Bytes) (i : ι) (before : Set Account)
    (leaf : Bytes) (r : Int) (w : World ι) : Prop where
  resting : Resting crypto leaves i before Unnoted w
  renamed : r = 0 → Noted (replacement leaf) (w.log i)

variable {leaf : Bytes}

theorem stable_replaced (r : Int) :
    Stable (Rely crypto leaves i) (Replaced crypto leaves i before leaf r) := by
  intro w w' hR h
  exact ⟨stable_keeping _ _ hR h.resting, fun hr => by rw [hR.log]; exact h.renamed hr⟩

/-- The same while the caller still goes by its temporary name. -/
structure Renamed (crypto : Crypto) (leaves : Set Bytes) (i : ι) (before : Set Account)
    (leaf temp : Bytes) (r : Int) (w : World ι) : Prop where
  holding : Holding crypto leaves i before temp Unnoted w
  renamed : r = 0 → Noted (replacement leaf) (w.log i)

omit [DecidableEq ι] in
theorem Keeping.renamed {r : Int}
    (h : Holding crypto leaves i before temp (Noted (replacement leaf)) w) :
    Renamed crypto leaves i before leaf temp r w :=
  ⟨h.noting trivial, fun _ => h.note⟩

theorem stable_renamed (r : Int) :
    Stable (Rely crypto leaves i) (Renamed crypto leaves i before leaf temp r) := by
  intro w w' hR h
  exact ⟨stable_keeping _ _ hR h.holding, fun hr => by rw [hR.log]; exact h.renamed hr⟩

theorem safe_notRenamed (h : Holding crypto leaves i before temp Unnoted w) :
    Behaves sem crypto leaves new i (Renamed crypto leaves i before leaf temp) (pure (-1)) w :=
  Safe.pure (stable_renamed _) ⟨h, fun hr => absurd hr (by decide)⟩

theorem safe_notReplaced (h : Resting crypto leaves i before Unnoted w) :
    Behaves sem crypto leaves new i (Replaced crypto leaves i before leaf) (pure (-1)) w :=
  Safe.pure (stable_replaced _) ⟨h, fun hr => absurd hr (by decide)⟩

variable (hsem : Careful crypto sem)

include hsem

theorem safe_renameRecord (hhash : crypto.passwordOf hash = some account.password)
    (hbefore : account ∈ before)
    (h : Writing crypto leaves i before temp Unnoted id ⟨[], true, false, some i⟩ w) :
    Behaves sem crypto leaves new i (Renamed crypto leaves i before account.leaf temp)
      (renameRecord id temp account.leaf (recordText account.name hash)) w := by
  have hwriter : FileWriter i (Rely crypto leaves i) (Guarantee crypto leaves new i) id
      (Writing crypto leaves i before temp Unnoted id) := writer_writing lasting_unnoted
  refine Safe.bind rely_refl (Safe.mono ?_ (hwriter.safe_fillTemp hsem.onDisk h))
  rintro ok w ⟨f, h, hok⟩
  cases ok with
  | false => exact safe_notRenamed h.holding
  | true =>
    obtain rfl : f = _ := hok
    refine safe_sys hsem.onDisk (hwriter.calm _).stable h fun w _ a d h hperform => ?_
    rcases Disk.rename_cases hperform with ⟨rfl, rfl⟩ | ⟨rfl, rfl⟩
    · obtain ⟨hG, hrenamed⟩ := h.rename hhash hbefore
      refine ⟨hG, Safe.bind rely_refl (Safe.mono ?_
        ((calm_keeping (lasting_noted _)).safe_syncDirectory hsem.onDisk hrenamed))⟩
      intro synced w h
      cases synced with
      | false => exact Safe.pure (stable_renamed _) h.renamed
      | true => exact Safe.pure (stable_renamed _) h.renamed
    · obtain ⟨hG, h⟩ := (hwriter.calm _).idle w (.rename temp account.leaf) false rfl h
      exact ⟨hG, safe_notRenamed h.holding⟩

theorem safe_publishReplacement (hhash : crypto.passwordOf hash = some account.password)
    (hbefore : account ∈ before)
    (h : Writing crypto leaves i before temp Unnoted id ⟨[], true, false, some i⟩ w) :
    Behaves sem crypto leaves new i (Replaced crypto leaves i before account.leaf)
      (publishReplacement account.leaf (recordText account.name hash) (temp, id)) w := by
  refine Safe.bind rely_refl (Safe.mono ?_ (safe_renameRecord hsem hhash hbefore h))
  intro r w h
  refine safe_sys hsem.onDisk (stable_renamed r) h fun w _ a d h hperform => ?_
  obtain ⟨hG, hresting, -⟩ := h.holding.unlink hperform (show Unnoted _ from trivial)
  refine ⟨hG, Safe.pure (stable_replaced r) ⟨hresting, fun hr => ?_⟩⟩
  rw [World.log_record_self]
  exact (h.renamed hr).concat _

theorem safe_replaceRecordAtomic (hleaves : leaves ⊆ recordLeaves)
    (hhash : crypto.passwordOf hash = some account.password) (hbefore : account ∈ before)
    (h : Resting crypto leaves i before Unnoted w) :
    Behaves sem crypto leaves new i (Replaced crypto leaves i before account.leaf)
      (replaceRecordAtomic directory account.name hash) w := by
  unfold replaceRecordAtomic
  split
  · exact safe_notReplaced h
  case h_2 finalPath hpath =>
  obtain rfl := (buildPlayerPath_eq_some hpath).2
  split
  · exact safe_notReplaced h
  split
  · exact safe_notReplaced h
  case h_2 text htext =>
  obtain rfl := buildRecordText_eq_some htext
  refine Safe.perform stable_keeping h fun w a w' h hcall => ?_
  obtain ⟨hrun, hunclaimed⟩ := hsem _ _ _ _ _ hcall
  obtain ⟨choice, d, hperform, rfl⟩ := World.exists_perform hrun
  rcases Disk.mkstemp_cases hperform with ⟨rfl, rfl⟩ | ⟨suffix, id, -, hfree, hid, rfl, rfl⟩
  · obtain ⟨hG, h⟩ := calm_unnoted.idle w (.mkstemp rehashTemplate) none rfl h
    exact ⟨hG, safe_notReplaced h⟩
  · obtain ⟨hG, h⟩ := h.mkstemp ⟨[], true, false, some i⟩ rfl
      (hidden_not_mem hleaves _) hfree hid hunclaimed
      (show Unnoted _ from trivial)
    exact ⟨hG, safe_publishReplacement hsem hhash hbefore h⟩

end Verification

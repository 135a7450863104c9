-- SUMMARY: Concurrent account creation is exclusive and leaves all of a record or nothing.
import TelnetTlsServer.Store.Estate
import TelnetTlsServer.Store.Writing

/-!
# Creating accounts

Every call of `player_store_create` works on one file, which it creates, fills,
links and removes again by its own names. The rely of a call is that nobody else
touches its estate, its guarantee that it touches no other; the rest follows from
what its own estate is when it returns.
-/

open Interleaving

variable {ι : Type} [DecidableEq ι]

/-! ## Rely and guarantee of a creator -/

namespace Creation

/-- Nobody else touches what is `i`'s. -/
structure Leaves (i : ι) (w w' : World ι) : Prop where
  estate : Disk.SameEstate (some i) w.disk w'.disk
  log : w'.log i = w.log i

/-- The names of `i`'s file are temporary ones, and `leaf` once it holds all of `text`. -/
def Whole (i : ι) (leaf text : Bytes) (d : Disk ι) : Prop :=
  ∀ name id f, d.entry (some i) name = some id → d.file (some i) id = some f →
    writeTemplate <+: name ∨ (name = leaf ∧ f.content = text)

structure Minds (leaf text : Bytes) (i : ι) (w w' : World ι) : Prop where
  others : ∀ a, a ≠ some i → Disk.SameEstate a w.disk w'.disk
  whole : Whole i leaf text w'.disk
  log : ∀ j, j ≠ i → w'.log j = w.log j

theorem compatible (leaf text : ι → Bytes) :
    Compatible (Leaves (ι := ι)) (fun i => Minds (leaf i) (text i) i) where
  refl i w := ⟨.refl (some i) w.disk, rfl⟩
  trans _ _ _ _ h h' := ⟨h.estate.trans h'.estate, h'.log.trans h.log⟩
  within i j hij _ _ h := ⟨h.others (some j) (by simpa using Ne.symm hij), h.log j (Ne.symm hij)⟩

variable {crypto : Crypto} {i : ι} {leaf text temp : Bytes} {id : Nat} {w : World ι}

theorem leaves_refl (w : World ι) : Leaves i w w := ⟨.refl (some i) w.disk, rfl⟩

theorem onDisk : OnDisk crypto false (semOf (World.run crypto false)) i (Leaves i) where
  refl := leaves_refl
  log _ _ h := h.log
  perform _ _ _ _ h := World.exists_perform h

variable {names : List Bytes} {f : File ι}

/-- What a creator of `leaf` knows of its file. -/
structure Drafts (i : ι) (leaf text : Bytes) (id : Nat) (names : List Bytes) (f : File ι)
    (w : World ι) : Prop where
  holds : w.disk.Holds i names id f
  names : ∀ name ∈ names, writeTemplate <+: name ∨ (name = leaf ∧ f.content = text)

theorem Drafts.whole (h : Drafts i leaf text id names f w) : Whole i leaf text w.disk := by
  intro name k f' hentry hfile
  rw [h.holds.entry] at hentry
  split at hentry
  case isTrue hmem =>
    obtain rfl := Option.some.inj hentry
    rw [h.holds.file] at hfile
    obtain rfl := Option.some.inj hfile
    exact h.names name hmem
  case isFalse => cases hentry

theorem calm_drafts : Calm i (Leaves i) (Minds leaf text i) (Drafts i leaf text id names f) where
  stable _ _ hR h := ⟨h.holds.of_same hR.estate, h.names⟩
  idle w _ a _ h :=
    ⟨⟨fun a _ => .refl a w.disk, h.whole, fun _ hj => World.log_record_of_ne hj a _⟩, h.holds,
      h.names⟩

theorem writer_drafts (htemp : writeTemplate <+: temp) :
    FileWriter i (Leaves i) (Minds leaf text i) id (Drafts i leaf text id [temp]) where
  calm _ := calm_drafts
  alter f w call a g _ hg _ h := by
    obtain ⟨hothers, hholds⟩ := h.holds.alter hg
    have hdrafts : Drafts i leaf text id [temp] (g f) (w.record i call a (w.disk.alter id g)) :=
      ⟨hholds, fun name hname => .inl (List.mem_singleton.mp hname ▸ htemp)⟩
    exact ⟨⟨hothers, hdrafts.whole, fun _ hj => World.log_record_of_ne hj _ _⟩, hdrafts⟩

theorem stable_bare : Stable (Leaves i) fun w => w.disk.Bare i :=
  fun _ _ hR h => h.of_same hR.estate

theorem whole_of_bare (h : w.disk.Bare i) : Whole i leaf text w.disk := by
  intro name id f hentry
  rw [h name] at hentry
  cases hentry

/-! ## The call step by step -/

/-- Giving up a name of the file. -/
theorem Drafts.unlink {name : Bytes} {a : Bool} {d : Disk ι} {choice : Choice}
    (h : Drafts i leaf text id names f w) (hname : name ∈ names)
    (hperform : w.disk.perform crypto false i (.unlink name) choice = some (a, d)) :
    Minds leaf text i w (w.record i (.unlink name) a d) ∧
      Drafts i leaf text id (names.filter (· ≠ name)) f (w.record i (.unlink name) a d) := by
  have hd : d = w.disk.unlink name := by
    rcases Disk.unlink_cases hperform with hd | ⟨-, hfails | hnone⟩
    · exact hd
    · cases hfails
    · have hentry := h.holds.entry name
      simp [Disk.entry, hnone, hname] at hentry
  subst hd
  obtain ⟨hothers, hholds⟩ := h.holds.unlink hname
  have hdrafts : Drafts i leaf text id (names.filter (· ≠ name)) f
      (w.record i (.unlink name) a (w.disk.unlink name)) :=
    ⟨hholds, fun n hn => h.names n (List.mem_of_mem_filter hn)⟩
  exact ⟨⟨hothers, hdrafts.whole, fun _ hj => World.log_record_of_ne hj _ _⟩, hdrafts⟩

/-- Where `linkRecord` leaves its file. -/
inductive Linked (i : ι) (leaf text temp : Bytes) (id : Nat) (w : World ι) : Int × Bool → Prop where
  | failed {result : Int} {f : File ι} (hresult : result ≠ 0)
      (h : Drafts i leaf text id [temp] f w) : Linked i leaf text temp id w (result, false)
  | linked {result : Int} (h : Drafts i leaf text id [leaf, temp] ⟨text, true, true, some i⟩ w) :
      Linked i leaf text temp id w (result, true)

theorem stable_linked (outcome : Int × Bool) :
    Stable (Leaves i) fun w => Linked i leaf text temp id w outcome := by
  intro w w' hR h
  cases h with
  | failed hresult h => exact .failed hresult (calm_drafts.stable w w' hR h)
  | linked h => exact .linked (calm_drafts.stable w w' hR h)

theorem safe_linkRecord (htemp : writeTemplate <+: temp)
    (h : Drafts i leaf text id [temp] ⟨[], true, false, some i⟩ w) :
    Safe (semOf (World.run crypto false)) i (Leaves i) (Minds leaf text i)
      (fun outcome w => Linked i leaf text temp id w outcome) (linkRecord id temp leaf text) w := by
  refine Safe.bind leaves_refl (Safe.mono ?_ ((writer_drafts htemp).safe_fillTemp onDisk h))
  rintro ok w ⟨f, h, hok⟩
  cases ok with
  | false => exact Safe.pure (stable_linked _) (.failed (by decide) h)
  | true =>
    obtain rfl : f = _ := hok
    refine safe_sys onDisk calm_drafts.stable h fun w _ answer d h hperform => ?_
    rcases Disk.link_cases hperform with ⟨rfl, hnew, rfl, -⟩ | ⟨hne, rfl, -⟩
    · obtain ⟨hothers, hholds⟩ := h.holds.link List.mem_cons_self hnew
      have hlinked : Drafts i leaf text id [leaf, temp] ⟨text, true, true, some i⟩
          (w.record i (.link temp leaf) .linked (w.disk.link temp leaf)) := by
        refine ⟨hholds, fun name hname => ?_⟩
        rcases List.mem_cons.mp hname with rfl | hname
        · exact .inr ⟨rfl, rfl⟩
        · exact h.names name hname
      refine ⟨⟨hothers, hlinked.whole, fun _ hj => World.log_record_of_ne hj _ _⟩,
        Safe.bind leaves_refl (Safe.mono ?_ (calm_drafts.safe_syncDirectory onDisk hlinked))⟩
      intro synced w h
      cases synced with
      | false => exact Safe.pure (stable_linked _) (.linked h)
      | true => exact Safe.pure (stable_linked _) (.linked h)
    · obtain ⟨hG, h⟩ := calm_drafts.idle w (.link temp leaf) answer rfl h
      refine ⟨hG, ?_⟩
      cases answer with
      | linked => exact absurd rfl hne
      | taken => exact Safe.pure (stable_linked _) (.failed (by decide) h)
      | failed => exact Safe.pure (stable_linked _) (.failed (by decide) h)

/-- What a call with the result `r` leaves: its record, or nothing. -/
structure Created (i : ι) (directory name hash : Bytes) (r : Int) (w : World ι) : Prop where
  record : r = 0 → buildPlayerPath directory name = some (playerLeaf name) ∧
    ∃ id, w.disk.Holds i [playerLeaf name] id ⟨recordText name hash, true, true, some i⟩
  nothing : r ≠ 0 → w.disk.Bare i

variable {directory name hash : Bytes}

theorem stable_created (r : Int) : Stable (Leaves i) (Created i directory name hash r) := by
  intro w w' hR h
  refine ⟨fun hr => ?_, fun hr => (h.nothing hr).of_same hR.estate⟩
  obtain ⟨hpath, id, hholds⟩ := h.record hr
  exact ⟨hpath, id, hholds.of_same hR.estate⟩

theorem safe_refused (h : w.disk.Bare i) :
    Safe (semOf (World.run crypto false)) i (Leaves i) (Minds leaf text i)
      (Created i directory name hash) (pure (-1)) w :=
  Safe.pure (stable_created _) ⟨fun hr => absurd hr (by decide), fun _ => h⟩

/-- The last call of `write_new_record_atomic`: its temporary name goes. -/
theorem safe_unlinkTemp {r : Int} (names : List Bytes) (htemp : temp ∉ names)
    (hr : r = 0 → names = [playerLeaf name] ∧ f = ⟨recordText name hash, true, true, some i⟩)
    (hr' : r ≠ 0 → names = [])
    (hpath : buildPlayerPath directory name = some (playerLeaf name))
    (h : Drafts i leaf text id (names ++ [temp]) f w) :
    Safe (semOf (World.run crypto false)) i (Leaves i) (Minds leaf text i)
      (Created i directory name hash) (do let _ ← sys (.unlink temp); pure r) w := by
  refine safe_sys onDisk calm_drafts.stable h fun w _ a d h hperform => ?_
  obtain ⟨hG, h⟩ := h.unlink (by simp) hperform
  have hnames : (names ++ [temp]).filter (· ≠ temp) = names := by
    have hself : names.filter (· ≠ temp) = names := by
      rw [List.filter_eq_self]
      intro n hn
      simpa using fun heq : n = temp => htemp (heq ▸ hn)
    rw [List.filter_append, hself]
    simp
  rw [hnames] at h
  refine ⟨hG, Safe.pure (stable_created r) ⟨fun hzero => ?_, fun hne => ?_⟩⟩
  · obtain ⟨rfl, rfl⟩ := hr hzero
    exact ⟨hpath, id, h.holds⟩
  · obtain rfl := hr' hne
    exact h.holds.bare

theorem safe_publishNew (hpath : buildPlayerPath directory name = some (playerLeaf name))
    (htemp : writeTemplate <+: temp)
    (h : Drafts i (playerLeaf name) (recordText name hash) id [temp] ⟨[], true, false, some i⟩ w) :
    Safe (semOf (World.run crypto false)) i (Leaves i)
      (Minds (playerLeaf name) (recordText name hash) i) (Created i directory name hash)
      (publishNew (playerLeaf name) (recordText name hash) (temp, id)) w := by
  have hleaf : temp ≠ playerLeaf name := by
    rintro rfl
    obtain ⟨rest, hrest⟩ := htemp
    exact playerLeaf_ne_dot (buildPlayerPath_eq_some hpath).1 hrest.symm
  refine Safe.bind leaves_refl (Safe.mono ?_ (safe_linkRecord htemp h))
  intro outcome w hlinked
  cases hlinked with
  | failed hresult h =>
    simp only [Bool.and_false, Bool.false_eq_true, if_false]
    exact safe_unlinkTemp [] (by simp) (absurd · hresult) (fun _ => rfl) hpath h
  | @linked result h =>
    by_cases hzero : result = 0
    · simp only [hzero, ne_eq, not_true_eq_false, decide_false, Bool.false_and, Bool.false_eq_true,
        if_false]
      exact safe_unlinkTemp [playerLeaf name] (by simpa using hleaf)
        (fun _ => ⟨rfl, rfl⟩) (absurd rfl ·) hpath h
    · simp only [ne_eq, hzero, not_false_eq_true, decide_true, Bool.and_true, if_true]
      refine safe_sys onDisk calm_drafts.stable h fun w _ a d h hperform => ?_
      obtain ⟨hG, h⟩ := h.unlink (by simp) hperform
      have hnames : [playerLeaf name, temp].filter (· ≠ playerLeaf name) = [temp] := by
        simp [hleaf]
      rw [hnames] at h
      exact ⟨hG, safe_unlinkTemp [] (by simp) (absurd · hzero) (fun _ => rfl) hpath h⟩

theorem safe_writeNewRecordAtomic (h : w.disk.Bare i) :
    Safe (semOf (World.run crypto false)) i (Leaves i)
      (Minds (playerLeaf name) (recordText name hash) i) (Created i directory name hash)
      (writeNewRecordAtomic directory name hash) w := by
  unfold writeNewRecordAtomic
  split
  · exact safe_refused h
  case h_2 finalPath hpath =>
  obtain rfl := (buildPlayerPath_eq_some hpath).2
  split
  · exact safe_refused h
  split
  · exact safe_refused h
  case h_2 text htext =>
  obtain rfl := buildRecordText_eq_some htext
  refine safe_sys onDisk stable_bare h fun w _ a d h hperform => ?_
  rcases Disk.mkstemp_cases hperform with ⟨rfl, rfl⟩ | ⟨suffix, id, -, hfree, hid, rfl, rfl⟩
  · exact ⟨⟨fun a _ => .refl a w.disk, whole_of_bare h, fun _ hj => World.log_record_of_ne hj _ _⟩,
      safe_refused h⟩
  · have htemp : writeTemplate <+: writeTemplate ++ suffix := List.prefix_append _ _
    have hdrafts : Drafts i (playerLeaf name) (recordText name hash) id [writeTemplate ++ suffix]
        ⟨[], true, false, some i⟩ (w.record i (.mkstemp writeTemplate)
          (some (writeTemplate ++ suffix, id)) (w.disk.create (writeTemplate ++ suffix) id _)) :=
      ⟨Disk.holds_create hfree hid h rfl,
        fun n hn => .inl (List.mem_singleton.mp hn ▸ htemp)⟩
    have hothers : ∀ a, a ≠ some i → Disk.SameEstate a w.disk
        (w.disk.create (writeTemplate ++ suffix) id ⟨[], true, false, some i⟩) :=
      fun a ha => Disk.sameEstate_create hfree hid (Ne.symm ha)
    exact ⟨⟨hothers, hdrafts.whole, fun _ hj => World.log_record_of_ne hj _ _⟩,
      safe_publishNew hpath htemp hdrafts⟩

theorem safe_playerStoreCreate {prepared : Buffer 256} (h : w.disk.Bare i) :
    Safe (semOf (World.run crypto false)) i (Leaves i)
      (Minds (playerLeaf name) (recordText name prepared.string) i)
      (Created i directory name prepared.string) (playerStoreCreate directory name prepared) w := by
  unfold playerStoreCreate
  split
  · exact safe_refused h
  split
  · exact safe_refused h
  · exact safe_writeNewRecordAtomic h

end Creation

/-! ## Many calls -/

/-- The arguments of a call of `player_store_create`. -/
structure CreateRequest where
  name : Bytes
  prepared : Buffer 256

def CreateRequest.leaf (request : CreateRequest) : Bytes := playerLeaf request.name

def CreateRequest.text (request : CreateRequest) : Bytes :=
  recordText request.name request.prepared.string

/-- The runs of the calls `requests`, interleaved system call by system call, in a
directory with the files of `d`. Only `unlink` of an existing name never fails. -/
def createSystem (crypto : Crypto) (directory : Bytes) (requests : ι → CreateRequest)
    (d : Disk Empty) : Transition.System (Pool ι (World ι) Call Call.Answer Int) ι :=
  Pool.system (semOf (World.run crypto false)) (World.start d.found) fun i =>
    playerStoreCreate directory (requests i).name (requests i).prepared

namespace Creation

variable {crypto : Crypto} {directory : Bytes} {requests : ι → CreateRequest} {d₀ : Disk Empty}
  {d : Disk ι} {p : Pool ι (World ι) Call Call.Answer Int} {a : Option ι} {i : ι} {name : Bytes}
  {id : Nat} {f : File ι}

theorem author_found (hfile : (d₀.found : Disk ι).file a id = some f) : a = none := by
  obtain ⟨hf, rfl⟩ := Disk.file_eq_some.mp hfile
  obtain ⟨g, -, rfl⟩ := Option.map_eq_some_iff.mp hf
  rfl

theorem bare_found : (d₀.found : Disk ι).Bare i := by
  intro name
  cases hentry : (d₀.found : Disk ι).entry (some i) name with
  | none => rfl
  | some id =>
    obtain ⟨-, hauthored⟩ := Disk.entry_eq_some.mp hentry
    obtain ⟨f, hf, hauthor⟩ := Option.any_eq_true _ _ |>.mp hauthored
    cases author_found (Disk.file_eq_some.mpr ⟨hf, of_decide_eq_true hauthor⟩)

theorem safe_requests (j : ι) :
    Safe (semOf (World.run crypto false)) j (Leaves j)
      (Minds (requests j).leaf (requests j).text j)
      (Created j directory (requests j).name (requests j).prepared.string)
      (playerStoreCreate directory (requests j).name (requests j).prepared)
      (World.start d₀.found) :=
  safe_playerStoreCreate bare_found

/-- A call that is done has left what `Created` says. -/
theorem created (hp : (createSystem crypto directory requests d₀).Reachable p) {r : Int}
    (hi : p.threads i = .ret r) :
    Created i directory (requests i).name (requests i).prepared.string r p.shared :=
  Pool.post_of_ret (compatible (fun i => (requests i).leaf) fun i => (requests i).text)
    safe_requests hp hi

/-- The files found in the directory, and their names, stay as they are. -/
theorem sameEstate_found (hp : (createSystem crypto directory requests d₀).Reachable p) :
    Disk.SameEstate none d₀.found p.shared.disk :=
  Pool.shared_invariant (compatible (fun i => (requests i).leaf) fun i => (requests i).text)
    safe_requests (I := fun w => Disk.SameEstate none d₀.found w.disk) (.refl none _)
    (fun _ _ _ hG h => h.trans (hG.others none (by simp))) hp

/-- No name but a temporary one ever refers to part of a record. -/
theorem whole_of_reachable (hp : (createSystem crypto directory requests d₀).Reachable p) :
    ∀ i, Whole i (requests i).leaf (requests i).text p.shared.disk := by
  refine Pool.shared_invariant (compatible (fun i => (requests i).leaf) fun i => (requests i).text)
    safe_requests (I := fun w => ∀ i, Whole i (requests i).leaf (requests i).text w.disk)
    (fun i => whole_of_bare bare_found) ?_ hp
  intro j w w' hG h i
  by_cases hij : i = j
  · subst hij
    exact hG.whole
  · have hsame := hG.others (some i) (by simpa using hij)
    intro name id f hentry hfile
    rw [hsame.entry] at hentry
    rw [hsame.file] at hfile
    exact h i name id f hentry hfile

end Creation

/-- Creation is exclusive and all or nothing. Of the calls for one account at most
one returns 0, and then the leaf, absent before, holds all of its record. What was
in the directory stays. A call with another result has left no name of a file of
its own, neither a record nor a temporary one. At any moment a leaf that refers to
a file at all refers to a record found there or to a complete one of some call. -/
theorem create_exclusive (crypto : Crypto) (directory : Bytes) (requests : ι → CreateRequest)
    (d : Disk Empty) {p : Pool ι (World ι) Call Call.Answer Int}
    (hp : (createSystem crypto directory requests d).Reachable p) :
    (∀ i j, asciiEqualIgnoreCase (requests i).name (requests j).name = true →
      p.threads i = .ret 0 → p.threads j = .ret 0 → i = j) ∧
    (∀ i, p.threads i = .ret 0 → d.contentAt (requests i).leaf = none ∧
      p.shared.disk.contentAt (requests i).leaf = some (requests i).text) ∧
    (∀ name content, d.contentAt name = some content →
      p.shared.disk.contentAt name = some content) ∧
    (∀ i r, p.threads i = .ret r → r ≠ 0 → ∀ name id, p.shared.disk.dir name = some id →
      p.shared.disk.authored (some i) id = false) ∧
    (∀ name content, playerStoreNameValid name = true →
      p.shared.disk.contentAt (playerLeaf name) = some content →
      d.contentAt (playerLeaf name) = some content ∨
        ∃ j, (requests j).leaf = playerLeaf name ∧ content = (requests j).text) := by
  have hfound := Creation.sameEstate_found hp
  -- the entry of the leaf once a call has returned 0
  have hrecord : ∀ i, p.threads i = .ret 0 → ∃ id,
      p.shared.disk.entry (some i) (requests i).leaf = some id ∧
        p.shared.disk.file (some i) id = some ⟨(requests i).text, true, true, some i⟩ := by
    intro i hi
    obtain ⟨-, id, hholds⟩ := (Creation.created hp hi).record rfl
    exact ⟨id, by rw [hholds.entry]; exact if_pos List.mem_cons_self, hholds.file⟩
  refine ⟨?_, ?_, ?_, ?_, ?_⟩
  · intro i j hnames hi hj
    obtain ⟨id, hentry, -⟩ := hrecord i hi
    obtain ⟨id', hentry', -⟩ := hrecord j hj
    have hleaf : (requests j).leaf = (requests i).leaf := (playerLeaf_eq_iff.mpr hnames).symm
    rw [hleaf] at hentry'
    by_contra hij
    rw [Disk.entry_other hentry' (by simpa using hij)] at hentry
    cases hentry
  · intro i hi
    obtain ⟨id, hentry, hfile⟩ := hrecord i hi
    refine ⟨?_, Disk.contentAt_of_entry hentry hfile⟩
    cases hcontent : d.contentAt (requests i).leaf with
    | none => rfl
    | some content =>
      rw [← Disk.contentAt_found (ι := ι)] at hcontent
      obtain ⟨a, id', f, hold, hfile', -⟩ := Disk.exists_entry hcontent
      obtain rfl := Creation.author_found hfile'
      rw [← hfound.entry, Disk.entry_other hentry (by simp)] at hold
      cases hold
  · intro name content hcontent
    rw [← Disk.contentAt_found (ι := ι)] at hcontent
    obtain ⟨a, id, f, hentry, hfile, rfl⟩ := Disk.exists_entry hcontent
    obtain rfl := Creation.author_found hfile
    rw [← hfound.entry] at hentry
    rw [← hfound.file] at hfile
    exact Disk.contentAt_of_entry hentry hfile
  · intro i r hi hr name id hdir
    have hbare := (Creation.created hp hi).nothing hr name
    cases hauthored : p.shared.disk.authored (some i) id with
    | false => rfl
    | true => rw [Disk.entry_eq_some.mpr ⟨hdir, hauthored⟩] at hbare; cases hbare
  · intro name content hvalid hcontent
    obtain ⟨a, id, f, hentry, hfile, rfl⟩ := Disk.exists_entry hcontent
    cases a with
    | none =>
      rw [hfound.entry] at hentry
      rw [hfound.file] at hfile
      rw [← Disk.contentAt_found (ι := ι)]
      exact .inl (Disk.contentAt_of_entry hentry hfile)
    | some j =>
      rcases Creation.whole_of_reachable hp j _ _ _ hentry hfile with ⟨rest, hrest⟩ | ⟨hleaf, htext⟩
      · exact absurd hrest.symm (playerLeaf_ne_dot hvalid)
      · exact .inr ⟨j, hleaf.symm, htext⟩

/-! A run of two calls for one account. -/

/-- A library whose password strings are the passwords themselves, where that is possible. -/
def Crypto.plainText : Crypto where
  passwordOf hash :=
    if hash.length < cryptoPwhashStrBytes ∧ hash.all (fun b => b ≠ 0 && b ≠ 10 && b ≠ 13) then
      some hash
    else none
  plain hash password h b hb := by
    obtain ⟨⟨-, hall⟩, -⟩ := Option.ite_none_right_eq_some.mp h
    simpa [and_assoc] using List.all_eq_true.mp hall b hb
  short hash password h := (Option.ite_none_right_eq_some.mp h).1.1

def Disk.empty : Disk Empty := ⟨fun _ => none, fun _ => none, fun _ _ h => nomatch h⟩

namespace Creation

def rivals (second : Bool) : CreateRequest :=
  ⟨ascii (if second then "Ada" else "ada"),
    (Buffer.zero 256).copyString (ascii (if second then "two" else "one"))⟩

/-- The first call links its record while the second is still writing. -/
def rivalry : List (Bool × Choice) :=
  [(false, .temp (ascii "aaaaaa") 0), (true, .temp (ascii "bbbbbb") 1), (false, .succeed),
    (false, .count 35), (true, .succeed), (false, .succeed), (false, .succeed), (false, .succeed),
    (true, .count 35), (true, .succeed), (true, .succeed), (true, .taken), (true, .succeed),
    (false, .succeed), (false, .succeed), (false, .succeed), (false, .succeed)]

end Creation

theorem create_exclusive_rivals :
    ∃ p, (createSystem Crypto.plainText (ascii "/srv") Creation.rivals Disk.empty).Reachable p ∧
      p.threads false = .ret 0 ∧ p.threads true = .ret 1 ∧
      p.shared.disk.contentAt (ascii "ada.player") = some (Creation.rivals false).text := by
  have hp : (createSystem Crypto.plainText (ascii "/srv") Creation.rivals Disk.empty).Reachable _ :=
    Pool.reachable_of_replay Creation.rivalry (.init rfl) rfl
  exact ⟨_, hp, rfl, rfl, ((create_exclusive _ _ _ _ hp).2.1 false rfl).2⟩

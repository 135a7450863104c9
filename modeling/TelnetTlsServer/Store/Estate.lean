-- SUMMARY: What each call owns in the player directory: the files it created and the names that refer to them.
import TelnetTlsServer.Store.Disk

/-!
# Estates

The files of a directory are divided by their authors, and a name belongs to the
author of the file it refers to. The estate of an author is its files and its
names. An operation on the directory changes the estate of the one who performs
it, provided it works on that estate; all the others stay what they are.
-/

variable {ι : Type} [DecidableEq ι]

namespace Disk

variable {d d' : Disk ι} {a : Option ι} {i : ι} {name : Bytes} {id : Nat}

def authored (d : Disk ι) (a : Option ι) (id : Nat) : Bool :=
  (d.files id).any fun f => f.author = a

/-- The file of author `a` that `name` refers to. -/
def entry (d : Disk ι) (a : Option ι) (name : Bytes) : Option Nat :=
  (d.dir name).filter (d.authored a)

def file (d : Disk ι) (a : Option ι) (id : Nat) : Option (File ι) :=
  (d.files id).filter fun f => f.author = a

structure SameEstate (a : Option ι) (d d' : Disk ι) : Prop where
  entry : ∀ name, d'.entry a name = d.entry a name
  file : ∀ id, d'.file a id = d.file a id

theorem SameEstate.refl (a : Option ι) (d : Disk ι) : SameEstate a d d :=
  ⟨fun _ => rfl, fun _ => rfl⟩

theorem SameEstate.trans {d'' : Disk ι} (h : SameEstate a d d') (h' : SameEstate a d' d'') :
    SameEstate a d d'' :=
  ⟨fun n => (h'.entry n).trans (h.entry n), fun k => (h'.file k).trans (h.file k)⟩

theorem entry_eq_some : d.entry a name = some id ↔ d.dir name = some id ∧ d.authored a id = true := by
  simp [entry, Option.filter_eq_some_iff]

theorem file_eq_some {f : File ι} : d.file a id = some f ↔ d.files id = some f ∧ f.author = a := by
  simp [file, Option.filter_eq_some_iff]

theorem authored_of_file {f : File ι} (h : d.file a id = some f) : d.authored a id = true := by
  obtain ⟨hf, ha⟩ := file_eq_some.mp h
  simp [authored, hf, ha]

theorem author_unique {b : Option ι} (ha : d.authored a id = true) (hb : d.authored b id = true) :
    a = b := by
  simp only [authored, Option.any_eq_true, decide_eq_true_eq] at ha hb
  obtain ⟨f, hf, rfl⟩ := ha
  obtain ⟨g, hg, rfl⟩ := hb
  rw [hf] at hg
  rw [Option.some.inj hg]

theorem entry_congr (hdir : d'.dir name = d.dir name)
    (h : ∀ k, d.dir name = some k → d'.authored a k = d.authored a k) :
    d'.entry a name = d.entry a name := by
  rw [entry, entry, hdir]
  cases hk : d.dir name with
  | none => rfl
  | some k => simp only [Option.filter, h k hk]

theorem file_congr (h : d'.files id = d.files id) : d'.file a id = d.file a id := by
  rw [file, file, h]

theorem file_eq_none (h : d.authored a id = false) : d.file a id = none := by
  cases hf : d.file a id with
  | none => rfl
  | some f => simp [authored_of_file hf] at h

/-! Each operation on a disk keeps the estates of those it does not concern. -/

theorem sameEstate_create {f : File ι} (hname : d.dir name = none) (hid : d.files id = none)
    (ha : f.author ≠ a) : SameEstate a d (d.create name id f) where
  entry n := by
    by_cases hn : n = name
    · subst hn
      simp [entry, create, authored, hname, ha]
    · apply entry_congr (Function.update_of_ne hn _ _)
      intro k hk
      -- no name refers to the new file yet
      have hne : k ≠ id := by
        rintro rfl
        simpa [hid] using d.linked n k hk
      simp [authored, create, Function.update_of_ne hne]
  file k := by
    by_cases hk : k = id
    · subst hk
      simp [file, create, hid, ha]
    · exact file_congr (Function.update_of_ne hk _ _)

theorem authored_alter {g : File ι → File ι} (hg : ∀ f, (g f).author = f.author) (k : Nat) :
    (d.alter id g).authored a k = d.authored a k := by
  by_cases hk : k = id
  · subst hk
    cases hf : d.files k with
    | none => simp [authored, alter, hf]
    | some f => simp [authored, alter, hf, hg]
  · simp [authored, alter, Function.update_of_ne hk]

theorem sameEstate_alter {g : File ι → File ι} (hg : ∀ f, (g f).author = f.author)
    (ha : d.authored a id = false) : SameEstate a d (d.alter id g) where
  entry n := entry_congr rfl fun k _ => authored_alter hg k
  file k := by
    by_cases hk : k = id
    · subst hk
      rw [file_eq_none ha, file_eq_none (by rw [authored_alter hg, ha])]
    · exact file_congr (Function.update_of_ne hk _ _)

theorem sameEstate_link {old new : Bytes} (hnew : d.dir new = none)
    (ha : d.entry a old = none) : SameEstate a d (d.link old new) where
  entry n := by
    by_cases hn : n = new
    · subst hn
      calc (d.link old n).entry a n = d.entry a old := by
            simp only [entry, link, Function.update_self]; rfl
        _ = none := ha
        _ = d.entry a n := by simp [entry, hnew]
    · exact entry_congr (Function.update_of_ne hn _ _) fun _ _ => rfl
  file _ := rfl

theorem sameEstate_unlink (ha : d.entry a name = none) : SameEstate a d (d.unlink name) where
  entry n := by
    by_cases hn : n = name
    · subst hn
      rw [ha]
      simp [entry, unlink]
    · exact entry_congr (Function.update_of_ne hn _ _) fun _ _ => rfl
  file _ := rfl

/-! ## Contents -/

/-- The content of the file `name` refers to. -/
def contentAt (d : Disk ι) (name : Bytes) : Option Bytes :=
  ((d.dir name).bind d.files).map File.content

theorem contentAt_of_entry {f : File ι} (hentry : d.entry a name = some id)
    (hfile : d.file a id = some f) : d.contentAt name = some f.content := by
  obtain ⟨hdir, -⟩ := entry_eq_some.mp hentry
  obtain ⟨hf, -⟩ := file_eq_some.mp hfile
  simp [contentAt, hdir, hf]

/-- Every file has an author, if only the one of the files found. -/
theorem exists_entry {content : Bytes} (h : d.contentAt name = some content) :
    ∃ a id f, d.entry a name = some id ∧ d.file a id = some f ∧ f.content = content := by
  obtain ⟨f, hbind, hcontent⟩ := Option.map_eq_some_iff.mp h
  obtain ⟨id, hdir, hf⟩ := Option.bind_eq_some_iff.mp hbind
  have hfile : d.file f.author id = some f := file_eq_some.mpr ⟨hf, rfl⟩
  exact ⟨f.author, id, f, entry_eq_some.mpr ⟨hdir, authored_of_file hfile⟩, hfile, hcontent⟩

omit [DecidableEq ι] in
theorem contentAt_found {κ : Type} {d₀ : Disk κ} :
    (d₀.found : Disk ι).contentAt name = d₀.contentAt name := by
  cases hdir : d₀.dir name with
  | none => simp [contentAt, found, hdir]
  | some id => cases hf : d₀.files id <;> simp [contentAt, found, hdir, hf]

/-! ## Holdings

A call has at most one file, under one or two names. -/

theorem authored_other {b : Option ι} (h : d.authored b id = true) (hne : a ≠ b) :
    d.authored a id = false := by
  cases ha : d.authored a id with
  | false => rfl
  | true => exact absurd (author_unique ha h) hne

theorem entry_other {b : Option ι} (h : d.entry b name = some id) (hne : a ≠ b) :
    d.entry a name = none := by
  obtain ⟨hdir, hb⟩ := entry_eq_some.mp h
  simp [entry, hdir, Option.filter, authored_other hb hne]

/-- `i` has no name for a file of its own. -/
def Bare (d : Disk ι) (i : ι) : Prop := ∀ name, d.entry (some i) name = none

theorem Bare.of_same (h : d.Bare i) (hsame : SameEstate (some i) d d') : d'.Bare i :=
  fun name => (hsame.entry name).trans (h name)

/-- The names of `i`'s files are `names`, and all refer to the file `f`. -/
structure Holds (d : Disk ι) (i : ι) (names : List Bytes) (id : Nat) (f : File ι) : Prop where
  entry : ∀ name, d.entry (some i) name = if name ∈ names then some id else none
  file : d.file (some i) id = some f

theorem Holds.bare {f : File ι} (h : d.Holds i [] id f) : d.Bare i := by
  intro name
  simpa using h.entry name

theorem Holds.of_same {names : List Bytes} {f : File ι} (h : d.Holds i names id f)
    (hsame : SameEstate (some i) d d') : d'.Holds i names id f :=
  ⟨fun n => (hsame.entry n).trans (h.entry n), (hsame.file id).trans h.file⟩

theorem holds_create (hname : d.dir name = none) (hid : d.files id = none) (h : d.Bare i)
    {f : File ι} (hf : f.author = some i) : (d.create name id f).Holds i [name] id f where
  entry n := by
    by_cases hn : n = name
    · subst hn
      simp [entry, create, authored, Option.filter, hf]
    · have hentry : (d.create name id f).entry (some i) n = d.entry (some i) n := by
        apply entry_congr (Function.update_of_ne hn _ _)
        intro k hk
        have hne : k ≠ id := by
          rintro rfl
          simpa [hid] using d.linked n k hk
        simp [authored, create, Function.update_of_ne hne]
      simp [hentry, h n, hn]
  file := by simp [file, create, Option.filter, hf]

theorem Holds.alter {names : List Bytes} {f : File ι} (h : d.Holds i names id f)
    {g : File ι → File ι} (hg : ∀ f, (g f).author = f.author) :
    (∀ a, a ≠ some i → SameEstate a d (d.alter id g)) ∧ (d.alter id g).Holds i names id (g f) := by
  obtain ⟨hf, hauthor⟩ := file_eq_some.mp h.file
  refine ⟨fun a ha => sameEstate_alter hg (authored_other (authored_of_file h.file) ha), ?_, ?_⟩
  · intro n
    rw [← h.entry n]
    exact entry_congr rfl fun k _ => authored_alter hg k
  · simp [Disk.file, Disk.alter, hf, Option.filter, hg, hauthor]

theorem Holds.link {names : List Bytes} {f : File ι} (h : d.Holds i names id f) {old new : Bytes}
    (hold : old ∈ names) (hnew : d.dir new = none) :
    (∀ a, a ≠ some i → SameEstate a d (d.link old new)) ∧
      (d.link old new).Holds i (new :: names) id f := by
  have hentry : d.entry (some i) old = some id := by rw [h.entry, if_pos hold]
  refine ⟨fun a ha => sameEstate_link hnew (entry_other hentry ha), fun n => ?_, h.file⟩
  by_cases hn : n = new
  · subst hn
    rw [if_pos List.mem_cons_self, ← hentry]
    simp only [Disk.entry, Disk.link, Function.update_self]
    rfl
  · simp only [List.mem_cons, hn, false_or]
    rw [← h.entry n]
    exact entry_congr (Function.update_of_ne hn _ _) fun _ _ => rfl

theorem Holds.unlink {names : List Bytes} {f : File ι} (h : d.Holds i names id f)
    (hname : name ∈ names) :
    (∀ a, a ≠ some i → SameEstate a d (d.unlink name)) ∧
      (d.unlink name).Holds i (names.filter (· ≠ name)) id f := by
  have hentry : d.entry (some i) name = some id := by rw [h.entry, if_pos hname]
  refine ⟨fun a ha => sameEstate_unlink (entry_other hentry ha), fun n => ?_, h.file⟩
  by_cases hn : n = name
  · subst hn
    simp [Disk.entry, Disk.unlink]
  · simp only [List.mem_filter, hn, ne_eq, not_false_eq_true, decide_true, and_true]
    rw [← h.entry n]
    exact entry_congr (Function.update_of_ne hn _ _) fun _ _ => rfl

end Disk

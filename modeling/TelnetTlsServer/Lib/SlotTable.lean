-- SUMMARY: A fixed table of keyed records with reuse of the least recently seen slot, read as a partial map.
import Mathlib.Data.Finset.Card
import Mathlib.Data.List.Basic
import Mathlib.Data.List.Perm.Subperm
import Mathlib.Order.Lattice

/-!
# Slot tables

A table of a fixed number of slots. A record is found by its key; a key without
a record takes the first vacant slot, and when there is none, the first of the
least recently seen ones. One pass over the table does all three.

`lookup` reads the table as a partial map from keys to records. `locate` for a
key changes that map at the key, and at the key whose slot is reused, and
nowhere else.
-/

namespace SlotTable

variable {ρ κ τ : Type} [DecidableEq κ] [LinearOrder τ]

/-- How a record of type `ρ` is keyed, found vacant, stamped and made. `ceiling`
is the stamp a pass starts from. -/
structure Layout (ρ κ τ : Type) where
  key : ρ → κ
  vacant : ρ → Bool
  seen : ρ → τ
  touch : τ → ρ → ρ
  fresh : κ → τ → ρ
  ceiling : τ

/-- What a pass over the table decides. -/
inductive Slot where
  | found (index : Nat)
  | reuse (index : Nat)
deriving DecidableEq, Repr

/-- The pass: stop at the key, remember the first vacant slot and the first of
the least recently seen ones. -/
def scan (L : Layout ρ κ τ) (k : κ) : List ρ → Nat → Option Nat → Nat → τ → Slot
  | [], _, vacant, oldest, _ => .reuse (vacant.getD oldest)
  | r :: rest, index, vacant, oldest, oldestSeen =>
      if L.vacant r then
        scan L k rest (index + 1) (vacant.or (some index)) oldest oldestSeen
      else if L.key r = k then
        .found index
      else if L.seen r < oldestSeen then
        scan L k rest (index + 1) vacant index (L.seen r)
      else
        scan L k rest (index + 1) vacant oldest oldestSeen

def slotFor (L : Layout ρ κ τ) (table : List ρ) (k : κ) : Slot :=
  scan L k table 0 none 0 L.ceiling

def Slot.index : Slot → Nat
  | .found i => i
  | .reuse i => i

/-- The slot of `k` after it has been touched or made, and the table around it. -/
structure Located (ρ : Type) where
  table : List ρ
  index : Nat
  record : ρ

def locate (L : Layout ρ κ τ) (table : List ρ) (k : κ) (now : τ) : Located ρ :=
  match slotFor L table k with
  | .found i =>
      let record := L.touch now (table.getD i (L.fresh k now))
      ⟨table.set i record, i, record⟩
  | .reuse i =>
      let record := L.fresh k now
      ⟨table.set i record, i, record⟩

/-- Write a new value of the located record back. -/
def Located.put (loc : Located ρ) (record : ρ) : List ρ := loc.table.set loc.index record

/-- The record of a key. -/
def lookup (L : Layout ρ κ τ) (table : List ρ) (k : κ) : Option ρ :=
  table.find? fun r => !L.vacant r && L.key r = k

/-! ## What a pass decides -/

/-- The first of the least recently seen records, from a candidate on. -/
def oldestFrom (L : Layout ρ κ τ) : List ρ → Nat → Nat → τ → Nat
  | [], _, oldest, _ => oldest
  | r :: rest, index, oldest, oldestSeen =>
      if !L.vacant r && L.seen r < oldestSeen then oldestFrom L rest (index + 1) index (L.seen r)
      else oldestFrom L rest (index + 1) oldest oldestSeen

/-- A record that holds the key. -/
def holds (L : Layout ρ κ τ) (k : κ) (r : ρ) : Bool := !L.vacant r && L.key r = k

omit [LinearOrder τ] in
theorem holds_iff {L : Layout ρ κ τ} {k : κ} {r : ρ} :
    holds L k r = true ↔ L.vacant r = false ∧ L.key r = k := by
  simp [holds]

theorem scan_of_holds (L : Layout ρ κ τ) (k : κ) {rs : List ρ} {m : Nat}
    (h : rs.findIdx? (holds L k) = some m) (index : Nat) (vacant : Option Nat) (oldest : Nat)
    (oldestSeen : τ) :
    scan L k rs index vacant oldest oldestSeen = .found (index + m) := by
  induction rs generalizing index vacant oldest oldestSeen m with
  | nil => simp at h
  | cons r rest ih =>
    rw [List.findIdx?_cons] at h
    by_cases hv : L.vacant r = true
    · simp only [holds, hv, Bool.not_true, Bool.false_and, Bool.false_eq_true, if_false,
        Option.map_eq_some_iff] at h
      obtain ⟨m', hm', rfl⟩ := h
      simp only [scan, hv, if_true]
      rw [ih hm']
      congr 1
      omega
    · by_cases hk : L.key r = k
      · simp only [holds, hv, hk, Bool.not_false, Bool.true_and, decide_true, if_true,
          Option.some.injEq] at h
        subst h
        simp [scan, hv, hk]
      · simp only [holds, hv, hk, Bool.not_false, Bool.true_and, decide_false,
          Bool.false_eq_true, if_false, Option.map_eq_some_iff] at h
        obtain ⟨m', hm', rfl⟩ := h
        simp only [scan, hv, hk, if_false, Bool.false_eq_true]
        split <;>
        · rw [ih hm']
          congr 1
          omega

theorem scan_of_not_holds (L : Layout ρ κ τ) (k : κ) {rs : List ρ}
    (h : ∀ r ∈ rs, holds L k r = false) (index : Nat) (vacant : Option Nat) (oldest : Nat)
    (oldestSeen : τ) :
    scan L k rs index vacant oldest oldestSeen =
      .reuse ((vacant.or ((rs.findIdx? L.vacant).map (index + ·))).getD
        (oldestFrom L rs index oldest oldestSeen)) := by
  induction rs generalizing index vacant oldest oldestSeen with
  | nil => simp [scan, oldestFrom]
  | cons r rest ih =>
    have hr := h r (by simp)
    have hrest : ∀ r ∈ rest, holds L k r = false := fun r hr => h r (by simp [hr])
    have hshift : ∀ m : Nat, index + 1 + m = index + (m + 1) := by omega
    by_cases hv : L.vacant r = true
    · cases vacant <;> simp [scan, oldestFrom, hv, ih hrest, List.findIdx?_cons]
    · have hk : L.key r ≠ k := by simpa [holds, hv] using hr
      by_cases hs : L.seen r < oldestSeen <;>
        simp [scan, oldestFrom, hv, hk, hs, ih hrest, List.findIdx?_cons, Function.comp_def, hshift]

/-- Slot `i` holds the first of the least recently seen records. -/
def Oldest (L : Layout ρ κ τ) (table : List ρ) (i : Nat) : Prop :=
  ∃ r, table[i]? = some r ∧ ∀ j s, table[j]? = some s →
    L.seen r ≤ L.seen s ∧ (j < i → L.seen r < L.seen s)

omit [DecidableEq κ] in
/-- With no vacant record the pass ends at its first candidate, if nothing after
it is older, or at the first of the oldest records after it. -/
private theorem oldestFrom_cases (L : Layout ρ κ τ) {rs : List ρ}
    (hv : ∀ r ∈ rs, L.vacant r = false) (index oldest : Nat) (oldestSeen : τ) :
    (oldestFrom L rs index oldest oldestSeen = oldest ∧ ∀ r ∈ rs, oldestSeen ≤ L.seen r) ∨
    ∃ m, oldestFrom L rs index oldest oldestSeen = index + m ∧
      ∃ r, rs[m]? = some r ∧ L.seen r < oldestSeen ∧
        ∀ j s, rs[j]? = some s → L.seen r ≤ L.seen s ∧ (j < m → L.seen r < L.seen s) := by
  induction rs generalizing index oldest oldestSeen with
  | nil => exact .inl ⟨rfl, by simp⟩
  | cons r rest ih =>
    have hr := hv r (by simp)
    have hrest : ∀ r ∈ rest, L.vacant r = false := fun r hr => hv r (by simp [hr])
    simp only [oldestFrom, hr, Bool.not_false, Bool.true_and, decide_eq_true_eq]
    split
    case isTrue hlt =>
      rcases ih hrest (index + 1) index (L.seen r) with ⟨heq, hall⟩ | ⟨m, heq, r', hm, hlt', hmin⟩
      · refine .inr ⟨0, heq, r, by simp, hlt, ?_⟩
        intro j s hj
        refine ⟨?_, by omega⟩
        cases j with
        | zero => simp at hj; rw [hj]
        | succ j => exact hall s (List.mem_of_getElem? (by simpa using hj))
      · refine .inr ⟨m + 1, by omega, r', by simpa using hm, hlt'.trans hlt, ?_⟩
        intro j s hj
        cases j with
        | zero =>
          simp at hj
          subst hj
          exact ⟨hlt'.le, fun _ => hlt'⟩
        | succ j =>
          obtain ⟨hle, hearly⟩ := hmin j s (by simpa using hj)
          exact ⟨hle, fun hlt => hearly (by omega)⟩
    case isFalse hge =>
      rcases ih hrest (index + 1) oldest oldestSeen with ⟨heq, hall⟩ | ⟨m, heq, r', hm, hlt', hmin⟩
      · refine .inl ⟨heq, ?_⟩
        intro s hs
        rcases List.mem_cons.mp hs with rfl | hs
        · exact not_lt.mp hge
        · exact hall s hs
      · refine .inr ⟨m + 1, by omega, r', by simpa using hm, hlt', ?_⟩
        intro j s hj
        cases j with
        | zero =>
          simp at hj
          subst hj
          have hlt := hlt'.trans_le (not_lt.mp hge)
          exact ⟨hlt.le, fun _ => hlt⟩
        | succ j =>
          obtain ⟨hle, hearly⟩ := hmin j s (by simpa using hj)
          exact ⟨hle, fun hlt => hearly (by omega)⟩

omit [DecidableEq κ] in
theorem oldestFrom_oldest (L : Layout ρ κ τ) {table : List ρ} (hne : table ≠ [])
    (hv : ∀ r ∈ table, L.vacant r = false) (hceil : ∀ r ∈ table, L.seen r ≤ L.ceiling) :
    Oldest L table (oldestFrom L table 0 0 L.ceiling) := by
  rcases oldestFrom_cases L hv 0 0 L.ceiling with ⟨heq, hall⟩ | ⟨m, heq, r, hm, _, hmin⟩
  · rw [heq]
    obtain ⟨r, rest, rfl⟩ := List.exists_cons_of_ne_nil hne
    refine ⟨r, by simp, ?_⟩
    intro j s hj
    have hs := hall s (List.mem_of_getElem? hj)
    exact ⟨(hceil r (by simp)).trans hs, by omega⟩
  · rw [heq, Nat.zero_add]
    exact ⟨r, hm, hmin⟩

omit [DecidableEq κ] in
theorem Oldest.unique {L : Layout ρ κ τ} {table : List ρ} {i j : Nat} (hi : Oldest L table i)
    (hj : Oldest L table j) : i = j := by
  obtain ⟨r, hr, hrmin⟩ := hi
  obtain ⟨s, hs, hsmin⟩ := hj
  rcases Nat.lt_trichotomy i j with hlt | heq | hgt
  · exact absurd ((hsmin i r hr).2 hlt) (not_lt.mpr (hrmin j s hs).1)
  · exact heq
  · exact absurd ((hrmin j s hs).2 hgt) (not_lt.mpr (hsmin i r hr).1)

theorem slotFor_of_lookup {L : Layout ρ κ τ} {table : List ρ} {k : κ} {r : ρ}
    (h : lookup L table k = some r) :
    ∃ i, slotFor L table k = .found i ∧ table[i]? = some r ∧
      ∀ j s, j < i → table[j]? = some s → holds L k s = false := by
  have hfind : table.find? (holds L k) = some r := h
  rw [List.find?_eq_some_iff_getElem] at hfind
  obtain ⟨hr, i, hi, hget, hbefore⟩ := hfind
  have hidx : table.findIdx? (holds L k) = some i := by
    rw [List.findIdx?_eq_some_iff_getElem]
    refine ⟨hi, by rw [hget]; exact hr, ?_⟩
    intro j hji
    simpa using hbefore j hji
  refine ⟨i, ?_, ?_, ?_⟩
  · rw [slotFor, scan_of_holds L k hidx, Nat.zero_add]
  · rw [List.getElem?_eq_getElem hi, hget]
  · intro j s hji hs
    obtain ⟨hj, rfl⟩ := List.getElem?_eq_some_iff.mp hs
    simpa using hbefore j hji

omit [LinearOrder τ] in
theorem holds_of_lookup_none {L : Layout ρ κ τ} {table : List ρ} {k : κ}
    (h : lookup L table k = none) : ∀ r ∈ table, holds L k r = false := by
  intro r hr
  have hfind : table.find? (holds L k) = none := h
  simpa using List.find?_eq_none.mp hfind r hr

theorem slotFor_of_lookup_none {L : Layout ρ κ τ} {table : List ρ} {k : κ}
    (h : lookup L table k = none) :
    slotFor L table k =
      .reuse ((table.findIdx? L.vacant).getD (oldestFrom L table 0 0 L.ceiling)) := by
  rw [slotFor, scan_of_not_holds L k (holds_of_lookup_none h)]
  simp

/-! ## The table as a partial map -/

/-- The value the record of `k` has once it is located. -/
def recordFor (L : Layout ρ κ τ) (table : List ρ) (k : κ) (now : τ) : ρ :=
  match lookup L table k with
  | some r => L.touch now r
  | none => L.fresh k now

theorem locate_eq (L : Layout ρ κ τ) (table : List ρ) (k : κ) (now : τ) :
    locate L table k now = ⟨table.set (slotFor L table k).index (recordFor L table k now),
      (slotFor L table k).index, recordFor L table k now⟩ := by
  unfold locate recordFor
  cases h : lookup L table k with
  | some r =>
    obtain ⟨i, hslot, hget, _⟩ := slotFor_of_lookup h
    simp [hslot, Slot.index, List.getD_eq_getElem?_getD, hget]
  | none => simp [slotFor_of_lookup_none h, Slot.index]

@[simp] theorem locate_record (L : Layout ρ κ τ) (table : List ρ) (k : κ) (now : τ) :
    (locate L table k now).record = recordFor L table k now := by
  rw [locate_eq]

theorem locate_put (L : Layout ρ κ τ) (table : List ρ) (k : κ) (now : τ) (r : ρ) :
    (locate L table k now).put r = table.set (slotFor L table k).index r := by
  simp [locate_eq, Located.put]

@[simp] theorem length_locate_put (L : Layout ρ κ τ) (table : List ρ) (k : κ) (now : τ) (r : ρ) :
    ((locate L table k now).put r).length = table.length := by
  simp [locate_put]

omit [LinearOrder τ] in
/-- Writing a record that does not hold the key over one that does not either. -/
theorem lookup_set_of_not_holds {L : Layout ρ κ τ} {k : κ} {table : List ρ} {i : Nat} {r : ρ}
    (hr : holds L k r = false) (hold : ∀ s, table[i]? = some s → holds L k s = false) :
    lookup L (table.set i r) k = lookup L table k := by
  change (table.set i r).find? (holds L k) = table.find? (holds L k)
  induction table generalizing i with
  | nil => simp
  | cons s rest ih =>
    cases i with
    | zero => simp [hr, hold s (by simp)]
    | succ i =>
      have hrest := ih (i := i) (fun s' hs' => hold s' (by simpa using hs'))
      simp [List.find?_cons, hrest]

omit [LinearOrder τ] in
/-- Writing a record of the key before which there is none. -/
theorem lookup_set_of_holds {L : Layout ρ κ τ} {k : κ} {table : List ρ} {i : Nat} {r : ρ}
    (hi : i < table.length) (hr : holds L k r = true)
    (hbefore : ∀ j s, j < i → table[j]? = some s → holds L k s = false) :
    lookup L (table.set i r) k = some r := by
  change (table.set i r).find? (holds L k) = some r
  induction table generalizing i with
  | nil => simp at hi
  | cons s rest ih =>
    cases i with
    | zero => simp [hr]
    | succ i =>
      have hs : holds L k s = false := hbefore 0 s (by omega) (by simp)
      have hrest := ih (i := i) (by simpa using hi)
        (fun j s' hj hs' => hbefore (j + 1) s' (by omega) (by simpa using hs'))
      simp [hs, hrest]

/-- The pass for `k` reuses the slot of `k'`: `k` has no record, no slot is
vacant and `k'` has the least recently seen record. -/
def Evicts (L : Layout ρ κ τ) (table : List ρ) (k k' : κ) : Prop :=
  lookup L table k = none ∧ (∀ r ∈ table, L.vacant r = false) ∧
    ∃ i r, Oldest L table i ∧ table[i]? = some r ∧ holds L k' r = true

theorem slotFor_index_lt (L : Layout ρ κ τ) {table : List ρ} (hne : table ≠ [])
    (hceil : ∀ r, L.seen r ≤ L.ceiling) (k : κ) :
    (slotFor L table k).index < table.length := by
  cases h : lookup L table k with
  | some r =>
    obtain ⟨i, hslot, hget, _⟩ := slotFor_of_lookup h
    rw [hslot]
    exact (List.getElem?_eq_some_iff.mp hget).1
  | none =>
    rw [slotFor_of_lookup_none h]
    cases hv : table.findIdx? L.vacant with
    | some i => exact (List.findIdx?_eq_some_iff_getElem.mp hv).1
    | none =>
      have hno : ∀ r ∈ table, L.vacant r = false := by simpa using hv
      obtain ⟨r, hr, _⟩ := oldestFrom_oldest L hne hno (fun r _ => hceil r)
      exact (List.getElem?_eq_some_iff.mp hr).1

theorem lookup_put_self {L : Layout ρ κ τ} {table : List ρ} (hne : table ≠ [])
    (hceil : ∀ r, L.seen r ≤ L.ceiling) {k : κ} (now : τ) {r : ρ} (hr : holds L k r = true) :
    lookup L ((locate L table k now).put r) k = some r := by
  rw [locate_put]
  apply lookup_set_of_holds (slotFor_index_lt L hne hceil k) hr
  intro j s hj hs
  cases h : lookup L table k with
  | some r =>
    obtain ⟨i, hslot, _, hbefore⟩ := slotFor_of_lookup h
    rw [hslot] at hj
    exact hbefore j s hj hs
  | none => exact holds_of_lookup_none h s (List.mem_of_getElem? hs)

theorem lookup_put_other {L : Layout ρ κ τ} {table : List ρ} (hne : table ≠ [])
    (hceil : ∀ r, L.seen r ≤ L.ceiling) {k k' : κ} (hk : k ≠ k') (now : τ) {r : ρ}
    (hr : L.key r = k) (hkeep : ¬ Evicts L table k k') :
    lookup L ((locate L table k now).put r) k' = lookup L table k' := by
  rw [locate_put]
  apply lookup_set_of_not_holds
  · simp [holds, hr, hk]
  intro s hs
  cases h : lookup L table k with
  | some r' =>
    -- The slot is the one of `k` itself.
    obtain ⟨i, hslot, hget, _⟩ := slotFor_of_lookup h
    have hr' : holds L k r' = true := List.find?_some h
    rw [hslot, Slot.index, hget] at hs
    obtain rfl : r' = s := by simpa using hs
    simp [holds, (holds_iff.mp hr').2, hk]
  | none =>
    rw [slotFor_of_lookup_none h] at hs
    cases hv : table.findIdx? L.vacant with
    | some i =>
      obtain ⟨hi, hvac, _⟩ := List.findIdx?_eq_some_iff_getElem.mp hv
      rw [hv] at hs
      simp only [Slot.index, Option.getD_some, List.getElem?_eq_getElem hi, Option.some.injEq] at hs
      simp [holds, ← hs, hvac]
    | none =>
      have hno : ∀ r ∈ table, L.vacant r = false := by simpa using hv
      rw [hv] at hs
      by_contra hheld
      exact hkeep ⟨h, hno, _, s, oldestFrom_oldest L hne hno (fun r _ => hceil r), hs,
        by simpa using hheld⟩

/-! ## Tables without duplicate keys -/

/-- No two occupied slots carry the same key. -/
def Distinct (L : Layout ρ κ τ) (table : List ρ) : Prop :=
  ∀ (i j : Nat) (r s : ρ), table[i]? = some r → table[j]? = some s → L.vacant r = false →
    L.vacant s = false → L.key r = L.key s → i = j

omit [LinearOrder τ] in
theorem getElem?_of_lookup {L : Layout ρ κ τ} {table : List ρ} {k : κ} {r : ρ}
    (h : lookup L table k = some r) : ∃ i : Nat, table[i]? = some r ∧ holds L k r = true := by
  obtain ⟨i, hi⟩ := List.getElem?_of_mem (List.mem_of_find?_eq_some h)
  exact ⟨i, hi, List.find?_some h⟩

omit [LinearOrder τ] in
theorem Distinct.lookup_eq {L : Layout ρ κ τ} {table : List ρ} (h : Distinct L table) {k : κ}
    {i : Nat} {r : ρ} (hi : table[i]? = some r) (hr : holds L k r = true) :
    lookup L table k = some r := by
  cases hlook : lookup L table k with
  | none => exact absurd (holds_of_lookup_none hlook r (List.mem_of_getElem? hi)) (by simp [hr])
  | some s =>
    obtain ⟨j, hj, hs⟩ := getElem?_of_lookup hlook
    rw [holds_iff] at hr hs
    have hij : i = j := h i j r s hi hj hr.1 hs.1 (hr.2.trans hs.2.symm)
    subst hij
    exact hj.symm.trans hi

/-- One call for `k` at `now`: the located record is written back under its key. -/
def Touch (L : Layout ρ κ τ) (table : List ρ) (k : κ) (now : τ) (table' : List ρ) : Prop :=
  ∃ r, holds L k r = true ∧ L.seen r = now ∧ table' = (locate L table k now).put r

theorem Distinct.touch {L : Layout ρ κ τ} {table table' : List ρ} {k : κ} {now : τ}
    (h : Distinct L table) (ht : Touch L table k now table') : Distinct L table' := by
  obtain ⟨r, hr, _, rfl⟩ := ht
  have hkey := (holds_iff.mp hr).2
  rw [locate_put]
  -- A second record of `k` outside the located slot would have been located instead.
  have hother : ∀ j s, j ≠ (slotFor L table k).index → table[j]? = some s →
      L.vacant s = false → L.key s ≠ k := by
    intro j s hj hs hv hk
    have hlook := h.lookup_eq hs (holds_iff.mpr ⟨hv, hk⟩)
    obtain ⟨i, hslot, hi, _⟩ := slotFor_of_lookup hlook
    apply hj
    rw [hslot]
    exact h j i s s hs hi hv hv rfl
  intro i j a b hi hj ha hb hab
  rw [List.getElem?_set] at hi hj
  split at hi <;> split at hj
  case isTrue.isTrue hi' hj' => exact hi'.symm.trans hj'
  case isTrue.isFalse hi' hj' =>
    obtain ⟨_, rfl⟩ : _ ∧ r = a := by simpa using hi
    exact absurd (hab.symm.trans hkey) (hother j b (Ne.symm hj') hj hb)
  case isFalse.isTrue hi' hj' =>
    obtain ⟨_, rfl⟩ : _ ∧ r = b := by simpa using hj
    exact absurd (hab.trans hkey) (hother i a (Ne.symm hi') hi ha)
  case isFalse.isFalse hi' hj' => exact h i j a b hi hj ha hb hab

/-- Reusing the slot of `a` for another key forgets `a`. -/
theorem Distinct.lookup_of_evicts {L : Layout ρ κ τ} {table table' : List ρ}
    (h : Distinct L table) (hceil : ∀ r, L.seen r ≤ L.ceiling) {k a : κ} {now : τ} (hk : k ≠ a)
    (ht : Touch L table k now table') (hev : Evicts L table k a) : lookup L table' a = none := by
  obtain ⟨r, hr, _, rfl⟩ := ht
  obtain ⟨hnone, hfull, i, ra, holdest, hi, hra⟩ := hev
  have hne : table ≠ [] := by
    rintro rfl
    simp at hi
  have hslot : (slotFor L table k).index = i := by
    rw [slotFor_of_lookup_none hnone, List.findIdx?_eq_none_iff.mpr hfull]
    exact (oldestFrom_oldest L hne hfull (fun r _ => hceil r)).unique holdest
  rw [locate_put, hslot]
  by_contra hsome
  obtain ⟨s, hs⟩ := Option.ne_none_iff_exists'.mp hsome
  obtain ⟨j, hj, hheld⟩ := getElem?_of_lookup hs
  rw [holds_iff] at hr hra hheld
  rw [List.getElem?_set] at hj
  split at hj
  case isTrue hij =>
    obtain ⟨_, rfl⟩ : _ ∧ r = s := by simpa using hj
    exact hk (hr.2.symm.trans hheld.2)
  case isFalse hij => exact hij (h i j ra s hi hj hra.1 hheld.1 (hra.2.trans hheld.2.symm))

/-! ## Tables with room for every key -/

/-- All keys of the table are among `keys`. -/
def KeysIn (L : Layout ρ κ τ) (keys : Finset κ) (table : List ρ) : Prop :=
  ∀ r ∈ table, L.vacant r = false → L.key r ∈ keys

theorem KeysIn.touch {L : Layout ρ κ τ} {keys : Finset κ} {table table' : List ρ} {k : κ} {now : τ}
    (h : KeysIn L keys table) (hk : k ∈ keys) (ht : Touch L table k now table') :
    KeysIn L keys table' := by
  obtain ⟨r, hr, _, rfl⟩ := ht
  rw [locate_put]
  intro s hs hv
  rcases List.mem_or_eq_of_mem_set hs with hs | rfl
  · exact h s hs hv
  · rwa [(holds_iff.mp hr).2]

omit [DecidableEq κ] [LinearOrder τ] in
theorem Distinct.nodup_keys {L : Layout ρ κ τ} {table : List ρ} (h : Distinct L table)
    (hfull : ∀ r ∈ table, L.vacant r = false) : (table.map L.key).Nodup := by
  rw [List.nodup_iff_getElem?_ne_getElem?]
  intro i j hij hj heq
  simp only [List.length_map] at hj
  have hi : i < table.length := hij.trans hj
  simp only [List.getElem?_map, List.getElem?_eq_getElem hi, List.getElem?_eq_getElem hj,
    Option.map_some, Option.some.injEq] at heq
  have hsame := h i j _ _ (List.getElem?_eq_getElem hi) (List.getElem?_eq_getElem hj)
    (hfull _ (List.getElem_mem hi)) (hfull _ (List.getElem_mem hj)) heq
  omega

/-- With a slot for each key that may occur, no slot is ever taken from another. -/
theorem Distinct.not_evicts {L : Layout ρ κ τ} {keys : Finset κ} {table : List ρ}
    (h : Distinct L table) (hkeys : KeysIn L keys table) {k : κ} (hk : k ∈ keys)
    (hcard : keys.card ≤ table.length) (k' : κ) : ¬ Evicts L table k k' := by
  rintro ⟨hnone, hfull, _⟩
  have hnodup := h.nodup_keys hfull
  have hsub : (table.map L.key).toFinset ⊆ keys.erase k := by
    intro x hx
    obtain ⟨r, hr, rfl⟩ := List.mem_map.mp (List.mem_toFinset.mp hx)
    refine Finset.mem_erase.mpr ⟨?_, hkeys r hr (hfull r hr)⟩
    have hother := holds_of_lookup_none hnone r hr
    intro heq
    simp [holds, hfull r hr, heq] at hother
  have hle := Finset.card_le_card hsub
  rw [List.toFinset_card_of_nodup hnodup, List.length_map, Finset.card_erase_of_mem hk] at hle
  have hpos : 0 < keys.card := Finset.card_pos.mpr ⟨k, hk⟩
  omega

/-- Then a call changes the map at its own key only. -/
theorem lookup_put {L : Layout ρ κ τ} {table : List ρ} (hne : table ≠ [])
    (hceil : ∀ r, L.seen r ≤ L.ceiling) {k : κ} (now : τ) {r : ρ} (hr : holds L k r = true)
    (hkeep : ∀ k', ¬ Evicts L table k k') :
    lookup L ((locate L table k now).put r) = Function.update (lookup L table) k (some r) := by
  funext k'
  by_cases hk : k' = k
  · subst hk
    rw [lookup_put_self hne hceil now hr, Function.update_self]
  · rw [lookup_put_other hne hceil (Ne.symm hk) now (holds_iff.mp hr).2 (hkeep k'),
      Function.update_of_ne hk]

/-! ## Flooding a table -/

/-- After calls for `ks` later than `s`: if `a` still has its record, last seen no
later than `s`, then all of `ks` have theirs, seen later. -/
structure Flooded (L : Layout ρ κ τ) (a : κ) (s : τ) (ks : List κ) (table : List ρ) : Prop where
  distinct : Distinct L table
  kept : ∀ r, lookup L table a = some r →
    L.seen r ≤ s ∧ ∀ k ∈ ks, ∃ r', lookup L table k = some r' ∧ s < L.seen r'

theorem Flooded.touch {L : Layout ρ κ τ} {a k : κ} {s now : τ} {ks : List κ}
    {table table' : List ρ} (h : Flooded L a s ks table) (hne : table ≠ [])
    (hceil : ∀ r, L.seen r ≤ L.ceiling) (hk : k ≠ a) (hnow : s < now)
    (ht : Touch L table k now table') : Flooded L a s (k :: ks) table' where
  distinct := h.distinct.touch ht
  kept := by
    intro ra hra
    have hkeep : ¬ Evicts L table k a := fun hev => by
      simp [h.distinct.lookup_of_evicts hceil hk ht hev] at hra
    obtain ⟨r, hr, hseen, rfl⟩ := ht
    have hkey := (holds_iff.mp hr).2
    rw [lookup_put_other hne hceil hk now hkey hkeep] at hra
    obtain ⟨hold, hks⟩ := h.kept ra hra
    refine ⟨hold, ?_⟩
    intro k' hk'
    by_cases hkk : k' = k
    · subst hkk
      exact ⟨r, lookup_put_self hne hceil now hr, by rw [hseen]; exact hnow⟩
    · have hmem : k' ∈ ks := (List.mem_cons.mp hk').resolve_left hkk
      obtain ⟨r', hr', hlt⟩ := hks k' hmem
      refine ⟨r', ?_, hlt⟩
      rw [lookup_put_other hne hceil (Ne.symm hkk) now hkey]
      · exact hr'
      -- The reused slot is no younger than that of `a`, and `k'` is.
      rintro ⟨_, _, i, ri, ⟨ri', hri', hmin⟩, hi, hheld⟩
      obtain ⟨j, hj, _⟩ := getElem?_of_lookup hra
      obtain rfl : ri' = ri := by simpa [hri'] using hi
      obtain rfl : ri' = r' := by simpa [h.distinct.lookup_eq hi hheld] using hr'
      exact absurd ((hmin j ra hj).1.trans hold) (not_le.mpr hlt)

/-- As many later keys as there are slots leave no room for `a`. -/
theorem Flooded.lookup_eq_none {L : Layout ρ κ τ} {a : κ} {s : τ} {ks : List κ} {table : List ρ}
    (h : Flooded L a s ks table) (hnodup : (a :: ks).Nodup) (hlen : table.length ≤ ks.length) :
    lookup L table a = none := by
  by_contra hsome
  obtain ⟨r, hr⟩ := Option.ne_none_iff_exists'.mp hsome
  have hsub : (a :: ks) ⊆ table.map L.key := by
    have hkey : ∀ k r, lookup L table k = some r → k ∈ table.map L.key := by
      intro k r hk
      obtain ⟨i, hi, hheld⟩ := getElem?_of_lookup hk
      exact List.mem_map.mpr ⟨r, List.mem_of_getElem? hi, (holds_iff.mp hheld).2⟩
    intro k hk
    rcases List.mem_cons.mp hk with rfl | hk
    · exact hkey k r hr
    · obtain ⟨r', hr', _⟩ := (h.kept r hr).2 k hk
      exact hkey k r' hr'
  have hle := (hnodup.subperm hsub).length_le
  simp only [List.length_cons, List.length_map] at hle
  omega

end SlotTable

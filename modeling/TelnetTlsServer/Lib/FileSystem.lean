-- SUMMARY: Files and their names: unlink, rename, open and append, and what a chain of renames does to numbered files.
import Mathlib.Logic.Function.Basic
import Mathlib.Tactic.SplitIfs

/-!
# Files and their names

A name refers to a file, and a file has a content. Several names may refer to one
file, and an open file may have no name. `Shifted` follows the renames that make room
for a new file 0 by moving file `i` to `i + 1`, the highest first.
-/

/-- The names of a directory and the contents of the files. Numbers from `fresh` on
name no file. -/
structure FileSystem (ν δ : Type) where
  names : ν → Option Nat
  content : Nat → List δ
  fresh : Nat
  used : ∀ {name file}, names name = some file → file < fresh

namespace FileSystem

variable {ν δ : Type}

/-- What is read under a name. -/
def text (fs : FileSystem ν δ) (name : ν) : Option (List δ) := (fs.names name).map fs.content

def append (fs : FileSystem ν δ) (file : Nat) (data : List δ) : FileSystem ν δ :=
  { fs with content := Function.update fs.content file (fs.content file ++ data) }

theorem append_append (fs : FileSystem ν δ) (file : Nat) (a b : List δ) :
    (fs.append file a).append file b = fs.append file (a ++ b) := by
  simp [append]

theorem append_nil (fs : FileSystem ν δ) (file : Nat) : fs.append file [] = fs := by
  simp [append]

theorem content_append_self (fs : FileSystem ν δ) (file : Nat) (data : List δ) :
    (fs.append file data).content file = fs.content file ++ data :=
  Function.update_self ..

theorem content_append_of_ne (fs : FileSystem ν δ) {file other : Nat} (h : other ≠ file)
    (data : List δ) :
    (fs.append file data).content other = fs.content other :=
  Function.update_of_ne h ..

variable [DecidableEq ν]

def unlink (fs : FileSystem ν δ) (name : ν) : FileSystem ν δ where
  names := Function.update fs.names name none
  content := fs.content
  fresh := fs.fresh
  used {other file} h := by
    by_cases hname : other = name
    · subst hname
      simp at h
    · exact fs.used (Function.update_of_ne hname none fs.names ▸ h)

/-- `dst` takes over the file of `src`. -/
def move (fs : FileSystem ν δ) (src dst : ν) : FileSystem ν δ where
  names := Function.update (Function.update fs.names dst (fs.names src)) src none
  content := fs.content
  fresh := fs.fresh
  used {name file} h := by
    by_cases hsrc : name = src
    · subst hsrc
      simp at h
    rw [Function.update_of_ne hsrc] at h
    by_cases hdst : name = dst
    · subst hdst
      exact fs.used (Function.update_self name (fs.names src) fs.names ▸ h)
    · exact fs.used (Function.update_of_ne hdst (fs.names src) fs.names ▸ h)

/-- There is nothing to rename if `src` is no file, and nothing to do if both names
already refer to the same file. -/
def rename (fs : FileSystem ν δ) (src dst : ν) : Option (FileSystem ν δ) :=
  if fs.names src = none then none
  else if fs.names dst = fs.names src then some fs
  else some (fs.move src dst)

/-- Open a file by its name, or make an empty one. -/
def openAppend (fs : FileSystem ν δ) (name : ν) : Nat × FileSystem ν δ :=
  match fs.names name with
  | some file => (file, fs)
  | none => (fs.fresh, {
      names := Function.update fs.names name (some fs.fresh)
      content := Function.update fs.content fs.fresh []
      fresh := fs.fresh + 1
      used := fun {other file} h => by
        by_cases hname : other = name
        · subst hname
          simp only [Function.update_self, Option.some.injEq] at h
          omega
        · rw [Function.update_of_ne hname] at h
          exact Nat.lt_succ_of_lt (fs.used h) })

/-! ## What the operations change -/

variable {fs fs' : FileSystem ν δ} {name src dst : ν} {file : Nat}

theorem names_unlink_self (fs : FileSystem ν δ) (name : ν) : (fs.unlink name).names name = none :=
  Function.update_self ..

theorem names_unlink_of_ne {other : ν} (h : other ≠ name) :
    (fs.unlink name).names other = fs.names other :=
  Function.update_of_ne h ..

/-- A rename that succeeds, in terms of the names. -/
structure Renamed (fs : FileSystem ν δ) (src dst : ν) (fs' : FileSystem ν δ) : Prop where
  content : fs'.content = fs.content
  fresh : fs'.fresh = fs.fresh
  exists_ : fs.names src ≠ none
  target : fs'.names dst = fs.names src
  source : fs'.names src = none ∨ fs' = fs ∧ fs.names dst = fs.names src
  others : ∀ name, name ≠ src → name ≠ dst → fs'.names name = fs.names name

theorem renamed (hne : src ≠ dst) (h : fs.rename src dst = some fs') : Renamed fs src dst fs' := by
  unfold rename at h
  split_ifs at h with hmissing hsame
  · obtain rfl := Option.some.inj h
    exact ⟨rfl, rfl, hmissing, hsame, .inr ⟨rfl, hsame⟩, fun _ _ _ => rfl⟩
  · obtain rfl := Option.some.inj h
    refine ⟨rfl, rfl, hmissing, ?_, .inl (Function.update_self ..), fun name hsrc hdst => ?_⟩
    · exact (Function.update_of_ne hne.symm ..).trans (Function.update_self ..)
    · exact (Function.update_of_ne hsrc ..).trans (Function.update_of_ne hdst ..)

theorem rename_eq_none_iff : fs.rename src dst = none ↔ fs.names src = none := by
  unfold rename
  split_ifs with hmissing hsame <;> simp [hmissing]

/-- The opened file bears the name, and files that were there are as they were. -/
structure Opened (fs : FileSystem ν δ) (name : ν) (file : Nat) (fs' : FileSystem ν δ) : Prop where
  bears : fs'.names name = some file
  known : ∀ other, other < fs.fresh → fs'.content other = fs.content other
  others : ∀ other, other ≠ name → fs'.names other = fs.names other
  text : fs'.content file = (fs.text name).getD []
  kept : ∀ other, fs.names name = some other → file = other ∧ fs' = fs
  made : fs.names name = none → file = fs.fresh

theorem opened (fs : FileSystem ν δ) (name : ν) :
    Opened fs name (fs.openAppend name).1 (fs.openAppend name).2 := by
  unfold openAppend
  cases h : fs.names name with
  | some file =>
    exact ⟨h, fun _ _ => rfl, fun _ _ => rfl, by simp [FileSystem.text, h],
      fun other hother => ⟨Option.some.inj (h ▸ hother), rfl⟩, fun hnone => by simp [h] at hnone⟩
  | none =>
    refine ⟨Function.update_self .., fun other hother => ?_, fun other hother => ?_, ?_,
      fun other hother => by simp [h] at hother, fun _ => rfl⟩
    · exact Function.update_of_ne (Nat.ne_of_lt hother) ..
    · exact Function.update_of_ne hother ..
    · simp [FileSystem.text, h]

theorem Opened.names_of_some (h : Opened fs name file fs') {other : ν} {kept : Nat}
    (hother : fs.names other = some kept) :
    fs'.names other = some kept ∧ fs'.content kept = fs.content kept := by
  refine ⟨?_, h.known kept (fs.used hother)⟩
  by_cases hname : other = name
  · rw [(h.kept kept (hname ▸ hother)).2, hother]
  · rw [h.others other hname, hother]

/-! ## One name for a file -/

/-- No file has two names. -/
def Distinct (fs : FileSystem ν δ) : Prop :=
  ∀ a b file, fs.names a = some file → fs.names b = some file → a = b

theorem Distinct.unlink (h : fs.Distinct) (name : ν) : (fs.unlink name).Distinct := by
  have hold : ∀ {other file}, (fs.unlink name).names other = some file →
      fs.names other = some file := by
    intro other file hother
    have hne : other ≠ name := by
      rintro rfl
      rw [names_unlink_self] at hother
      cases hother
    exact names_unlink_of_ne hne ▸ hother
  exact fun a b file ha hb => h a b file (hold ha) (hold hb)

theorem Distinct.rename (h : fs.Distinct) (hrename : Renamed fs src dst fs') :
    fs'.Distinct := by
  rcases hrename.source with hgone | ⟨rfl, -⟩
  case inr => exact h
  -- The file of `dst` was that of `src`, and no other name changed.
  have hold : ∀ {name file}, fs'.names name = some file →
      fs.names (if name = dst then src else name) = some file := by
    intro name file hname
    split
    case isTrue heq => rw [← hname, heq, hrename.target]
    case isFalse hdst =>
      have hsrc : name ≠ src := by
        rintro rfl
        cases hgone.symm.trans hname
      rw [← hname, hrename.others name hsrc hdst]
  intro a b file ha hb
  have hsrc : ∀ {name}, fs'.names name = some file → name ≠ src := by
    rintro name hname rfl
    cases hgone.symm.trans hname
  have hsame := h _ _ file (hold ha) (hold hb)
  split_ifs at hsame with hadst hbdst hbdst
  · rw [hadst, hbdst]
  · exact absurd hsame.symm (hsrc hb)
  · exact absurd hsame (hsrc ha)
  · exact hsame

theorem Distinct.openAppend (h : fs.Distinct) (name : ν) : (fs.openAppend name).2.Distinct := by
  have hopened := fs.opened name
  cases hname : fs.names name with
  | some file =>
    rw [(hopened.kept file hname).2]
    exact h
  | none =>
    have hnew := hopened.made hname
    -- The new file has a number that no other name has.
    have hother : ∀ {other}, (fs.openAppend name).2.names other = some (fs.openAppend name).1 →
        other = name := by
      intro other hfile
      by_contra hne
      rw [hopened.others other hne, hnew] at hfile
      exact absurd (fs.used hfile) (Nat.lt_irrefl _)
    intro a b file ha hb
    by_cases hfile : file = (fs.openAppend name).1
    · subst hfile
      rw [hother ha, hother hb]
    · have hold : ∀ {other}, (fs.openAppend name).2.names other = some file →
          fs.names other = some file := by
        intro other hbears
        have hne : other ≠ name := by
          rintro rfl
          exact hfile (Option.some.inj (hbears.symm.trans hopened.bears))
        exact hopened.others other hne ▸ hbears
      exact h a b file (hold ha) (hold hb)

/-! ## Shifting numbered files -/

section Shifting

/-- The files from `k` below `n` have moved up by one, as far as there were any, and
nothing else has changed but the name of file `n`. -/
structure Shifted (slot : Nat → ν) (n k : Nat) (fs fs' : FileSystem ν δ) : Prop where
  content : fs'.content = fs.content
  fresh : fs'.fresh = fs.fresh
  others : ∀ name, (∀ i, i ≤ n → name ≠ slot i) → fs'.names name = fs.names name
  below : ∀ i, i < k → fs'.names (slot i) = fs.names (slot i)
  moved : ∀ i, k ≤ i → i < n → ∀ file, fs.names (slot i) = some file →
    fs'.names (slot (i + 1)) = some file
  distinct : fs.Distinct → fs'.Distinct

/-- The same, with every gap moved up as well and no file `k` left. -/
structure Vacated (slot : Nat → ν) (n k : Nat) (fs fs' : FileSystem ν δ) : Prop
    extends Shifted slot n k fs fs' where
  exactly : ∀ i, k ≤ i → i < n → fs'.names (slot (i + 1)) = fs.names (slot i)
  vacant : fs'.names (slot k) = none

variable {slot : Nat → ν} {n k : Nat} {fs'' : FileSystem ν δ}

omit [DecidableEq ν] in
theorem Shifted.refl (fs : FileSystem ν δ) : Shifted slot n n fs fs :=
  ⟨rfl, rfl, fun _ _ => rfl, fun _ _ => rfl, fun _ hle hlt => absurd hle (Nat.not_le.mpr hlt), id⟩

theorem Shifted.unlink (hslot : ∀ i j, i ≤ n → j ≤ n → slot i = slot j → i = j)
    (h : Shifted slot n n fs fs') : Vacated slot n n fs (fs'.unlink (slot n)) where
  content := h.content
  fresh := h.fresh
  others name hname :=
    (names_unlink_of_ne (hname n (Nat.le_refl n))).trans (h.others name hname)
  below i hi := by
    have hne : slot i ≠ slot n := fun heq =>
      Nat.ne_of_lt hi (hslot i n (Nat.le_of_lt hi) (Nat.le_refl n) heq)
    exact (names_unlink_of_ne hne).trans (h.below i hi)
  moved _ hle hlt := absurd hle (Nat.not_le.mpr hlt)
  distinct hd := (h.distinct hd).unlink _
  exactly _ hle hlt := absurd hle (Nat.not_le.mpr hlt)
  vacant := names_unlink_self _ _

theorem Shifted.rename (hslot : ∀ i j, i ≤ n → j ≤ n → slot i = slot j → i = j) (hk : k < n)
    (h : Shifted slot n (k + 1) fs fs') (hrename : Renamed fs' (slot k) (slot (k + 1)) fs'') :
    Shifted slot n k fs fs'' := by
  have hother : ∀ i, i ≤ n → i ≠ k → i ≠ k + 1 → fs''.names (slot i) = fs'.names (slot i) :=
    fun i hi hik hik' => hrename.others _ (fun heq => hik (hslot _ _ hi (Nat.le_of_lt hk) heq))
      fun heq => hik' (hslot _ _ hi hk heq)
  refine ⟨hrename.content.trans h.content, hrename.fresh.trans h.fresh, fun name hname => ?_,
    fun i hi => ?_, fun i hle hlt file hfile => ?_, fun hd => (h.distinct hd).rename hrename⟩
  · exact (hrename.others name (hname k (Nat.le_of_lt hk)) (hname (k + 1) hk)).trans
      (h.others name hname)
  · exact (hother i (by omega) (by omega) (by omega)).trans (h.below i (Nat.lt_succ_of_lt hi))
  · rcases Nat.eq_or_lt_of_le hle with rfl | hlater
    · rw [hrename.target, h.below k (Nat.lt_succ_self k), hfile]
    · rw [hother (i + 1) hlt (by omega) (by omega)]
      exact h.moved i hlater hlt file hfile

omit [DecidableEq ν] in
theorem Shifted.missing (h : Shifted slot n (k + 1) fs fs') (hnone : fs'.names (slot k) = none) :
    Shifted slot n k fs fs' := by
  refine { h with below := fun i hi => h.below i (Nat.lt_succ_of_lt hi), moved := ?_ }
  intro i hle hlt file hfile
  rcases Nat.eq_or_lt_of_le hle with rfl | hlater
  · cases hnone.symm.trans ((h.below k (Nat.lt_succ_self k)).trans hfile)
  · exact h.moved i hlater hlt file hfile

theorem Vacated.rename (hslot : ∀ i j, i ≤ n → j ≤ n → slot i = slot j → i = j) (hk : k < n)
    (h : Vacated slot n (k + 1) fs fs') (hrename : Renamed fs' (slot k) (slot (k + 1)) fs'') :
    Vacated slot n k fs fs'' := by
  refine { h.toShifted.rename hslot hk hrename with exactly := ?_, vacant := ?_ }
  · intro i hle hlt
    rcases Nat.eq_or_lt_of_le hle with rfl | hlater
    · rw [hrename.target, h.below k (Nat.lt_succ_self k)]
    · have hother := hrename.others (slot (i + 1))
        (fun heq => by have := hslot _ _ hlt (Nat.le_of_lt hk) heq; omega)
        fun heq => by have := hslot _ _ hlt hk heq; omega
      rw [hother, h.exactly i hlater hlt]
  · rcases hrename.source with hgone | ⟨-, hsame⟩
    · exact hgone
    · exact absurd (hsame ▸ h.vacant) hrename.exists_

omit [DecidableEq ν] in
theorem Vacated.missing (h : Vacated slot n (k + 1) fs fs') (hnone : fs'.names (slot k) = none) :
    Vacated slot n k fs fs' := by
  refine { h.toShifted.missing hnone with exactly := ?_, vacant := hnone }
  intro i hle hlt
  rcases Nat.eq_or_lt_of_le hle with rfl | hlater
  · rw [h.vacant, ← h.below k (Nat.lt_succ_self k), hnone]
  · exact h.exactly i hlater hlt

end Shifting

end FileSystem

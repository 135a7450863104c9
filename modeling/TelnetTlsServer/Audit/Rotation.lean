-- SUMMARY: What a rotation of the audit log keeps whatever fails, how large its files get, and when a record is written.
import Mathlib.Order.Monotone.Basic
import TelnetTlsServer.Audit.Records

/-!
# The rotation of the audit log

The loop of `rotate_if_needed` is followed by `FileSystem.Shifted`: after an error in
the round `k` the archives from `k` on have moved up and the others have not. If no
call fails, the whole chain has moved and the active file is a new one. After an error
the log may be left without a descriptor, and then it never writes again.
-/

/-! ## Names -/

theorem logName_eq_append (path : Bytes) (i : Nat) : logName path i = path ++ logName [] i := by
  cases i <;> simp [logName]

theorem logName_injective (path : Bytes) :
    ∀ i j, i ≤ auditArchives → j ≤ auditArchives → logName path i = logName path j → i = j := by
  intro i j hi hj h
  rw [logName_eq_append path i, logName_eq_append path j, List.append_cancel_left_eq] at h
  have hall : ∀ i j : Fin 5, logName [] i.val = logName [] j.val → i = j := by decide +kernel
  have heq := hall ⟨i, Nat.lt_succ_of_le hi⟩ ⟨j, Nat.lt_succ_of_le hj⟩ h
  exact Fin.mk.inj heq

theorem nameFits_logName (log : AuditLog) {i : Nat} (hi : i ≤ auditArchives) :
    AuditLog.nameFits (logName log.path i) = true := by
  have hall : ∀ i : Fin 5, (logName [] i.val).length ≤ 2 := by decide +kernel
  have hshort := hall ⟨i, Nat.lt_succ_of_le hi⟩
  have hpath := log.fits
  rw [AuditLog.nameFits, logName_eq_append, List.length_append, decide_eq_true_eq]
  dsimp only at hshort
  omega

/-! ## The rounds of a rotation -/

namespace AuditLog

open FileSystem

variable {log₀ log : AuditLog} {o : Outcomes} {index : Nat}

theorem unlinkLast_eq (log : AuditLog) (index : Nat) (o : Outcomes) :
    log.unlinkLast index o = { log with disk := (log.unlinkLast index o).disk } := by
  unfold unlinkLast
  split <;> rfl

theorem shifted_unlinkLast (o : Outcomes)
    (h : Shifted (logName log.path) auditArchives index log₀.disk log.disk) :
    Shifted (logName log.path) auditArchives index log₀.disk (log.unlinkLast index o).disk := by
  unfold unlinkLast
  split
  case isTrue hlast =>
    obtain ⟨rfl, -⟩ := hlast
    exact (h.unlink (logName_injective log.path)).toShifted
  case isFalse => exact h

theorem vacated_unlinkLast (hclean : o.Clean)
    (h : Shifted (logName log.path) auditArchives auditArchives log₀.disk log.disk) :
    Vacated (logName log.path) auditArchives auditArchives log₀.disk
      (log.unlinkLast auditArchives o).disk := by
  unfold unlinkLast
  rw [if_pos ⟨rfl, nameFits_logName log (Nat.le_refl _), hclean.unlink⟩]
  exact h.unlink (logName_injective log.path)

/-- What the rounds from `index` down leave before the active file is opened again:
after an error in the round `k` the files below it have not moved. -/
theorem rotateFrom_eq (hindex : index ≤ auditArchives) (hfd : log.fd = none)
    (h : Shifted (logName log.path) auditArchives index log₀.disk log.disk)
    (hclean : o.Clean → index < auditArchives →
      Vacated (logName log.path) auditArchives index log₀.disk log.disk) :
    ∃ k disk, k ≤ auditArchives ∧ Shifted (logName log.path) auditArchives k log₀.disk disk ∧
      (o.Clean → Vacated (logName log.path) auditArchives 0 log₀.disk disk) ∧
      (rotateFrom o index log).2 = { log with disk := disk }.openActive o := by
  induction index generalizing log with
  | zero => exact ⟨0, log.disk, Nat.zero_le _, h, fun hc => hclean hc (by decide), rfl⟩
  | succ index ih =>
    have hshifted := shifted_unlinkLast o h
    have hvacated : o.Clean → Vacated (logName log.path) auditArchives (index + 1) log₀.disk
        (log.unlinkLast (index + 1) o).disk := by
      intro hc
      rcases Nat.eq_or_lt_of_le hindex with hlast | hlater
      · rw [hlast] at h ⊢
        exact vacated_unlinkLast hc h
      · have hsame : log.unlinkLast (index + 1) o = log :=
          if_neg fun hand => Nat.ne_of_lt hlater hand.1
        rw [hsame]
        exact hclean hc hlater
    unfold rotateFrom
    dsimp only
    rw [unlinkLast_eq log (index + 1) o]
    generalize (log.unlinkLast (index + 1) o).disk = disk at hshifted hvacated
    dsimp only
    rw [nameFits_logName log hindex, nameFits_logName log (Nat.le_of_succ_le hindex)]
    simp only [Bool.not_true, Bool.false_eq_true, if_false]
    split
    case isTrue hfailed =>
      refine ⟨index + 1, disk, hindex, hshifted, fun hc => ?_, ?_⟩
      · simp [hc.rename (index + 1)] at hfailed
      · rw [reopenActiveAfterRotationError]
        simp [hfd]
    case isFalse =>
      have hne : logName log.path index ≠ logName log.path (index + 1) := fun heq =>
        Nat.succ_ne_self index
          (logName_injective log.path _ _ (Nat.le_of_succ_le hindex) hindex heq).symm
      split
      case h_1 disk' hrename =>
        have hrenamed := renamed hne hrename
        exact @ih { log with disk := disk' } (Nat.le_of_succ_le hindex) hfd
          (hshifted.rename (logName_injective log.path) hindex hrenamed)
          fun hc _ => (hvacated hc).rename (logName_injective log.path) hindex hrenamed
      case h_2 hmissing =>
        have hnone := rename_eq_none_iff.mp hmissing
        exact @ih { log with disk := disk } (Nat.le_of_succ_le hindex) hfd
          (hshifted.missing hnone) fun hc _ => (hvacated hc).missing hnone

/-! ## The descriptor -/

theorem disk_openActive (log : AuditLog) (o : Outcomes) :
    (log.openActive o).disk = log.disk ∨
      (log.openActive o).disk = (log.disk.openAppend log.path).2 := by
  unfold openActive openActiveFile
  cases o.openFile with
  | false => exact .inl rfl
  | true => cases o.fchmod <;> exact .inr rfl

theorem openActive_of_fd {fd : Nat} (h : (log.openActive o).fd = some fd) :
    log.openActive o = { log with
      fd := some (log.disk.openAppend log.path).1, disk := (log.disk.openAppend log.path).2 } := by
  unfold openActive openActiveFile at h ⊢
  split_ifs at h ⊢
  rfl

theorem openActive_of_clean (hclean : o.Clean) : log.openActive o = { log with
    fd := some (log.disk.openAppend log.path).1, disk := (log.disk.openAppend log.path).2 } := by
  unfold openActive openActiveFile
  simp [hclean.openFile, hclean.fchmod]

/-- Either nothing happens, or the file is full and the rounds leave `disk`. -/
theorem rotateIfNeeded_cases (log : AuditLog) (o : Outcomes) :
    ((log.rotateIfNeeded o).2 = log ∧
      (o.Clean → ∀ fd, log.fd = some fd → (log.disk.content fd).length < auditMaxBytes)) ∨
    ∃ fd, log.fd = some fd ∧ auditMaxBytes ≤ (log.disk.content fd).length ∧ ∃ k disk,
      Shifted (logName log.path) auditArchives k log.disk disk ∧
      (o.Clean → Vacated (logName log.path) auditArchives 0 log.disk disk) ∧
      (log.rotateIfNeeded o).2 = { log with fd := none, disk := disk }.openActive o := by
  unfold rotateIfNeeded
  split
  case h_1 hnone => exact .inl ⟨rfl, fun _ fd hfd => by cases hnone.symm.trans hfd⟩
  case h_2 fd hfd =>
    split_ifs with hfstat hsmall
    · exact .inl ⟨rfl, fun hclean => by simp [hclean.fstat] at hfstat⟩
    · refine .inl ⟨rfl, fun _ other hother => ?_⟩
      obtain rfl := Option.some.inj (hfd.symm.trans hother)
      exact hsmall
    · obtain ⟨k, disk, -, hshifted, hvacated, heq⟩ := @rotateFrom_eq log
        { log with fd := none } o auditArchives (Nat.le_refl _) rfl (Shifted.refl log.disk)
        fun _ hlt => absurd hlt (Nat.lt_irrefl _)
      exact .inr ⟨fd, hfd, Nat.not_lt.mp hsmall, k, disk, hshifted, hvacated, heq⟩

theorem openActive_keeps (log : AuditLog) (o : Outcomes) {name : Bytes} {file : Nat}
    (h : log.disk.names name = some file) :
    (log.openActive o).disk.names name = some file ∧
      (log.openActive o).disk.content file = log.disk.content file := by
  rcases disk_openActive log o with heq | heq <;> rw [heq]
  · exact ⟨h, rfl⟩
  · exact (log.disk.opened log.path).names_of_some h

theorem openActive_distinct (o : Outcomes) (h : log.disk.Distinct) :
    (log.openActive o).disk.Distinct := by
  rcases disk_openActive log o with heq | heq <;> rw [heq]
  · exact h
  · exact h.openAppend log.path

/-! ## What a rotation keeps -/

/-- The files from `k` on move up. -/
def shift (k i : Nat) : Nat := if i < k then i else i + 1

theorem shift_strictMono (k : Nat) : StrictMono (shift k) := by
  intro i j hij
  unfold shift
  split_ifs <;> omega

theorem shift_bounds (k i : Nat) : i ≤ shift k i ∧ shift k i ≤ i + 1 := by
  unfold shift
  split_ifs <;> omega

/-- Each file of the log before the last archive is still there with its content, at
its place or one further, and in the same order. If no file had two names before, none
has now. -/
def KeepsOrder (log log' : AuditLog) : Prop :=
  ∃ place : Nat → Nat, StrictMono place ∧ (∀ i, i ≤ place i ∧ place i ≤ i + 1) ∧
    (∀ i < auditArchives, ∀ file, log.disk.names (logName log.path i) = some file →
      log'.disk.names (logName log.path (place i)) = some file ∧
      log'.disk.content file = log.disk.content file) ∧
    (log.disk.Distinct → log'.disk.Distinct)

theorem keepsOrder_rotateIfNeeded (log : AuditLog) (o : Outcomes) :
    log.KeepsOrder (log.rotateIfNeeded o).2 := by
  rcases rotateIfNeeded_cases log o with ⟨heq, -⟩ | ⟨fd, -, -, k, disk, hshifted, -, heq⟩
  · rw [heq]
    exact ⟨id, strictMono_id, fun i => ⟨Nat.le_refl i, Nat.le_succ i⟩, fun _ _ _ h => ⟨h, rfl⟩, id⟩
  · rw [heq]
    refine ⟨shift k, shift_strictMono k, shift_bounds k, fun i hi file hfile => ?_,
      fun hd => openActive_distinct o (hshifted.distinct hd)⟩
    have hmoved : disk.names (logName log.path (shift k i)) = some file := by
      unfold shift
      split
      case isTrue hlow => rw [hshifted.below i hlow, hfile]
      case isFalse hhigh => exact hshifted.moved i (Nat.not_lt.mp hhigh) hi file hfile
    rw [← hshifted.content]
    exact openActive_keeps { log with fd := none, disk := disk } o hmoved

/-- Each file and each gap has moved up by one, and the active file is a new one. -/
structure Rotated (log log' : AuditLog) (new : Nat) : Prop where
  fd : log'.fd = some new
  active : log'.disk.names log.path = some new
  empty : log'.disk.content new = []
  moved : ∀ i < auditArchives,
    log'.disk.names (logName log.path (i + 1)) = log.disk.names (logName log.path i)
  content : ∀ file < log.disk.fresh, log'.disk.content file = log.disk.content file
  others : ∀ name, (∀ i ≤ auditArchives, name ≠ logName log.path i) →
    log'.disk.names name = log.disk.names name

theorem rotated_rotateIfNeeded (hclean : o.Clean) {fd : Nat} (hfd : log.fd = some fd)
    (hfull : auditMaxBytes ≤ (log.disk.content fd).length) :
    ∃ new, log.Rotated (log.rotateIfNeeded o).2 new := by
  rcases rotateIfNeeded_cases log o with ⟨-, hsmall⟩ | ⟨_, -, -, k, disk, -, hvacated, heq⟩
  · exact absurd (hsmall hclean fd hfd) (Nat.not_lt.mpr hfull)
  have hvacated := hvacated hclean
  have hvacant : disk.names log.path = none := hvacated.vacant
  have hopened := disk.opened log.path
  rw [heq, openActive_of_clean hclean]
  refine ⟨_, rfl, hopened.bears, ?_, fun i hi => ?_, fun file hfile => ?_, fun name hname => ?_⟩
  · rw [hopened.text, FileSystem.text, hvacant]
    rfl
  · have hne : logName log.path (i + 1) ≠ log.path := fun heq' =>
      Nat.succ_ne_zero i (logName_injective log.path (i + 1) 0 hi (Nat.zero_le _) heq')
    exact (hopened.others _ hne).trans (hvacated.exactly i (Nat.zero_le i) hi)
  · exact (hopened.known file (hvacated.fresh ▸ hfile)).trans (congrFun hvacated.content file)
  · exact (hopened.others name (hname 0 (Nat.zero_le _))).trans (hvacated.others name hname)

/-! ## Writing a record -/

/-- The loop appends a part of the record, and all of it if every call takes bytes. -/
theorem writeFrom_eq (disk : FileSystem Bytes UInt8) (fd : Nat) (outcomes : List WriteOutcome)
    (data : Bytes) :
    ∃ written, writeFrom disk fd outcomes data = disk.append fd written ∧ written <+: data ∧
      ((∀ w ∈ outcomes, ∃ n, w = .took n) → written = data) := by
  induction outcomes generalizing disk data with
  | nil =>
    cases data with
    | nil => exact ⟨[], (append_nil ..).symm, List.prefix_refl _, fun _ => rfl⟩
    | cons b rest => exact ⟨b :: rest, rfl, List.prefix_refl _, fun _ => rfl⟩
  | cons outcome outcomes ih =>
    cases data with
    | nil => exact ⟨[], (append_nil ..).symm, List.prefix_refl _, fun _ => rfl⟩
    | cons b rest =>
      have hstop : (∀ w ∈ outcome :: outcomes, ∃ n, w = .took n) → ∃ n, outcome = .took n :=
        fun h => h outcome (by simp)
      cases outcome with
      | interrupted =>
        obtain ⟨written, heq, hpart, -⟩ := ih disk (b :: rest)
        exact ⟨written, heq, hpart, fun h => by cases (hstop h).choose_spec⟩
      | failed =>
        exact ⟨[], (append_nil ..).symm, List.nil_prefix, fun h => by cases (hstop h).choose_spec⟩
      | nothing =>
        exact ⟨[], (append_nil ..).symm, List.nil_prefix, fun h => by cases (hstop h).choose_spec⟩
      | took n =>
        obtain ⟨written, heq, hpart, hall⟩ :=
          ih (disk.append fd ((b :: rest).take (n + 1))) ((b :: rest).drop (n + 1))
        refine ⟨(b :: rest).take (n + 1) ++ written, ?_, ?_, fun h => ?_⟩
        · rw [writeFrom, heq, append_append]
          simp
        · have hwhole := (List.prefix_append_right_inj ((b :: rest).take (n + 1))).mpr hpart
          rwa [List.take_append_drop] at hwhole
        · rw [hall fun w hw => h w (by simp [hw]), List.take_append_drop]

/-- A call does nothing without an event or a descriptor. Otherwise it rotates, and
writes if there is a descriptor then. -/
theorem auditLogEvent_cases (log : AuditLog) (e : AuditEvent) (o : Outcomes) :
    ((e.event = none ∨ log.fd = none) ∧ log.auditLogEvent e o = log) ∨
    ((log.rotateIfNeeded o).2.fd = none ∧ log.auditLogEvent e o = (log.rotateIfNeeded o).2) ∨
    ∃ fd written, (log.rotateIfNeeded o).2.fd = some fd ∧ written <+: e.record ∧
      (o.Clean → written = e.record) ∧ log.auditLogEvent e o =
        { (log.rotateIfNeeded o).2 with
          disk := (log.rotateIfNeeded o).2.disk.append fd written } := by
  have hlength : ¬ (e.record.length = 0 ∨ e.record.length ≥ 512) := by
    have hshort := e.length_record_lt
    have hsome := List.length_pos_iff.mpr e.record_ne_nil
    omega
  unfold auditLogEvent
  rw [if_neg hlength]
  split_ifs with hevent hfd
  · exact .inl ⟨.inl (Option.isNone_iff_eq_none.mp hevent), rfl⟩
  · exact .inl ⟨.inr (Option.isNone_iff_eq_none.mp hfd), rfl⟩
  dsimp only
  split
  case h_1 hnone => exact .inr (.inl ⟨hnone, rfl⟩)
  case h_2 fd hsome =>
    obtain ⟨written, heq, hpart, hall⟩ :=
      writeFrom_eq (log.rotateIfNeeded o).2.disk fd o.write e.record
    exact .inr (.inr ⟨fd, written, hsome, hpart, fun hclean => hall hclean.write, by rw [heq]⟩)

/-! ## Runs -/

/-- The descriptor is on the active file. -/
def Attached (log : AuditLog) : Prop :=
  ∀ fd, log.fd = some fd → log.disk.names log.path = some fd

theorem path_rotateIfNeeded (log : AuditLog) (o : Outcomes) :
    (log.rotateIfNeeded o).2.path = log.path := by
  rcases rotateIfNeeded_cases log o with ⟨heq, -⟩ | ⟨_, -, -, _, _, -, -, heq⟩ <;> rw [heq]
  rfl

theorem Attached.openActive (log : AuditLog) (o : Outcomes) : (log.openActive o).Attached := by
  intro fd hfd
  have heq := openActive_of_fd hfd
  rw [heq] at hfd ⊢
  rw [← hfd]
  exact (log.disk.opened log.path).bears

theorem Attached.rotateIfNeeded (h : log.Attached) (o : Outcomes) :
    (log.rotateIfNeeded o).2.Attached := by
  rcases rotateIfNeeded_cases log o with ⟨heq, -⟩ | ⟨_, -, -, _, _, -, -, heq⟩ <;> rw [heq]
  · exact h
  · exact .openActive _ o

theorem Attached.auditLogEvent (h : log.Attached) (e : AuditEvent) (o : Outcomes) :
    (log.auditLogEvent e o).Attached := by
  have hrotated := h.rotateIfNeeded o
  rcases auditLogEvent_cases log e o with ⟨-, heq⟩ | ⟨-, heq⟩ | ⟨fd, written, -, -, -, heq⟩ <;>
    rw [heq]
  · exact h
  · exact hrotated
  · exact hrotated

theorem auditLogOpen_eq_some {disk : FileSystem Bytes UInt8} {path : Bytes} {parent : Bool}
    (h : auditLogOpen disk path parent o = some log) :
    ∃ hfits, log = (⟨path, hfits, none, disk⟩ : AuditLog).openActive o ∧ log.fd.isSome = true := by
  unfold auditLogOpen at h
  split_ifs at h with hfits hempty hparent
  dsimp only at h
  split_ifs at h with hfd
  obtain rfl := Option.some.inj h
  exact ⟨hfits, rfl, Option.isSome_iff_ne_none.mpr (mt Option.isNone_iff_eq_none.mpr hfd)⟩

theorem attached_of_reachable (h : system.Reachable log) : log.Attached := by
  refine h.invariant ?_ ?_
  · rintro log ⟨disk, path, parent, o, hopen⟩
    obtain ⟨hfits, rfl, -⟩ := auditLogOpen_eq_some hopen
    exact .openActive _ o
  · rintro call log log' - hlog rfl
    exact hlog.auditLogEvent call.1 call.2

/-- What the next record is appended to: the active file, or a new one if it is full. -/
def target (log : AuditLog) : Bytes :=
  let text := (log.disk.text log.path).getD []
  if text.length < auditMaxBytes then text else []

theorem length_target_lt (log : AuditLog) : log.target.length < auditMaxBytes := by
  unfold target
  dsimp only
  split
  case isTrue h => exact h
  case isFalse => decide

/-- If nothing fails, the descriptor is then on the file the record goes to. -/
theorem rotateIfNeeded_of_clean (h : log.Attached) (hclean : o.Clean) {fd : Nat}
    (hfd : log.fd = some fd) :
    ∃ fd', (log.rotateIfNeeded o).2.fd = some fd' ∧
      (log.rotateIfNeeded o).2.disk.names log.path = some fd' ∧
      (log.rotateIfNeeded o).2.disk.content fd' = log.target := by
  have htext : log.disk.text log.path = some (log.disk.content fd) := by
    rw [FileSystem.text, h fd hfd]
    rfl
  have htarget : log.target = if (log.disk.content fd).length < auditMaxBytes then
      log.disk.content fd else [] := by
    rw [target, htext]
    rfl
  rw [htarget]
  split
  case isTrue hsmall =>
    rcases rotateIfNeeded_cases log o with ⟨heq, -⟩ | ⟨other, hother, hfull, -⟩
    · rw [heq]
      exact ⟨fd, hfd, h fd hfd, rfl⟩
    · obtain rfl := Option.some.inj (hfd.symm.trans hother)
      exact absurd hsmall (Nat.not_lt.mpr hfull)
  case isFalse hfull =>
    obtain ⟨new, hnew⟩ := rotated_rotateIfNeeded hclean hfd (Nat.not_lt.mp hfull)
    exact ⟨new, hnew.fd, hnew.active, hnew.empty⟩

/-! ## Recovery -/

theorem auditLogEvent_of_fd_none {e : AuditEvent} (h : log.fd = none) :
    log.auditLogEvent e o = log := by
  unfold auditLogEvent
  simp [h]

/-- As long as nothing is written, the record is not in its place. -/
theorem text_ne_target_append (log : AuditLog) (e : AuditEvent) :
    log.disk.text log.path ≠ some (log.target ++ e.record) := by
  intro htext
  have htarget : log.target = if (log.target ++ e.record).length < auditMaxBytes then
      log.target ++ e.record else [] := by
    conv_lhs => rw [target, htext]
    rfl
  split_ifs at htarget with hsmall
  · exact e.record_ne_nil (List.self_eq_append_right.mp htarget)
  · have hshort := e.length_record_lt
    rw [htarget, List.nil_append] at hsmall
    exact hsmall (hshort.trans (by decide))

/-- A call in which nothing fails appends its record exactly if the log still has its
descriptor. -/
theorem records_iff (hlog : system.Reachable log) {e : AuditEvent}
    (hevent : e.event.isSome = true) (hclean : o.Clean) :
    (log.auditLogEvent e o).disk.text log.path = some (log.target ++ e.record) ↔
      log.fd.isSome = true := by
  have hsome : e.event ≠ none := Option.isSome_iff_ne_none.mp hevent
  cases hfd : log.fd with
  | none =>
    refine ⟨fun htext => ?_, fun h => absurd h Bool.false_ne_true⟩
    rw [auditLogEvent_of_fd_none hfd] at htext
    exact absurd htext (text_ne_target_append log e)
  | some fd =>
    refine ⟨fun _ => rfl, fun _ => ?_⟩
    obtain ⟨fd', hfd', hbears, htarget⟩ :=
      rotateIfNeeded_of_clean (attached_of_reachable hlog) hclean hfd
    rcases auditLogEvent_cases log e o with
      ⟨hnone | hnone, -⟩ | ⟨hnone, -⟩ | ⟨other, written, hother, -, hall, heq⟩
    · exact absurd hnone hsome
    · cases hfd.symm.trans hnone
    · cases hfd'.symm.trans hnone
    · obtain rfl := Option.some.inj (hfd'.symm.trans hother)
      rw [heq, hall hclean, FileSystem.text]
      dsimp only [FileSystem.append]
      rw [hbears, ← htarget, Option.map_some, Function.update_self]

/-! ### A log to run -/

/-- A directory with one file. -/
def single (name content : Bytes) : FileSystem Bytes UInt8 where
  names other := if other = name then some 0 else none
  content _ := content
  fresh := 1
  used {other file} h := by
    split_ifs at h
    exact Option.some.inj h ▸ Nat.zero_lt_one

/-- The log `log` in such a directory. -/
def holding (content : Bytes) : AuditLog :=
  ⟨ascii "log", by decide, some 0, single (ascii "log") content⟩

theorem reachable_holding (content : Bytes) : system.Reachable (holding content) :=
  .init ⟨single (ascii "log") content, ascii "log", true, .clean, rfl⟩

def login : AuditEvent := ⟨some (ascii "login"), some (ascii "192.0.2.1"), none, none⟩

theorem records_iff_login :
    (holding []).fd.isSome = true ∧ ((holding []).auditLogEvent login .clean).disk.text
      (holding []).path = some ((holding []).target ++ login.record) :=
  ⟨rfl, (records_iff (reachable_holding []) rfl Outcomes.clean_clean).mpr rfl⟩

/-- The active file cannot be opened. -/
def outage : Outcomes := { Outcomes.clean with openFile := false }

theorem rotateIfNeeded_outage {content : Bytes} (hfull : auditMaxBytes ≤ content.length) :
    (holding content).rotateIfNeeded outage =
      rotateFrom outage auditArchives { holding content with fd := none } :=
  if_neg (Nat.not_lt.mpr hfull)

theorem stalled_of_outage {content : Bytes} (hfull : auditMaxBytes ≤ content.length) :
    (holding content).auditLogEvent login outage =
      (rotateFrom outage auditArchives { holding content with fd := none }).2 := by
  rcases auditLogEvent_cases (holding content) login outage with
    ⟨hnone | hnone, -⟩ | ⟨-, heq⟩ | ⟨fd, written, hfd, -⟩
  · cases hnone
  · cases hnone
  · exact heq.trans (congrArg Prod.snd (rotateIfNeeded_outage hfull))
  · rw [rotateIfNeeded_outage hfull] at hfd
    cases hfd

/-- The file is full and cannot be opened again after the rotation. From then on no
call writes anything. -/
theorem silent_after_outage :
    system.Reachable ((holding (List.replicate auditMaxBytes 0)).auditLogEvent login outage) ∧
      (((holding (List.replicate auditMaxBytes 0)).auditLogEvent login outage).auditLogEvent login
        .clean).disk.text (ascii "log") = none := by
  have hfull : auditMaxBytes ≤ (List.replicate auditMaxBytes (0 : UInt8)).length := by simp
  generalize List.replicate auditMaxBytes (0 : UInt8) = content at hfull ⊢
  refine ⟨.step (l := (login, outage)) (reachable_holding content) rfl, ?_⟩
  have hfd : ((holding content).auditLogEvent login outage).fd = none := by
    rw [stalled_of_outage hfull]
    rfl
  rw [auditLogEvent_of_fd_none hfd, stalled_of_outage hfull]
  rfl

/-! ## The size of the log -/

/-- Every file of the log is below `limit`. -/
def Bounded (limit : Nat) (log : AuditLog) : Prop :=
  ∀ i ≤ auditArchives, ∀ file, log.disk.names (logName log.path i) = some file →
    (log.disk.content file).length < limit

/-- Only the five files of the log have come to those of `log₀`. -/
def Confined (log₀ log : AuditLog) : Prop :=
  log.path = log₀.path ∧ ∀ name, log.disk.names name ≠ none →
    log₀.disk.names name ≠ none ∨ ∃ i ≤ auditArchives, name = logName log₀.path i

theorem Bounded.rotateIfNeeded {limit : Nat} (h : log.Bounded limit) (hlimit : 0 < limit)
    (hclean : o.Clean) : (log.rotateIfNeeded o).2.Bounded limit := by
  rcases rotateIfNeeded_cases log o with ⟨heq, -⟩ | ⟨fd, hfd, hfull, -⟩
  · rw [heq]
    exact h
  obtain ⟨new, hnew⟩ := rotated_rotateIfNeeded hclean hfd hfull
  intro i hi file hfile
  rw [path_rotateIfNeeded] at hfile
  cases i with
  | zero =>
    obtain rfl := Option.some.inj (hnew.active.symm.trans hfile)
    rw [hnew.empty]
    exact hlimit
  | succ i =>
    rw [hnew.moved i hi] at hfile
    rw [hnew.content file (log.disk.used hfile)]
    exact h i (Nat.le_of_succ_le hi) file hfile

theorem Bounded.auditLogEvent (h : log.Bounded (auditMaxBytes + 512)) (hattached : log.Attached)
    (e : AuditEvent) (hclean : o.Clean) :
    (log.auditLogEvent e o).Bounded (auditMaxBytes + 512) := by
  have hrotated := h.rotateIfNeeded (Nat.succ_pos _) hclean
  rcases auditLogEvent_cases log e o with ⟨-, heq⟩ | ⟨-, heq⟩ | ⟨fd, written, hfd, hpart, -, heq⟩ <;>
    rw [heq]
  · exact h
  · exact hrotated
  -- The record goes to the one file that is not full, and is short.
  have htarget : ((log.rotateIfNeeded o).2.disk.content fd).length < auditMaxBytes := by
    cases hsome : log.fd with
    | none =>
      have hsame : (log.rotateIfNeeded o).2 = log := by
        simp [AuditLog.rotateIfNeeded, hsome]
      rw [hsame, hsome] at hfd
      cases hfd
    | some fd₀ =>
      obtain ⟨fd', hfd', -, htarget⟩ := rotateIfNeeded_of_clean hattached hclean hsome
      obtain rfl := Option.some.inj (hfd'.symm.trans hfd)
      rw [htarget]
      exact log.length_target_lt
  intro i hi file hfile
  by_cases hfile' : file = fd
  · subst hfile'
    have hshort := hpart.length_le.trans_lt e.length_record_lt
    rw [FileSystem.content_append_self, List.length_append]
    omega
  · rw [FileSystem.content_append_of_ne _ hfile']
    exact hrotated i hi file hfile

theorem Confined.rotateIfNeeded (h : Confined log₀ log) (hclean : o.Clean) :
    Confined log₀ (log.rotateIfNeeded o).2 := by
  rcases rotateIfNeeded_cases log o with ⟨heq, -⟩ | ⟨fd, hfd, hfull, -⟩
  · rw [heq]
    exact h
  obtain ⟨new, hnew⟩ := rotated_rotateIfNeeded hclean hfd hfull
  refine ⟨(path_rotateIfNeeded log o).trans h.1, fun name hname => ?_⟩
  by_cases hlog : ∃ i ≤ auditArchives, name = logName log₀.path i
  · exact .inr hlog
  · rw [hnew.others name fun i hi heq => hlog ⟨i, hi, h.1 ▸ heq⟩] at hname
    exact h.2 name hname

theorem Confined.auditLogEvent (h : Confined log₀ log) (e : AuditEvent) (hclean : o.Clean) :
    Confined log₀ (log.auditLogEvent e o) := by
  have hrotated := h.rotateIfNeeded hclean
  rcases auditLogEvent_cases log e o with ⟨-, heq⟩ | ⟨-, heq⟩ | ⟨fd, written, -, -, -, heq⟩ <;>
    rw [heq]
  · exact h
  · exact hrotated
  · exact hrotated

/-- Whatever fails, a rotation keeps all files but the last archive, in their order. If
nothing fails it moves each one up, and then the log stays within its five files and
each of them below the limit of rotation and a record. -/
theorem rotation_keeps_order (log : AuditLog) :
    (∀ o, log.KeepsOrder (log.rotateIfNeeded o).2) ∧
    (∀ o fd, o.Clean → log.fd = some fd → auditMaxBytes ≤ (log.disk.content fd).length →
      ∃ new, log.Rotated (log.rotateIfNeeded o).2 new) ∧
    (system.Reachable log → log.Bounded auditMaxBytes → ∀ log',
      (system.guarded log fun call _ => call.2.Clean).Reachable log' →
        log'.Bounded (auditMaxBytes + 512) ∧ Confined log log') := by
  refine ⟨keepsOrder_rotateIfNeeded log, fun o fd hclean => rotated_rotateIfNeeded hclean, ?_⟩
  intro hlog hsmall log' hrun
  have hall : log'.Attached ∧ log'.Bounded (auditMaxBytes + 512) ∧ Confined log log' := by
    refine hrun.invariant (I := fun log' => log'.Attached ∧ log'.Bounded (auditMaxBytes + 512) ∧
      Confined log log') ?_ ?_
    · rintro _ rfl
      refine ⟨attached_of_reachable hlog, fun i hi file hfile => ?_, rfl, fun _ h => .inl h⟩
      exact (hsmall i hi file hfile).trans_le (Nat.le_add_right _ _)
    · rintro call s _ - ⟨hattached, hbounded, hconfined⟩ ⟨hclean, rfl⟩
      exact ⟨hattached.auditLogEvent call.1 call.2, hbounded.auditLogEvent hattached call.1 hclean,
        hconfined.auditLogEvent call.1 hclean⟩
  exact hall.2

theorem bounded_holding : (holding []).Bounded auditMaxBytes := by
  intro i _ file _
  exact Nat.zero_lt_succ _

theorem rotation_keeps_order_holding :
    (∃ new, (holding (List.replicate auditMaxBytes 0)).Rotated
      ((holding (List.replicate auditMaxBytes 0)).rotateIfNeeded .clean).2 new) ∧
    ((holding []).auditLogEvent login .clean).Bounded (auditMaxBytes + 512) ∧
      Confined (holding []) ((holding []).auditLogEvent login .clean) := by
  have hfull : auditMaxBytes ≤ (List.replicate auditMaxBytes (0 : UInt8)).length := by simp
  exact ⟨(rotation_keeps_order _).2.1 .clean 0 Outcomes.clean_clean rfl hfull,
    (rotation_keeps_order (holding [])).2.2 (reachable_holding []) bounded_holding _
      (.step (l := (login, Outcomes.clean)) (.init rfl) ⟨Outcomes.clean_clean, rfl⟩)⟩

end AuditLog

-- SUMMARY: The line of an audit event: it always fits, it is one line, and it shows its fields in order.
import TelnetTlsServer.Audit.AuditLog

/-!
# Audit records

Event, peer and detail come from anywhere. `sanitize_field` cuts each of them to its buffer and
leaves printable ASCII without the bar, so a record is one line and never too long for its own
buffer: the branch of `audit_log_event` that gives a record up for its size is not taken.
-/

/-! ## Fields -/

theorem sanitizeFrom_eq (room : Nat) (input : Bytes) :
    sanitizeFrom room input = (input.take room).map sanitizeByte := by
  induction room generalizing input with
  | zero => cases input <;> rfl
  | succ room ih =>
    cases input with
    | nil => rfl
    | cons ch rest => rw [sanitizeFrom, ih, List.take_succ_cons, List.map_cons]

theorem length_sanitizeFrom_le (room : Nat) (input : Bytes) :
    (sanitizeFrom room input).length ≤ room := by
  rw [sanitizeFrom_eq, List.length_map]
  exact List.length_take_le _ _

theorem sanitizeByte_printable (ch : UInt8) : 32 ≤ sanitizeByte ch ∧ sanitizeByte ch ≤ 126 := by
  unfold sanitizeByte
  split
  case isTrue hsafe => exact ⟨hsafe.1, hsafe.2.1⟩
  case isFalse => decide

theorem sanitizeField_printable (input : Option Bytes) (outputSize : Nat) :
    ∀ b ∈ sanitizeField input outputSize, 32 ≤ b ∧ b ≤ 126 := by
  intro b hb
  rw [sanitizeField, sanitizeFrom_eq] at hb
  obtain ⟨ch, -, rfl⟩ := List.mem_map.mp hb
  exact sanitizeByte_printable ch

/-! ## Records -/

namespace AuditEvent

theorem length_record_lt (e : AuditEvent) : e.record.length < 512 := by
  have htime : e.time.length < 32 := by
    unfold time
    cases e.timestamp with
    | none => decide
    | some timestamp => exact timestamp.2
  have hevent : (sanitizeField e.event 64).length ≤ 63 := length_sanitizeFrom_le _ _
  have hpeer : (sanitizeField e.peer 96).length ≤ 95 := length_sanitizeFrom_le _ _
  have hdetail : (sanitizeField e.detail 256).length ≤ 255 := length_sanitizeFrom_le _ _
  have hlabels : (ascii " event=").length + (ascii " peer=").length + (ascii " detail=").length +
    (ascii "\n").length = 22 := by decide
  simp only [record, List.length_append]
  omega

theorem record_ne_nil (e : AuditEvent) : e.record ≠ [] := by
  simp [record, ascii]

/-- A record before its line feed. -/
def line (e : AuditEvent) : Bytes :=
  e.time ++ ascii " event=" ++ sanitizeField e.event 64 ++ ascii " peer=" ++
    sanitizeField e.peer 96 ++ ascii " detail=" ++ sanitizeField e.detail 256

theorem record_eq_line (e : AuditEvent) : e.record = e.line ++ [10] := rfl

theorem line_printable {e : AuditEvent} (htime : ∀ b ∈ e.time, 32 ≤ b ∧ b ≤ 126) :
    ∀ b ∈ e.line, 32 ≤ b ∧ b ≤ 126 := by
  have hlabel : ∀ label : Bytes, label.all (fun b => 32 ≤ b ∧ b ≤ 126) = true →
      ∀ b ∈ label, 32 ≤ b ∧ b ≤ 126 := fun label h => by simpa using h
  intro b hb
  simp only [line, List.mem_append] at hb
  rcases hb with (((((htext | hword) | hfield) | hword) | hfield) | hword) | hfield
  · exact htime b htext
  · exact hlabel _ (by decide) b hword
  · exact sanitizeField_printable _ _ b hfield
  · exact hlabel _ (by decide) b hword
  · exact sanitizeField_printable _ _ b hfield
  · exact hlabel _ (by decide) b hword
  · exact sanitizeField_printable _ _ b hfield

end AuditEvent

/-- Where there is a file behind the rotation, the whole record goes to it. -/
theorem AuditLog.auditLogEvent_writes {log : AuditLog} {o : Outcomes} {fd : Nat} {e : AuditEvent}
    {event : Bytes} (hevent : e.event = some event) (hopen : log.fd.isSome = true)
    (hfd : (log.rotateIfNeeded o).2.fd = some fd) :
    log.auditLogEvent e o = { (log.rotateIfNeeded o).2 with
      disk := writeFrom (log.rotateIfNeeded o).2.disk fd o.write e.record } := by
  have hsize : ¬ (e.record.length = 0 ∨ e.record.length ≥ 512) := by
    rintro (hempty | hlong)
    · exact e.record_ne_nil (List.eq_nil_of_length_eq_zero hempty)
    · exact absurd e.length_record_lt (Nat.not_lt.mpr hlong)
  have hclosed : ¬ log.fd.isNone = true := Bool.not_eq_true _ ▸ Option.isNone_eq_false_iff.mpr hopen
  unfold auditLogEvent
  rw [if_neg (by rw [hevent]; exact Bool.false_ne_true), if_neg hsize, if_neg hclosed]
  dsimp only
  rw [hfd]

/-- For every event whose time is printable: the record fits, it is printable text and
one line feed at its end, it shows time, event, peer and detail in this order, each field cut and
cleaned, and it is written whenever the log has a file. -/
theorem audit_line_exact {e : AuditEvent} {event : Bytes} (hevent : e.event = some event)
    (hprintable : ∀ b ∈ e.time, 32 ≤ b ∧ b ≤ 126) :
    let cleaned (limit : Nat) (input : Bytes) : Bytes :=
      (input.take limit).map fun b => if 32 ≤ b ∧ b ≤ 126 ∧ b ≠ 124 then b else 95
    e.record.length < 512 ∧
    (∃ text, e.record = text ++ [10] ∧ ∀ b ∈ text, 32 ≤ b ∧ b ≤ 126) ∧
    e.record = e.time ++ ascii " event=" ++ cleaned 63 event ++
      ascii " peer=" ++ cleaned 95 (e.peer.getD (ascii "-")) ++
      ascii " detail=" ++ cleaned 255 (e.detail.getD (ascii "-")) ++ [10] ∧
    ∀ (log : AuditLog) (o : Outcomes) (fd : Nat), log.fd.isSome = true →
      (log.rotateIfNeeded o).2.fd = some fd →
      (log.auditLogEvent e o).disk =
        AuditLog.writeFrom (log.rotateIfNeeded o).2.disk fd o.write e.record := by
  intro cleaned
  have hfield : ∀ (input : Option Bytes) (limit : Nat), sanitizeField input (limit + 1) =
      cleaned limit (input.getD (ascii "-")) := fun input limit => sanitizeFrom_eq _ _
  refine ⟨e.length_record_lt, ⟨e.line, e.record_eq_line, e.line_printable hprintable⟩, ?_, ?_⟩
  · rw [AuditEvent.record_eq_line, AuditEvent.line, hfield, hfield, hfield, hevent]
    rfl
  · intro log o fd hopen hfd
    rw [log.auditLogEvent_writes hevent hopen hfd]

/-- A detail that tries to end the line and to begin another one. -/
theorem audit_line_exact_forged :
    (⟨some (ascii "login"), none, some (ascii "x\nforged|"), none⟩ : AuditEvent).record =
      ascii "unknown-time event=login peer=- detail=x_forged_\n" := by
  have hexact := audit_line_exact (e := ⟨some (ascii "login"), none, some (ascii "x\nforged|"), none⟩)
    rfl (fun b hb => ?_)
  · exact hexact.2.2.1.trans (by decide)
  · have hall : (ascii "unknown-time").all (fun b => 32 ≤ b ∧ b ≤ 126) = true := by decide
    simpa using List.all_eq_true.mp hall b hb

-- SUMMARY: The audit log: its records, the rotation of its files, and the system calls that may fail on the way.
import TelnetTlsServer.Codes
import TelnetTlsServer.Lib.FileSystem
import TelnetTlsServer.Lib.Transition

/-!
# The audit log

Calls of `audit_log_event` hold the mutex while they rotate and write, so a run of the
log is a sequence of calls. The answers of the system calls of one call are its
`Outcomes`; what they do when they succeed is `FileSystem`. A `rename` answers
`ENOENT` exactly if there is no file to rename, and a call that fails otherwise
changes nothing.
-/

def auditMaxBytes : Nat := 5 * 1024 * 1024
def auditArchives : Nat := 4

/-! ## Records -/

/-- A timestamp of `strftime`, which fits its buffer. -/
def Timestamp : Type := { text : Bytes // text.length < 32 }

def sanitizeByte (ch : UInt8) : UInt8 := if 32 ≤ ch ∧ ch ≤ 126 ∧ ch ≠ 124 then ch else 95

/-- The loop of `sanitize_field`, with the room left before the terminator. -/
def sanitizeFrom : Nat → Bytes → Bytes
  | _, [] => []
  | 0, _ => []
  | room + 1, ch :: rest => sanitizeByte ch :: sanitizeFrom room rest

def sanitizeField (input : Option Bytes) (outputSize : Nat) : Bytes :=
  sanitizeFrom (outputSize - 1) (input.getD (ascii "-"))

/-- The arguments of `audit_log_event`; none is `NULL`, or a time that could not be
told. Strings are given without their terminator. -/
structure AuditEvent where
  event : Option Bytes
  peer : Option Bytes
  detail : Option Bytes
  timestamp : Option Timestamp

def AuditEvent.time (e : AuditEvent) : Bytes :=
  match e.timestamp with
  | some timestamp => timestamp.1
  | none => ascii "unknown-time"

/-- The line of an event. -/
def AuditEvent.record (e : AuditEvent) : Bytes :=
  e.time ++ ascii " event=" ++ sanitizeField e.event 64 ++ ascii " peer=" ++
    sanitizeField e.peer 96 ++ ascii " detail=" ++ sanitizeField e.detail 256 ++ ascii "\n"

/-! ## System calls -/

inductive WriteOutcome where
  | interrupted
  | failed
  | nothing
  /-- The call takes this many bytes and one more, if there are as many. -/
  | took (n : Nat)
deriving DecidableEq, Repr

/-- What the system calls of one call answer, `true` for success. `rename index` is
the answer of the round `index`, `false` for an error other than `ENOENT`. When the
answers of `write` are used up, it takes all that is left. -/
structure Outcomes where
  fstat : Bool
  unlink : Bool
  rename : Nat → Bool
  openFile : Bool
  fchmod : Bool
  write : List WriteOutcome

/-- No call fails. A `write` may still take a part of the bytes only. -/
structure Outcomes.Clean (o : Outcomes) : Prop where
  fstat : o.fstat = true
  unlink : o.unlink = true
  rename : ∀ index, o.rename index = true
  openFile : o.openFile = true
  fchmod : o.fchmod = true
  write : ∀ w ∈ o.write, ∃ n, w = .took n

def Outcomes.clean : Outcomes := ⟨true, true, fun _ => true, true, true, []⟩

theorem Outcomes.clean_clean : Outcomes.clean.Clean :=
  ⟨rfl, rfl, fun _ => rfl, rfl, rfl, fun _ h => by cases h⟩

/-! ## The log -/

/-- `struct audit_log` and the files. The descriptor is none for −1. -/
structure AuditLog where
  path : Bytes
  fits : path.length < pathMax
  fd : Option Nat
  disk : FileSystem Bytes UInt8

/-- The active file is number 0. -/
def logName (path : Bytes) : Nat → Bytes
  | 0 => path
  | index + 1 => path ++ ascii ("." ++ toString (index + 1))

def openActiveFile (disk : FileSystem Bytes UInt8) (path : Bytes) (o : Outcomes) :
    Option Nat × FileSystem Bytes UInt8 :=
  if !o.openFile then (none, disk)
  else
    let (fd, disk) := disk.openAppend path
    if !o.fchmod then (none, disk) else (some fd, disk)

namespace AuditLog

def openActive (log : AuditLog) (o : Outcomes) : AuditLog :=
  let (fd, disk) := openActiveFile log.disk log.path o
  { log with fd := fd, disk := disk }

def reopenActiveAfterRotationError (log : AuditLog) (o : Outcomes) : Int × AuditLog :=
  if log.fd.isSome then (-1, log) else (-1, log.openActive o)

/-- Whether `snprintf` has room for a name. -/
def nameFits (name : Bytes) : Bool := name.length < pathMax + 16

/-- The highest archive makes room, if it can be removed. -/
def unlinkLast (log : AuditLog) (index : Nat) (o : Outcomes) : AuditLog :=
  if index = auditArchives ∧ nameFits (logName log.path index) ∧ o.unlink then
    { log with disk := log.disk.unlink (logName log.path index) }
  else log

/-- The rounds of the loop of `rotate_if_needed` from `index` down, and what follows
it. -/
def rotateFrom (o : Outcomes) : Nat → AuditLog → Int × AuditLog
  | 0, log =>
      let log := log.openActive o
      (if log.fd.isSome then 0 else -1, log)
  | index + 1, log =>
      let log := log.unlinkLast (index + 1) o
      let src := logName log.path index
      let dst := logName log.path (index + 1)
      if !nameFits src then log.reopenActiveAfterRotationError o
      else if !nameFits dst then log.reopenActiveAfterRotationError o
      else if !o.rename (index + 1) then log.reopenActiveAfterRotationError o
      else
        match log.disk.rename src dst with
        | some disk => rotateFrom o index { log with disk := disk }
        | none => rotateFrom o index log

def rotateIfNeeded (log : AuditLog) (o : Outcomes) : Int × AuditLog :=
  match log.fd with
  | none => (-1, log)
  | some fd =>
      if !o.fstat then (-1, log)
      else if (log.disk.content fd).length < auditMaxBytes then (0, log)
      else rotateFrom o auditArchives { log with fd := none }

/-- The loop that writes a record, over the answers of its calls. -/
def writeFrom (disk : FileSystem Bytes UInt8) (fd : Nat) :
    List WriteOutcome → Bytes → FileSystem Bytes UInt8
  | _, [] => disk
  | [], rest => disk.append fd rest
  | .interrupted :: outcomes, rest => writeFrom disk fd outcomes rest
  | .failed :: _, _ => disk
  | .nothing :: _, _ => disk
  | .took n :: outcomes, rest =>
      writeFrom (disk.append fd (rest.take (n + 1))) fd outcomes (rest.drop (n + 1))

def auditLogEvent (log : AuditLog) (e : AuditEvent) (o : Outcomes) : AuditLog :=
  if e.event.isNone then log
  else if e.record.length = 0 ∨ e.record.length ≥ 512 then log
  else if log.fd.isNone then log
  else
    let (_, log) := log.rotateIfNeeded o
    match log.fd with
    | none => log
    | some fd => { log with disk := writeFrom log.disk fd o.write e.record }

end AuditLog

/-- `audit_log_open`; `parent` is the answer of `ensure_private_parent`, which has to
do with the directory only. -/
def auditLogOpen (disk : FileSystem Bytes UInt8) (path : Bytes) (parent : Bool) (o : Outcomes) :
    Option AuditLog :=
  if hfits : path.length < pathMax then
    if path = [] then none
    else if !parent then none
    else
      let (fd, disk) := openActiveFile disk path o
      if fd.isNone then none else some ⟨path, hfits, fd, disk⟩
  else none

/-- An open log under calls of `audit_log_event`. -/
def AuditLog.system : Transition.System AuditLog (AuditEvent × Outcomes) where
  init log := ∃ disk path parent o, auditLogOpen disk path parent o = some log
  step call log log' := log' = log.auditLogEvent call.1 call.2

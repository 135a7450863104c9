-- SUMMARY: Feeding a byte string at one time gives the same session however it is cut into chunks; chunks at different times as a stream of timed bytes.
import TelnetTlsServer.Session.Parser

/-!
# Chunking

A chunk may end anywhere: inside a command, between CR and LF, in a payload. All
of the parser's memory is in the session, so the next chunk goes on where the
last one ended. Only the byte window counts chunks; it sees a chunk that arrives
after a close differently, because that chunk is not counted at all.
-/

namespace RateWindow

/-- A window that was just looked at is not over at the same time. -/
theorem roll_of_roll {window : RateWindow} {windowMs nowMs : UInt64} (hnow : nowMs ≠ 0)
    (hwindow : windowMs ≠ 0) (used : Nat) :
    ({ window.roll windowMs nowMs with used := used } : RateWindow).roll windowMs nowMs =
      { window.roll windowMs nowMs with used := used } := by
  have hfresh : (⟨nowMs, used⟩ : RateWindow).roll windowMs nowMs = ⟨nowMs, used⟩ := by
    simp [roll, hnow, hwindow]
  unfold roll at *
  by_cases hover : (decide (window.startedMs = 0) || decide (nowMs < window.startedMs) ||
      decide (nowMs - window.startedMs ≥ windowMs)) = true
  · simpa [hover] using hfresh
  · simp [hover]

end RateWindow

/-- Two amounts at one time are counted as their sum. -/
theorem rateConsume_add {window : RateWindow} {x y limit : Nat} {windowMs nowMs : UInt64}
    (hnow : nowMs ≠ 0) (hwindow : windowMs ≠ 0)
    (h : (rateConsume window (x + y) limit windowMs nowMs).1 = true) :
    (rateConsume window x limit windowMs nowMs).1 = true ∧
      rateConsume (rateConsume window x limit windowMs nowMs).2 y limit windowMs nowMs =
        rateConsume window (x + y) limit windowMs nowMs := by
  have hroom : x + y ≤ limit ∧ (window.roll windowMs nowMs).used ≤ limit - (x + y) := by
    simp only [rateConsume] at h
    split at h
    case isTrue => simp at h
    case isFalse hfits =>
      simp only [gt_iff_lt, Bool.or_eq_true, decide_eq_true_eq, not_or, Nat.not_lt] at hfits
      exact hfits
  have hfirst : rateConsume window x limit windowMs nowMs =
      (true, { window.roll windowMs nowMs with
        used := (window.roll windowMs nowMs).used + x }) := by
    simp only [rateConsume]
    rw [if_neg]
    simp only [gt_iff_lt, Bool.or_eq_true, decide_eq_true_eq, not_or, Nat.not_lt]
    omega
  refine ⟨by rw [hfirst], ?_⟩
  rw [hfirst]
  simp only [rateConsume, RateWindow.roll_of_roll hnow hwindow]
  rw [if_neg, if_neg]
  · simp [Nat.add_assoc]
  · simp only [gt_iff_lt, Bool.or_eq_true, decide_eq_true_eq, not_or, Nat.not_lt]
    omega
  · simp only [gt_iff_lt, Bool.or_eq_true, decide_eq_true_eq, not_or, Nat.not_lt]
    omega

namespace Conn

variable {β α : Type}

theorem feedBytes_of_closed {host : Host β α} {c : Conn β α} (hclosed : c.closed = true)
    (nowMs : UInt64) (data : Bytes) : c.feedBytes host nowMs data = c := by
  cases data <;> simp [feedBytes, hclosed]

theorem feedBytes_append (host : Host β α) (nowMs : UInt64) (c : Conn β α) (a b : Bytes) :
    c.feedBytes host nowMs (a ++ b) = (c.feedBytes host nowMs a).feedBytes host nowMs b := by
  induction a generalizing c with
  | nil => rfl
  | cons byte rest ih => rw [List.cons_append, feedBytes_cons, feedBytes_cons, ih]

end Conn

namespace TelnetSession

variable {β α : Type}

/-- The byte window has room for `n` more bytes. -/
def Admits (s : TelnetSession β α) (n : Nat) (nowMs : UInt64) : Prop :=
  (rateConsume s.byteWindow n inputBytesPerWindow inputBytesWindowMs nowMs).1 = true

/-- The same session but for how many bytes a chunk after a close has counted. -/
structure SameSession (s t : TelnetSession β α) : Prop where
  conn : s.conn = t.conn
  startedMs : s.byteWindow.startedMs = t.byteWindow.startedMs
  byteWindow : s.conn.closed = false → s.byteWindow = t.byteWindow

theorem feedAt_of_admits {host : Host β α} {s : TelnetSession β α} {data : Bytes}
    {nowMs : UInt64} (hopen : s.conn.closed = false) (h : s.Admits data.length nowMs) :
    s.feedAt host data nowMs =
      (if (s.conn.feedBytes host nowMs data).closed then -1 else 0,
        ⟨s.conn.feedBytes host nowMs data, (rateConsume s.byteWindow data.length
          inputBytesPerWindow inputBytesWindowMs nowMs).2⟩) := by
  unfold Admits at h
  simp [feedAt, hopen, h]

theorem feedAt_of_closed {host : Host β α} {s : TelnetSession β α} (hclosed : s.conn.closed = true)
    (data : Bytes) (nowMs : UInt64) : s.feedAt host data nowMs = (-1, s) := by
  simp [feedAt, hclosed]

theorem startedMs_rateConsume (window : RateWindow) (amount limit : Nat)
    (windowMs nowMs : UInt64) :
    (rateConsume window amount limit windowMs nowMs).2.startedMs =
      (window.roll windowMs nowMs).startedMs := by
  simp only [rateConsume]
  split <;> rfl

theorem SameSession.trans {s t u : TelnetSession β α} (h : SameSession s t)
    (h' : SameSession t u) : SameSession s u where
  conn := h.conn.trans h'.conn
  startedMs := h.startedMs.trans h'.startedMs
  byteWindow hopen := (h.byteWindow hopen).trans (h'.byteWindow (by rw [← h.conn]; exact hopen))

/-- What is left of the room after a first chunk. -/
theorem Admits.split (host : Host β α) {s : TelnetSession β α} {a : Bytes} {n : Nat}
    {nowMs : UInt64} (hopen : s.conn.closed = false) (hnow : nowMs ≠ 0)
    (hroom : s.Admits (a.length + n) nowMs) :
    s.Admits a.length nowMs ∧ (s.feedAt host a nowMs).2.Admits n nowMs ∧
      (rateConsume (s.feedAt host a nowMs).2.byteWindow n inputBytesPerWindow inputBytesWindowMs
        nowMs).2 = (rateConsume s.byteWindow (a.length + n) inputBytesPerWindow
          inputBytesWindowMs nowMs).2 := by
  obtain ⟨hfirst, hsecond⟩ :=
    rateConsume_add hnow (show inputBytesWindowMs ≠ 0 by decide) hroom
  refine ⟨hfirst, ?_, ?_⟩
  · rw [Admits, feedAt_of_admits hopen hfirst, hsecond]
    exact hroom
  · rw [feedAt_of_admits hopen hfirst, hsecond]

theorem feedAt_append (host : Host β α) {s : TelnetSession β α} {a b : Bytes} {nowMs : UInt64}
    (hopen : s.conn.closed = false) (hnow : nowMs ≠ 0)
    (hroom : s.Admits (a.length + b.length) nowMs) :
    ((s.feedAt host a nowMs).2.feedAt host b nowMs).1 = (s.feedAt host (a ++ b) nowMs).1 ∧
      SameSession ((s.feedAt host a nowMs).2.feedAt host b nowMs).2
        (s.feedAt host (a ++ b) nowMs).2 ∧
      ((s.feedAt host a nowMs).2.conn.closed = false →
        ((s.feedAt host a nowMs).2.feedAt host b nowMs).2.byteWindow =
          (s.feedAt host (a ++ b) nowMs).2.byteWindow) := by
  obtain ⟨hfirst, hsecond, hwindow⟩ := Admits.split host hopen hnow hroom
  have hwhole : s.Admits (a ++ b).length nowMs := by rw [List.length_append]; exact hroom
  have hconn : (s.feedAt host a nowMs).2.conn = s.conn.feedBytes host nowMs a := by
    rw [feedAt_of_admits hopen hfirst]
  rw [feedAt_of_admits hopen hwhole, Conn.feedBytes_append, List.length_append, ← hconn]
  cases hclosed : (s.feedAt host a nowMs).2.conn.closed with
  | true =>
    rw [feedAt_of_closed hclosed, Conn.feedBytes_of_closed hclosed, hclosed]
    refine ⟨rfl, ⟨rfl, ?_, fun hopen' => ?_⟩, by simp⟩
    · rw [feedAt_of_admits hopen hfirst]
      simp only [startedMs_rateConsume]
    · simp [hclosed] at hopen'
  | false =>
    rw [feedAt_of_admits hclosed hsecond, hwindow]
    exact ⟨rfl, ⟨rfl, rfl, fun _ => rfl⟩, fun _ => rfl⟩

/-- Feed chunk after chunk at one time; the answer is that of the last call. -/
def feedChunks (host : Host β α) (nowMs : UInt64) :
    TelnetSession β α → Bytes → List Bytes → Int × TelnetSession β α
  | s, chunk, [] => s.feedAt host chunk nowMs
  | s, chunk, next :: rest => feedChunks host nowMs (s.feedAt host chunk nowMs).2 next rest

theorem feedChunks_of_closed {host : Host β α} {s : TelnetSession β α}
    (hclosed : s.conn.closed = true) (nowMs : UInt64) (chunk : Bytes) (rest : List Bytes) :
    feedChunks host nowMs s chunk rest = (-1, s) := by
  induction rest generalizing chunk with
  | nil => exact feedAt_of_closed hclosed chunk nowMs
  | cons next rest ih => rw [feedChunks, feedAt_of_closed hclosed, ih]

theorem feedChunks_eq_feedAt {host : Host β α} {s : TelnetSession β α} {nowMs : UInt64}
    (hnow : nowMs ≠ 0) (chunk : Bytes) (rest : List Bytes) (hopen : s.conn.closed = false)
    (hroom : s.Admits (chunk ++ rest.flatten).length nowMs) :
    (feedChunks host nowMs s chunk rest).1 = (s.feedAt host (chunk ++ rest.flatten) nowMs).1 ∧
      SameSession (feedChunks host nowMs s chunk rest).2
        (s.feedAt host (chunk ++ rest.flatten) nowMs).2 := by
  induction rest generalizing s chunk with
  | nil =>
    rw [List.flatten_nil, List.append_nil]
    exact ⟨rfl, rfl, rfl, fun _ => rfl⟩
  | cons next rest ih =>
    rw [List.length_append] at hroom
    obtain ⟨hanswer, hsame, _⟩ := feedAt_append host hopen hnow hroom
    rw [feedChunks, List.flatten_cons]
    rw [List.flatten_cons] at hanswer hsame hroom
    cases hclosed : (s.feedAt host chunk nowMs).2.conn.closed with
    | true =>
      rw [feedChunks_of_closed hclosed]
      rw [feedAt_of_closed hclosed] at hanswer hsame
      exact ⟨hanswer, hsame⟩
    | false =>
      obtain ⟨_, hsecond, _⟩ := Admits.split host hopen hnow hroom
      obtain ⟨hrest, hsame'⟩ := ih next hclosed hsecond
      exact ⟨hrest.trans hanswer, hsame'.trans hsame⟩

/-- Cutting a byte string in two, or into any chunks, changes neither the answer
nor the session with its complete record of writes and calls. The one exception
is the count of the byte window when the session was closed before the cut. -/
theorem chunking_invariance {host : Host β α} {s : TelnetSession β α} {nowMs : UInt64}
    (hopen : s.conn.closed = false) (hnow : nowMs ≠ 0) :
    (∀ a b : Bytes, s.Admits (a.length + b.length) nowMs →
      ((s.feedAt host a nowMs).2.feedAt host b nowMs).1 = (s.feedAt host (a ++ b) nowMs).1 ∧
        SameSession ((s.feedAt host a nowMs).2.feedAt host b nowMs).2
          (s.feedAt host (a ++ b) nowMs).2 ∧
        ((s.feedAt host a nowMs).2.conn.closed = false →
          ((s.feedAt host a nowMs).2.feedAt host b nowMs).2.byteWindow =
            (s.feedAt host (a ++ b) nowMs).2.byteWindow)) ∧
    ∀ (chunk : Bytes) (rest : List Bytes), s.Admits (chunk ++ rest.flatten).length nowMs →
      (feedChunks host nowMs s chunk rest).1 = (s.feedAt host (chunk ++ rest.flatten) nowMs).1 ∧
        SameSession (feedChunks host nowMs s chunk rest).2
          (s.feedAt host (chunk ++ rest.flatten) nowMs).2 :=
  ⟨fun _ _ hroom => feedAt_append host hopen hnow hroom,
    fun chunk rest hroom => feedChunks_eq_feedAt hnow chunk rest hopen hroom⟩

/-- A cut between CR and LF. -/
theorem chunking_invariance_crlf :
    SameSession ((granted.feedAt .granting (ascii "abc\r") 1).2.feedAt .granting (ascii "\n") 1).2
      (granted.feedAt .granting (ascii "abc\r\n") 1).2 := by
  have hopen : granted.conn.closed = false := rfl
  have hnow : (1 : UInt64) ≠ 0 := by decide
  have hroom : granted.Admits ((ascii "abc\r").length + (ascii "\n").length) 1 := by
    unfold Admits
    decide
  exact ((chunking_invariance hopen hnow).1 _ _ hroom).2.1

end TelnetSession

/-! ## Chunks at times of their own -/

/-- A byte with the time it is fed at. -/
abbrev TimedByte := UInt8 × UInt64

namespace Conn

variable {β α : Type}

def feedStream (host : Host β α) (c : Conn β α) (stream : List TimedByte) : Conn β α :=
  stream.foldl (fun c byte => c.act host (.byte byte.1 byte.2)) c

theorem feedStream_cons (host : Host β α) (c : Conn β α) (byte : TimedByte)
    (rest : List TimedByte) :
    c.feedStream host (byte :: rest) = (c.act host (.byte byte.1 byte.2)).feedStream host rest := rfl

theorem feedStream_append (host : Host β α) (c : Conn β α) (a b : List TimedByte) :
    c.feedStream host (a ++ b) = (c.feedStream host a).feedStream host b :=
  List.foldl_append

theorem act_of_closed {host : Host β α} {c : Conn β α} (h : c.closed = true) (byte : UInt8)
    (nowMs : UInt64) : c.act host (.byte byte nowMs) = c := by
  simp [act, h]

theorem act_of_open {host : Host β α} {c : Conn β α} (h : c.closed = false) (byte : UInt8)
    (nowMs : UInt64) : c.act host (.byte byte nowMs) = c.feedByte host byte nowMs := by
  simp [act, h]

/-- A session that is open after a stream was open before it. -/
theorem open_of_feedStream {host : Host β α} {c : Conn β α} {stream : List TimedByte}
    (h : (c.feedStream host stream).closed = false) : c.closed = false := by
  induction stream generalizing c with
  | nil => exact h
  | cons byte rest ih =>
    have hnext : (c.act host (.byte byte.1 byte.2)).closed = false := ih h
    by_contra hclosed
    rw [act_of_closed (by simpa using hclosed)] at hnext
    exact hclosed hnext

theorem feedStream_chunk (host : Host β α) (c : Conn β α) (nowMs : UInt64) (chunk : Bytes) :
    c.feedStream host (chunk.map (·, nowMs)) = c.feedBytes host nowMs chunk := by
  induction chunk generalizing c with
  | nil => rfl
  | cons byte rest ih =>
    rw [feedBytes_cons]
    exact ih _

end Conn

namespace TelnetSession

variable {β α : Type}

/-- Feed chunks, each at its time. -/
def feedAll (host : Host β α) (s : TelnetSession β α) (chunks : List (Bytes × UInt64)) :
    TelnetSession β α :=
  chunks.foldl (fun s chunk => (s.feedAt host chunk.1 chunk.2).2) s

def timed (chunks : List (Bytes × UInt64)) : List TimedByte :=
  chunks.flatMap fun chunk => chunk.1.map (·, chunk.2)

/-- The byte window takes every chunk. -/
def AdmitsAll (host : Host β α) (s : TelnetSession β α) (chunks : List (Bytes × UInt64)) : Prop :=
  ∀ before chunk, before ++ [chunk] <+: chunks →
    (s.feedAll host before).Admits chunk.1.length chunk.2

theorem conn_feedAt {host : Host β α} {s : TelnetSession β α} {chunk : Bytes} {nowMs : UInt64}
    (h : s.Admits chunk.length nowMs) :
    (s.feedAt host chunk nowMs).2.conn = s.conn.feedStream host (chunk.map (·, nowMs)) := by
  rw [Conn.feedStream_chunk]
  cases hclosed : s.conn.closed with
  | true => rw [feedAt_of_closed hclosed, Conn.feedBytes_of_closed hclosed]
  | false => rw [feedAt_of_admits hclosed h]

theorem admitsAll_nil (host : Host β α) (s : TelnetSession β α) : AdmitsAll host s [] := by
  intro before chunk h
  have hlength := h.length_le
  rw [List.length_append, List.length_singleton] at hlength
  simp at hlength

theorem admitsAll_cons {host : Host β α} {s : TelnetSession β α} {chunk : Bytes × UInt64}
    {rest : List (Bytes × UInt64)} :
    AdmitsAll host s (chunk :: rest) ↔ s.Admits chunk.1.length chunk.2 ∧
      AdmitsAll host (s.feedAt host chunk.1 chunk.2).2 rest := by
  constructor
  · intro h
    exact ⟨h [] chunk (List.prefix_append [chunk] rest), fun before next hbefore =>
      h (chunk :: before) next (List.prefix_cons_inj chunk |>.mpr hbefore)⟩
  · rintro ⟨hfirst, hrest⟩ before next hbefore
    cases before with
    | nil =>
      obtain rfl := (List.cons_prefix_cons.mp hbefore).1
      exact hfirst
    | cons first before =>
      obtain ⟨rfl, hafter⟩ := List.cons_prefix_cons.mp hbefore
      exact hrest before next hafter

theorem feedAll_of_admits {host : Host β α} {s : TelnetSession β α} {chunks : List (Bytes × UInt64)}
    (h : AdmitsAll host s chunks) :
    (s.feedAll host chunks).conn = s.conn.feedStream host (timed chunks) := by
  induction chunks generalizing s with
  | nil => rfl
  | cons chunk rest ih =>
    obtain ⟨hfirst, hrest⟩ := admitsAll_cons.mp h
    have htimed : timed (chunk :: rest) = chunk.1.map (·, chunk.2) ++ timed rest :=
      List.flatMap_cons
    rw [htimed, Conn.feedStream_append, ← conn_feedAt hfirst]
    exact ih hrest

end TelnetSession

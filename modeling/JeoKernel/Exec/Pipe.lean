import Mathlib.Algebra.Ring.Int.Defs
import Mathlib.Data.List.Range
import JeoKernel.Lib.Machine

/-!
# Pipes

The reading end of a pipe (`PipeEnd`) holds the bytes written and not yet read, and the queue of
reads that found too few of them.  A read completes on one of two paths: at once, in
`PipeDescriptorHandler::read`, or from the queue, in `PipeEnd::Notify`.  Each path copies the
bytes to the caller, erases them from the buffer and reports a length.

The locked sections are the steps of the machine: a write appends, `Notify` drains the queue, a
read is served or queued, the destructor of the writing end sets `eof`.  `Notify` may run at any
moment, since writers call it after they have released the lock.
-/

namespace JeoKernel.Pipe

open List Option Machine

structure PipeQueuedRead where
  call : ℕ
  len : BitVec 64

/-- What a completed read did: the bytes copied to the caller's memory, the number of bytes erased
from the buffer, and the value reported to the caller. -/
structure ReadReport where
  copied : List UInt8
  removed : ℕ
  result : ℤ

/-- The bytes a caller takes from a read that reported `result`. -/
def ReadReport.bytes (r : ReadReport) : List UInt8 := r.copied.take r.result.toNat

structure PipeEnd where
  readQueue : List PipeQueuedRead
  buffer : List UInt8
  eof : Bool

def intMax : ℤ := 2 ^ 31 - 1

/-- The portion one round of the erase loop takes: what is left, but at most an `int`. -/
def eraseLen (len : ℤ) : ℤ := if intMax < len then intMax else len

theorem eraseLen_bounds {len : ℤ} (pos : 0 < len) : 0 < eraseLen len ∧ eraseLen len ≤ len := by
  unfold eraseLen intMax
  split_ifs <;> omega

/-- The loop that erases `len` bytes in portions that fit an `int`; returns the buffer and the
final value of the loop's counter. -/
def eraseLoop (buffer : List UInt8) (len : ℤ) : List UInt8 × ℤ :=
  if 0 < len then eraseLoop (buffer.drop (eraseLen len).toNat) (len - eraseLen len)
  else (buffer, len)
termination_by len.toNat
decreasing_by have := eraseLen_bounds ‹0 < len›; omega

/-- `if (len > buffer.size()) len = buffer.size();`, an unsigned comparison. -/
def clampLen (buffer : List UInt8) (len : BitVec 64) : BitVec 64 :=
  if buffer.length < len.toNat then BitVec.ofNat 64 buffer.length else len

/-- The callback of a queued read: copy, erase with a counter of its own, report the length. -/
def serveQueued (buffer : List UInt8) (len : BitVec 64) : List UInt8 × ReadReport :=
  let len := clampLen buffer len
  let copied := buffer.take len.toNat
  let rest := (eraseLoop buffer len.toInt).1
  (rest, { copied, removed := buffer.length - rest.length, result := len.toInt })

/-- The read that needs no waiting: the same copy, but the erase loop counts `len` itself down
and `len` is what is returned. -/
def serveDirect (buffer : List UInt8) (len : BitVec 64) : List UInt8 × ReadReport :=
  let len := clampLen buffer len
  let copied := buffer.take len.toNat
  let (rest, left) := eraseLoop buffer len.toInt
  (rest, { copied, removed := buffer.length - rest.length, result := left })

/-- The test of `PipeDescriptorHandler::read` for joining the queue. -/
def PipeEnd.mustQueue (e : PipeEnd) (len : BitVec 64) : Bool :=
  !e.readQueue.isEmpty || (decide (e.buffer.length < len.toNat) && !e.eof)

def PipeEnd.read (e : PipeEnd) (call : ℕ) (len : BitVec 64) : PipeEnd × Option ReadReport :=
  if e.mustQueue len then
    ({ e with readQueue := e.readQueue ++ [⟨call, len⟩] }, none)
  else
    let (buffer, report) := serveDirect e.buffer len
    ({ e with buffer }, some report)

/-- The queue loop of `PipeEnd::Notify`: serve from the front while the buffer suffices. -/
def drain : List PipeQueuedRead → List UInt8 →
    List PipeQueuedRead × List UInt8 × List (ℕ × ReadReport)
  | [], buffer => ([], buffer, [])
  | q :: queue, buffer =>
    if q.len.toNat ≤ buffer.length then
      let (rest, report) := serveQueued buffer q.len
      let (queue', buffer', reports) := drain queue rest
      (queue', buffer', (q.call, report) :: reports)
    else (q :: queue, buffer, [])

def PipeEnd.notify (e : PipeEnd) : PipeEnd × List (ℕ × ReadReport) :=
  let (readQueue, buffer, reports) := drain e.readQueue e.buffer
  ({ e with readQueue, buffer }, reports)

/-- A pipe with its history: the number of reads issued, the report of each completed one, and
all bytes written. -/
structure State where
  endpoint : PipeEnd
  issued : ℕ
  reports : List (ℕ × ReadReport)
  written : List UInt8

inductive Action where
  | write (bytes : List UInt8)
  | notify
  | read (len : BitVec 64)
  | close

/-- One locked section.  A string of `2 ^ 63` bytes has no room in memory, so such a write has no
next state. -/
def exec (s : State) : Action → Option State
  | .write bytes =>
    if s.endpoint.buffer.length + bytes.length < 2 ^ 63 then
      some { s with
        endpoint := { s.endpoint with buffer := s.endpoint.buffer ++ bytes }
        written := s.written ++ bytes }
    else none
  | .notify =>
    let (endpoint, reports) := s.endpoint.notify
    some { s with endpoint, reports := s.reports ++ reports }
  | .read len =>
    let (endpoint, report) := s.endpoint.read s.issued len
    some { s with
      endpoint
      issued := s.issued + 1
      reports := s.reports ++ (report.map fun r => (s.issued, r)).toList }
  | .close => some { s with endpoint := { s.endpoint with eof := true } }

def initial : State := ⟨⟨[], [], false⟩, 0, [], []⟩

def State.bytesOf (s : State) (call : ℕ) : List UInt8 :=
  ((s.reports.lookup call).map ReadReport.bytes).getD []

def State.reported (s : State) : List UInt8 := (range s.issued).flatMap s.bytesOf

/-- Nothing is lost, duplicated or reordered, and each read reports what it removed. -/
def ByteStream (s : State) : Prop :=
  s.reported ++ s.endpoint.buffer = s.written ∧
    ∀ p ∈ s.reports, p.2.result = p.2.removed

/-- A read that must wait, or that takes no byte from the buffer. -/
def ReadWaits (s : State) : Action → Prop
  | .read len => s.endpoint.mustQueue len = true ∨ len.toNat = 0 ∨ s.endpoint.buffer = []
  | _ => True

/-! ## The two completion paths -/

theorem eraseLoop_eq (buffer : List UInt8) (len : ℤ) :
    eraseLoop buffer len = (buffer.drop len.toNat, if 0 < len then 0 else len) := by
  fun_induction eraseLoop buffer len with
  | case1 buffer len pos ih =>
    have bounds := eraseLen_bounds pos
    have total : (eraseLen len).toNat + (len - eraseLen len).toNat = len.toNat := by omega
    have done : (if 0 < len - eraseLen len then 0 else len - eraseLen len) = 0 := by
      split_ifs <;> omega
    rw [ih, drop_drop, total, done, if_pos pos]
  | case2 buffer len neg => simp [neg, Int.toNat_of_nonpos (by omega : len ≤ 0)]

variable {buffer : List UInt8}

section

variable (small : buffer.length < 2 ^ 63) (len : BitVec 64)

include small len

theorem toNat_clampLen : (clampLen buffer len).toNat = min buffer.length len.toNat := by
  unfold clampLen
  split_ifs with h
  · rw [BitVec.toNat_ofNat, Nat.mod_eq_of_lt (by omega)]
    omega
  · omega

theorem toInt_clampLen : (clampLen buffer len).toInt = (min buffer.length len.toNat : ℕ) := by
  have h := toNat_clampLen small len
  rw [BitVec.toInt_eq_toNat_of_lt (by omega), h]

theorem serveQueued_eq :
    let n := min buffer.length len.toNat
    serveQueued buffer len = (buffer.drop n, ⟨buffer.take n, n, n⟩) := by
  simp only [serveQueued, toNat_clampLen small, toInt_clampLen small, eraseLoop_eq,
    Int.toNat_natCast, length_drop, Prod.mk.injEq, ReadReport.mk.injEq, true_and, and_true]
  omega

/-- A read served at once takes the front of the buffer as well, but always reports zero. -/
theorem serveDirect_eq :
    let n := min buffer.length len.toNat
    serveDirect buffer len = (buffer.drop n, ⟨buffer.take n, n, 0⟩) := by
  simp only [serveDirect, toNat_clampLen small, toInt_clampLen small, eraseLoop_eq,
    Int.toNat_natCast, length_drop, Prod.mk.injEq, ReadReport.mk.injEq, true_and]
  constructor
  · omega
  · split_ifs <;> omega

end

/-! ## Runs -/

/-- Reads complete in the order they were issued, and the bytes they copied to their callers and
those in the buffer make up what was written. -/
structure Copied (s : State) : Prop where
  small : s.endpoint.buffer.length < 2 ^ 63
  order : s.reports.map Prod.fst ++ s.endpoint.readQueue.map PipeQueuedRead.call = range s.issued
  stream : s.reports.flatMap (fun p => p.2.copied) ++ s.endpoint.buffer = s.written

/-- The caller takes what was copied, and is told what was removed. -/
structure ReadReport.Exact (r : ReadReport) : Prop where
  bytes : r.bytes = r.copied
  result : r.result = r.removed

theorem exact_copied (bytes : List UInt8) (n : ℕ) : ReadReport.Exact ⟨bytes.take n, n, n⟩ :=
  ⟨by simp [ReadReport.bytes, take_take], rfl⟩

/-- What draining the queue does: it serves a prefix of the queue, in order. -/
theorem drain_spec (queue : List PipeQueuedRead) (buffer : List UInt8)
    (small : buffer.length < 2 ^ 63) {queue' : List PipeQueuedRead} {buffer' : List UInt8}
    {reports : List (ℕ × ReadReport)} (h : drain queue buffer = (queue', buffer', reports)) :
    queue.map PipeQueuedRead.call = reports.map Prod.fst ++ queue'.map PipeQueuedRead.call ∧
      reports.flatMap (fun p => p.2.copied) ++ buffer' = buffer ∧ ∀ p ∈ reports, p.2.Exact := by
  induction queue generalizing buffer queue' buffer' reports with
  | nil =>
    obtain ⟨rfl, rfl, rfl⟩ := h
    simp
  | cons q queue ih =>
    unfold drain at h
    split_ifs at h with enough
    · rw [serveQueued_eq small, min_eq_right enough] at h
      rcases hd : drain queue (buffer.drop q.len.toNat) with ⟨queue₁, buffer₁, reports₁⟩
      simp only [hd, Prod.mk.injEq] at h
      obtain ⟨rfl, rfl, rfl⟩ := h
      obtain ⟨calls, bytes, exact_⟩ := ih _ (by rw [length_drop]; omega) hd
      refine ⟨by simp [calls], ?_, forall_mem_cons.mpr ⟨exact_copied _ _, exact_⟩⟩
      rw [flatMap_cons, append_assoc, bytes, take_append_drop]
    · obtain ⟨rfl, rfl, rfl⟩ := h
      simp

variable {s t : State} {a : Action}

open PipeEnd

theorem exec_notify (s : State) : exec s .notify = some { s with
    endpoint := s.endpoint.notify.1, reports := s.reports ++ s.endpoint.notify.2 } := rfl

theorem exec_read (s : State) (len : BitVec 64) : exec s (.read len) = some { s with
    endpoint := (s.endpoint.read s.issued len).1, issued := s.issued + 1
    reports := s.reports ++
      ((s.endpoint.read s.issued len).2.map fun r => (s.issued, r)).toList } := rfl

theorem read_queued {e : PipeEnd} {len : BitVec 64} (queued : e.mustQueue len) (call : ℕ) :
    e.read call len = ({ e with readQueue := e.readQueue ++ [⟨call, len⟩] }, none) := if_pos queued

theorem read_direct {e : PipeEnd} {len : BitVec 64} (direct : ¬e.mustQueue len) (call : ℕ) :
    e.read call len = ({ e with buffer := (serveDirect e.buffer len).1 },
      some (serveDirect e.buffer len).2) := if_neg direct

theorem copied_initial : Copied initial := ⟨by decide, rfl, rfl⟩

theorem Copied.exec (h : Copied s) (taken : exec s a = some t) : Copied t := by
  obtain ⟨small, order, stream⟩ := h
  cases a with
  | write bytes =>
    obtain ⟨room, ⟨⟩⟩ := ite_none_right_eq_some.mp taken
    exact ⟨by simpa using room, order, by simp only [← append_assoc, stream]⟩
  | notify =>
    rw [exec_notify] at taken
    obtain rfl := some.inj taken
    obtain ⟨calls, bytes, -⟩ := drain_spec s.endpoint.readQueue _ small rfl
    have shorter := congrArg List.length bytes
    rw [length_append] at shorter
    refine ⟨by dsimp only [notify]; omega, ?_, ?_⟩
    · simp only [notify, map_append, append_assoc, ← calls, order]
    · simp only [notify, flatMap_append, append_assoc, bytes, stream]
  | read len =>
    rw [exec_read] at taken
    obtain rfl := some.inj taken
    by_cases queued : s.endpoint.mustQueue len
    · rw [read_queued queued]
      exact ⟨small, by simp [range_succ, ← order], by simpa using stream⟩
    · have idle : s.endpoint.readQueue = [] := by
        simp only [mustQueue, Bool.or_eq_true, not_or] at queued
        simpa using queued.1
      rw [read_direct queued, serveDirect_eq small]
      refine ⟨?_, ?_, ?_⟩
      · simp only [length_drop]
        omega
      · simp [range_succ, ← order, idle]
      · simp [← stream]
  | close =>
    cases taken
    exact ⟨small, order, stream⟩

theorem lookup_of_mem {β : Type*} {l : List (ℕ × β)} (nodup : (l.map Prod.fst).Nodup) {p : ℕ × β}
    (mem : p ∈ l) : l.lookup p.1 = some p.2 := by
  induction l with
  | nil => simp at mem
  | cons q l ih =>
    simp only [map_cons, nodup_cons] at nodup
    rcases mem_cons.1 mem with rfl | h
    · rw [lookup_cons_self]
    · have ne : p.1 ≠ q.1 := fun e => nodup.1 (e ▸ mem_map_of_mem h)
      rw [lookup_cons, beq_eq_false_iff_ne.2 ne]
      exact ih nodup.2 h

/-- Completed reads are numbered in order, so the reports are the reported bytes in issue order. -/
theorem Copied.reported (h : Copied s) : s.reported = s.reports.flatMap fun p => p.2.bytes := by
  have nodup : (s.reports.map Prod.fst ++ s.endpoint.readQueue.map PipeQueuedRead.call).Nodup :=
    h.order ▸ nodup_range
  obtain ⟨once, -, apart⟩ := nodup_append.mp nodup
  have served : ∀ p ∈ s.reports, s.bytesOf p.1 = p.2.bytes := fun p hp => by
    simp [State.bytesOf, lookup_of_mem once hp]
  have unserved : ∀ call ∈ s.endpoint.readQueue.map PipeQueuedRead.call, s.bytesOf call = [] := by
    intro call waits
    have none : s.reports.lookup call = none := by
      rw [lookup_eq_none_iff]
      intro p hp
      simpa using (apart p.1 (mem_map_of_mem hp) call waits).symm
    simp [State.bytesOf, none]
  rw [State.reported, ← h.order, flatMap_append, flatMap_map, flatMap_eq_nil_iff.2 unserved,
    append_nil]
  exact flatMap_congr served

theorem exact_exec (copied : Copied s) (known : ∀ p ∈ s.reports, p.2.Exact) (waits : ReadWaits s a)
    (taken : exec s a = some t) : ∀ p ∈ t.reports, p.2.Exact := by
  cases a with
  | write bytes =>
    obtain ⟨room, ⟨⟩⟩ := ite_none_right_eq_some.mp taken
    exact known
  | notify =>
    rw [exec_notify] at taken
    obtain rfl := some.inj taken
    exact forall_mem_append.mpr ⟨known, (drain_spec s.endpoint.readQueue _ copied.small rfl).2.2⟩
  | read len =>
    rw [exec_read] at taken
    obtain rfl := some.inj taken
    by_cases queued : s.endpoint.mustQueue len
    · rw [read_queued queued]
      simpa using known
    · -- The read is served at once; `waits` leaves only reads that take nothing.
      have none : min s.endpoint.buffer.length len.toNat = 0 := by
        rcases waits with h | h | h
        · exact absurd h queued
        · simp [h]
        · simp [h]
      rw [read_direct queued, serveDirect_eq copied.small, none]
      exact forall_mem_append.mpr ⟨known, forall_mem_singleton.mpr (exact_copied _ 0)⟩
  | close =>
    cases taken
    exact known

theorem Copied.byteStream (copied : Copied s) (known : ∀ p ∈ s.reports, p.2.Exact) :
    ByteStream s := by
  refine ⟨?_, fun p mem => (known p mem).result⟩
  rw [copied.reported, flatMap_congr fun p mem => (known p mem).bytes, copied.stream]

/-- In every run in which each read waits in the queue or takes nothing, the reads report, in the
order they were issued, exactly the bytes written that are not in the buffer any more. -/
theorem byteStream_of_readWaits {s : State} {as : List Action}
    (run : RunWhen ReadWaits exec initial as s) : ByteStream s := by
  obtain ⟨copied, known⟩ := run.invariant (I := fun s => Copied s ∧ ∀ p ∈ s.reports, p.2.Exact)
    (fun _ _ _ h waits taken => ⟨h.1.exec taken, exact_exec h.1 h.2 waits taken⟩)
    ⟨copied_initial, by simp [initial]⟩
  exact copied.byteStream known

theorem byteStream_queued_read : ∃ s : State,
    RunWhen ReadWaits exec initial [.read 2, .write [7, 8, 9], .notify] s ∧
      s.reported = [7, 8] ∧ s.endpoint.buffer = [9] ∧ ByteStream s := by
  have queue : exec initial (.read 2) = some ⟨⟨[⟨0, 2⟩], [], false⟩, 1, [], []⟩ := rfl
  have serve : exec ⟨⟨[⟨0, 2⟩], [7, 8, 9], false⟩, 1, [], [7, 8, 9]⟩ .notify =
      some ⟨⟨[], [9], false⟩, 1, [(0, ⟨[7, 8], 2, 2⟩)], [7, 8, 9]⟩ := by
    simp [exec, notify, drain, serveQueued, clampLen, eraseLoop_eq]
  exact RunWhen.reaches (.cons (.inl rfl) queue (.cons trivial rfl (.cons trivial serve (.nil _))))
    fun run => ⟨rfl, rfl, byteStream_of_readWaits run⟩

/-- A read that finds the bytes it asked for removes them and reports zero: the byte is neither
reported nor buffered any more. -/
theorem not_byteStream_direct_read :
    ¬ ∀ (as : List Action) (s : State), Run exec initial as s → ByteStream s := by
  intro h
  have run : Run exec initial [.write [7], .read 1] ⟨⟨[], [], false⟩, 1, [(0, ⟨[7], 1, 0⟩)], [7]⟩ := by
    refine .cons trivial rfl (.cons trivial ?_ (.nil _))
    simp [exec, PipeEnd.read, mustQueue, initial, serveDirect, clampLen, eraseLoop_eq]
  exact absurd (h _ _ run).1 (by decide)

/-! ## The bytes copied -/

/-- On either path, and whatever the reads report, no byte is lost, copied twice or out of order. -/
theorem copied_of_run {s : State} {as : List Action} (run : Run exec initial as s) : Copied s :=
  run.invariant (fun _ _ _ known _ taken => known.exec taken) copied_initial

/-- The read that reports zero has copied the byte it asked for. -/
theorem copied_direct_read : ∃ s : State, Run exec initial [.write [7], .read 1] s ∧
    s.reports = [(0, ⟨[7], 1, 0⟩)] ∧ Copied s := by
  have direct : exec ⟨⟨[], [7], false⟩, 0, [], [7]⟩ (.read 1) =
      some ⟨⟨[], [], false⟩, 1, [(0, ⟨[7], 1, 0⟩)], [7]⟩ := by
    simp [exec, PipeEnd.read, mustQueue, serveDirect, clampLen, eraseLoop_eq]
  exact RunWhen.reaches (.cons trivial rfl (.cons trivial direct (.nil _))) fun run =>
    ⟨rfl, copied_of_run run⟩

/-! ## End of file -/

/-- What the waiting reads are due: each in turn the front of the buffer, all that it asks for or all
that there is. -/
def answers : List PipeQueuedRead → List UInt8 → List (ℕ × ReadReport)
  | [], _ => []
  | q :: queue, buffer =>
    let n := min buffer.length q.len.toNat
    (q.call, ⟨buffer.take n, n, n⟩) :: answers queue (buffer.drop n)

/-- No read waits, and those that waited in the state `w` have been given what they were due. -/
structure State.Answered (w s : State) : Prop where
  none : s.endpoint.readQueue = []
  all : s.reports.length = s.issued
  served : w.reports ++ answers w.endpoint.readQueue w.endpoint.buffer <+: s.reports

/-- When `Notify` runs behind the end of file, the waiting reads ask for no more than is buffered. -/
def Suffices (s : State) : Action → Prop
  | .notify => s.endpoint.eof →
      (s.endpoint.readQueue.map (·.len.toNat)).sum ≤ s.endpoint.buffer.length
  | _ => True

theorem drain_all (queue : List PipeQueuedRead) (small : buffer.length < 2 ^ 63)
    (enough : (queue.map (·.len.toNat)).sum ≤ buffer.length) :
    (drain queue buffer).1 = [] ∧ (drain queue buffer).2.2 = answers queue buffer := by
  induction queue generalizing buffer with
  | nil => exact ⟨rfl, rfl⟩
  | cons q queue ih =>
    rw [map_cons, sum_cons] at enough
    have first : q.len.toNat ≤ buffer.length := by omega
    have rest := @ih (buffer.drop q.len.toNat)
    rw [length_drop] at rest
    obtain ⟨none, served⟩ := rest (by omega) (by omega)
    simp only [drain, answers, if_pos first, serveQueued_eq small, min_eq_right first, none, served,
      and_self]

theorem eof_exec (eof : s.endpoint.eof) (taken : exec s a = some t) : t.endpoint.eof := by
  cases a with
  | write bytes =>
    obtain ⟨room, ⟨⟩⟩ := ite_none_right_eq_some.mp taken
    exact eof
  | notify =>
    cases taken
    exact eof
  | read len =>
    rw [exec_read] at taken
    obtain rfl := some.inj taken
    by_cases queued : s.endpoint.mustQueue len
    · rwa [read_queued queued]
    · rwa [read_direct queued]
  | close =>
    cases taken
    rfl

theorem queue_nil_exec (eof : s.endpoint.eof) (none : s.endpoint.readQueue = [])
    (taken : exec s a = some t) : t.endpoint.readQueue = [] := by
  cases a with
  | write bytes =>
    obtain ⟨room, ⟨⟩⟩ := ite_none_right_eq_some.mp taken
    exact none
  | notify =>
    cases taken
    simp [none, drain]
  | read len =>
    have direct : ¬s.endpoint.mustQueue len := by simp [mustQueue, none, eof]
    rw [exec_read, read_direct direct] at taken
    obtain rfl := some.inj taken
    exact none
  | close =>
    cases taken
    exact none

theorem reports_exec (taken : exec s a = some t) : s.reports <+: t.reports := by
  cases a with
  | write bytes =>
    obtain ⟨room, ⟨⟩⟩ := ite_none_right_eq_some.mp taken
    exact prefix_rfl
  | notify | read len | close =>
    cases taken
    simp

/-- Where the waiting reads are always content with what is buffered, those that wait when the end of
file is announced are given what they ask for, and none waits afterwards. -/
theorem answered_of_suffices {w s : State} {before between after : List Action}
    (run : RunWhen Suffices exec initial (before ++ .close :: between) w)
    (rest : RunWhen Suffices exec w (.notify :: after) s) : w.Answered s := by
  have copied : Copied w := run.invariant (fun _ _ _ known _ taken => known.exec taken) copied_initial
  have eof : w.endpoint.eof := by
    obtain ⟨opened, -, run⟩ := run.exists_of_append
    obtain ⟨-, closed, close, run⟩ := RunWhen.cons_iff.mp run
    refine run.invariant (fun _ _ _ known _ taken => eof_exec known taken) ?_
    cases close
    rfl
  obtain ⟨enough, notified, notify, last⟩ := RunWhen.cons_iff.mp rest
  obtain ⟨drained, served⟩ := drain_all _ copied.small (enough eof)
  obtain ⟨-, none⟩ := last.invariant (I := fun u => u.endpoint.eof ∧ u.endpoint.readQueue = [])
    (fun _ _ _ known _ taken => ⟨eof_exec known.1 taken, queue_nil_exec known.1 known.2 taken⟩)
    ⟨eof_exec eof notify, by cases notify; exact drained⟩
  have done : Copied s := last.invariant (fun _ _ _ known _ taken => known.exec taken)
    (copied.exec notify)
  refine ⟨none, by simpa [none] using congrArg List.length done.order, ?_⟩
  refine last.invariant (I := fun u => _ <+: u.reports)
    (fun _ _ _ known _ taken => known.trans (reports_exec taken)) ?_
  cases notify
  exact served ▸ prefix_rfl

/-- The reads behind the end of file get what is there. -/
theorem answered_two_reads : ∃ w s : State,
    RunWhen Suffices exec initial ([.read 1, .read 1] ++ .close :: [.write [7, 8]]) w ∧
      RunWhen Suffices exec w (.notify :: [.read 5]) s ∧
      s.reports = [(0, ⟨[7], 1, 1⟩), (1, ⟨[8], 1, 1⟩), (2, ⟨[], 0, 0⟩)] ∧ w.Answered s := by
  have serve : exec ⟨⟨[⟨0, 1⟩, ⟨1, 1⟩], [7, 8], true⟩, 2, [], [7, 8]⟩ .notify =
      some ⟨⟨[], [], true⟩, 2, [(0, ⟨[7], 1, 1⟩), (1, ⟨[8], 1, 1⟩)], [7, 8]⟩ := by
    simp [exec_notify, notify, drain, serveQueued, clampLen, eraseLoop_eq]
  have late : exec ⟨⟨[], [], true⟩, 2, [(0, ⟨[7], 1, 1⟩), (1, ⟨[8], 1, 1⟩)], [7, 8]⟩ (.read 5) =
      some ⟨⟨[], [], true⟩, 3, [(0, ⟨[7], 1, 1⟩), (1, ⟨[8], 1, 1⟩), (2, ⟨[], 0, 0⟩)], [7, 8]⟩ := by
    rw [exec_read, read_direct (by decide)]
    simp [serveDirect, clampLen, eraseLoop_eq]
  have run : RunWhen Suffices exec initial ([.read 1, .read 1] ++ .close :: [.write [7, 8]]) _ :=
    .cons trivial rfl (.cons trivial rfl (.cons trivial rfl (.cons trivial rfl (.nil _))))
  have rest : RunWhen Suffices exec ⟨⟨[⟨0, 1⟩, ⟨1, 1⟩], [7, 8], true⟩, 2, [], [7, 8]⟩
      (.notify :: [.read 5]) _ := .cons (fun _ => by decide) serve (.cons trivial late (.nil _))
  exact ⟨_, _, run, rest, rfl, answered_of_suffices run rest⟩

/-- A read that asks for two bytes waits for ever when the end of file comes behind one. -/
theorem not_answered_short : ∃ w s : State,
    Run exec initial ([.read 2, .write [7], .notify] ++ .close :: []) w ∧
      Run exec w (.notify :: []) s ∧ s.endpoint.readQueue = [⟨0, 2⟩] ∧ ¬w.Answered s := by
  refine ⟨⟨⟨[⟨0, 2⟩], [7], true⟩, 1, [], [7]⟩, ⟨⟨[⟨0, 2⟩], [7], true⟩, 1, [], [7]⟩, .of_foldlM rfl,
    .of_foldlM rfl, rfl, fun answered => ?_⟩
  cases answered.none

end JeoKernel.Pipe

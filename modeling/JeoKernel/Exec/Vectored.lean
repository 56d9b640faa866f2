import Mathlib.Algebra.Order.BigOperators.Group.List
import Mathlib.Algebra.Order.Ring.Int
import JeoKernel.Lib.Machine

/-!
# `readv` and `writev`

Both calls resolve the user's `iovec` array and, in the callback for it, go through the array twice:
the first loop makes a `kiovec` for each entry, the second one resolves the buffer of each entry that is
not empty.  A buffer is resolved at once or, after a page fault, on another thread; the callback for
the last one starts the transfer.  `writev` then writes all entries; `readv` queues a function that
reads one entry each time it runs.

The array stays in user memory and is read again in the second loop and in the callbacks.  A step is one
round of a loop, one callback, a call of the handler, its late answer, or what the queued function does
behind the call.
-/

namespace JeoKernel.Vectored

/-! ## The code -/

inductive Kind where
  | readv
  | writev
  deriving DecidableEq

/-- `iovec` -/
structure Entry where
  base : ℕ
  len : ℕ
  deriving DecidableEq

/-- `resolve_return_value` -/
inductive Ret where
  | value (result : ℤ)
  | async
  | none
  deriving DecidableEq

/-- What a pointer leads to: a user address, and the bytes that are mapped from there on. -/
structure Buffer where
  addr : ℕ
  room : ℕ
  deriving DecidableEq

structure Kiovec where
  /-- The size that `vm` was made with. -/
  size : ℕ
  /-- `iov_base`, where a user buffer is mapped. -/
  buffer : Option Buffer
  /-- The length for which the buffer was resolved. -/
  resolved : ℕ
  len : ℕ
  deriving DecidableEq

structure Call where
  index : ℕ
  buffer : Option Buffer
  resolved : ℕ
  len : ℕ
  result : Option ℤ
  deriving DecidableEq

/-- What becomes of a buffer: its pages are there, or they are not; for `writev` a page may be gone
when it is mapped. -/
inductive Page where
  | present
  | invalid
  | gone
  deriving DecidableEq

inductive Place where
  | start
  /-- The first loop. -/
  | creating (i : ℕ)
  /-- The second loop. -/
  | resolving (i : ℕ)
  /-- In `NestedWrite` or `resolve_read`, with the values that were read from the array. -/
  | nested (i base len : ℕ)
  | done
  deriving DecidableEq

/-- A buffer that waits for a page fault. -/
structure Waiting where
  index : ℕ
  base : ℕ
  len : ℕ
  deriving DecidableEq

inductive Worker where
  | idle
  | queued
  /-- Behind the call of the handler. -/
  | checking
  deriving DecidableEq

structure State where
  /-- The array in user memory. -/
  iov : List Entry
  /-- `is_async` of the call context; for `writev` the flag that the callback got. -/
  isAsync : Bool
  nestedAsync : Bool
  place : Place
  iovecs : List Kiovec
  remaining : ℤ
  failed : Bool
  waiting : List Waiting
  worker : Worker
  queue : List ℕ
  totlen : ℕ
  calls : List Call
  answers : List ℤ

inductive Action where
  /-- The callback for the array is called; `late` is after a page fault. -/
  | array (success late : Bool)
  | create
  | resolve
  /-- A buffer waits for a page fault. -/
  | late
  /-- A buffer is resolved at once.  The counts are what `write` will return for each entry. -/
  | now (page : Page) (counts : ℕ → ℤ)
  | complete (k : ℕ) (page : Page) (counts : ℕ → ℤ)
  /-- `processNext` reads an entry; the handler answers at once or not. -/
  | process (response : Option ℤ)
  /-- `processNext` looks for more entries. -/
  | check
  /-- The handler answers a `read` later. -/
  | reply (j : ℕ) (result : ℤ)
  /-- Another thread of the process stores to the array. -/
  | store (i : ℕ) (entry : Entry)

def eFault : ℤ := -14

def eNoMem : ℤ := -12

def pageSize : ℕ := 4096

def offset (ptr : ℕ) : ℕ := ptr % pageSize

def npages (size : ℕ) : ℕ := (size + pageSize - 1) / pageSize

def Ret.result : Ret → ℤ
  | .value result => result
  | _ => 0

namespace State

/-- The call.  `is_async` of a new call context is not initialised. -/
def start (kind : Kind) (iov : List Entry) (stale : Bool) : State where
  iov := iov
  isAsync := decide (kind = .readv) && stale
  nestedAsync := false
  place := .start
  iovecs := []
  remaining := iov.length
  failed := false
  waiting := []
  worker := .idle
  queue := []
  totlen := 0
  calls := []
  answers := []

def entry (s : State) (i : ℕ) : Entry := s.iov.getD i ⟨0, 0⟩

def kiovec (s : State) (i : ℕ) : Kiovec := s.iovecs.getD i ⟨0, none, 0, 0⟩

def answer (s : State) (result : ℤ) : State := { s with answers := s.answers ++ [result] }

def handed (s : State) (i : ℕ) (result : Option ℤ) : Call :=
  ⟨i, (s.kiovec i).buffer, (s.kiovec i).resolved, (s.kiovec i).len, result⟩

/-- `processNext` is made and queued. -/
def enqueue (s : State) : State := { s with queue := List.range s.iov.length, worker := .queued }

/-- The `kiovec` of a buffer of `readv`; the length is read again. -/
def readIovec (s : State) (i base len : ℕ) : Kiovec :=
  { s.kiovec i with buffer := some ⟨base, len⟩, resolved := len, len := (s.entry i).len }

/-- The `kiovec` of a buffer of `writev`; the whole entry is read again. -/
def writeIovec (s : State) (i len : ℕ) : Kiovec :=
  let base := (s.entry i).base
  { s.kiovec i with
    buffer := some ⟨base, npages (s.kiovec i).size * pageSize - offset base⟩
    resolved := len
    len := (s.entry i).len }

def resolvedOne (s : State) (i : ℕ) (iovec : Kiovec) : State :=
  { s with remaining := s.remaining - 1, iovecs := s.iovecs.set i iovec }

/-- The callback for a buffer of `readv`, or its fault function. -/
def onRead (s : State) (i base len : ℕ) : Page → Ret × State
  | .present =>
    if s.failed then (.none, s)
    else
      let s := s.resolvedOne i (s.readIovec i base len)
      if s.remaining = 0 then (.async, s.enqueue) else (.none, s)
  | _ => (.value eFault, { s with failed := true })

/-- The loop that writes all entries.  The result of `write` is not used. -/
def writeAll (s : State) (counts : ℕ → ℤ) : State :=
  { s with calls := (List.range s.iov.length).map fun i => s.handed i (some (counts i)) }

/-- The callback for a buffer of `writev`. -/
def onWrite (s : State) (i len : ℕ) (counts : ℕ → ℤ) (page : Page) : Ret × State :=
  if s.failed then (.none, s)
  else match page with
    | .invalid => (.value eFault, { s with failed := true })
    | .gone => (.value eFault, { s with remaining := s.remaining - 1, failed := true })
    | .present =>
      let s := s.resolvedOne i (s.writeIovec i len)
      if s.remaining = 0 then
        (.value (((List.range s.iov.length).map fun i => (s.kiovec i).len).sum : ℕ),
          s.writeAll counts)
      else (.none, s)

def callback (kind : Kind) (s : State) (i base len : ℕ) (page : Page) (counts : ℕ → ℤ) :
    Ret × State :=
  match kind with
  | .readv => s.onRead i base len page
  | .writev => s.onWrite i len counts page

/-- `resolve_read` with what the callback has returned: an asynchronous call is answered unless the
callback returns `AsyncReturn`. -/
def settle (async : Bool) (r : Ret × State) : Ret × State :=
  if async ∧ r.1 ≠ .async then (.async, r.2.answer r.1.result) else r

/-- The second loop goes on, or returns a value. -/
def next (i : ℕ) (r : Ret × State) : State :=
  match r.1 with
  | .value result => { r.2.answer result with place := .done }
  | .async => { r.2 with nestedAsync := true, place := .resolving (i + 1) }
  | .none => { r.2 with place := .resolving (i + 1) }

/-- The filter that `readv` puts on the handler's answer. -/
def filter (s : State) (len : ℕ) (result : ℤ) : State :=
  if 0 ≤ result then
    { s with
      totlen := s.totlen + result.toNat
      queue := if result < len then [] else s.queue }
  else if s.totlen = 0 then { s.answer result with queue := [], failed := true }
  else { s with queue := [] }

/-- `processNext` up to the answer of the handler.  No handler transfers more than it was asked for, and
all of them together less than 2^63 bytes. -/
def process (s : State) (response : Option ℤ) : Option State :=
  match s.queue with
  | [] => some { s with worker := .checking }
  | i :: queue =>
    let s' := { s with
      queue := queue, calls := s.calls ++ [s.handed i response], worker := .checking }
    match response with
    | none => some s'
    | some result =>
      if result ≤ (s.kiovec i).len ∧ s.totlen + result.toNat < 2 ^ 63 then
        some (s'.filter (s.kiovec i).len result)
      else none

/-- The end of `processNext`. -/
def check (s : State) : State :=
  if s.queue = [] then
    if s.failed then { s with worker := .idle } else { s.answer s.totlen with worker := .idle }
  else { s with worker := .queued }

def exec (kind : Kind) (s : State) : Action → Option State
  | .array success late =>
    if s.place = .start then
      if success then
        some { s with
          isAsync := late || s.isAsync
          nestedAsync := late || s.isAsync
          place := .creating 0 }
      else some { s.answer eFault with place := .done }
    else none
  | .create =>
    match s.place with
    | .creating i =>
      if i < s.iov.length then
        let e := s.entry i
        some { s with
          iovecs := s.iovecs ++ [⟨offset e.base + e.len, none, 0, e.len⟩]
          remaining := if e.len = 0 then s.remaining - 1 else s.remaining
          place := .creating (i + 1) }
      else if s.remaining = 0 then some { s.answer 0 with place := .done }
      else some { s with place := .resolving 0 }
    | _ => none
  | .resolve =>
    match s.place with
    | .resolving i =>
      if i < s.iov.length then
        if (s.entry i).len = 0 then some { s with place := .resolving (i + 1) }
        else some { s with place := .nested i (s.entry i).base (s.entry i).len }
      else if kind = .readv ∨ s.nestedAsync then some { s with place := .done }
      else some { s.answer eNoMem with place := .done }
    | _ => none
  | .late =>
    match s.place with
    | .nested i base len =>
      some { s with
        waiting := s.waiting ++ [⟨i, base, len⟩]
        nestedAsync := true
        place := .resolving (i + 1) }
    | _ => none
  | .now page counts =>
    match s.place with
    | .nested i base len =>
      some (next i (settle s.isAsync (s.callback kind i base len page counts)))
    | _ => none
  | .complete k page counts =>
    match s.waiting[k]? with
    | some w =>
      let s := { s with
        waiting := s.waiting.eraseIdx k
        isAsync := s.isAsync || decide (kind = Kind.readv) }
      some (settle true (s.callback kind w.index w.base w.len page counts)).2
    | none => none
  | .process response => if s.worker = .queued then s.process response else none
  | .check => if s.worker = .checking then some s.check else none
  | .reply j result =>
    match s.calls[j]? with
    | some c =>
      if c.result = none ∧ result ≤ c.len ∧ s.totlen + result.toNat < 2 ^ 63 then
        some ({ s with calls := s.calls.set j { c with result := some result } }.filter c.len result)
      else none
    | none => none
  | .store i e => some { s with iov := s.iov.set i e }

end State

/-! ## One transfer -/

def transferred (calls : List Call) : ℤ := (calls.map fun c => max 0 (c.result.getD 0)).sum

structure State.Finished (s : State) : Prop where
  done : s.place = .done
  waiting : s.waiting = []
  worker : s.worker = .idle
  replied : ∀ c ∈ s.calls, c.result.isSome = true

structure State.Sound (s : State) : Prop where
  once : s.answers.length ≤ 1
  /-- The entries are taken in array order. -/
  order : s.calls.map Call.index = List.range s.calls.length
  lens : ∀ c ∈ s.calls, c.len = (s.entry c.index).len
  full : ∀ c ∈ s.calls.dropLast, c.result = some (c.len : ℤ)
  truthful : ∀ a ∈ s.answers, (∀ c ∈ s.calls, c.result.isSome = true) ∧
    (a < 0 ∧ transferred s.calls = 0 ∨ a = transferred s.calls)
  answered : s.Finished → s.answers ≠ []

/-- The callback for a buffer runs in good order: once the call has failed, and while other buffers are
outstanding, only in a call that is not asynchronous. -/
structure State.Quiet (kind : Kind) (s : State) (async : Bool) (page : Page) : Prop where
  failed : s.failed = true → async = false ∧ (kind = .writev ∨ page = .present)
  outstanding : page = .present → s.remaining ≠ 1 → async = false

/-- If this is the last buffer, `write` transfers every entry in full. -/
def State.WritesFull (kind : Kind) (s : State) (counts : ℕ → ℤ) : Prop :=
  kind = .writev → s.remaining = 1 → ∀ i < s.iov.length, counts i = (s.entry i).len

/-- The steps for which the calls keep what they promise. -/
def State.Orderly (kind : Kind) (s : State) : Action → Prop
  | .now page counts => s.Quiet kind s.isAsync page ∧ s.WritesFull kind counts
  | .complete _ page counts => s.Quiet kind true page ∧ s.WritesFull kind counts
  | .process _ => ∀ c ∈ s.calls, c.result.isSome = true
  | .check => s.queue = [] → ∀ c ∈ s.calls, c.result.isSome = true
  | .store _ _ => False
  | _ => True

end JeoKernel.Vectored

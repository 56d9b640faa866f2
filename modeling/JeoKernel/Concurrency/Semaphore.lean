import Mathlib.Algebra.Ring.Int.Defs
import JeoKernel.Lib.Ledger
import JeoKernel.Lib.Machine

/-!
# The semaphore

A `raw_semaphore` is a counter of tickets, `cacheline[0]`, and a limit, `cacheline[1]`: a task may
pass once the limit has reached its ticket.  The counters are kept here as integers that do not wrap
around; what the code reads is their value modulo 2^32.  A task that may not pass registers a
`task_semaphore_handler` with the scheduler and marks itself blocked.  `release` increments the limit
and sends an event with it; `release_from_event`, which runs inside an event handler, leaves the
event to the next call of `event`.

Each atomic instruction is one step, and so is each call of the scheduler, which has a lock of its
own.  The calls of `release` are kept apart from the tasks, since interrupts make them too.

The x86 code of `try_acquire_ticket` starts with `mov %1, %rax`, where `%1` is an operand for output
only: the compiler need not have put the ticket there.  The word that is found in it is part of the
action.
-/

namespace JeoKernel.Semaphore

open List Option Machine Ledger RunWhen

def word (n : ℤ) : ℤ := n % 2 ^ 32

/-! ## The code -/

/-- The two sources of `raw_semaphore.cpp`. -/
inductive Arch where
  | x86
  | aarch
  deriving DecidableEq

inductive AcquireStep where
  | check
  | addHandler
  /-- The second check, behind `add_task_event_handler`. -/
  | recheck
  | setBlocked
  /-- The third check, behind `set_blocked("semaacq", true)`. -/
  | lastCheck
  | clearBlocked
  /-- The check in `while (true)`. -/
  | wait
  /-- `event(TASK_EVENT_CLEAR_WAIT_SEMAPHORE, this, current_tic)` -/
  | clearWait
  | leave
  deriving DecidableEq

/-- What a task in `try_acquire` does next, with what it has read. -/
inductive TryStep where
  | readLimit
  | readTicket (limit : ℤ)
  | exchange (limit current : ℤ)
  deriving DecidableEq

inductive Place where
  | idle
  | inAcquire (step : AcquireStep) (ticket : ℤ)
  | inTryAcquire (step : TryStep)
  deriving DecidableEq

structure Task where
  place : Place
  blocked : Bool
  handlers : List ℤ
  deriving DecidableEq

/-- The semaphore, the number of calls of `acquire` and `try_acquire` that have succeeded and of
releases that have started, the events that calls of `release` and `release_from_event` have still to
pass on, and `events_in_event`. -/
structure State where
  tickets : ℤ
  limit : ℤ
  succeeded : ℕ
  released : ℕ
  tasks : List Task
  releases : List ℤ
  inEvent : List ℤ
  queue : List ℤ
  deriving DecidableEq

def State.new (count : ℤ) (n : ℕ) : State :=
  ⟨0, count, 0, 0, replicate n ⟨.idle, false, []⟩, [], [], []⟩

/-- `ticket_lim - current_tic` -/
def diff (limit ticket : ℤ) : ℤ := word (word limit - word ticket)

/-- The handlers of a task receive `TASK_EVENT_SEMAPHORE`. -/
def Task.event (a : Task) (ticket : ℤ) : Task where
  place := a.place
  blocked := a.blocked && !a.handlers.contains (word ticket)
  handlers := a.handlers.filter (· ≠ word ticket)

/-- A call of `event`: the event itself, then those in `events_in_event`. -/
def State.event (s : State) (events : List ℤ) : State :=
  { s with tasks := s.tasks.map ((events ++ s.queue).foldl Task.event), queue := [] }

/-- The next step of a task in `acquire`.  On x86 a task that is blocked does not run in the loop;
on aarch64 it does not ask for a task switch. -/
def Task.acquireStep (arch : Arch) (a : Task) (limit ticket : ℤ) : AcquireStep → Option Task
  | .check =>
    some { a with
      place := .inAcquire (if diff limit ticket ≥ 2 ^ 31 then .addHandler else .leave) ticket }
  | .addHandler =>
    some { a with place := .inAcquire .recheck ticket, handlers := a.handlers ++ [word ticket] }
  | .recheck =>
    some { a with place := .inAcquire (if diff limit ticket ≥ 2 ^ 31 then .setBlocked else .wait) ticket }
  | .setBlocked => some { a with place := .inAcquire .lastCheck ticket, blocked := true }
  | .lastCheck =>
    some { a with
      place := .inAcquire (if diff limit ticket < 2 ^ 31 then .clearBlocked else .wait) ticket }
  | .clearBlocked => some { a with place := .inAcquire .wait ticket, blocked := false }
  | .wait =>
    if arch = .x86 ∧ a.blocked then none
    else
      some { a with
        place := .inAcquire (if diff limit ticket < 2 ^ 31 then .clearWait else .wait) ticket }
  | .clearWait => some { a with place := .inAcquire .leave ticket, handlers := [] }
  | .leave => some { a with place := .idle }

/-- What a step of `acquire` does beyond the task. -/
def State.afterStep (s : State) : AcquireStep → State
  | .clearWait => s.event []
  | .leave => { s with succeeded := s.succeeded + 1 }
  | _ => s

def State.setTask (s : State) (i : ℕ) (a : Task) : State := { s with tasks := s.tasks.set i a }

/-- Whether the exchange of `try_acquire_ticket(current_tic + 1)` takes place, and what is returned.
The x86 code expects one less than the operand, and compares what it has read back, or the operand,
with the ticket. -/
def exchange : Arch → (tickets current operand : ℤ) → Bool × Bool
  | .x86, tickets, current, operand =>
    let exchanged := word tickets = word (operand - 1)
    (exchanged, word (if exchanged then operand else tickets) = word (current + 1))
  | .aarch, tickets, current, _ => (word tickets = word current, word tickets = word current)

def State.tryAcquireTicket (arch : Arch) (s : State) (i : ℕ) (a : Task) (current operand : ℤ) :
    State :=
  let (exchanged, acquired) := exchange arch s.tickets current operand
  { s.setTask i { a with place := if acquired then .idle else .inTryAcquire .readLimit } with
    tickets := if exchanged then s.tickets + 1 else s.tickets
    succeeded := if acquired then s.succeeded + 1 else s.succeeded }

def State.tryStep (s : State) (i : ℕ) (a : Task) : TryStep → Option State
  | .readLimit => some (s.setTask i { a with place := .inTryAcquire (.readTicket s.limit) })
  | .readTicket limit =>
    if diff limit s.tickets = 0 ∨ diff limit s.tickets ≥ 2 ^ 31 then
      some (s.setTask i { a with place := .idle })
    else some (s.setTask i { a with place := .inTryAcquire (.exchange limit s.tickets) })
  | .exchange .. => none

inductive Action where
  | acquire (i : ℕ)
  | tryAcquire (i : ℕ)
  /-- The next step of a task, other than the exchange. -/
  | step (i : ℕ)
  /-- The exchange, with the word in the operand of the x86 code. -/
  | exchange (i : ℕ) (operand : ℤ)
  /-- `release_ticket` in `release` and in `release_from_event`. -/
  | release
  | releaseFromEvent
  /-- The rest of `release` and of `release_from_event`. -/
  | sendEvent (k : ℕ)
  | queueEvent (k : ℕ)
  /-- A call of `event` for something else. -/
  | otherEvent

def exec (arch : Arch) (s : State) : Action → Option State
  | .acquire i => do
    let a ← s.tasks[i]?
    if a.place = .idle then
      some { s.setTask i { a with place := .inAcquire .check s.tickets } with
        tickets := s.tickets + 1 }
    else none
  | .tryAcquire i => do
    let a ← s.tasks[i]?
    if a.place = .idle then some (s.setTask i { a with place := .inTryAcquire .readLimit }) else none
  | .step i => do
    let a ← s.tasks[i]?
    match a.place with
    | .idle => none
    | .inAcquire step ticket =>
      (a.acquireStep arch s.limit ticket step).map fun a => (s.setTask i a).afterStep step
    | .inTryAcquire step => s.tryStep i a step
  | .exchange i operand => do
    let a ← s.tasks[i]?
    match a.place with
    | .inTryAcquire (.exchange _ current) => some (s.tryAcquireTicket arch i a current operand)
    | _ => none
  | .release =>
    some { s with
      limit := s.limit + 1, released := s.released + 1, releases := s.releases ++ [s.limit + 1] }
  | .releaseFromEvent =>
    some { s with
      limit := s.limit + 1, released := s.released + 1, inEvent := s.inEvent ++ [s.limit + 1] }
  | .sendEvent k => do
    let ticket ← s.releases[k]?
    some (State.event { s with releases := s.releases.eraseIdx k } [ticket])
  | .queueEvent k => do
    let ticket ← s.inEvent[k]?
    some { s with inEvent := s.inEvent.eraseIdx k, queue := s.queue ++ [ticket] }
  | .otherEvent => some (s.event [])

/-! ## What is claimed -/

def Place.numbers : Place → List ℤ
  | .idle => []
  | .inAcquire _ ticket => [ticket]
  | .inTryAcquire .readLimit => []
  | .inTryAcquire (.readTicket limit) => [limit]
  | .inTryAcquire (.exchange limit current) => [limit, current]

def State.numbers (s : State) : List ℤ :=
  s.tickets :: s.limit ::
    (s.tasks.flatMap (·.place.numbers) ++ (s.releases ++ s.inEvent ++ s.queue))

def State.Near (s : State) : Prop := ∀ m ∈ s.numbers, ∀ n ∈ s.numbers, m - n < 2 ^ 31

instance (s : State) : Decidable s.Near :=
  inferInstanceAs (Decidable (∀ m ∈ s.numbers, ∀ n ∈ s.numbers, m - n < 2 ^ 31))

/-- A `try_acquire` that runs alone succeeds where an `acquire` that runs alone passes its first
check. -/
def State.TryAgrees (arch : Arch) (s : State) (i : ℕ) (operand : ℤ) : Prop :=
  (∃ t, Run (exec arch) s [.tryAcquire i, .step i, .step i, .exchange i operand] t ∧
      t.succeeded = s.succeeded + 1) ↔
    ∃ t, Run (exec arch) s [.acquire i, .step i, .step i] t ∧ t.succeeded = s.succeeded + 1

/-- The exchange of the task does not have its ticket in the operand, or finds one ticket more than it
has read. -/
def Task.misreads (s : State) (operand : ℤ) (a : Task) : Bool :=
  match a.place with
  | .inTryAcquire (.exchange _ current) =>
    word operand ≠ word (current + 1) ∨ word s.tickets = word (current + 1)
  | _ => false

/-- The counters are near each other, and on x86 each exchange has its ticket in the operand and is
not overtaken by one ticket. -/
def NoMisread (arch : Arch) (s : State) : Action → Prop
  | .exchange i operand => s.Near ∧ (arch = .x86 → ¬(s.tasks[i]?).any (·.misreads s operand))
  | _ => s.Near

instance (arch : Arch) (s : State) (x : Action) : Decidable (NoMisread arch s x) :=
  match x with
  | .exchange .. | .step .. | .acquire .. | .tryAcquire .. | .release | .releaseFromEvent
  | .sendEvent .. | .queueEvent .. | .otherEvent => by dsimp only [NoMisread]; infer_instance

theorem NoMisread.near {arch : Arch} {s : State} {x : Action} (h : NoMisread arch s x) : s.Near := by
  cases x with
  | exchange i operand => exact h.1
  | _ => exact h

/-! ## Counting tickets -/

def Place.ticket : Place → Option ℤ
  | .inAcquire _ ticket => some ticket
  | _ => none

def outstanding (tasks : List Task) : List ℤ := tasks.flatMap (·.place.ticket.toList)

/-- A task that is about to return from `acquire`, or to take a ticket in `try_acquire`, has seen a
limit that lets it. -/
def Place.Admitted (limit : ℤ) : Place → Prop
  | .inAcquire .clearWait ticket | .inAcquire .leave ticket => ticket ≤ limit
  | .inTryAcquire (.readTicket read) => read ≤ limit
  | .inTryAcquire (.exchange read current) => current < read ∧ read ≤ limit
  | _ => True

/-- Every ticket has been taken by a call that succeeded or is outstanding, and those above the limit
are outstanding. -/
structure Counted (count : ℤ) (s : State) : Prop where
  start : -1 ≤ count
  limit : s.limit = count + s.released
  taken : s.tickets = s.succeeded + (outstanding s.tasks).length
  below : ∀ ticket ∈ outstanding s.tasks, ticket < s.tickets
  nodup : (outstanding s.tasks).Nodup
  above : ∀ ticket, s.limit < ticket → ticket < s.tickets → ticket ∈ outstanding s.tasks
  admitted : ∀ (i : ℕ) (a : Task), s.tasks[i]? = some a → a.place.Admitted s.limit

variable {arch : Arch} {s t : State} {a a' : Task} {i : ℕ} {count limit limit' ticket : ℤ}

theorem diff_lt_iff (lower : limit - ticket < 2 ^ 31) (upper : ticket - limit < 2 ^ 31) :
    diff limit ticket < 2 ^ 31 ↔ ticket ≤ limit := by
  unfold diff word
  omega

theorem word_inj (lower : limit - ticket < 2 ^ 31) (upper : ticket - limit < 2 ^ 31) :
    word limit = word ticket ↔ limit = ticket := by
  unfold word
  omega

open State

theorem State.Near.place (near : s.Near) (at_i : s.tasks[i]? = some a) {m n : ℤ}
    (mem : m ∈ a.place.numbers) (mem' : n ∈ [s.tickets, s.limit]) : m - n < 2 ^ 31 ∧ n - m < 2 ^ 31 := by
  have mem : m ∈ s.numbers := by
    refine mem_cons_of_mem _ (mem_cons_of_mem _ (mem_append_left _ ?_))
    exact mem_flatMap.mpr ⟨a, mem_of_getElem? at_i, mem⟩
  have mem' : n ∈ s.numbers := by
    rcases mem_pair.mp mem' with rfl | rfl <;> simp [numbers]
  exact ⟨near m mem n mem', near n mem' m mem⟩

theorem Place.Admitted.mono {place : Place} (h : place.Admitted limit) (le : limit ≤ limit') :
    place.Admitted limit' := by
  cases place with
  | idle => trivial
  | inAcquire step ticket =>
    cases step with
    | clearWait | leave => exact h.trans le
    | _ => trivial
  | inTryAcquire step =>
    cases step with
    | readLimit => trivial
    | readTicket read => exact h.trans le
    | exchange read current => exact ⟨h.1, h.2.trans le⟩

theorem counted_new (n : ℕ) (start : -1 ≤ count) : Counted count (.new count n) := by
  have none : outstanding (replicate n ⟨.idle, false, []⟩) = [] := by
    simp [outstanding, Place.ticket]
  refine ⟨start, by simp [new], by simp [new, none], by simp [new, none],
    by simp [new, none], fun ticket above below => ?_, fun i a at_i => ?_⟩
  · simp only [new] at above below
    omega
  · obtain rfl := eq_of_mem_replicate (mem_of_getElem? at_i)
    trivial

section

variable (h : Counted count s)

include h

/-- The limit and the tickets that are out bound the calls that have succeeded. -/
theorem Counted.succeeded_le : (s.succeeded : ℤ) ≤ count + 1 + s.released := by
  let late := (range (s.tickets - s.limit - 1).toNat).map fun k : ℕ => s.limit + 1 + k
  have subset : late ⊆ outstanding s.tasks := by
    intro ticket mem
    obtain ⟨k, bound, rfl⟩ := mem_map.mp mem
    have bound := mem_range.mp bound
    exact h.above _ (by omega) (by omega)
  have nodup : late.Nodup := nodup_range.map fun k l same => by simpa using same
  have length := (nodup.subperm subset).length_le
  rw [length_map, length_range] at length
  have limit := h.limit
  have taken := h.taken
  omega

section

variable (at_i : s.tasks[i]? = some a)

include at_i

theorem Counted.move (same : a'.place.ticket = a.place.ticket)
    (admitted : a'.place.Admitted s.limit) : Counted count (s.setTask i a') := by
  obtain ⟨rest, before, after, -⟩ := flatMap_set_perm at_i (·.place.ticket.toList)
  have after := after a'
  rw [same] at after
  have perm : (outstanding (s.tasks.set i a')).Perm (outstanding s.tasks) := after.trans before.symm
  refine ⟨h.start, h.limit, ?_, fun ticket mem => h.below ticket (perm.subset mem),
    perm.nodup_iff.mpr h.nodup, fun ticket above below => perm.symm.subset (h.above ticket above below),
    fun j b at_j => ?_⟩
  · rw [setTask, perm.length_eq]
    exact h.taken
  · rcases getElem?_set_cases at_j with ⟨-, rfl⟩ | ⟨-, at_j⟩
    · exact admitted
    · exact h.admitted j b at_j

theorem Counted.take (none : a.place.ticket = none) :
    Counted count { s.setTask i { a with place := .inAcquire .check s.tickets } with
      tickets := s.tickets + 1 } := by
  obtain ⟨rest, before, after, -⟩ := flatMap_set_perm at_i (·.place.ticket.toList)
  rw [none, toList_none, nil_append] at before
  have perm : (outstanding (s.tasks.set i { a with place := .inAcquire .check s.tickets })).Perm
      (s.tickets :: outstanding s.tasks) := (after _).trans (before.symm.cons _)
  refine ⟨h.start, h.limit, ?_, fun ticket mem => ?_, ?_, fun ticket above below => ?_,
    fun j b at_j => ?_⟩
  · have taken := h.taken
    simp only [setTask, perm.length_eq, length_cons]
    omega
  · rcases mem_cons.mp (perm.subset mem) with rfl | mem
    · exact Int.lt_succ _
    · exact (h.below ticket mem).trans (Int.lt_succ _)
  · exact perm.nodup_iff.mpr (nodup_cons.mpr ⟨fun mem => lt_irrefl _ (h.below _ mem), h.nodup⟩)
  · refine perm.symm.subset (mem_cons.mpr ?_)
    rcases (Int.lt_add_one_iff.mp below).eq_or_lt with last | below
    · exact .inl last
    · exact .inr (h.above ticket above below)
  · rcases getElem?_set_cases at_j with ⟨-, rfl⟩ | ⟨-, at_j⟩
    · trivial
    · exact h.admitted j b at_j

theorem Counted.leave (has : a.place.ticket = some ticket) (reached : ticket ≤ s.limit) :
    Counted count { s.setTask i { a with place := .idle } with succeeded := s.succeeded + 1 } := by
  obtain ⟨rest, before, after, -⟩ := flatMap_set_perm at_i (·.place.ticket.toList)
  rw [has, toList_some, singleton_append] at before
  have perm : (outstanding (s.tasks.set i { a with place := .idle })).Perm rest := after _
  have all : (outstanding s.tasks).Perm (ticket :: rest) := before
  refine ⟨h.start, h.limit, ?_, fun ticket mem => ?_, ?_, fun other above below => ?_,
    fun j b at_j => ?_⟩
  · have taken := h.taken
    have length := all.length_eq
    rw [length_cons] at length
    simp only [setTask, perm.length_eq]
    omega
  · exact h.below ticket (all.symm.subset (mem_cons_of_mem _ (perm.subset mem)))
  · exact perm.nodup_iff.mpr (nodup_cons.mp (all.nodup_iff.mp h.nodup)).2
  · rcases mem_cons.mp (all.subset (h.above other above below)) with rfl | mem
    · exact absurd reached (not_le.mpr above)
    · exact perm.symm.subset mem
  · rcases getElem?_set_cases at_j with ⟨-, rfl⟩ | ⟨-, at_j⟩
    · trivial
    · exact h.admitted j b at_j

theorem Counted.grant (none : a.place.ticket = none) (reached : s.tickets ≤ s.limit) :
    Counted count { s.setTask i { a with place := .idle } with
      tickets := s.tickets + 1, succeeded := s.succeeded + 1 } := by
  have h := h.take at_i none
  have bound := (List.getElem?_eq_some_iff.mp at_i).1
  have left := h.leave (List.getElem?_set_self bound) rfl reached
  simpa [setTask, List.set_set] using left

end

theorem Counted.release {releases inEvent : List ℤ} :
    Counted count { s with
      limit := s.limit + 1, released := s.released + 1, releases := releases, inEvent := inEvent } := by
  have limit := h.limit
  refine ⟨h.start, by simp only; omega, h.taken, h.below, h.nodup, fun ticket above => ?_,
    fun j b at_j => (h.admitted j b at_j).mono (Int.lt_succ _).le⟩
  exact h.above ticket ((Int.lt_succ _).trans above)

end

@[simp]
theorem foldl_event_place (events : List ℤ) (a : Task) :
    (events.foldl Task.event a).place = a.place := by
  induction events generalizing a with
  | nil => rfl
  | cons e events ih => exact ih (a.event e)

theorem Counted.event (h : Counted count s) (events : List ℤ) : Counted count (s.event events) := by
  have same : outstanding (s.event events).tasks = outstanding s.tasks := by
    simp [outstanding, State.event, flatMap_map]
  refine ⟨h.start, h.limit, same ▸ h.taken, same ▸ h.below, same ▸ h.nodup, same ▸ h.above,
    fun j b at_j => ?_⟩
  obtain ⟨a, before, rfl⟩ := map_eq_some_iff.mp ((getElem?_map ..).symm.trans at_j)
  rw [foldl_event_place]
  exact h.admitted j a before

/-- A step of `acquire` keeps the ticket, and passes a check only if the limit has been reached. -/
theorem acquireStep_ticket {step : AcquireStep} (place : a.place = .inAcquire step ticket)
    (near : ticket - limit < 2 ^ 31 ∧ limit - ticket < 2 ^ 31) (before : a.place.Admitted limit)
    (stays : step ≠ .leave) (done : a.acquireStep arch limit ticket step = some a') :
    a'.place.ticket = some ticket ∧ a'.place.Admitted limit := by
  have reached := diff_lt_iff near.2 near.1
  cases step <;> simp only [Task.acquireStep, some.injEq] at done
  case leave => exact absurd rfl stays
  case wait =>
    split_ifs at done with asleep passes
    all_goals
      cases done
      simp_all [Place.ticket, Place.Admitted]
  all_goals
    subst done
    refine ⟨rfl, ?_⟩
    try split_ifs
    all_goals simp_all [Place.Admitted]

/-- With the ticket in the operand and not overtaken, the exchange succeeds where it takes place. -/
theorem exchange_eq {tickets current operand : ℤ}
    (right : arch = .x86 → word operand = word (current + 1) ∧ word tickets ≠ word (current + 1)) :
    Semaphore.exchange arch tickets current operand =
      (decide (word tickets = word current), decide (word tickets = word current)) := by
  cases arch with
  | aarch => rfl
  | x86 =>
    obtain ⟨same, apart⟩ := right rfl
    have expected : word tickets = word (operand - 1) ↔ word tickets = word current := by
      unfold word at *
      omega
    simp only [Semaphore.exchange, Prod.mk.injEq, decide_eq_decide]
    refine ⟨expected, ?_⟩
    split_ifs with taken
    · exact iff_of_true same (expected.mp taken)
    · exact iff_of_false apart (taken <| expected.mpr ·)

theorem Counted.exchange (h : Counted count s) (at_i : s.tasks[i]? = some a) {current operand : ℤ}
    (place : a.place = .inTryAcquire (.exchange limit current)) (near : s.Near)
    (right : arch = .x86 → ¬a.misreads s operand) :
    Counted count (s.tryAcquireTicket arch i a current operand) := by
  have none : a.place.ticket = none := by rw [place]; rfl
  have admitted := h.admitted i a at_i
  rw [place] at admitted
  have close := near.place at_i (m := current) (n := s.tickets) (by simp [place, Place.numbers])
    (by simp)
  rw [tryAcquireTicket, exchange_eq fun x86 => by simpa [Task.misreads, place] using right x86]
  by_cases found : word s.tickets = word current
  · have same := (word_inj close.2 close.1).mp found
    simp only [found, decide_true, if_true]
    exact h.grant at_i none (same ▸ (admitted.1.trans_le admitted.2).le)
  · simp only [found, decide_false, Bool.false_eq_true, if_false]
    exact h.move at_i none.symm trivial

theorem Counted.tryStep (h : Counted count s) (at_i : s.tasks[i]? = some a) {step : TryStep}
    (place : a.place = .inTryAcquire step) (near : s.Near) (taken : s.tryStep i a step = some t) :
    Counted count t := by
  have none : a.place.ticket = none := by rw [place]; rfl
  cases step with
  | readLimit =>
    cases taken
    exact h.move at_i none.symm le_rfl
  | readTicket limit =>
    have admitted := h.admitted i a at_i
    rw [place] at admitted
    have close := near.place at_i (m := limit) (n := s.tickets) (by simp [place, Place.numbers])
      (by simp)
    simp only [State.tryStep] at taken
    split_ifs at taken with refused
    · cases taken
      exact h.move at_i none.symm trivial
    · cases taken
      refine h.move at_i none.symm ⟨?_, admitted⟩
      unfold diff word at refused
      omega
  | exchange limit current => cases taken

theorem Counted.step (s : State) (x : Action) (t : State) (h : Counted count s)
    (reads : NoMisread arch s x) (taken : exec arch s x = some t) : Counted count t := by
  have near := reads.near
  cases x with
  | acquire i =>
    obtain ⟨a, at_i, taken⟩ := bind_eq_some_iff.mp taken
    split_ifs at taken with idle
    cases taken
    exact h.take at_i (by rw [idle]; rfl)
  | tryAcquire i =>
    obtain ⟨a, at_i, taken⟩ := bind_eq_some_iff.mp taken
    split_ifs at taken with idle
    cases taken
    exact h.move at_i (by rw [idle]; rfl) trivial
  | step i =>
    obtain ⟨a, at_i, taken⟩ := bind_eq_some_iff.mp taken
    cases place : a.place with
    | idle => simp [place] at taken
    | inTryAcquire step =>
      rw [place] at taken
      exact h.tryStep at_i place near taken
    | inAcquire step ticket =>
      rw [place] at taken
      obtain ⟨a', done, rfl⟩ := map_eq_some_iff.mp taken
      have has : a.place.ticket = some ticket := by rw [place]; rfl
      have admitted := h.admitted i a at_i
      by_cases returns : step = .leave
      · subst returns
        cases done
        rw [place] at admitted
        exact h.leave at_i has admitted
      · have close := near.place at_i (m := ticket) (n := s.limit) (by simp [place, Place.numbers])
          (by simp)
        obtain ⟨same, admitted⟩ := acquireStep_ticket place close admitted returns done
        have moved := h.move at_i (same.trans has.symm) admitted
        cases step with
        | clearWait => exact moved.event []
        | leave => exact absurd rfl returns
        | _ => exact moved
  | exchange i operand =>
    obtain ⟨a, at_i, taken⟩ := bind_eq_some_iff.mp taken
    split at taken
    · rename_i limit current place
      cases taken
      exact h.exchange at_i place near fun x86 => by simpa [at_i] using reads.2 x86
    · cases taken
  | release | releaseFromEvent =>
    cases taken
    exact h.release
  | sendEvent k =>
    obtain ⟨ticket, at_k, taken⟩ := bind_eq_some_iff.mp taken
    cases taken
    have dropped : Counted count { s with releases := s.releases.eraseIdx k } := { h with }
    exact dropped.event [ticket]
  | queueEvent k =>
    obtain ⟨ticket, at_k, taken⟩ := bind_eq_some_iff.mp taken
    cases taken
    exact { h with }
  | otherEvent =>
    cases taken
    exact h.event []

/-! ## Calls that run alone -/

theorem exchange_alone (tickets operand : ℤ) :
    (Semaphore.exchange arch tickets tickets operand).2 ↔
      (arch = .x86 → word operand = word (tickets + 1)) := by
  cases arch with
  | aarch => simp [Semaphore.exchange]
  | x86 =>
    simp only [Semaphore.exchange, decide_eq_true_eq, forall_const]
    split_ifs <;> unfold word at * <;> omega

section

variable (at_i : s.tasks[i]? = some a)

include at_i

theorem getElem?_set_of_some (b : Task) : (s.tasks.set i b)[i]? = some b :=
  List.getElem?_set_self (List.getElem?_eq_some_iff.mp at_i).1

theorem acquire_alone (idle : a.place = .idle) :
    (∃ t, Run (exec arch) s [.acquire i, .step i, .step i] t ∧ t.succeeded = s.succeeded + 1) ↔
      diff s.limit s.tickets < 0x80000000 := by
  have set_i := getElem?_set_of_some at_i
  by_cases passes : diff s.limit s.tickets < 0x80000000
  · simp [cons_iff, nil_iff, exec, at_i, set_i, idle, setTask, Task.acquireStep,
      afterStep, passes, not_le.mpr passes]
  · simp [cons_iff, nil_iff, exec, at_i, set_i, idle, setTask, Task.acquireStep,
      afterStep, passes, not_lt.mp passes]

theorem tryAcquire_alone (idle : a.place = .idle) (operand : ℤ) :
    (∃ t, Run (exec arch) s [.tryAcquire i, .step i, .step i, .exchange i operand] t ∧
        t.succeeded = s.succeeded + 1) ↔
      ¬(diff s.limit s.tickets = 0 ∨ 0x80000000 ≤ diff s.limit s.tickets) ∧
        (Semaphore.exchange arch s.tickets s.tickets operand).2 := by
  have set_i := getElem?_set_of_some at_i
  by_cases refused : diff s.limit s.tickets = 0 ∨ 0x80000000 ≤ diff s.limit s.tickets
  · simp [cons_iff, nil_iff, exec, at_i, set_i, idle, setTask, tryStep, refused]
  · simp [cons_iff, nil_iff, exec, at_i, set_i, idle, setTask, tryStep, tryAcquireTicket, refused]

/-- `try_acquire` refuses the last ticket that `acquire` lets pass, and the x86 code does not succeed
without the ticket in its operand. -/
theorem tryAgrees_iff (idle : a.place = .idle) (operand : ℤ) :
    s.TryAgrees arch i operand ↔ word s.limit ≠ word s.tickets ∧
      (arch = .x86 → diff s.limit s.tickets < 2 ^ 31 → word operand = word (s.tickets + 1)) := by
  rw [State.TryAgrees, acquire_alone at_i idle, tryAcquire_alone at_i idle, exchange_alone]
  have zero : diff s.limit s.tickets = 0 ↔ word s.limit = word s.tickets := by
    unfold diff word
    omega
  rw [Ne, ← zero, show (2 : ℤ) ^ 31 = 0x80000000 from rfl]
  by_cases passes : diff s.limit s.tickets < 0x80000000
  · simp [passes, not_le.mpr passes]
  · have other : diff s.limit s.tickets ≠ 0 := by omega
    simp [passes, not_lt.mp passes, other]

end

/-- Where each exchange of the x86 code has its ticket in the operand and is not overtaken by one
ticket, the semaphore counts exactly.  `try_acquire` and `acquire` agree unless the limit is the next
ticket, or the operand of the x86 code is another word. -/
theorem counts_of_noMisread {n : ℕ} {actions : List Action} (start : -1 ≤ count)
    (run : RunWhen (NoMisread arch) (exec arch) (.new count n) actions s) :
    (s.succeeded : ℤ) ≤ count + 1 + s.released ∧
      ∀ (i : ℕ) (a : Task), s.tasks[i]? = some a → a.place = .idle → ∀ operand,
        (s.TryAgrees arch i operand ↔ word s.limit ≠ word s.tickets ∧
          (arch = .x86 → diff s.limit s.tickets < 2 ^ 31 → word operand = word (s.tickets + 1))) :=
  ⟨(run.invariant Counted.step (counted_new n start)).succeeded_le,
    fun _ _ at_i idle operand => tryAgrees_iff at_i idle operand⟩

/-- Two calls pass, and a third one waits for a release. -/
theorem counts_three_tasks : ∃ s, RunWhen (NoMisread .x86) (exec .x86) (.new 1 3)
      [.tryAcquire 0, .step 0, .step 0, .exchange 0 1, .acquire 1, .step 1, .step 1, .acquire 2,
        .step 2, .step 2, .step 2, .step 2, .step 2, .release, .sendEvent 0, .step 2, .step 2,
        .step 2] s ∧
    s.succeeded = 3 ∧ s.released = 1 ∧ (s.succeeded : ℤ) ≤ 1 + 1 + s.released ∧
    s.TryAgrees .x86 0 4 := by
  let idle : Task := ⟨.idle, false, []⟩
  refine exists_and (f := id) (v := ⟨3, 2, 3, 1, [idle, idle, idle], [], [], []⟩)
    (by decide +kernel) fun s run reached => ?_
  obtain rfl : s = _ := reached
  obtain ⟨counts, agrees⟩ := counts_of_noMisread (by decide) run
  exact ⟨rfl, rfl, counts, (agrees 0 idle rfl rfl 4).mpr ⟨by decide, fun _ _ => rfl⟩⟩

/-- On x86 a `try_acquire` that another task overtakes by one ticket succeeds without a ticket, and
three calls pass where two may.  On both machines `try_acquire` refuses where `acquire` passes; on x86
it also does so with another word than the ticket in its operand. -/
theorem not_counts_overtaken :
    (∃ s, RunWhen (fun s _ => s.Near) (exec .x86) (.new 1 3)
        [.tryAcquire 0, .step 0, .step 0, .acquire 1, .step 1, .step 1, .exchange 0 1, .acquire 2,
          .step 2, .step 2] s ∧ s.succeeded = 3 ∧ s.released = 0 ∧
      ¬(s.succeeded : ℤ) ≤ 1 + 1 + s.released) ∧
    (∀ arch operand, ¬(State.new 0 1).TryAgrees arch 0 operand) ∧
    ¬(State.new 1 1).TryAgrees .x86 0 0 := by
  let idle : Task := ⟨.idle, false, []⟩
  refine ⟨⟨⟨2, 1, 3, 0, [idle, idle, idle], [], [], []⟩, .of_foldlM (by decide +kernel), rfl, rfl,
    by decide⟩, fun arch operand agrees => ?_, fun agrees => ?_⟩
  · exact ((tryAgrees_iff (a := idle) rfl rfl operand).mp agrees).1 rfl
  · exact absurd (((tryAgrees_iff (a := idle) rfl rfl 0).mp agrees).2 rfl) (by decide)

end JeoKernel.Semaphore

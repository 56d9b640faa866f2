import JeoKernel.Lib.Machine
import JeoKernel.Lib.Tickets

/-!
# The mutex

`std::mutex` is a pair of ticket counters, `cacheline[0]` for the next ticket and `cacheline[1]` for
the current one.  The counters are kept here as the number of increments; what the code reads is
their value modulo 2^32.  A task that finds another current ticket than its own registers a
`task_mutex_handler` with the scheduler and marks itself blocked; `unlock` increments the current
ticket and then sends an event with it to all handlers.

Each atomic instruction is one step, and so is each call of the scheduler, which has a lock of its
own.
-/

namespace JeoKernel.Mutex

open List Option Machine Ledger

def word (n : ℕ) : ℕ := n % 2 ^ 32

/-! ## The code -/

inductive LockStep where
  /-- `if (ticket != current_ticket())` -/
  | check
  | addHandler
  /-- The second check, behind `add_task_event_handler`. -/
  | recheck
  | setBlocked
  /-- The third check, behind `set_blocked("mtxlock", true)`. -/
  | lastCheck
  | clearBlocked
  /-- `while (ticket != current_ticket())` -/
  | wait
  /-- `event(TASK_EVENT_CLEAR_WAIT_MUTEX, 0, 0)` -/
  | clearWait
  /-- The branch of a task that never waited. -/
  | enter
  deriving DecidableEq

inductive Place where
  | idle
  | inLock (step : LockStep) (ticket : ℕ)
  /-- Between `lock` or a successful `try_lock` and `unlock`, with the ticket it has taken. -/
  | holding (ticket : Option ℕ)
  /-- In `unlock`, before it sends the event. -/
  | inUnlock (nextTicket : ℕ)
  /-- In `try_lock`, after it has read the current ticket. -/
  | inTryLock (ticket : ℕ)
  deriving DecidableEq

structure Task where
  place : Place
  blocked : Bool
  handlers : List ℕ
  deriving DecidableEq

structure State where
  next : ℕ
  current : ℕ
  tasks : List Task
  deriving DecidableEq

def State.new (n : ℕ) : State := ⟨0, 0, replicate n ⟨.idle, false, []⟩⟩

/-- The test of `task_mutex_handler::event` for removing the handler. -/
def passes (ticket ticketNumber : ℕ) : Bool :=
  ticket ≥ ticketNumber || (ticketNumber ≥ 0xF8000000 && ticket < 0x08000000)

/-- The handlers of a task receive `TASK_EVENT_MUTEX` for a ticket. -/
def Task.event (ticket : ℕ) (a : Task) : Task where
  place := a.place
  blocked := a.blocked && !a.handlers.contains ticket
  handlers := a.handlers.filter fun ticketNumber => !passes ticket ticketNumber

/-- The next step of a task in `lock`.  A task that is blocked does not run in the loop. -/
def Task.lockStep (a : Task) (current : ℕ) (ticket : ℕ) : LockStep → Option Task
  | .check =>
    some { a with place := .inLock (if word ticket ≠ word current then .addHandler else .enter) ticket }
  | .addHandler =>
    some { a with place := .inLock .recheck ticket, handlers := a.handlers ++ [word ticket] }
  | .recheck =>
    some { a with place := .inLock (if word ticket ≠ word current then .setBlocked else .wait) ticket }
  | .setBlocked => some { a with place := .inLock .lastCheck ticket, blocked := true }
  | .lastCheck =>
    some { a with
      place := .inLock (if word ticket = word current then .clearBlocked else .wait) ticket }
  | .clearBlocked => some { a with place := .inLock .wait ticket, blocked := false }
  | .wait =>
    if a.blocked then none
    else
      some { a with
        place := .inLock (if word ticket ≠ word current then .wait else .clearWait) ticket }
  | .clearWait => some { a with place := .holding (some ticket), handlers := [] }
  | .enter => some { a with place := .holding (some ticket), blocked := false }

def Place.ticket : Place → Option ℕ
  | .inLock _ ticket => some ticket
  | .holding ticket => ticket
  | _ => none

def outstanding (tasks : List Task) : List ℕ := tasks.flatMap (·.place.ticket.toList)

/-- The compare-exchange of `try_acquire_ticket(ticket)`.  Where it fails, the value read back is
compared with the ticket. -/
def State.tryAcquireTicket (s : State) (i : ℕ) (a : Task) (ticket : ℕ) : State :=
  if word s.next = word (ticket + (2 ^ 32 - 1)) then
    { s with next := s.next + 1, tasks := s.tasks.set i { a with place := .holding (some s.next) } }
  else
    { s with
      tasks := s.tasks.set i
        { a with place := if word s.next = ticket then .holding none else .idle } }

inductive Action where
  | lock (i : ℕ)
  | tryLock (i : ℕ)
  | unlock (i : ℕ)
  | step (i : ℕ)

/-- The first step of a call, or the next step of a task.  Fewer than 2^32 tickets are outstanding. -/
def exec (s : State) : Action → Option State
  | .lock i => do
    let a ← s.tasks[i]?
    if a.place = .idle ∧ (outstanding s.tasks).length + 1 < 2 ^ 32 then
      some { s with
        next := s.next + 1
        tasks := s.tasks.set i { a with place := .inLock .check s.next } }
    else none
  | .tryLock i => do
    let a ← s.tasks[i]?
    if a.place = .idle then
      some { s with tasks := s.tasks.set i { a with place := .inTryLock (word s.current) } }
    else none
  | .unlock i => do
    let a ← s.tasks[i]?
    match a.place with
    | .holding _ =>
      some { s with
        current := s.current + 1
        tasks := s.tasks.set i { a with place := .inUnlock (word (s.current + 1)) } }
    | _ => none
  | .step i => do
    let a ← s.tasks[i]?
    match a.place with
    | .inLock step ticket =>
      (a.lockStep s.current ticket step).map fun a => { s with tasks := s.tasks.set i a }
    | .inUnlock ticket =>
      some { s with tasks := (s.tasks.set i { a with place := .idle }).map (·.event ticket) }
    | .inTryLock ticket => some (s.tryAcquireTicket i a ticket)
    | _ => none

/-! ## What is claimed -/

def Task.Holds (a : Task) : Prop := ∃ ticket, a.place = .holding ticket

/-- At most one task is between a returned `lock` or successful `try_lock` and its `unlock`. -/
def State.Exclusive (s : State) : Prop :=
  ∀ (i j : ℕ) (a b : Task), s.tasks[i]? = some a → s.tasks[j]? = some b → a.Holds → b.Holds → i = j

/-- `try_lock` returns true where the mutex is free and nobody else takes a step. -/
def State.TryFree (s : State) : Prop :=
  outstanding s.tasks = [] → ∀ (i : ℕ) (a : Task), s.tasks[i]? = some a → a.place = .idle →
    ∃ t b, Run exec s [.tryLock i, .step i] t ∧ t.tasks[i]? = some b ∧ b.Holds

/-- The next step of the task is a compare-exchange that finds the next ticket to be the current
one, or is made although the mutex is not free. -/
def Task.misreads (s : State) (a : Task) : Bool :=
  match a.place with
  | .inTryLock ticket =>
    word s.next = ticket ||
      (word s.next = word (ticket + (2 ^ 32 - 1)) && word s.next ≠ word s.current)
  | _ => false

/-- No `try_lock` takes the value that it has read back for its own ticket. -/
def NoMisread (s : State) : Action → Prop
  | .step i => ¬(s.tasks[i]?).any (·.misreads s)
  | _ => True

instance (s : State) (x : Action) : Decidable (NoMisread s x) :=
  match x with
  | .step .. | .lock .. | .tryLock .. | .unlock .. => by dsimp only [NoMisread]; infer_instance

/-! ## Tickets -/

def Place.Owner : Place → Prop
  | .inLock .clearWait _ | .inLock .enter _ | .holding _ => True
  | _ => False

abbrev Ordered (s : State) : Prop :=
  Tickets.Ordered (fun a : Task => a.place.ticket) (fun a => a.place.Owner) (2 ^ 32) s.tasks s.current
    s.next

variable {s t : State} {a b : Task} {i j ticket current : ℕ}

theorem ordered_new (n : ℕ) : Ordered (.new n) := by
  have idle : ∀ a ∈ replicate n (⟨.idle, false, []⟩ : Task), a = ⟨.idle, false, []⟩ :=
    fun a => eq_of_mem_replicate
  refine Tickets.ordered_new (by decide) (fun a mem => ?_) (fun a mem => ?_) 0
  · rw [idle a mem]
    rfl
  · rw [idle a mem]
    exact id

theorem length_outstanding (h : Ordered s) :
    (outstanding s.tasks).length = s.next - s.current :=
  h.tickets.length_eq.trans length_range'

theorem ordered_events (h : Ordered s) : Ordered { s with tasks := s.tasks.map (·.event ticket) } := by
  refine ⟨h.le, h.few, ?_, fun j b at_j owns => ?_⟩
  · rw [flatMap_map]
    exact h.tickets
  · obtain ⟨a, before, rfl⟩ := map_eq_some_iff.mp ((getElem?_map ..).symm.trans at_j)
    exact h.owns j a before owns

/-- A step of `lock` keeps the ticket, and makes the task the owner only if the ticket is the current
one. -/
theorem lockStep_ticket {step : LockStep} {a' : Task}
    (done : a.lockStep current ticket step = some a') :
    a'.place.ticket = some ticket ∧
      (a'.place.Owner → (Place.inLock step ticket).Owner ∨ word ticket = word current) := by
  cases step <;> simp only [Task.lockStep, some.injEq] at done
  case wait =>
    split_ifs at done with asleep other
    all_goals
      cases done
      simp_all [Place.ticket, Place.Owner]
  all_goals
    subst done
    refine ⟨rfl, ?_⟩
    try split_ifs
    all_goals simp_all [Place.Owner]

theorem ordered_step (s : State) (x : Action) (t : State) (h : Ordered s) (reads : NoMisread s x)
    (taken : exec s x = some t) : Ordered t := by
  cases x with
  | lock i =>
    obtain ⟨a, at_i, taken⟩ := bind_eq_some_iff.mp taken
    split_ifs at taken with legal
    cases taken
    have count := length_outstanding h
    exact h.take at_i (by rw [legal.1]; rfl) (by omega) rfl (by simp [Place.Owner])
  | tryLock i =>
    obtain ⟨a, at_i, taken⟩ := bind_eq_some_iff.mp taken
    split_ifs at taken with idle
    cases taken
    exact h.move at_i (by rw [idle]; rfl) (by simp [Place.Owner])
  | unlock i =>
    obtain ⟨a, at_i, taken⟩ := bind_eq_some_iff.mp taken
    cases place : a.place with
    | holding held =>
      rw [place] at taken
      cases taken
      have owns := h.owns i a at_i (by rw [place]; trivial)
      exact h.release at_i owns rfl (by simp [Place.Owner])
    | _ => simp [place] at taken
  | step i =>
    obtain ⟨a, at_i, taken⟩ := bind_eq_some_iff.mp taken
    cases place : a.place with
    | idle | holding => simp [place] at taken
    | inLock step ticket =>
      rw [place] at taken
      obtain ⟨a', done, rfl⟩ := map_eq_some_iff.mp taken
      obtain ⟨same, owner⟩ := lockStep_ticket done
      have has : a.place.ticket = some ticket := by rw [place]; rfl
      refine h.move at_i (same.trans has.symm) fun owns => ?_
      rcases owner owns with before | now
      · exact same.trans (has.symm.trans (h.owns i a at_i (place ▸ before)))
      · rw [same, h.eq_current at_i has now]
    | inUnlock ticket =>
      rw [place] at taken
      cases taken
      have idle : Ordered { s with tasks := s.tasks.set i { a with place := .idle } } :=
        h.move at_i (by rw [place]; rfl) (by simp [Place.Owner])
      exact ordered_events idle
    | inTryLock ticket =>
      rw [place] at taken
      cases taken
      have right : ¬a.misreads s := by simpa [NoMisread, at_i] using reads
      simp only [Task.misreads, place, Bool.or_eq_true, Bool.and_eq_true, decide_eq_true_eq, not_or,
        not_and, not_not] at right
      unfold State.tryAcquireTicket
      split_ifs with found free
      · have free : s.next = s.current := by
          have same := right.2 found
          have le := h.le
          have few := h.few
          unfold word at same
          omega
        exact h.take at_i (by rw [place]; rfl) (by omega) rfl fun _ => free
      · exact absurd free right.1
      · exact h.move at_i (by rw [place]; rfl) (by simp [Place.Owner])

/-! ## Mutual exclusion -/

theorem ordered_exclusive (h : Ordered s) : s.Exclusive := by
  intro i j a b at_i at_j ⟨ticket, holds⟩ ⟨ticket', holds'⟩
  have owns := h.owns i a at_i (by rw [holds]; trivial)
  have owns' := h.owns j b at_j (by rw [holds']; trivial)
  exact h.unique at_i at_j owns owns'

theorem ordered_tryFree (h : Ordered s) : s.TryFree := by
  intro none i a at_i idle
  have free : s.next = s.current := by
    have count := length_outstanding h
    rw [none, length_nil] at count
    have le := h.le
    omega
  have bound := (List.getElem?_eq_some_iff.mp at_i).1
  let trying : Task := { a with place := .inTryLock (word s.current) }
  let read : State := { s with tasks := s.tasks.set i trying }
  have at_i' : read.tasks[i]? = some trying := getElem?_set_self bound
  have fails : ¬word read.next = word (word s.current + (2 ^ 32 - 1)) := by
    simp only [read, free, word]
    omega
  refine ⟨read.tryAcquireTicket i trying (word s.current), { a with place := .holding Option.none },
    .cons (t := read) trivial ?_ (.cons trivial ?_ (.nil _)), ?_, Option.none, rfl⟩
  · simp [exec, at_i, idle, read, trying]
  · simp only [exec, at_i', bind_eq_bind, bind_some]
    rfl
  · unfold State.tryAcquireTicket
    rw [if_neg fails]
    simp [read, trying, bound, free]

end JeoKernel.Mutex

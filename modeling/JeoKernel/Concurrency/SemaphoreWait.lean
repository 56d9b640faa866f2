import JeoKernel.Lib.Waiting
import JeoKernel.Concurrency.Semaphore

/-!
# Tasks that wait for the semaphore

A task blocked in `acquire` is woken by the event for its own ticket and no other, so that event must
not come before the handler is registered, or must be seen by one of the checks behind it.  The
invariant follows each event from the increment of the limit to its delivery.
-/

namespace JeoKernel.Semaphore

open List Option Machine Ledger State Place Waiting

/-! ## What is claimed -/

def State.pending (s : State) : List ℤ := s.releases ++ s.inEvent ++ s.queue

/-- No call is between its steps, and no event is outstanding. -/
def State.Quiet (s : State) : Prop :=
  (∀ a ∈ s.tasks, a.place = .idle ∨ ∃ ticket, a.place = .inAcquire .wait ticket) ∧ s.pending = []

/-- A task that waits is blocked only while the limit has not reached its ticket, and the event for
the ticket will unblock it. -/
def State.WaitsRight (s : State) : Prop :=
  ∀ a ∈ s.tasks, ∀ ticket, a.place = .inAcquire .wait ticket → a.blocked →
    s.limit < ticket ∧ word ticket ∈ a.handlers ∧ ¬(a.event ticket).blocked

/-! ## Waking up -/

def AcquireStep.phase : AcquireStep → Option Phase
  | .recheck | .setBlocked => some .listening
  | .lastCheck => some .blocking
  | .clearBlocked => some .waking
  | .wait => some .waiting
  | _ => none

def Place.call : Place → Option (Phase × ℤ)
  | .inAcquire step ticket => step.phase.map (·, ticket)
  | _ => none

def Task.party (a : Task) : Party ℤ ℤ := ⟨a.place.call, a.blocked, a.handlers⟩

/-- What holds of a task, with the limit and the events that are still to be delivered. -/
def Task.Woken (limit : ℤ) (pending : List ℤ) (a : Task) : Prop :=
  a.party.Woken word (· ≤ limit) (· ∈ pending)

variable {s t : State} {a a' b : Task} {i : ℕ} {limit ticket sent : ℤ} {pending pending' : List ℤ}
  {phase : Phase}

theorem ticket_of_call (call : a.place.call = some (phase, ticket)) :
    a.place.ticket = some ticket := by
  revert call
  cases a.place with
  | inAcquire step ticket' =>
    intro call
    obtain ⟨phase', -, same⟩ := map_eq_some_iff.mp call
    obtain ⟨-, rfl⟩ := Prod.mk.inj same
    rfl
  | idle | inTryAcquire => exact nofun

/-- `acquire` waits by the protocol. -/
theorem acquireStep_step {step : AcquireStep} (place : a.place = .inAcquire step ticket)
    (near : ticket - limit < 2 ^ 31 ∧ limit - ticket < 2 ^ 31)
    (done : a.acquireStep .x86 limit ticket step = some a') :
    Step word (· ≤ limit) a.party a'.party := by
  have reached := diff_lt_iff near.2 near.1
  obtain ⟨here, blocked, handlers⟩ := a
  obtain rfl : here = _ := place
  cases step with
  | check =>
    cases done
    split_ifs
    · exact .outside id
    · exact .outside id
  | addHandler =>
    cases done
    exact .register
  | recheck =>
    cases done
    split_ifs
    · exact .look
    · exact .pass
  | setBlocked =>
    cases done
    exact .block
  | lastCheck =>
    cases done
    split_ifs with passes
    · exact .wake
    · exact .sleep fun due => passes (reached.mpr due)
  | clearBlocked =>
    cases done
    exact .unblock
  | wait =>
    obtain ⟨runs, ⟨⟩⟩ := ite_none_left_eq_some.mp done
    obtain rfl : blocked = false := by simpa using runs
    split_ifs
    · exact .leave
    · exact .spin
  | clearWait | leave =>
    cases done
    exact .outside id

/-- An event wakes the task that waits for it, and leaves the handlers of the tasks alone whose
tickets the limit has not reached. -/
theorem Task.Woken.event (h : a.Woken limit (sent :: pending)) (old : sent ≤ limit)
    (near : ∀ ticket, a.place.ticket = some ticket → word sent = word ticket → sent = ticket) :
    (a.event sent).Woken limit pending := by
  refine Party.Woken.event h (e := word sent) rfl (by simp [party, Task.event]) ?_ ?_
  · intro phase ticket call mem other
    refine mem_filter.mpr ⟨mem, decide_eq_true fun same => ?_⟩
    have same' := near ticket (ticket_of_call call) same.symm
    exact other.elim (absurd same) fun early => early (same' ▸ old)
  · intro ticket _ other waiting
    exact (mem_cons.mp waiting).resolve_left fun same => other (congrArg word same)

theorem Task.Woken.events {events : List ℤ} (h : a.Woken limit (events ++ pending))
    (old : ∀ sent ∈ events, sent ≤ limit)
    (near : ∀ sent ∈ events, ∀ ticket, a.place.ticket = some ticket →
      word sent = word ticket → sent = ticket) :
    (events.foldl Task.event a).Woken limit pending := by
  induction events generalizing a with
  | nil => exact h
  | cons sent events ih =>
    obtain ⟨old, rest⟩ := forall_mem_cons.mp old
    obtain ⟨near, rest'⟩ := forall_mem_cons.mp near
    exact ih (h.event old near) rest rest'

/-- The limit reaches the next ticket, and the event for it is still to be delivered. -/
theorem Task.Woken.release (h : a.Woken limit pending) (more : pending ⊆ pending')
    (added : limit + 1 ∈ pending') : a.Woken (limit + 1) pending' := by
  refine Party.Woken.advance h (fun _ _ _ early reached => early (by omega))
    fun _ ticket _ reached coming => ?_
  rcases reached.lt_or_eq with before | rfl
  · exact more (coming (Int.lt_add_one_iff.mp before))
  · exact added

/-! ## Runs -/

/-- The invariant of runs: every task is right about its event, and no event is ahead of the
limit. -/
structure Awake (s : State) : Prop where
  woken : ∀ (j : ℕ) (b : Task), s.tasks[j]? = some b → b.Woken s.limit s.pending
  old : ∀ sent ∈ s.pending, sent ≤ s.limit

theorem awake_new (count : ℤ) (n : ℕ) : Awake (.new count n) := by
  refine ⟨fun j b at_j => ?_, by simp [pending, new]⟩
  obtain rfl := eq_of_mem_replicate (mem_of_getElem? at_j)
  exact woken_of_outside rfl rfl

theorem Awake.setTask (h : Awake s) (woken : a'.Woken s.limit s.pending) :
    Awake (s.setTask i a') := by
  refine ⟨fun j b at_j => ?_, h.old⟩
  rcases getElem?_set_cases at_j with ⟨-, rfl⟩ | ⟨-, at_j⟩
  · exact woken
  · exact h.woken j b at_j

theorem Awake.release (h : Awake s) {releases inEvent : List ℤ}
    (more : s.pending ⊆ releases ++ inEvent ++ s.queue)
    (only : ∀ sent ∈ releases ++ inEvent ++ s.queue, sent ∈ s.pending ∨ sent = s.limit + 1)
    (added : s.limit + 1 ∈ releases ++ inEvent ++ s.queue) :
    Awake { s with
      limit := s.limit + 1, released := s.released + 1, releases := releases, inEvent := inEvent } := by
  refine ⟨fun j b at_j => (h.woken j b at_j).release more added, fun sent mem => ?_⟩
  rcases only sent mem with mem | rfl
  · exact (h.old sent mem).trans (Int.lt_succ _).le
  · exact le_rfl

/-- Tickets and events are told apart by their low bits. -/
def State.Apart (s : State) : Prop :=
  ∀ sent ∈ s.pending, ∀ (i : ℕ) (a : Task), s.tasks[i]? = some a →
    ∀ ticket, a.place.ticket = some ticket → word sent = word ticket → sent = ticket

theorem State.Near.apart (near : s.Near) : s.Apart := by
  intro sent mem i a at_i ticket has same
  have mem : sent ∈ s.numbers :=
    mem_cons_of_mem _ (mem_cons_of_mem _ (mem_append_right _ mem))
  have mem' : ticket ∈ s.numbers := by
    refine mem_cons_of_mem _ (mem_cons_of_mem _ (mem_append_left _ ?_))
    refine mem_flatMap.mpr ⟨a, mem_of_getElem? at_i, ?_⟩
    cases place : a.place with
    | inAcquire step ticket' =>
      rw [place] at has
      simpa [Place.numbers] using (some.inj has).symm
    | idle | inTryAcquire => simp [place, Place.ticket] at has
  exact (word_inj (near _ mem _ mem') (near _ mem' _ mem)).mp same

theorem State.Apart.setTask (apart : s.Apart) (at_i : s.tasks[i]? = some a)
    (keeps : a'.place.ticket = a.place.ticket) : (s.setTask i a').Apart := by
  intro sent mem j b at_j ticket has
  rcases getElem?_set_cases at_j with ⟨-, rfl⟩ | ⟨-, at_j⟩
  · exact apart sent mem i a at_i ticket (keeps ▸ has)
  · exact apart sent mem j b at_j ticket has

theorem Awake.event (h : Awake s) (apart : s.Apart) {events releases : List ℤ}
    (all : s.pending ⊆ events ++ s.queue ++ (releases ++ s.inEvent))
    (only : events ++ s.queue ++ (releases ++ s.inEvent) ⊆ s.pending) :
    Awake (State.event { s with releases := releases } events) := by
  have rest : pending (State.event { s with releases := releases } events) =
      releases ++ s.inEvent := by simp [pending, State.event]
  have mem : ∀ sent ∈ events ++ s.queue, sent ∈ s.pending :=
    fun sent mem => only (mem_append_left _ mem)
  refine ⟨fun j b at_j => ?_, fun sent left => ?_⟩
  · obtain ⟨a, before, rfl⟩ := map_eq_some_iff.mp ((getElem?_map ..).symm.trans at_j)
    rw [rest]
    have more : a.Woken s.limit _ := Party.Woken.mono (h.woken j a before) fun _ mem => all mem
    exact more.events (fun sent here => h.old sent (mem sent here))
      fun sent here ticket has same => apart sent (mem sent here) j a before ticket has same
  · rw [rest] at left
    exact h.old sent (only (mem_append_right _ left))

theorem Awake.outside (h : Awake s) (at_i : s.tasks[i]? = some a) (call : a.place.call = none)
    (place : Place) (call' : place.call = none) :
    Awake (s.setTask i { a with place := place }) := by
  have awake : a.blocked = false := Party.Woken.awake (h.woken i a at_i) call
  exact h.setTask (woken_of_outside call' awake)

theorem mem_iff_eraseIdx {l : List ℤ} {k : ℕ} (at_k : l[k]? = some ticket) (sent : ℤ) :
    sent ∈ l ↔ sent = ticket ∨ sent ∈ l.eraseIdx k := by
  rw [(perm_eraseIdx at_k).mem_iff, List.mem_cons]

theorem Awake.step (s : State) (x : Action) (t : State) (h : Awake s) (near : s.Near)
    (taken : exec .x86 s x = some t) : Awake t := by
  cases x with
  | acquire i =>
    obtain ⟨a, at_i, taken⟩ := bind_eq_some_iff.mp taken
    split_ifs at taken with idle
    cases taken
    have next := h.outside at_i (by rw [idle]; rfl) (.inAcquire .check s.tickets) rfl
    exact ⟨next.woken, next.old⟩
  | tryAcquire i =>
    obtain ⟨a, at_i, taken⟩ := bind_eq_some_iff.mp taken
    split_ifs at taken with idle
    cases taken
    exact h.outside at_i (by rw [idle]; rfl) _ rfl
  | exchange i operand =>
    obtain ⟨a, at_i, taken⟩ := bind_eq_some_iff.mp taken
    split at taken
    · rename_i limit current place
      cases taken
      have next := h.outside at_i (by rw [place]; rfl)
        (if (Semaphore.exchange .x86 s.tickets current operand).2 then .idle
          else .inTryAcquire .readLimit) (by split_ifs <;> rfl)
      exact ⟨next.woken, next.old⟩
    · cases taken
  | step i =>
    obtain ⟨a, at_i, taken⟩ := bind_eq_some_iff.mp taken
    cases place : a.place with
    | idle => simp [place] at taken
    | inTryAcquire step =>
      rw [place] at taken
      have moved := h.outside at_i (by rw [place]; rfl)
      cases step with
      | readLimit =>
        cases taken
        exact moved _ rfl
      | readTicket limit =>
        simp only [tryStep] at taken
        split_ifs at taken <;> cases taken <;> exact moved _ rfl
      | exchange limit current => cases taken
    | inAcquire step ticket =>
      rw [place] at taken
      obtain ⟨a', done, rfl⟩ := map_eq_some_iff.mp taken
      have close := near.place at_i (m := ticket) (n := s.limit) (by simp [place, Place.numbers])
        (by simp)
      have moved : Awake (s.setTask i a') :=
        h.setTask (Party.Woken.step (h.woken i a at_i) (acquireStep_step place close done))
      cases step with
      | clearWait =>
        cases done
        refine moved.event (near.apart.setTask at_i (by rw [place]; rfl)) (fun sent mem => ?_)
          (fun sent mem => ?_) <;>
          simp only [pending, State.setTask, mem_append, not_mem_nil] at mem ⊢ <;> tauto
      | leave => exact ⟨moved.woken, moved.old⟩
      | _ => exact moved
  | release | releaseFromEvent =>
    cases taken
    refine h.release (fun sent mem => ?_) (fun sent mem => ?_) (by simp) <;>
      simp only [pending, mem_append, mem_singleton] at mem ⊢ <;> tauto
  | sendEvent k =>
    obtain ⟨ticket, at_k, taken⟩ := bind_eq_some_iff.mp taken
    cases taken
    have split := mem_iff_eraseIdx at_k
    refine h.event near.apart (fun sent mem => ?_) (fun sent mem => ?_) <;>
      simp only [pending, mem_append, mem_singleton, split] at mem ⊢ <;> tauto
  | queueEvent k =>
    obtain ⟨ticket, at_k, taken⟩ := bind_eq_some_iff.mp taken
    cases taken
    have split := mem_iff_eraseIdx at_k
    refine ⟨fun j b at_j => Party.Woken.mono (h.woken j b at_j) fun sent mem => ?_,
      fun sent mem => h.old sent ?_⟩ <;>
      simp only [pending, mem_append, mem_singleton, split] at mem ⊢ <;> tauto
  | otherEvent =>
    cases taken
    refine h.event near.apart (fun sent mem => ?_) (fun sent mem => ?_) <;>
      simp only [pending, mem_append, not_mem_nil] at mem ⊢ <;> tauto

/-- No task stays blocked once the limit has reached its ticket and the event has been delivered, and
a task that is blocked will receive its event. -/
theorem waitsRight_of_near {count : ℤ} {n : ℕ} {actions : List Action}
    (run : RunWhen (fun s _ => s.Near) (exec .x86) (.new count n) actions s) (quiet : s.Quiet) :
    s.WaitsRight := by
  have awake := run.invariant Awake.step (awake_new count n)
  intro a mem ticket place blocked
  obtain ⟨i, at_i⟩ := getElem?_of_mem mem
  have call : a.party.call = some (.waiting, ticket) := by
    rw [Task.party, place]
    rfl
  obtain ⟨handler, coming⟩ := Party.Woken.asleep (awake.woken i a at_i) call blocked
  have early : s.limit < ticket := by
    by_contra reached
    have waiting := coming (not_lt.mp reached)
    rw [quiet.2] at waiting
    cases waiting
  have handler : word ticket ∈ a.handlers := handler
  exact ⟨early, handler, by simp [Task.event, handler]⟩

/-- Two tasks wait, and an event handler releases the first of them. -/
theorem waitsRight_second_waiter : ∃ s, RunWhen (fun s _ => s.Near) (exec .x86) (.new (-1) 2)
      [.acquire 0, .step 0, .step 0, .step 0, .step 0, .step 0, .acquire 1, .step 1, .step 1, .step 1,
        .step 1, .step 1, .releaseFromEvent, .queueEvent 0, .otherEvent, .step 0, .step 0, .step 0] s ∧
    s.tasks = [⟨.idle, false, []⟩, ⟨.inAcquire .wait 1, true, [1]⟩] ∧ s.limit = 0 ∧
    s.WaitsRight := by
  refine RunWhen.exists_and (f := id)
    (v := ⟨2, 0, 1, 1, [⟨.idle, false, []⟩, ⟨.inAcquire .wait 1, true, [1]⟩], [], [], []⟩)
    (by decide +kernel) fun s run reached => ?_
  obtain rfl : s = _ := reached
  refine ⟨rfl, rfl, waitsRight_of_near run ⟨?_, rfl⟩⟩
  exact forall_mem_cons.mpr ⟨.inl rfl, forall_mem_singleton.mpr (.inr ⟨1, rfl⟩)⟩

end JeoKernel.Semaphore

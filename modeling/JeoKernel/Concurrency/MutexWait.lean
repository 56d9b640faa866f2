import JeoKernel.Lib.Waiting
import JeoKernel.Concurrency.Mutex

/-!
# Tasks that wait for the mutex

A task blocked in `lock` is woken by its handler alone, so the handler has to stay registered until
the event with the ticket comes.  `task_mutex_handler::event` compares tickets as numbers: once the
counters have wrapped around, the event of a ticket removes the handlers of later ones.
-/

namespace JeoKernel.Mutex

open List Option Machine Ledger Place Waiting

/-! ## What is claimed -/

/-- No call of `lock` or `unlock` is between its steps. -/
def State.Quiet (s : State) : Prop :=
  ∀ a ∈ s.tasks, a.place = .idle ∨ (∃ ticket, a.place = .inLock .wait ticket) ∨ a.Holds

/-- A task that waits is blocked only while another ticket is the current one, and its handler is
registered. -/
def State.WaitsRight (s : State) : Prop :=
  ∀ a ∈ s.tasks, ∀ ticket, a.place = .inLock .wait ticket → a.blocked →
    word ticket ≠ word s.current ∧ word ticket ∈ a.handlers

/-- An event for `ticket` removes no handler but that of the ticket, which is the current one. -/
def State.Announces (s : State) (ticket : ℕ) : Prop :=
  ∀ a ∈ s.tasks, ∀ ticketNumber ∈ a.handlers, passes ticket ticketNumber →
    ticket = ticketNumber ∧ ticketNumber = word s.current

instance (s : State) (ticket : ℕ) : Decidable (s.Announces ticket) :=
  inferInstanceAs (Decidable (∀ a ∈ s.tasks, ∀ ticketNumber ∈ a.handlers, _ → _))

def Place.event : Place → Option ℕ
  | .inUnlock ticket => some ticket
  | _ => none

/-- `lock` and `unlock` are called, and each event removes the handler of its own ticket only. -/
def InOrder (s : State) : Action → Prop
  | .tryLock _ => False
  | .step i => ∀ ticket ∈ (s.tasks[i]?).bind (·.place.event), s.Announces ticket
  | .lock _ | .unlock _ => True

instance (s : State) (x : Action) : Decidable (InOrder s x) :=
  match x with
  | .tryLock .. | .step .. | .lock .. | .unlock .. => by dsimp only [InOrder]; infer_instance

/-! ## Waking up -/

def LockStep.phase : LockStep → Option Phase
  | .recheck | .setBlocked => some .listening
  | .lastCheck => some .blocking
  | .clearBlocked => some .waking
  | .wait => some .waiting
  | _ => none

def Place.call : Place → Option (Phase × ℕ)
  | .inLock step ticket => step.phase.map (·, ticket)
  | _ => none

def Task.party (a : Task) : Party ℕ ℕ := ⟨a.place.call, a.blocked, a.handlers⟩

/-- What holds of a task while `current` is the current ticket; `announced` says that the event for
it is still to be sent. -/
structure Task.Woken (current : ℕ) (announced : Prop) (a : Task) : Prop where
  noTry : ∀ ticket, a.place ≠ .inTryLock ticket
  party : a.party.Woken word (word · = word current) fun _ => announced

variable {s t : State} {a a' b : Task} {i ticket current current' : ℕ}
  {announced announced' : Prop} {phase : Phase}

theorem ticket_of_call (call : a.place.call = some (phase, ticket)) :
    a.place.ticket = some ticket := by
  revert call
  cases a.place with
  | inLock step ticket' =>
    intro call
    obtain ⟨phase', -, same⟩ := map_eq_some_iff.mp call
    obtain ⟨-, rfl⟩ := Prod.mk.inj same
    rfl
  | _ => exact nofun

/-- `lock` waits by the protocol. -/
theorem lockStep_step {step : LockStep} (place : a.place = .inLock step ticket)
    (done : a.lockStep current ticket step = some a') :
    Step word (word · = word current) a.party a'.party := by
  obtain ⟨here, blocked, handlers⟩ := a
  obtain rfl : here = _ := place
  cases step with
  | check =>
    cases done
    split_ifs
    · exact .outside id
    · exact .outside id
  | addHandler =>
    cases done
    exact .register
  | recheck =>
    cases done
    split_ifs
    · exact .look
    · exact .pass
  | setBlocked =>
    cases done
    exact .block
  | lastCheck =>
    cases done
    split_ifs with same
    · exact .wake
    · exact .sleep same
  | clearBlocked =>
    cases done
    exact .unblock
  | wait =>
    obtain ⟨runs, ⟨⟩⟩ := ite_none_left_eq_some.mp done
    obtain rfl : blocked = false := by simpa using runs
    split_ifs
    · exact .spin
    · exact .leave
  | clearWait =>
    cases done
    exact .outside id
  | enter =>
    cases done
    exact .outside nofun

theorem lockStep_noTry {step : LockStep} (done : a.lockStep current ticket step = some a') :
    ∀ ticket, a'.place ≠ .inTryLock ticket := by
  revert done
  fun_cases Task.lockStep a current ticket step with rintro ⟨⟩
  | _ => exact nofun

theorem Task.Woken.mono (h : a.Woken current announced) (still : announced → announced') :
    a.Woken current announced' :=
  ⟨h.noTry, h.party.mono fun _ => still⟩

theorem Task.Woken.outside (h : a.Woken current announced) (call : a.place.call = none)
    {place : Place} (noTry : ∀ ticket, place ≠ .inTryLock ticket) (call' : place.call = none) :
    Task.Woken current' announced' { a with place := place } := by
  have awake : a.blocked = false := h.party.awake call
  exact ⟨noTry, woken_of_outside call' awake⟩

theorem Task.Woken.event (h : a.Woken current announced)
    (own : ∀ ticketNumber ∈ a.handlers, passes ticket ticketNumber →
      ticket = ticketNumber ∧ ticketNumber = word current)
    (still : ticket ≠ word current → announced → announced') :
    (a.event ticket).Woken current announced' := by
  refine ⟨h.noTry, h.party.event (e := ticket) rfl (by simp [Task.party, Task.event]) ?_ ?_⟩
  · intro phase ticket' _ mem other
    refine mem_filter.mpr ⟨mem, ?_⟩
    have only := own _ mem
    simp only [Bool.not_eq_true', Bool.eq_false_iff]
    tauto
  · exact fun _ same other => still fun eq => other (same.trans eq.symm)

/-- The next ticket becomes the current one, and its event is still to be sent. -/
theorem Task.Woken.advance (h : a.Woken current announced)
    (other : ∀ ticket, a.place.ticket = some ticket → word ticket ≠ word current)
    (pending : announced') : a.Woken (current + 1) announced' :=
  ⟨h.noTry, h.party.advance (fun _ ticket call _ => other ticket (ticket_of_call call))
    fun _ _ _ _ _ => pending⟩

/-! ## Runs -/

def State.Pending (s : State) : Prop :=
  ∃ (j : ℕ) (b : Task), s.tasks[j]? = some b ∧ b.place = .inUnlock (word s.current)

structure Awake (s : State) : Prop where
  ordered : Ordered s
  woken : ∀ (j : ℕ) (b : Task), s.tasks[j]? = some b → b.Woken s.current s.Pending

theorem State.Pending.set {next : ℕ} (h : s.Pending) (at_i : s.tasks[i]? = some a)
    (not : ∀ ticket, a.place ≠ .inUnlock ticket) :
    State.Pending ⟨next, s.current, s.tasks.set i a'⟩ := by
  obtain ⟨j, b, at_j, place⟩ := h
  have other : i ≠ j := by
    rintro rfl
    obtain rfl := some.inj (at_i.symm.trans at_j)
    exact not _ place
  exact ⟨j, b, by rw [getElem?_set_ne other, at_j], place⟩

theorem Awake.own {next : ℕ} (h : Awake s) (at_i : s.tasks[i]? = some a)
    (not : ∀ ticket, a.place ≠ .inUnlock ticket) (woken : a'.Woken s.current s.Pending)
    (ordered : Ordered ⟨next, s.current, s.tasks.set i a'⟩) :
    Awake ⟨next, s.current, s.tasks.set i a'⟩ := by
  refine ⟨ordered, fun j b at_j => ?_⟩
  have still : s.Pending → State.Pending ⟨next, s.current, s.tasks.set i a'⟩ :=
    fun pending => pending.set at_i not
  rcases getElem?_set_cases at_j with ⟨-, rfl⟩ | ⟨-, at_j⟩
  · exact woken.mono still
  · exact (h.woken j b at_j).mono still

theorem awake_new (n : ℕ) : Awake (.new n) := by
  refine ⟨ordered_new n, fun j b at_j => ?_⟩
  obtain rfl := eq_of_mem_replicate (mem_of_getElem? at_j)
  exact ⟨nofun, woken_of_outside rfl rfl⟩

theorem Awake.step (s : State) (x : Action) (t : State) (h : Awake s) (inOrder : InOrder s x)
    (taken : exec s x = some t) : Awake t := by
  have reads : NoMisread s x := by
    cases x with
    | step i =>
      cases at_i : s.tasks[i]? with
      | none => simp [NoMisread, at_i]
      | some a =>
        have noTry := (h.woken i a at_i).noTry
        cases place : a.place with
        | inTryLock ticket => exact absurd place (noTry ticket)
        | _ => simp [NoMisread, at_i, Task.misreads, place]
    | _ => trivial
  have ordered := ordered_step s x t h.ordered reads taken
  cases x with
  | tryLock i => exact absurd inOrder id
  | lock i =>
    obtain ⟨a, at_i, taken⟩ := bind_eq_some_iff.mp taken
    split_ifs at taken with legal
    cases taken
    exact h.own at_i (by simp [legal.1])
      ((h.woken i a at_i).outside (by rw [legal.1]; rfl) (by simp) rfl) ordered
  | unlock i =>
    obtain ⟨a, at_i, taken⟩ := bind_eq_some_iff.mp taken
    cases place : a.place with
    | holding held =>
      rw [place] at taken
      cases taken
      have bound := (List.getElem?_eq_some_iff.mp at_i).1
      have owns := h.ordered.owns i a at_i (by rw [place]; trivial)
      refine ⟨ordered, fun j b at_j => ?_⟩
      rcases getElem?_set_cases at_j with ⟨-, rfl⟩ | ⟨other, at_j⟩
      · exact (h.woken i a at_i).outside (by rw [place]; rfl) (by simp) rfl
      · refine (h.woken j b at_j).advance (fun ticket has same => other ?_)
          ⟨i, _, getElem?_set_self bound, rfl⟩
        rw [h.ordered.eq_current at_j has same] at has
        exact h.ordered.unique at_j at_i has owns
    | _ => simp [place] at taken
  | step i =>
    obtain ⟨a, at_i, taken⟩ := bind_eq_some_iff.mp taken
    cases place : a.place with
    | idle | holding => simp [place] at taken
    | inTryLock ticket => exact absurd place ((h.woken i a at_i).noTry ticket)
    | inLock step ticket =>
      rw [place] at taken
      obtain ⟨a', done, rfl⟩ := map_eq_some_iff.mp taken
      exact h.own at_i (by simp [place])
        ⟨lockStep_noTry done, (h.woken i a at_i).party.step (lockStep_step place done)⟩ ordered
    | inUnlock ticket =>
      rw [place] at taken
      cases taken
      have announces : s.Announces ticket := inOrder ticket (by simp [at_i, place, event])
      have still : ticket ≠ word s.current → s.Pending → State.Pending
          { s with tasks := (s.tasks.set i { a with place := .idle }).map (·.event ticket) } := by
        rintro other ⟨j, b, at_j, pending⟩
        have apart : i ≠ j := by
          rintro rfl
          obtain rfl := some.inj (at_i.symm.trans at_j)
          exact other (inUnlock.inj (place.symm.trans pending))
        refine ⟨j, b.event ticket, ?_, pending⟩
        rw [getElem?_map, getElem?_set_ne apart, at_j]
        rfl
      refine ⟨ordered, fun j b at_j => ?_⟩
      obtain ⟨b, before, rfl⟩ := map_eq_some_iff.mp ((getElem?_map ..).symm.trans at_j)
      rcases getElem?_set_cases before with ⟨-, rfl⟩ | ⟨-, at_j⟩
      · have idle : Task.Woken s.current s.Pending { a with place := .idle } :=
          (h.woken i a at_i).outside (by rw [place]; rfl) (by simp) rfl
        exact idle.event (announces a (mem_of_getElem? at_i)) still
      · exact (h.woken j b at_j).event (announces b (mem_of_getElem? at_j)) still

/-- Where every event removes its own handler only, no task stays blocked with the current ticket, or
without a handler. -/
theorem waitsRight_of_inOrder {n : ℕ} {actions : List Action}
    (run : RunWhen InOrder exec (.new n) actions s) (quiet : s.Quiet) : s.WaitsRight := by
  have awake := run.invariant Awake.step (awake_new n)
  intro a mem ticket place blocked
  obtain ⟨i, at_i⟩ := getElem?_of_mem mem
  have call : a.party.call = some (.waiting, ticket) := by
    rw [Task.party, place]
    rfl
  obtain ⟨handler, coming⟩ := (awake.woken i a at_i).party.asleep call blocked
  refine ⟨fun same => ?_, handler⟩
  obtain ⟨j, b, at_j, pending⟩ := coming same
  have := quiet b (mem_of_getElem? at_j)
  simp [pending, Task.Holds] at this

/-- The second of two tasks waits for the first. -/
theorem waitsRight_second : ∃ s, RunWhen InOrder exec (.new 2)
      [.lock 0, .step 0, .step 0, .unlock 0, .step 0, .lock 0, .step 0, .step 0, .lock 1, .step 1,
        .step 1, .step 1, .step 1, .step 1] s ∧
    s.tasks = [⟨.holding (some 1), false, []⟩, ⟨.inLock .wait 2, true, [2]⟩] ∧ s.WaitsRight := by
  refine RunWhen.exists_and (f := State.tasks) (by decide +kernel) fun s run tasks =>
    ⟨tasks, waitsRight_of_inOrder run ?_⟩
  rw [State.Quiet, tasks]
  refine forall_mem_cons.mpr ⟨.inr (.inr ⟨_, rfl⟩), forall_mem_singleton.mpr ?_⟩
  exact .inr (.inl ⟨_, rfl⟩)

def State.freeAt (k : ℕ) : State := { State.new 3 with next := k, current := k }

theorem run_freeAt (k : ℕ) : ∃ actions, Run exec (.new 3) actions (.freeAt k) := by
  induction k with
  | zero => exact ⟨[], .nil _⟩
  | succ k ih =>
    obtain ⟨actions, run⟩ := ih
    refine ⟨actions ++ [.lock 0, .step 0, .step 0, .unlock 0, .step 0], run.append ?_⟩
    let idle : Task := ⟨.idle, false, []⟩
    refine .cons (t := ⟨k + 1, k, [⟨.inLock .check k, false, []⟩, idle, idle]⟩) trivial rfl
      (.cons (t := ⟨k + 1, k, [⟨.inLock .enter k, false, []⟩, idle, idle]⟩) trivial ?_
        (.cons trivial rfl (.cons trivial rfl (.cons trivial rfl (.nil _)))))
    simp [exec, Task.lockStep]

/-- The counters wrap around: the event for ticket 2^32 - 1 removes the handler of ticket 0, and the
task with that ticket stays blocked. -/
theorem not_waitsRight_wrapped : ∃ actions s, Run exec (.new 3) actions s ∧ s.Quiet ∧
    s.tasks = [⟨.idle, false, []⟩, ⟨.inLock .wait (2 ^ 32 - 1), false, []⟩,
      ⟨.inLock .wait (2 ^ 32), true, []⟩] ∧ ¬s.WaitsRight := by
  obtain ⟨actions, before⟩ := run_freeAt (2 ^ 32 - 2)
  have run : Run exec (.freeAt (2 ^ 32 - 2))
      [.lock 0, .step 0, .step 0, .lock 1, .step 1, .step 1, .step 1, .step 1, .step 1, .lock 2,
        .step 2, .step 2, .step 2, .step 2, .step 2, .unlock 0, .step 0]
      ⟨2 ^ 32 + 1, 2 ^ 32 - 1, [⟨.idle, false, []⟩, ⟨.inLock .wait (2 ^ 32 - 1), false, []⟩,
        ⟨.inLock .wait (2 ^ 32), true, []⟩]⟩ :=
    .of_foldlM (by decide +kernel)
  refine ⟨_, _, before.append run, ?_, rfl, fun right => ?_⟩
  · simp only [State.Quiet, forall_mem_cons]
    exact ⟨.inl trivial, .inr (.inl ⟨_, rfl⟩), .inr (.inl ⟨_, rfl⟩), (by simp)⟩
  · have lost := (right ⟨.inLock .wait (2 ^ 32), true, []⟩ (by simp) _ rfl rfl).2
    cases lost

end JeoKernel.Mutex

import JeoKernel.Lib.Machine

/-!
# Deferred work

`blockthread` takes one function before its first `acquire` and one for each permit afterwards;
`SyscallAsyncThread`, which the first call of `Queue` starts, takes all functions for each permit.
A call of `Queue` changes the queue and releases the semaphore under the lock.
-/

namespace JeoKernel.DeferredWork

open List Machine

/-! ## The code -/

inductive Kind where
  | blockthread
  | syscallAsyncThread
  deriving DecidableEq

/-- Where the thread is. -/
inductive Worker (F : Type*) where
  | absent
  | acquire
  /-- It is about to take the lock. -/
  | take
  | run (funcs : List F)
  | left

structure State (F : Type*) where
  queue : List F
  permits : ℕ
  stop : Bool
  worker : Worker F
  /-- A call holds the lock and has not released the semaphore yet. -/
  releasing : Bool
  /-- What has been queued and what has been run. -/
  queued : List F
  ran : List F

variable {F : Type*}

def State.new : Kind → State F
  | .blockthread => ⟨[], 0, false, .take, false, [], []⟩
  | .syscallAsyncThread => ⟨[], 0, false, .absent, false, [], []⟩

/-- What is taken out of the queue, and what is left. -/
def Kind.taken : Kind → List F → List F × List F
  | .blockthread, queue => (queue.take 1, queue.drop 1)
  | .syscallAsyncThread, queue => (queue, [])

def State.work (kind : Kind) (s : State F) : Option (State F) :=
  match s.worker with
  | .absent | .left => none
  | .acquire =>
    if 0 < s.permits then some { s with permits := s.permits - 1, worker := .take } else none
  | .take =>
    if s.releasing then none
    else if s.stop then some { s with worker := .left }
    else
      some { s with queue := (kind.taken s.queue).2, worker := .run (kind.taken s.queue).1 }
  | .run [] => some { s with worker := .acquire }
  | .run (func :: funcs) => some { s with worker := .run funcs, ran := s.ran ++ [func] }

/-- `thr == nullptr && !stop` -/
def Worker.started (stop : Bool) : Worker F → Worker F
  | .absent => if stop then .absent else .acquire
  | worker => worker

inductive Action (F : Type*) where
  | queue (func : F)
  | stop
  /-- The last step of a call that holds the lock. -/
  | release
  | work

/-- `Stop` of a `blockthread` releases the semaphore, the destructor of a `SyscallAsyncThread` does
not. -/
def exec (kind : Kind) (s : State F) : Action F → Option (State F)
  | .queue func =>
    if s.releasing then none
    else some { s with queue := s.queue ++ [func], queued := s.queued ++ [func], releasing := true }
  | .stop =>
    if s.releasing then none
    else some { s with stop := true, releasing := kind = .blockthread }
  | .release =>
    if s.releasing then
      some { s with
        permits := s.permits + 1, releasing := false, worker := s.worker.started s.stop }
    else none
  | .work => s.work kind

/-! ## Permits and functions -/

variable {kind : Kind} {s t : State F}

/-- The permits that the functions in the queue need. -/
def Kind.due : Kind → List F → ℕ
  | .blockthread, queue => queue.length
  | .syscallAsyncThread, queue => min queue.length 1

theorem due_append (kind : Kind) (queue : List F) (func : F) :
    kind.due (queue ++ [func]) ≤ kind.due queue + 1 := by
  cases kind <;> simp only [Kind.due, length_append, length_singleton] <;> omega

theorem due_taken (kind : Kind) (queue : List F) :
    kind.due (kind.taken queue).2 = kind.due queue - 1 := by
  cases kind
  · exact length_drop
  · simp only [Kind.due, Kind.taken, length_nil]
    omega

theorem taken_append (kind : Kind) (queue : List F) :
    (kind.taken queue).1 ++ (kind.taken queue).2 = queue := by
  cases kind
  · exact take_append_drop 1 queue
  · exact append_nil queue

theorem eq_nil_of_due {queue : List F} (none : kind.due queue = 0) : queue = [] := by
  cases kind <;> exact eq_nil_of_length_eq_zero (by simp only [Kind.due] at none; omega)

/-- The functions that the thread has taken and not yet run. -/
def Worker.funcs : Worker F → List F
  | .run funcs => funcs
  | _ => []

/-- A permit that the thread has used and not yet made good. -/
def Worker.permit : Worker F → ℕ
  | .take => 1
  | _ => 0

structure Inv (kind : Kind) (s : State F) : Prop where
  order : s.ran ++ s.worker.funcs ++ s.queue = s.queued
  permits : s.worker ≠ .left → kind.due s.queue ≤ s.permits + s.releasing.toNat + s.worker.permit
  absent : s.worker = .absent → s.stop = false → s.releasing = false → s.queued = []
  left : s.worker = .left → s.stop = true

theorem inv_new (kind : Kind) : Inv kind (.new kind : State F) := by
  cases kind <;> exact ⟨rfl, fun _ => Nat.zero_le _, fun _ _ _ => rfl, by simp [State.new]⟩

theorem Inv.work (inv : Inv kind s) (taken : s.work kind = some t) : Inv kind t := by
  obtain ⟨order, permits, -, -⟩ := inv
  revert taken
  fun_cases State.work kind s with rintro ⟨⟩
  | case3 here some =>
    simp only [here, ne_eq, reduceCtorEq, not_false_eq_true, forall_const, Worker.permit] at *
    exact ⟨order, fun _ => by dsimp only [Worker.permit]; omega, by simp, by simp⟩
  | case6 here _ stopped =>
    rw [here] at order
    exact ⟨order, by simp, by simp, fun _ => stopped⟩
  | case7 here =>
    rw [here] at order permits
    refine ⟨by simpa [Worker.funcs, append_assoc, taken_append] using order, fun _ => ?_, by simp,
      by simp⟩
    have before := permits (by simp)
    simp only [due_taken, Worker.permit] at before ⊢
    omega
  | case8 here =>
    rw [here] at order permits
    exact ⟨order, fun _ => permits (by simp), by simp, by simp⟩
  | case9 func funcs here =>
    rw [here] at order permits
    exact ⟨by simpa [Worker.funcs] using order, fun _ => permits (by simp), by simp, by simp⟩

theorem started_same (stop : Bool) (worker : Worker F) :
    (worker.started stop).funcs = worker.funcs ∧ (worker.started stop).permit = worker.permit ∧
      (worker.started stop = .left ↔ worker = .left) ∧
      (worker.started stop = .absent → stop = true) := by
  cases worker <;> cases stop <;> simp [Worker.started, Worker.funcs, Worker.permit]

theorem Inv.step (s : State F) (a : Action F) (t : State F) (inv : Inv kind s) (_ : True)
    (taken : exec kind s a = some t) : Inv kind t := by
  cases a with
  | queue func =>
    simp only [exec] at taken
    split_ifs at taken with held
    cases taken
    refine ⟨by simp [← inv.order], fun stays => ?_, (by simp), inv.left⟩
    have more := due_append kind s.queue func
    have before := inv.permits stays
    simp only [held, Bool.toNat_true, Bool.toNat_false] at before ⊢
    omega
  | stop =>
    simp only [exec] at taken
    split_ifs at taken with held
    cases taken
    refine ⟨inv.order, fun stays => ?_, (by simp), fun _ => rfl⟩
    have before := inv.permits stays
    simp only [held, Bool.toNat_false] at before ⊢
    omega
  | release =>
    obtain ⟨held, ⟨⟩⟩ := Option.ite_none_right_eq_some.mp taken
    obtain ⟨funcs, permit, left, absent⟩ := started_same s.stop s.worker
    refine ⟨by rw [funcs]; exact inv.order, fun stays => ?_, fun here running => ?_,
      fun here => inv.left (left.mp here)⟩
    · have before := inv.permits fun here => stays (left.mpr here)
      simp only [held, permit, Bool.toNat_true, Bool.toNat_false] at before ⊢
      omega
    · simp [absent here] at running
  | work => exact inv.work taken

/-! ## A thread that is blocked -/

theorem Inv.queue_eq_nil (inv : Inv kind s) (here : s.worker = .acquire) (none : s.permits = 0)
    (free : s.releasing = false) : s.queue = [] := by
  have due := inv.permits (by simp [here])
  rw [here, none, free] at due
  exact eq_nil_of_due (Nat.le_zero.mp due)

/-- A thread that cannot go on has run everything. -/
theorem Inv.ran_eq (inv : Inv kind s) (running : s.stop = false) (free : s.releasing = false)
    (blocked : s.work kind = none) : s.ran = s.queued := by
  have order := inv.order
  revert blocked
  fun_cases State.work kind s with rintro ⟨⟩
  | case1 here =>
    have nothing := inv.absent here running free
    rw [nothing, append_eq_nil_iff, append_eq_nil_iff] at order
    exact order.1.1.trans nothing.symm
  | case2 here => simp [inv.left here] at running
  | case4 here none =>
    simpa [here, Worker.funcs, inv.queue_eq_nil here (by omega) free] using order
  | case5 _ held => simp [held] at free

/-- What was queued has been run, is about to be run or waits, in the order in which it was queued,
and nothing waits when the thread is blocked.  Until it is stopped, there is a thread once something
has been queued, and it can go on unless all of it has been run. -/
theorem runs_in_order {actions : List (Action F)} (run : Run (exec kind) (.new kind) actions s) :
    s.ran ++ s.worker.funcs ++ s.queue = s.queued ∧
      (s.worker = .acquire → s.permits = 0 → s.releasing = false → s.queue = []) ∧
      (s.stop = false → s.releasing = false →
        (s.queued ≠ [] → s.worker ≠ .absent) ∧ (s.work kind = none → s.ran = s.queued)) := by
  have inv := run.invariant Inv.step (inv_new kind)
  refine ⟨inv.order, inv.queue_eq_nil, fun running free => ⟨fun some absent => ?_, ?_⟩⟩
  · exact some (inv.absent absent running free)
  · exact inv.ran_eq running free

/-- The second of two functions is queued while the thread is busy with the first. -/
theorem runs_in_order_two : ∃ s, Run (exec .blockthread) (.new .blockthread)
      [.queue 1, .release, .work, .queue 2, .release, .work, .work] s ∧
    s.ran = [1] ∧ s.ran ++ s.worker.funcs ++ s.queue = [1, 2] ∧ s.worker ≠ .absent := by
  refine RunWhen.exists_and (f := fun s => (s.stop, s.releasing, s.ran, s.queued))
    (v := (false, false, [1], [1, 2])) (by decide) fun s run reached => ?_
  simp only [Prod.mk.injEq] at reached
  obtain ⟨running, free, ran, queued⟩ := reached
  obtain ⟨order, -, goes_on⟩ := runs_in_order run
  exact ⟨ran, order.trans queued, (goes_on running free).1 (by simp [queued])⟩

end JeoKernel.DeferredWork

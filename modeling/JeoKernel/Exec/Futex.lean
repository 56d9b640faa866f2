import Mathlib.Algebra.Order.Ring.Int
import Mathlib.Data.List.Perm.Basic
import Mathlib.Data.List.Range
import JeoKernel.Lib.Machine

/-!
# Futex waiters

`Futex::Wait` puts a waiter into the list and gives the thread a function that aborts the call.  `Wake`
and `WakeAll` take waiters out of the list by process and address; the abort function takes one out by
address, process and thread.  Who has taken a waiter completes a call after the lock is released.

An abort function may run at any time: `CallAbort` copies it under the lock of the process and calls
it later, when its call may be over and the thread may wait again.
-/

namespace JeoKernel.Futex

open List Machine

/-! ## The code -/

/-- `FutexWaiting`; the call that `wakeup` completes is given by its number. -/
structure Waiter where
  call : ℕ
  addr : ℕ
  pid : ℕ
  tid : ℕ
  deriving DecidableEq

def eIntr : ℤ := 4

structure State where
  waiting : List Waiter
  /-- The calls that have waited so far, each with its abort function. -/
  calls : List Waiter
  /-- Completions that are about to be made, with the value. -/
  pending : List (ℕ × ℤ)
  completed : List (ℕ × ℤ)

inductive Action where
  /-- `Wait` finds the value it expects and registers the waiter. -/
  | wait (addr pid tid : ℕ)
  | wakeAll (pid addr : ℕ)
  | wake (pid addr : ℕ) (wakeNum : ℤ)
  /-- The abort function of a call. -/
  | abort (call : ℕ)
  /-- A completion is made outside of the lock. -/
  | complete (k : ℕ)

def takeAll (pid addr : ℕ) : List Waiter → List Waiter × List Waiter
  | [] => ([], [])
  | w :: rest =>
    let r := takeAll pid addr rest
    if w.pid = pid ∧ w.addr = addr then (w :: r.1, r.2) else (r.1, w :: r.2)

def take (pid addr : ℕ) (wakeNum : ℤ) : ℤ → List Waiter → List Waiter × List Waiter
  | _, [] => ([], [])
  | i, w :: rest =>
    if i < wakeNum then
      if w.pid = pid ∧ w.addr = addr then
        let r := take pid addr wakeNum (i + 1) rest
        (w :: r.1, r.2)
      else
        let r := take pid addr wakeNum i rest
        (r.1, w :: r.2)
    else ([], w :: rest)

/-- The loop of the abort function: the list without the waiter, if there is one. -/
def takeOwn (addr pid tid : ℕ) : List Waiter → Option (List Waiter)
  | [] => none
  | w :: rest =>
    if w.addr = addr ∧ w.pid = pid ∧ w.tid = tid then some rest
    else (takeOwn addr pid tid rest).map (w :: ·)

namespace State

def start : State := ⟨[], [], [], []⟩

def awaken (s : State) (r : List Waiter × List Waiter) : State :=
  { s with waiting := r.2, pending := s.pending ++ r.1.map fun w => (w.call, 0) }

def exec (s : State) : Action → Option State
  | .wait addr pid tid =>
    let w : Waiter := ⟨s.calls.length, addr, pid, tid⟩
    some { s with waiting := s.waiting ++ [w], calls := s.calls ++ [w] }
  | .wakeAll pid addr => some (s.awaken (takeAll pid addr s.waiting))
  | .wake pid addr wakeNum => some (s.awaken (take pid addr wakeNum 0 s.waiting))
  | .abort call =>
    match s.calls[call]? with
    | some w =>
      match takeOwn w.addr w.pid w.tid s.waiting with
      | some rest => some { s with waiting := rest, pending := s.pending ++ [(call, -eIntr)] }
      | none => some s
    | none => none
  | .complete k =>
    match s.pending[k]? with
    | some c => some { s with pending := s.pending.eraseIdx k, completed := s.completed ++ [c] }
    | none => none

end State

/-! ## The scans -/

def waitersFor (pid addr : ℕ) (waiting : List Waiter) : List Waiter :=
  waiting.filter fun w => w.pid = pid ∧ w.addr = addr

structure Taken (waiting taken left : List Waiter) : Prop where
  perm : (taken ++ left).Perm waiting
  order : left.Sublist waiting

theorem Taken.cons_taken {w : Waiter} {waiting taken left : List Waiter}
    (h : Taken waiting taken left) : Taken (w :: waiting) (w :: taken) left :=
  ⟨h.perm.cons w, h.order.cons w⟩

theorem Taken.cons_left {w : Waiter} {waiting taken left : List Waiter}
    (h : Taken waiting taken left) : Taken (w :: waiting) taken (w :: left) :=
  ⟨perm_middle.trans (h.perm.cons w), h.order.cons_cons w⟩

theorem takeAll_spec (pid addr : ℕ) (waiting : List Waiter) :
    (takeAll pid addr waiting).1 = waitersFor pid addr waiting ∧
      Taken waiting (takeAll pid addr waiting).1 (takeAll pid addr waiting).2 := by
  induction waiting with
  | nil => exact ⟨rfl, .refl _, .refl _⟩
  | cons w rest ih =>
    obtain ⟨all, taken⟩ := ih
    unfold takeAll
    split_ifs with here
    · exact ⟨by simp [all, waitersFor, here], taken.cons_taken⟩
    · exact ⟨by simp [all, waitersFor, here], taken.cons_left⟩

theorem take_spec (pid addr : ℕ) (wakeNum i : ℤ) (waiting : List Waiter) :
    (take pid addr wakeNum i waiting).1 =
        (waitersFor pid addr waiting).take (wakeNum - i).toNat ∧
      Taken waiting (take pid addr wakeNum i waiting).1 (take pid addr wakeNum i waiting).2 := by
  fun_induction take pid addr wakeNum i waiting with
  | case1 => exact ⟨by simp [waitersFor], .refl _, .refl _⟩
  | case2 i w rest more here r ih =>
    obtain ⟨first, taken⟩ := ih
    have count : (wakeNum - i).toNat = (wakeNum - (i + 1)).toNat + 1 := by omega
    refine ⟨?_, taken.cons_taken⟩
    rw [count]
    simp [r, first, waitersFor, here]
  | case3 i w rest more here r ih =>
    obtain ⟨first, taken⟩ := ih
    exact ⟨by simp [r, first, waitersFor, here], taken.cons_left⟩
  | case4 i w rest more =>
    have none : (wakeNum - i).toNat = 0 := by omega
    exact ⟨by simp [none], .refl _, .refl _⟩

theorem takeOwn_spec {addr pid tid : ℕ} {waiting left : List Waiter}
    (found : takeOwn addr pid tid waiting = some left) :
    ∃ w, w.addr = addr ∧ w.pid = pid ∧ w.tid = tid ∧ Taken waiting [w] left := by
  induction waiting generalizing left with
  | nil => simp [takeOwn] at found
  | cons w rest ih =>
    unfold takeOwn at found
    split_ifs at found with here
    · obtain rfl := Option.some.inj found
      exact ⟨w, here.1, here.2.1, here.2.2, .refl _, (Sublist.refl _).cons w⟩
    · obtain ⟨left', found', rfl⟩ := Option.map_eq_some_iff.mp found
      obtain ⟨v, same_addr, same_pid, same_tid, taken⟩ := ih found'
      exact ⟨v, same_addr, same_pid, same_tid, taken.cons_left⟩

/-! ## Runs -/

def State.done (s : State) : List (ℕ × ℤ) := s.completed ++ s.pending

structure Once (s : State) : Prop where
  calls : (s.done.map Prod.fst ++ s.waiting.map Waiter.call).Perm (range s.calls.length)
  order : (s.waiting.map Waiter.call).Pairwise (· < ·)
  own : ∀ w ∈ s.waiting, s.calls[w.call]? = some w
  values : ∀ c ∈ s.done, c.2 = 0 ∨ c.2 = -eIntr

/-- `Wake` takes the oldest waiters, up to its number, and leaves the others. -/
def State.Wakes (s : State) : Prop :=
  ∀ pid addr wakeNum, ∃ left : List Waiter,
    s.exec (.wake pid addr wakeNum) = some { s with
      waiting := left
      pending := s.pending ++
        ((waitersFor pid addr s.waiting).take wakeNum.toNat).map fun w => (w.call, 0) } ∧
    Taken s.waiting ((waitersFor pid addr s.waiting).take wakeNum.toNat) left

/-- An abort function runs while no other call of its thread waits for the address. -/
def State.Current (s : State) : Action → Prop
  | .abort call => ∀ own ∈ s.calls[call]?, ∀ w ∈ s.waiting,
      w.addr = own.addr → w.pid = own.pid → w.tid = own.tid → w.call = call
  | _ => True

variable {s t : State}

open State

theorem wakes (s : State) : s.Wakes := by
  intro pid addr wakeNum
  obtain ⟨first, taken⟩ := take_spec pid addr wakeNum 0 s.waiting
  rw [sub_zero] at first
  refine ⟨(take pid addr wakeNum 0 s.waiting).2, ?_, first ▸ taken⟩
  rw [exec, awaken, first]

/-- Waiters leave the list, and their calls are about to be completed. -/
theorem Once.taken (once : Once s) {taken left : List Waiter} (h : Taken s.waiting taken left)
    {value : ℤ} (known : value = 0 ∨ value = -eIntr) :
    Once { s with
      waiting := left, pending := s.pending ++ taken.map fun w => (w.call, value) } := by
  refine ⟨?_, ?_, fun w mem => ?_, fun c mem => ?_⟩
  · refine Perm.trans ?_ once.calls
    have same : (s.completed ++ (s.pending ++ taken.map fun w => (w.call, value))).map Prod.fst =
        s.done.map Prod.fst ++ taken.map Waiter.call := by
      simp [done, Function.comp_def]
    rw [done, same, List.append_assoc, ← List.map_append]
    exact (h.perm.map _).append_left _
  · exact once.order.sublist (h.order.map _)
  · exact once.own w (h.order.subset mem)
  · simp only [done, ← List.append_assoc] at mem
    rcases mem_append.mp mem with old | new
    · exact once.values c old
    · obtain ⟨w, -, rfl⟩ := mem_map.mp new
      exact known

theorem Once.wait (once : Once s) (addr pid tid : ℕ) :
    Once { s with
      waiting := s.waiting ++ [⟨s.calls.length, addr, pid, tid⟩]
      calls := s.calls ++ [⟨s.calls.length, addr, pid, tid⟩] } := by
  have below : ∀ w ∈ s.waiting, w.call < s.calls.length := by
    intro w mem
    exact (List.getElem?_eq_some_iff.mp (once.own w mem)).1
  refine ⟨?_, ?_, fun w mem => ?_, once.values⟩
  · simp only [List.map_append, List.length_append, List.length_singleton, List.range_succ]
    rw [← List.append_assoc]
    exact once.calls.append_right _
  · rw [List.map_append]
    refine pairwise_append.mpr ⟨once.order, pairwise_singleton .., ?_⟩
    intro a mem b new
    obtain ⟨w, mem_w, rfl⟩ := mem_map.mp mem
    obtain rfl := mem_singleton.mp new
    exact below w mem_w
  · rcases mem_append.mp mem with old | new
    · rw [getElem?_append_left (below w old)]
      exact once.own w old
    · obtain rfl := mem_singleton.mp new
      simp

theorem Once.complete (once : Once s) {k : ℕ} {c : ℕ × ℤ} (at_k : s.pending[k]? = some c) :
    Once { s with pending := s.pending.eraseIdx k, completed := s.completed ++ [c] } := by
  have moved : (s.completed ++ [c] ++ s.pending.eraseIdx k).Perm s.done := by
    obtain ⟨below, rfl⟩ := List.getElem?_eq_some_iff.mp at_k
    rw [List.append_assoc]
    exact (List.getElem_cons_eraseIdx_perm below).append_left _
  refine ⟨?_, once.order, once.own, fun d mem => once.values d (moved.subset mem)⟩
  exact ((moved.map _).append_right _).trans once.calls

theorem Once.step (once : Once s) {a : Action} (current : s.Current a)
    (taken : s.exec a = some t) : Once t := by
  revert current taken
  fun_cases exec s a with rintro current ⟨⟩
  | case1 addr pid tid => exact once.wait addr pid tid
  | case2 pid addr => exact once.taken (takeAll_spec pid addr s.waiting).2 (.inl rfl)
  | case3 pid addr wakeNum =>
    exact once.taken (take_spec pid addr wakeNum 0 s.waiting).2 (.inl rfl)
  | case4 call w own rest found =>
    obtain ⟨v, addr, pid, tid, h⟩ := takeOwn_spec found
    have mem : v ∈ s.waiting := h.perm.subset (by simp)
    have same : v.call = call := current w own v mem addr pid tid
    have kept := once.taken h (.inr rfl)
    simpa [same] using kept
  | case5 => exact once
  | case7 k c at_k => exact once.complete at_k

theorem once_start : Once .start := by
  refine ⟨?_, ?_, ?_, ?_⟩ <;> simp [start, done]

/-- In every run in which abort functions are called for current calls only, every call is completed
at most once or still waits, and `Wake` takes the oldest waiters. -/
theorem once_of_current {as : List Action} {t : State}
    (run : RunWhen State.Current State.exec .start as t) :
    Once t ∧ (t.done.map Prod.fst).Nodup ∧ t.Wakes := by
  have once : Once t :=
    run.invariant (fun _ _ _ once current taken => once.step current taken) once_start
  refine ⟨once, ?_, wakes t⟩
  exact (nodup_append.mp (once.calls.nodup_iff.mpr nodup_range)).1

instance (s : State) (a : Action) : Decidable (s.Current a) :=
  match a with
  | .abort .. | .wait .. | .wakeAll .. | .wake .. | .complete .. => by
    dsimp only [State.Current]
    infer_instance

/-- Three threads wait; one is woken, one is aborted. -/
theorem once_wake_and_abort :
    ∃ t, RunWhen State.Current State.exec .start
        [.wait 8 1 1, .wait 8 1 2, .wait 16 1 3, .wake 1 8 1, .abort 1, .abort 0, .complete 0,
          .complete 0] t ∧
      t.completed = [(0, 0), (1, -eIntr)] ∧ Once t := by
  exact RunWhen.exists_and (f := completed) (by decide +kernel)
    fun t run completed => ⟨completed, (once_of_current run).1⟩

/-- A thread is woken and waits again for the same address; then the abort function of its first call
runs.  It takes the second waiter and completes the first call again. -/
theorem not_once_late_abort :
    ∃ t, Run State.exec .start
        [.wait 8 1 1, .wake 1 8 1, .complete 0, .wait 8 1 1, .abort 0, .complete 0] t ∧
      t.completed = [(0, 0), (0, -eIntr)] ∧ t.waiting = [] ∧ ¬(t.done.map Prod.fst).Nodup := by
  refine RunWhen.exists_and (f := fun t => (t.completed, t.waiting, t.pending))
    (v := ([(0, 0), (0, -eIntr)], [], [])) (by decide +kernel) fun t _ data => ?_
  obtain ⟨completed, data⟩ := Prod.mk.inj data
  obtain ⟨waiting, pending⟩ := Prod.mk.inj data
  refine ⟨completed, waiting, ?_⟩
  simp [done, completed, pending]

end JeoKernel.Futex

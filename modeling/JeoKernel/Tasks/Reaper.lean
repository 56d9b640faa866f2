import Mathlib.Data.List.Perm.Lattice
import JeoKernel.Lib.Ledger
import JeoKernel.Tasks.Tasklist

/-!
# Ended tasks

A task that leaves the list of tasks goes through `task_delete_prequeue`, `task_delete_queue` and the
list of a reaper until it is deleted.  `thread_reaper` reads the length of the queue under the lock,
and takes so many tasks from the queue under the lock again before it clears the queue: tasks that
were added in between are lost.
-/

namespace JeoKernel.Tasks

open List Machine Ledger State

/-! ## What is claimed -/

def Reaper.reaplist : Reaper → List Task
  | .deleting reaplist => reaplist
  | _ => []

/-- The addresses of the tasks that have been put into `task_delete_prequeue`. -/
def State.gone (s : State) : List ℕ :=
  (s.prequeue ++ (s.queue ++ (s.reapers.flatMap Reaper.reaplist ++ s.deleted))).map (·.ptr)

/-- The step clears a queue that is longer than it was when the reaper counted it. -/
def Action.overlooks (s : State) : Action → Bool
  | .reaperStep k =>
    match s.reapers[k]? with
    | some (.counted length) => length < s.queue.length
    | _ => false
  | _ => false

/-- No reaper clears tasks that it has not counted. -/
def Reaps (s : State) (x : Action) : Prop := ¬x.overlooks s

instance (s : State) (x : Action) : Decidable (Reaps s x) := inferInstanceAs (Decidable (¬_))

/-! ## Where tasks go -/

/-- What a step does to the addresses: tasks leave the list for the delete queues, and at most one new
task enters it. -/
structure Moved (s t : State) (left entered : List ℕ) : Prop where
  gone : t.gone.Perm (s.gone ++ left)
  tasks : (t.tasks.map (·.ptr) ++ left).Perm (s.tasks.map (·.ptr) ++ entered)
  created : entered = [] ∧ t.created = s.created ∨ entered = [s.created] ∧ t.created = s.created + 1

structure Tracked (s : State) : Prop where
  nodup : (s.tasks.map (·.ptr) ++ s.gone).Nodup
  below : ∀ ptr ∈ s.tasks.map (·.ptr) ++ s.gone, ptr < s.created

variable {s t : State} {a b : Task} {ptr id cpu k : ℕ} {tasks : List Task} {left entered : List ℕ}

theorem Tracked.moved (h : Tracked s) (moved : Moved s t left entered) : Tracked t := by
  have all : (t.tasks.map (·.ptr) ++ t.gone).Perm (s.tasks.map (·.ptr) ++ s.gone ++ entered) := by
    refine perm_iff_count.mpr fun ptr => ?_
    have gone := moved.gone.count_eq ptr
    have tasks := moved.tasks.count_eq ptr
    simp only [count_append] at gone tasks ⊢
    omega
  rcases moved.created with ⟨rfl, same⟩ | ⟨rfl, next⟩
  · rw [append_nil] at all
    exact ⟨all.nodup_iff.mpr h.nodup, fun ptr mem => same ▸ h.below ptr (all.subset mem)⟩
  · refine ⟨all.nodup_iff.mpr (nodup_append.mpr ⟨h.nodup, nodup_singleton _, ?_⟩),
      fun ptr mem => ?_⟩
    · intro ptr mem other mem'
      obtain rfl := mem_singleton.mp mem'
      exact (h.below ptr mem).ne
    · rw [next]
      rcases mem_append.mp (all.subset mem) with mem | mem
      · exact (h.below ptr mem).trans (Nat.lt_succ_self _)
      · rw [mem_singleton.mp mem]
        exact Nat.lt_succ_self _

theorem Moved.same (gone : t.gone = s.gone) (tasks : t.tasks.map (·.ptr) = s.tasks.map (·.ptr))
    (created : t.created = s.created) : Moved s t [] [] :=
  ⟨by rw [gone, append_nil], by rw [tasks], .inl ⟨rfl, created⟩⟩

theorem Moved.setTask : Moved s (s.setTask a) [] [] :=
  .same rfl (setTask_ptr s a) rfl

theorem gone_append (queued : List Task) (prequeue : t.prequeue = s.prequeue ++ queued)
    (queue : t.queue = s.queue) (reapers : t.reapers = s.reapers) (deleted : t.deleted = s.deleted) :
    t.gone.Perm (s.gone ++ queued.map (·.ptr)) := by
  refine perm_iff_count.mpr fun ptr => ?_
  simp only [gone, prequeue, queue, reapers, deleted, map_append, count_append]
  omega

/-- The list is split into the tasks that stay and those that are put into
`task_delete_prequeue`. -/
theorem Moved.split {p : Task → Bool} (same : tasks.map (·.ptr) = s.tasks.map (·.ptr))
    (stay : t.tasks = tasks.filter fun a => !p a) (prequeue : t.prequeue = s.prequeue ++ tasks.filter p)
    (queue : t.queue = s.queue) (reapers : t.reapers = s.reapers) (deleted : t.deleted = s.deleted)
    (created : t.created = s.created) : Moved s t ((tasks.filter p).map (·.ptr)) [] := by
  refine ⟨gone_append (tasks.filter p) prequeue queue reapers deleted, ?_, .inl ⟨rfl, created⟩⟩
  rw [stay, append_nil, ← map_append, ← same]
  exact (perm_append_comm.trans (filter_append_perm p tasks)).map _

theorem Moved.evictTask (h : Tracked s) (mem : b ∈ s.tasks) (same : a.ptr = b.ptr) :
    Moved s (s.evictTask a) [a.ptr] [] := by
  refine ⟨gone_append [{ a with ended := true }] rfl rfl rfl rfl, ?_, .inl ⟨rfl, rfl⟩⟩
  have nodup : (s.tasks.map (·.ptr)).Nodup := (nodup_append.mp h.nodup).1
  have mem : a.ptr ∈ s.tasks.map (·.ptr) := same ▸ mem_map_of_mem mem
  have rest : (s.evictTask a).tasks.map (·.ptr) = (s.tasks.map (·.ptr)).erase a.ptr := by
    rw [State.evictTask, map_ptr (fun b => exitEvent_ptr b a.id), nodup.erase_eq_filter, filter_map]
    exact congrArg _ (filter_congr fun b _ => Bool.eq_iff_iff.mpr (by simp))
  rw [rest, append_nil]
  exact (perm_append_singleton ..).trans (perm_cons_erase mem).symm

theorem Moved.enterSwitch : Moved s (s.enterSwitch cpu) [] [] := by
  refine ⟨?_, ?_, .inl ⟨rfl, rfl⟩⟩
  · refine perm_iff_count.mpr fun ptr => ?_
    have split := ((filter_append_perm (fun a : Task => a.cpu = cpu) s.prequeue).map
      (·.ptr)).count_eq ptr
    simp only [map_append, count_append] at split
    simp only [State.gone, State.enterSwitch, map_append, count_append, append_nil,
      ne_eq, decide_not]
    omega
  · simp [State.enterSwitch, Function.comp_def]

/-- A step of a reaper moves tasks on, if it clears what it has counted only. -/
theorem Moved.reaperStep (reaps : Reaps s (.reaperStep k)) (done : s.reaperStep k = some t) :
    Moved s t [] [] := by
  obtain ⟨reaper, at_k, done⟩ := Option.bind_eq_some_iff.mp done
  obtain ⟨rest, before, after, -⟩ := flatMap_set_perm at_k Reaper.reaplist
  have moved : ∀ (reaper' : Reaper) (queue deleted : List Task),
      (queue ++ (reaper'.reaplist ++ deleted)).Perm (s.queue ++ (reaper.reaplist ++ s.deleted)) →
      Moved s { s with queue := queue, reapers := s.reapers.set k reaper', deleted := deleted }
        [] [] := by
    intro reaper' queue deleted same
    refine ⟨?_, by simp, .inl ⟨rfl, rfl⟩⟩
    refine perm_iff_count.mpr fun ptr => ?_
    have before := (before.map (·.ptr)).count_eq ptr
    have after := ((after reaper').map (·.ptr)).count_eq ptr
    have same := (same.map (·.ptr)).count_eq ptr
    simp only [State.gone, map_append, count_append, append_nil] at before after same ⊢
    omega
  cases reaper with
  | started =>
    cases done
    refine moved _ s.queue s.deleted ?_
    split_ifs <;> exact .rfl
  | counted length =>
    cases done
    have counted : s.queue.length ≤ length := by
      simpa [Reaps, Action.overlooks, at_k] using reaps
    refine moved _ [] s.deleted ?_
    rw [take_of_length_le counted]
    exact .rfl
  | deleting reaplist =>
    cases reaplist with
    | nil => cases done
    | cons a reaplist =>
      cases done
      refine moved _ s.queue (s.deleted ++ [a]) (List.Perm.append_left _ ?_)
      simp only [Reaper.reaplist, ← append_assoc]
      exact perm_append_singleton ..

theorem exec_moved {x : Action} (h : Tracked s) (reaps : Reaps s x) (taken : exec s x = some t) :
    ∃ left entered, Moved s t left entered := by
  cases exec_step taken with
  | createCurrentIdleTask | newTask =>
    exact ⟨[], [s.created], by simp [gone], by simp [Task.new], .inr ⟨rfl, rfl⟩⟩
  | enterSwitch => exact ⟨[], [], .enterSwitch⟩
  | switched _ _ _ counts =>
    obtain ⟨current, points, inPool, rfl⟩ := counts
    refine ⟨_, [], .split ?_ rfl rfl rfl rfl rfl rfl⟩
    rw [map_ptr fun b => switch_ptr b ..]
    exact map_ptr fun b => by simp
  | stayed _ counts =>
    obtain ⟨current, points, inPool, rfl⟩ := counts
    exact ⟨[], [], .same rfl (map_ptr fun b => by simp) rfl⟩
  | clearStackQuarantines =>
    exact ⟨[], [], .same rfl (map_ptr fun a => clearQuarantine_ptr a _) rfl⟩
  | ended => exact ⟨[], [], .same rfl (map_ptr fun a => by split_ifs <;> simp) rfl⟩
  | terminated =>
    refine ⟨_, [], .split (p := (·.ptr = _)) (rfl : s.tasks.map (·.ptr) = _) ?_ rfl rfl rfl rfl rfl⟩
    simp [terminateBlocked]
  | evicted mem call =>
    rcases call with ⟨-, rfl⟩ | ⟨f, -, -, rfl⟩
    · exact ⟨_, [], .evictTask h mem rfl⟩
    · exact ⟨_, [], .evictTask h mem (call_called _ f).ptr⟩
  | adjust | called | registered | joined | joinReturn => exact ⟨[], [], .setTask⟩
  | joinPassed => exact ⟨[], [], .same rfl rfl rfl⟩
  | threadReaper => exact ⟨[], [], .same (by simp [gone, Reaper.reaplist]) rfl rfl⟩
  | reaperStep done => exact ⟨[], [], .reaperStep reaps done⟩

theorem Tracked.step (s : State) (x : Action) (t : State) (h : Tracked s) (reaps : Reaps s x)
    (taken : exec s x = some t) : Tracked t := by
  obtain ⟨left, entered, moved⟩ := exec_moved h reaps taken
  exact h.moved moved

theorem exec_prequeue {x : Action} (taken : exec s x = some t) (mem : a ∈ s.prequeue) :
    a ∈ t.prequeue ∨ x = .enterSwitch a.cpu ∧ a ∈ t.queue := by
  cases exec_step taken with
  | @enterSwitch cpu =>
    by_cases here : a.cpu = cpu
    · exact .inr ⟨by rw [here], by simp [enterSwitch, mem, here]⟩
    · exact .inl (by simp [enterSwitch, mem, here])
  | switched | terminated | evicted => exact .inl (mem_append_left _ mem)
  | reaperStep done =>
    rw [(reaperStep_frame done).2.1]
    exact .inl mem
  | _ => exact .inl mem

/-- Where no reaper clears more than it has counted, a task that has been put into
`task_delete_prequeue` is in one place, and leaves the prequeue on its own CPU only. -/
theorem gone_once_of_reaps {before after : List Action} (run : RunWhen Reaps exec .new before s)
    (later : RunWhen Reaps exec s after t) :
    (∀ a ∈ s.prequeue, t.gone.count a.ptr = 1) ∧
      ∀ (x : Action) (u : State), exec t x = some u → ∀ a ∈ t.prequeue,
        a ∈ u.prequeue ∨ x = .enterSwitch a.cpu ∧ a ∈ u.queue := by
  have start : Tracked .new := ⟨by decide, by simp [new, gone]⟩
  have tracked := run.invariant Tracked.step start
  refine ⟨fun a mem => ?_, fun x u taken a mem => exec_prequeue taken mem⟩
  have gone : Tracked t ∧ a.ptr ∈ t.gone := by
    refine later.invariant (I := fun t => Tracked t ∧ a.ptr ∈ t.gone) (fun s x t h reaps taken => ?_)
      ⟨tracked, mem_map_of_mem (mem_append_left _ mem)⟩
    obtain ⟨left, entered, moved⟩ := exec_moved h.1 reaps taken
    exact ⟨h.1.moved moved, moved.gone.symm.subset (mem_append_left _ h.2)⟩
  exact count_eq_one_of_mem (nodup_append.mp gone.1.nodup).2.1 gone.2

/-- A task exits, and is deleted by the reaper. -/
theorem gone_once_exit : ∃ s t, RunWhen Reaps exec .new
      [.createCurrentIdleTask 0, .newTask, .enterSwitch 0, .switchTasks 0 none, .exit 0,
        .enterSwitch 0, .switchTasks 0 none] s ∧
    RunWhen Reaps exec s
      [.enterSwitch 0, .switchTasks 0 none, .threadReaper, .reaperStep 0, .reaperStep 0,
        .reaperStep 0] t ∧
    s.prequeue.map (·.ptr) = [1] ∧ t.deleted.map (·.ptr) = [1] ∧
    ∀ a ∈ s.prequeue, t.gone.count a.ptr = 1 := by
  let idle : Task := { Task.new 0 1 with running := true, priorityGroup := .idle, cpuPinned := true }
  let exited : Task := { Task.new 1 2 with ended := true, points := 1, vacated := false }
  have run : RunWhen Reaps exec .new
      [.createCurrentIdleTask 0, .newTask, .enterSwitch 0, .switchTasks 0 none, .exit 0,
        .enterSwitch 0, .switchTasks 0 none]
      ⟨[{ idle with points := 1 }], 2, 2, [exited], [], 0, [], [], [0], []⟩ :=
    .of_foldlM (by decide +kernel)
  have later : RunWhen Reaps exec ⟨[{ idle with points := 1 }], 2, 2, [exited], [], 0, [], [], [0], []⟩
      [.enterSwitch 0, .switchTasks 0 none, .threadReaper, .reaperStep 0, .reaperStep 0,
        .reaperStep 0]
      ⟨[{ idle with points := 2 }], 2, 2, [], [], 0, [.deleting []], [exited], [0], []⟩ :=
    .of_foldlM (by decide +kernel)
  exact ⟨_, _, run, later, rfl, rfl, (gone_once_of_reaps run later).1⟩

/-- Two tasks have ended, on two CPUs.  The reaper counts the first, the second is queued, and the
reaper takes one task and clears the queue. -/
theorem not_gone_once_overlooked : ∃ s t, Run exec .new
      [.createCurrentIdleTask 0, .createCurrentIdleTask 1, .newTask, .newTask, .enterSwitch 0,
        .switchTasks 0 none, .enterSwitch 1, .switchTasks 1 none, .exit 0, .exit 1, .enterSwitch 0,
        .switchTasks 0 none, .enterSwitch 1, .switchTasks 1 none] s ∧
    Run exec s [.enterSwitch 0, .threadReaper, .reaperStep 0, .enterSwitch 1, .reaperStep 0] t ∧
    t.gone = [2] ∧ ∃ a ∈ s.prequeue, t.gone.count a.ptr = 0 := by
  let idle : ℕ → Task := fun cpu => { Task.new cpu (cpu + 1) with
    cpu := cpu, running := true, priorityGroup := .idle, cpuPinned := true, points := 1 }
  let exited : ℕ → Task := fun cpu => { Task.new (cpu + 2) (cpu + 3) with
    cpu := cpu, ended := true, points := 1, vacated := false }
  exact ⟨⟨[idle 0, idle 1], 4, 4, [exited 0, exited 1], [], 0, [], [], [1, 0], []⟩,
    ⟨[idle 0, idle 1], 4, 4, [], [], 1, [.deleting [exited 0]], [], [1, 0], [1, 0]⟩,
    .of_foldlM (by decide +kernel), .of_foldlM (by decide +kernel), rfl, exited 1, by simp, by decide⟩

end JeoKernel.Tasks

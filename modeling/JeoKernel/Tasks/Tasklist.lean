import Mathlib.Data.List.Nodup
import Mathlib.Order.Basic
import JeoKernel.Lib.Machine

/-!
# The scheduler

The `tasklist` of a machine with several CPUs, `multicpu = true`.  A task is told from the others by
`ptr`, its address, which is not used again.  Each section under `_lock` is one step.

`switch_tasks` has two such sections: it gives up the lock after it has moved tasks from
`task_delete_prequeue` to `task_delete_queue`, to release `_reaper_sema`.  Its variable
`current_task` is not initialised: the second section takes what is in it as an argument.

Event handlers other than `task_join_handler`, and the rest of the kernel, set the `blocked` flag and
the resource count of tasks: this is the action `adjust`.
-/

namespace JeoKernel.Tasks

open List Option Machine

/-! ## Tasks -/

inductive PriorityGroup where
  | idle
  | low
  | normal
  | realtime
  deriving DecidableEq

/-- What a function passed to `when_not_running` does to its task. -/
inductive Callback where
  | setEnd
  | setBlocked (blocked : Bool)
  deriving DecidableEq

/-- `cpu` is the CPU that the task runs on, or the one it last ran on.  `joins` are the tasks that its
`task_join_handler`s wait for.  Two fields record what has happened: `joining` is the call of `join`
that the task is in, and `vacated` says that the CPU it last ran on has entered `switch_tasks`
since. -/
structure Task where
  ptr : ℕ
  id : ℕ
  cpu : ℕ
  running : Bool
  blocked : Bool
  ended : Bool
  stackQuarantine : Bool
  cpuPinned : Bool
  priorityGroup : PriorityGroup
  points : ℕ
  resources : ℕ
  doWhenNotRunning : List Callback
  joins : List ℕ
  joining : Option ℕ
  vacated : Bool
  deriving DecidableEq

def Task.call (a : Task) : Callback → Task
  | .setEnd => { a with ended := true }
  | .setBlocked blocked => { a with blocked := blocked }

def Task.setNotRunning (a : Task) : Task :=
  { a.doWhenNotRunning.foldl Task.call { a with running := false } with doWhenNotRunning := [] }

/-- The handlers of the task receive `TASK_EVENT_EXIT`. -/
def Task.exitEvent (id : ℕ) (a : Task) : Task :=
  if id ∈ a.joins then { a with blocked := false, joins := a.joins.filter (· ≠ id) } else a

/-- A call of `thread_reaper`, after `_reaper_sema.acquire()`. -/
inductive Reaper where
  | started
  /-- It has read the length of `task_delete_queue`. -/
  | counted (length : ℕ)
  /-- With what is left of `reaplist`. -/
  | deleting (reaplist : List Task)
  deriving DecidableEq

/-- `started` are the CPUs that have an idle task, `entered` those between the two sections of
`switch_tasks`, and `deleted` the tasks that have been deleted. -/
structure State where
  tasks : List Task
  serial : ℕ
  created : ℕ
  prequeue : List Task
  queue : List Task
  reaperSema : ℕ
  reapers : List Reaper
  deleted : List Task
  started : List ℕ
  entered : List ℕ
  deriving DecidableEq

def State.new : State := ⟨[], 0, 0, [], [], 0, [], [], [], []⟩

/-! ## Creation -/

/-- `get_next_id`: the next number that is not in use. -/
def getNextId (ids : List ℕ) (serial : ℕ) : Option ℕ :=
  ((range (ids.length + 1)).map fun k => (serial + 1 + k) % 2 ^ 32).find? (· ∉ ids)

def Task.new (ptr id : ℕ) : Task where
  ptr := ptr
  id := id
  cpu := 0
  running := false
  blocked := false
  ended := false
  stackQuarantine := false
  cpuPinned := false
  priorityGroup := .normal
  points := 0
  resources := 0
  doWhenNotRunning := []
  joins := []
  joining := none
  vacated := true

/-- `new_task`.  The task is in the list, with the id 0, when `get_next_id` is called. -/
def State.newTask (s : State) : Option State :=
  (getNextId (s.tasks.map (·.id) ++ [0]) s.serial).map fun id =>
    { s with tasks := s.tasks ++ [.new s.created id], serial := id, created := s.created + 1 }

/-- `create_current_idle_task`, on a CPU that starts. -/
def State.createCurrentIdleTask (s : State) (cpu : ℕ) : Option State :=
  (getNextId (s.tasks.map (·.id)) s.serial).map fun id =>
    { s with
      tasks := s.tasks ++ [{ Task.new s.created id with
        cpu := cpu, running := true, priorityGroup := .idle, cpuPinned := true }]
      serial := id, created := s.created + 1, started := cpu :: s.started }

/-! ## switch_tasks -/

/-- The first section of `switch_tasks`. -/
def State.enterSwitch (s : State) (cpu : ℕ) : State :=
  let moved := s.prequeue.filter (·.cpu = cpu)
  { s with
    tasks := s.tasks.map fun a => { a with vacated := a.vacated || (!a.running && a.cpu = cpu) }
    prequeue := s.prequeue.filter (·.cpu ≠ cpu)
    queue := s.queue ++ moved
    reaperSema := if moved = [] then s.reaperSema else s.reaperSema + 1
    entered := cpu :: s.entered }

/-- What the loop over the tasks does to a task. -/
def Task.clearQuarantine (cpu : ℕ) (a : Task) : Task :=
  if a.cpu = cpu then { a with stackQuarantine := false } else a

/-- What the loop makes of `current_task`. -/
def Task.asCurrent (cpu : ℕ) (current : Option ℕ) (a : Task) : Option ℕ :=
  if a.cpu = cpu ∧ !a.stackQuarantine ∧ a.running then some a.ptr else current

/-- The tasks of the first loop, each with `current_task` as it is at its turn. -/
def turns (cpu : ℕ) (current : Option ℕ) : List Task → List (Task × Option ℕ)
  | [] => []
  | a :: tasks =>
    (a.clearQuarantine cpu, a.asCurrent cpu current) :: turns cpu (a.asCurrent cpu current) tasks

def Task.viable (cpu : ℕ) (group : PriorityGroup) (current : Option ℕ) (a : Task) : Bool :=
  (a.cpu = cpu || !a.cpuPinned) && a.priorityGroup = group && !a.blocked && !a.ended &&
    !a.stackQuarantine && (current = some a.ptr || !a.running)

/-- The tasks of one priority group that could run. -/
def pool (cpu : ℕ) (group : PriorityGroup) (scanned : List (Task × Option ℕ)) : List Task :=
  (scanned.filter fun x => x.1.viable cpu group x.2).map (·.1)

/-- `task_pool`: the tasks of the highest priority group that has any. -/
def taskPool (cpu : ℕ) (stale : Option ℕ) (tasks : List Task) : List Task :=
  let current := tasks.foldl (Task.asCurrent cpu) stale
  let first := turns cpu stale tasks
  let second := tasks.map fun a => (a.clearQuarantine cpu, current)
  if pool cpu .realtime first ≠ [] then pool cpu .realtime first
  else if pool cpu .normal first ≠ [] then pool cpu .normal first
  else if pool cpu .low second ≠ [] then pool cpu .low second
  else pool cpu .idle second

/-- The points that a task has after `switch_tasks` has counted those of the current one. -/
def Task.countPoints (current : ℕ) (currentPoints : ℕ) (inPool : List ℕ) (a : Task) : Task :=
  if currentPoints = 31 then
    if current ∈ inPool ∧ a.ptr ∈ inPool then { a with points := a.points - 1 } else a
  else if a.ptr = current then { a with points := currentPoints + 1 } else a

/-- The points that the loop compares. -/
def Task.effective (current : ℕ) (a : Task) : ℕ :=
  let points := if a.ptr = current then a.points - 12 else a.points
  if a.resources > 0 then points - 12 else points

/-- One turn of the loop that finds the winner. -/
def contest (current : ℕ) (win : Option Task) (a : Task) : Option Task :=
  let points := if a.ptr = current then a.points - 12 else a.points
  let points := if a.resources > 0 then points - 12 else points
  match win with
  | none => some a
  | some w => if points < w.points then some a else win

/-- What the switch does to a task: the current one stops, and the winner runs. -/
def Task.switch (cpu current win : ℕ) (a : Task) : Task :=
  if a.ptr = current then
    { Task.setNotRunning { a with stackQuarantine := a.stackQuarantine || !a.ended } with
      vacated := false }
  else if a.ptr = win then { a with running := true, cpu := cpu }
  else a

/-- The rest of `switch_tasks`, for a winner that is not the current task.  A current task that has
ended leaves the list. -/
def State.switchTo (s : State) (tasks : List Task) (cpu current win : ℕ) : State :=
  let switched := tasks.map (·.switch cpu current win)
  { s with
    tasks := switched.filter fun a => !(a.ptr = current && a.ended)
    prequeue := s.prequeue ++ switched.filter fun a => a.ptr = current && a.ended }

/-- The second section of `switch_tasks`. -/
def State.switchTasks (s : State) (cpu : ℕ) (stale : Option ℕ) : Option State := do
  let pool := taskPool cpu stale s.tasks
  let current ← s.tasks.foldl (Task.asCurrent cpu) stale
  let task ← s.tasks.find? (·.ptr = current)
  let count := Task.countPoints current task.points (pool.map (·.ptr))
  let win ← (pool.map count).foldl (contest current) none
  let tasks := s.tasks.map fun a => count (a.clearQuarantine cpu)
  let s := { s with entered := s.entered.filter (· ≠ cpu) }
  if win.ptr ≠ current then some (s.switchTo tasks cpu current win.ptr)
  else if task.ended then none
  else some { s with tasks := tasks }

def State.clearStackQuarantines (s : State) (cpu : ℕ) : State :=
  { s with tasks := s.tasks.map (·.clearQuarantine cpu) }

/-! ## The end of a task -/

def Task.runsOn (cpu : ℕ) (a : Task) : Bool := a.cpu = cpu && a.running

/-- The common body of `exit` and `user_exit`.  A task in `join` calls neither. -/
def State.endCurrent (s : State) (cpu : ℕ) : Option State := do
  let current ← s.tasks.find? (·.runsOn cpu)
  if current.joining = none then
    some { s with
      tasks := s.tasks.map fun a =>
        if a.ptr = current.ptr then { a with ended := true } else a.exitEvent current.id }
  else none

def State.exit (s : State) (cpu : ℕ) : Option State := s.endCurrent cpu

def State.userExit (s : State) (cpu : ℕ) : Option State := s.endCurrent cpu

def State.terminateBlocked (s : State) (ptr : ℕ) : State :=
  { s with
    tasks := s.tasks.filter (·.ptr ≠ ptr)
    prequeue := s.prequeue ++ s.tasks.filter (·.ptr = ptr) }

def State.evictTask (s : State) (a : Task) : State :=
  { s with
    tasks := (s.tasks.filter (·.ptr ≠ a.ptr)).map (·.exitEvent a.id)
    prequeue := s.prequeue ++ [{ a with ended := true }] }

def State.setTask (s : State) (a : Task) : State :=
  { s with tasks := s.tasks.map fun b => if b.ptr = a.ptr then a else b }

def State.whenNotRunning (s : State) (ptr : ℕ) (f : Callback) : Option State := do
  let a ← s.tasks.find? (·.ptr = ptr)
  if !a.running then
    if (a.call f).ended then some (s.evictTask (a.call f)) else some (s.setTask (a.call f))
  else some (s.setTask { a with doWhenNotRunning := a.doWhenNotRunning ++ [f] })

/-! ## join -/

/-- `join` up to the task switch.  `get_current_task_with_lock` takes the last task that runs on the
CPU. -/
def State.join (s : State) (cpu id : ℕ) : Option State := do
  let current ← s.tasks.findRev? (·.runsOn cpu)
  if current.joining = none then
    match s.tasks.find? (·.id = id) with
    | none => some s
    | some other =>
      if other.ended then some s
      else
        some (s.setTask { current with
          joins := current.joins ++ [id], blocked := true, joining := some id })
  else none

/-- The loop of `join` finds that the task is not blocked. -/
def State.joinReturn (s : State) (cpu : ℕ) : Option State := do
  let current ← s.tasks.findRev? (·.runsOn cpu)
  if current.joining ≠ none ∧ !current.blocked then some (s.setTask { current with joining := none })
  else none

/-! ## thread_reaper -/

/-- `thread_reaper` up to the semaphore. -/
def State.threadReaper (s : State) : Option State :=
  if s.reaperSema = 0 then none
  else some { s with reaperSema := s.reaperSema - 1, reapers := s.reapers ++ [.started] }

/-- The next step of a call of `thread_reaper`. -/
def State.reaperStep (s : State) (k : ℕ) : Option State := do
  match ← s.reapers[k]? with
  | .started =>
    some { s with
      reapers := s.reapers.set k
        (if s.queue.length = 0 then .deleting [] else .counted s.queue.length) }
  | .counted length =>
    some { s with reapers := s.reapers.set k (.deleting (s.queue.take length)), queue := [] }
  | .deleting [] => none
  | .deleting (a :: reaplist) =>
    some { s with reapers := s.reapers.set k (.deleting reaplist), deleted := s.deleted ++ [a] }

/-! ## Runs -/

inductive Action where
  | createCurrentIdleTask (cpu : ℕ)
  | newTask
  | adjust (ptr : ℕ) (blocked : Bool) (resources : ℕ)
  | enterSwitch (cpu : ℕ)
  | switchTasks (cpu : ℕ) (stale : Option ℕ)
  | clearStackQuarantines (cpu : ℕ)
  | exit (cpu : ℕ)
  | userExit (cpu : ℕ)
  | terminateBlocked (ptr : ℕ)
  | evictTask (ptr : ℕ)
  | whenNotRunning (ptr : ℕ) (f : Callback)
  | join (cpu id : ℕ)
  | joinReturn (cpu : ℕ)
  | threadReaper
  | reaperStep (k : ℕ)

def exec (s : State) : Action → Option State
  | .createCurrentIdleTask cpu => if cpu ∈ s.started then none else s.createCurrentIdleTask cpu
  | .newTask => s.newTask
  | .adjust ptr blocked resources =>
    (s.tasks.find? (·.ptr = ptr)).map fun a =>
      s.setTask { a with blocked := blocked, resources := resources }
  | .enterSwitch cpu => if cpu ∈ s.started ∧ cpu ∉ s.entered then some (s.enterSwitch cpu) else none
  | .switchTasks cpu stale => if cpu ∈ s.entered then s.switchTasks cpu stale else none
  | .clearStackQuarantines cpu => some (s.clearStackQuarantines cpu)
  | .exit cpu => s.exit cpu
  | .userExit cpu => s.userExit cpu
  | .terminateBlocked ptr => some (s.terminateBlocked ptr)
  | .evictTask ptr => (s.tasks.find? (·.ptr = ptr)).map s.evictTask
  | .whenNotRunning ptr f => s.whenNotRunning ptr f
  | .join cpu id => s.join cpu id
  | .joinReturn cpu => s.joinReturn cpu
  | .threadReaper => s.threadReaper
  | .reaperStep k => s.reaperStep k

inductive Step (s : State) : Action → State → Prop
  | createCurrentIdleTask {cpu id} (fresh : cpu ∉ s.started) :
      Step s (.createCurrentIdleTask cpu) { s with
        tasks := s.tasks ++ [{ Task.new s.created id with
          cpu := cpu, running := true, priorityGroup := .idle, cpuPinned := true }]
        serial := id, created := s.created + 1, started := cpu :: s.started }
  | newTask {id} : Step s .newTask
        { s with tasks := s.tasks ++ [.new s.created id], serial := id, created := s.created + 1 }
  | adjust {a blocked resources} (mem : a ∈ s.tasks) : Step s (.adjust a.ptr blocked resources)
        (s.setTask { a with blocked := blocked, resources := resources })
  | enterSwitch {cpu} (started : cpu ∈ s.started) (out : cpu ∉ s.entered) :
      Step s (.enterSwitch cpu) (s.enterSwitch cpu)
  | switched {cpu stale task win count} (entered : cpu ∈ s.entered) (mem : task ∈ s.tasks)
      (current : s.tasks.foldl (Task.asCurrent cpu) stale = some task.ptr)
      (counts : ∃ current points inPool, count = Task.countPoints current points inPool)
      (won : ((taskPool cpu stale s.tasks).map count).foldl (contest task.ptr) none = some win)
      (other : win.ptr ≠ task.ptr) :
      Step s (.switchTasks cpu stale) (State.switchTo { s with entered := s.entered.filter (· ≠ cpu) }
        (s.tasks.map fun a => count (a.clearQuarantine cpu)) cpu task.ptr win.ptr)
  | stayed {cpu stale count} (entered : cpu ∈ s.entered)
      (counts : ∃ current points inPool, count = Task.countPoints current points inPool) :
      Step s (.switchTasks cpu stale) { s with
        entered := s.entered.filter (· ≠ cpu), tasks := s.tasks.map fun a => count (a.clearQuarantine cpu) }
  | clearStackQuarantines {cpu} : Step s (.clearStackQuarantines cpu) (s.clearStackQuarantines cpu)
  | ended {x cpu current} (call : x = .exit cpu ∨ x = .userExit cpu)
      (mem : current ∈ s.tasks) (free : current.joining = none) : Step s x { s with
        tasks := s.tasks.map fun a =>
          if a.ptr = current.ptr then { a with ended := true } else a.exitEvent current.id }
  | terminated {ptr} : Step s (.terminateBlocked ptr) (s.terminateBlocked ptr)
  | evicted {x a b} (mem : a ∈ s.tasks) (call : x = .evictTask a.ptr ∧ b = a ∨
        ∃ f, x = .whenNotRunning a.ptr f ∧ a.running = false ∧ b = a.call f) :
      Step s x (s.evictTask b)
  | called {a f} (mem : a ∈ s.tasks) (stopped : a.running = false)
      (going : ¬(a.call f).ended) : Step s (.whenNotRunning a.ptr f) (s.setTask (a.call f))
  | registered {a f} (mem : a ∈ s.tasks) (running : a.running) : Step s (.whenNotRunning a.ptr f)
        (s.setTask { a with doWhenNotRunning := a.doWhenNotRunning ++ [f] })
  | joined {cpu current other} (mem : current ∈ s.tasks) (free : current.joining = none)
      (mem' : other ∈ s.tasks) (going : ¬other.ended) :
      Step s (.join cpu other.id) (s.setTask { current with
        joins := current.joins ++ [other.id], blocked := true, joining := some other.id })
  | joinPassed {cpu id} : Step s (.join cpu id) s
  | joinReturn {cpu current} (mem : current ∈ s.tasks) (awake : ¬current.blocked) :
      Step s (.joinReturn cpu) (s.setTask { current with joining := none })
  | threadReaper :
      Step s .threadReaper
        { s with reaperSema := s.reaperSema - 1, reapers := s.reapers ++ [.started] }
  | reaperStep {k t} (done : s.reaperStep k = some t) : Step s (.reaperStep k) t

variable {tasks : List Task}

theorem find?_ptr {ptr : ℕ} {a : Task} (found : tasks.find? (·.ptr = ptr) = some a) :
    a ∈ tasks ∧ a.ptr = ptr :=
  ⟨mem_of_find?_eq_some found, by simpa using find?_some found⟩

variable {s t : State}

theorem Step.switchTasks {cpu : ℕ} {stale : Option ℕ} (entered : cpu ∈ s.entered)
    (done : s.switchTasks cpu stale = some t) : Step s (.switchTasks cpu stale) t := by
  simp only [State.switchTasks, bind_eq_bind, bind_eq_some_iff] at done
  obtain ⟨current, scanned, task, found, win, won, done⟩ := done
  obtain ⟨mem, rfl⟩ := find?_ptr found
  split_ifs at done with other going <;> cases done
  · exact .switched entered mem scanned ⟨_, _, _, rfl⟩ won other
  · exact .stayed entered ⟨_, _, _, rfl⟩

variable {x : Action}

theorem Step.endCurrent {cpu : ℕ} (call : x = .exit cpu ∨ x = .userExit cpu)
    (done : s.endCurrent cpu = some t) : Step s x t := by
  obtain ⟨current, found, done⟩ := bind_eq_some_iff.mp done
  split_ifs at done with free
  cases done
  exact .ended call (mem_of_find?_eq_some found) free

theorem Step.whenNotRunning {ptr : ℕ} {f : Callback} (done : s.whenNotRunning ptr f = some t) :
    Step s (.whenNotRunning ptr f) t := by
  obtain ⟨a, found, taken⟩ := bind_eq_some_iff.mp done
  obtain ⟨mem, rfl⟩ := find?_ptr found
  split_ifs at taken with stopped ends <;> cases taken
  · exact .evicted mem (.inr ⟨f, rfl, by simpa using stopped, rfl⟩)
  · exact .called mem (by simpa using stopped) ends
  · exact .registered mem (by simpa using stopped)

theorem Step.join {cpu id : ℕ} (done : s.join cpu id = some t) : Step s (.join cpu id) t := by
  obtain ⟨current, found, done⟩ := bind_eq_some_iff.mp done
  rw [findRev?_eq_find?_reverse] at found
  have mem := mem_reverse.mp (mem_of_find?_eq_some found)
  split_ifs at done with free
  cases joining : s.tasks.find? (·.id = id) with
  | none =>
    rw [joining] at done
    cases done
    exact .joinPassed
  | some other =>
    rw [joining] at done
    obtain rfl : other.id = id := by simpa using find?_some joining
    dsimp only at done
    split_ifs at done with ended <;> cases done
    · exact .joinPassed
    · exact .joined mem free (mem_of_find?_eq_some joining) ended

theorem exec_step (taken : exec s x = some t) : Step s x t := by
  cases x with
  | createCurrentIdleTask cpu =>
    simp only [exec] at taken
    split_ifs at taken with started
    obtain ⟨id, -, rfl⟩ := map_eq_some_iff.mp taken
    exact .createCurrentIdleTask started
  | newTask =>
    obtain ⟨id, -, rfl⟩ := map_eq_some_iff.mp taken
    exact .newTask
  | adjust ptr blocked resources =>
    obtain ⟨a, found, rfl⟩ := map_eq_some_iff.mp taken
    obtain ⟨mem, rfl⟩ := find?_ptr found
    exact .adjust mem
  | enterSwitch cpu =>
    simp only [exec] at taken
    split_ifs at taken with legal
    cases taken
    exact .enterSwitch legal.1 legal.2
  | switchTasks cpu stale =>
    simp only [exec] at taken
    split_ifs at taken with entered
    exact .switchTasks entered taken
  | clearStackQuarantines cpu =>
    cases taken
    exact .clearStackQuarantines
  | exit cpu => exact .endCurrent (.inl rfl) taken
  | userExit cpu => exact .endCurrent (.inr rfl) taken
  | terminateBlocked ptr =>
    cases taken
    exact .terminated
  | evictTask ptr =>
    obtain ⟨a, found, rfl⟩ := map_eq_some_iff.mp taken
    obtain ⟨mem, rfl⟩ := find?_ptr found
    exact .evicted mem (.inl ⟨rfl, rfl⟩)
  | whenNotRunning ptr f => exact .whenNotRunning taken
  | join cpu id => exact .join taken
  | joinReturn cpu =>
    obtain ⟨current, found, taken⟩ := bind_eq_some_iff.mp taken
    rw [findRev?_eq_find?_reverse] at found
    split_ifs at taken with legal
    cases taken
    exact .joinReturn (mem_reverse.mp (mem_of_find?_eq_some found)) (by simpa using legal.2)
  | threadReaper =>
    simp only [exec, State.threadReaper] at taken
    split_ifs at taken
    cases taken
    exact .threadReaper
  | reaperStep k => exact .reaperStep taken

/-! ## What the steps do to a task -/

variable (a : Task) (cpu : ℕ)

/-- What the callbacks leave alone. -/
structure Task.Called (a b : Task) : Prop where
  ptr : b.ptr = a.ptr
  id : b.id = a.id
  cpu : b.cpu = a.cpu
  running : b.running = a.running
  stackQuarantine : b.stackQuarantine = a.stackQuarantine
  vacated : b.vacated = a.vacated
  joins : b.joins = a.joins
  joining : b.joining = a.joining
  ended : a.ended → b.ended

theorem call_called (f : Callback) : a.Called (a.call f) := by
  cases f with
  | setEnd => exact ⟨rfl, rfl, rfl, rfl, rfl, rfl, rfl, rfl, fun _ => rfl⟩
  | setBlocked blocked => exact ⟨rfl, rfl, rfl, rfl, rfl, rfl, rfl, rfl, id⟩

theorem Task.Called.trans {a b c : Task} (h : a.Called b) (h' : b.Called c) : a.Called c :=
  ⟨h'.ptr.trans h.ptr, h'.id.trans h.id, h'.cpu.trans h.cpu, h'.running.trans h.running,
    h'.stackQuarantine.trans h.stackQuarantine, h'.vacated.trans h.vacated, h'.joins.trans h.joins,
    h'.joining.trans h.joining, fun ended => h'.ended (h.ended ended)⟩

theorem setNotRunning_called : Task.Called { a with running := false } a.setNotRunning := by
  have calls : ∀ (fs : List Callback) (b : Task), b.Called (fs.foldl Task.call b) := by
    intro fs
    induction fs with
    | nil => exact fun b => ⟨rfl, rfl, rfl, rfl, rfl, rfl, rfl, rfl, id⟩
    | cons f fs ih => exact fun b => (call_called b f).trans (ih (b.call f))
  exact { calls a.doWhenNotRunning { a with running := false } with }

theorem reaperStep_frame {k : ℕ} (done : s.reaperStep k = some t) :
    t.tasks = s.tasks ∧ t.prequeue = s.prequeue ∧ t.queue ⊆ s.queue ∧ t.started = s.started ∧
      t.entered = s.entered ∧ t.created = s.created := by
  obtain ⟨reaper, -, done⟩ := bind_eq_some_iff.mp done
  split at done
  · cases done
    exact ⟨rfl, rfl, Subset.refl _, rfl, rfl, rfl⟩
  · cases done
    exact ⟨rfl, rfl, nil_subset _, rfl, rfl, rfl⟩
  · cases done
  · cases done
    exact ⟨rfl, rfl, Subset.refl _, rfl, rfl, rfl⟩

@[simp]
theorem exitEvent_ptr (id : ℕ) : (a.exitEvent id).ptr = a.ptr := by
  unfold Task.exitEvent
  split_ifs <;> rfl

@[simp]
theorem clearQuarantine_ptr : (a.clearQuarantine cpu).ptr = a.ptr := by
  unfold Task.clearQuarantine
  split_ifs <;> rfl

@[simp]
theorem countPoints_ptr (current points : ℕ) (inPool : List ℕ) :
    (a.countPoints current points inPool).ptr = a.ptr := by
  unfold Task.countPoints
  split_ifs <;> rfl

@[simp]
theorem switch_ptr (current win : ℕ) : (a.switch cpu current win).ptr = a.ptr := by
  unfold Task.switch
  split_ifs
  · exact (setNotRunning_called _).ptr
  · rfl
  · rfl

/-- What the loops have made of a task before the switch. -/
structure Task.ScannedAs (cpu : ℕ) (a b : Task) : Prop where
  ptr : b.ptr = a.ptr
  id : b.id = a.id
  cpu_eq : b.cpu = a.cpu
  running : b.running = a.running
  ended : b.ended = a.ended
  vacated : b.vacated = a.vacated
  joins : b.joins = a.joins
  joining : b.joining = a.joining
  doWhenNotRunning : b.doWhenNotRunning = a.doWhenNotRunning
  here : a.cpu = cpu → b.stackQuarantine = false
  elsewhere : a.cpu ≠ cpu → b.stackQuarantine = a.stackQuarantine

theorem countPoints_scannedAs (cpu : ℕ) {count : Task → Task}
    (counts : ∃ current points inPool, count = Task.countPoints current points inPool) (a : Task) :
    Task.ScannedAs cpu a (count (a.clearQuarantine cpu)) := by
  obtain ⟨current, points, inPool, rfl⟩ := counts
  have counted : ∃ p, Task.countPoints current points inPool (a.clearQuarantine cpu) =
      { a.clearQuarantine cpu with points := p } := by
    unfold Task.countPoints
    split_ifs <;> exact ⟨_, rfl⟩
  obtain ⟨p, counted⟩ := counted
  rw [counted, Task.clearQuarantine]
  split_ifs with here
  · exact ⟨rfl, rfl, rfl, rfl, rfl, rfl, rfl, rfl, rfl, fun _ => rfl, fun other => absurd here other⟩
  · exact ⟨rfl, rfl, rfl, rfl, rfl, rfl, rfl, rfl, rfl, fun same => absurd same here, fun _ => rfl⟩

/-! ## Addresses -/

theorem map_ptr {f : Task → Task} (keeps : ∀ a, (f a).ptr = a.ptr) :
    (tasks.map f).map (·.ptr) = tasks.map (·.ptr) := by
  simp [Function.comp_def, keeps]

structure Distinct (s : State) : Prop where
  nodup : (s.tasks.map (·.ptr)).Nodup
  below : ∀ ptr ∈ s.tasks.map (·.ptr), ptr < s.created

variable {s t : State} {a b : Task}

theorem distinct_new : Distinct .new := ⟨by decide, by simp [State.new]⟩

theorem Distinct.eq (h : Distinct s) (mem : a ∈ s.tasks) (mem' : b ∈ s.tasks) (same : a.ptr = b.ptr) :
    a = b :=
  inj_on_of_nodup_map h.nodup mem mem' same

theorem Distinct.sublist (h : Distinct s)
    (fewer : (t.tasks.map (·.ptr)).Sublist (s.tasks.map (·.ptr))) (created : t.created = s.created) :
    Distinct t :=
  ⟨h.nodup.sublist fewer, fun ptr mem => created ▸ h.below ptr (fewer.subset mem)⟩

theorem Distinct.same (h : Distinct s) (same : t.tasks.map (·.ptr) = s.tasks.map (·.ptr))
    (created : t.created = s.created) : Distinct t :=
  h.sublist (same ▸ .refl _) created

theorem Distinct.append (h : Distinct s)
    (added : t.tasks.map (·.ptr) = s.tasks.map (·.ptr) ++ [s.created])
    (created : t.created = s.created + 1) : Distinct t := by
  constructor
  · rw [added]
    refine nodup_append.mpr ⟨h.nodup, nodup_singleton _, fun ptr mem ptr' mem' => ?_⟩
    rw [mem_singleton.mp mem']
    exact (h.below ptr mem).ne
  · intro ptr mem
    rw [created]
    rcases mem_append.mp (added ▸ mem) with mem | mem
    · exact (h.below ptr mem).trans (Nat.lt_succ_self _)
    · rw [mem_singleton.mp mem]
      exact Nat.lt_succ_self _

theorem setTask_ptr (s : State) (a : Task) : (s.setTask a).tasks.map (·.ptr) = s.tasks.map (·.ptr) :=
  map_ptr fun b => by split_ifs with same <;> simp [same]

theorem Distinct.step (h : Distinct s) (taken : exec s x = some t) : Distinct t := by
  cases exec_step taken with
  | createCurrentIdleTask | newTask => exact h.append (by simp [Task.new]) rfl
  | enterSwitch => exact h.same (map_ptr fun _ => rfl) rfl
  | @switched cpu stale task win count _ _ _ counts =>
    obtain ⟨current, points, inPool, rfl⟩ := counts
    have same : (((s.tasks.map fun a => Task.countPoints current points inPool
        (a.clearQuarantine cpu)).map (·.switch cpu task.ptr win.ptr)).map (·.ptr)) =
        s.tasks.map (·.ptr) := by
      rw [map_ptr fun a => switch_ptr a .., map_ptr fun a => by simp]
    exact h.sublist (same ▸ filter_sublist.map _) rfl
  | stayed _ counts =>
    obtain ⟨current, points, inPool, rfl⟩ := counts
    exact h.same (map_ptr fun a => by simp) rfl
  | clearStackQuarantines => exact h.same (map_ptr fun a => clearQuarantine_ptr a _) rfl
  | ended => exact h.same (map_ptr fun a => by split_ifs <;> simp) rfl
  | terminated => exact h.sublist (filter_sublist.map _) rfl
  | evicted =>
    refine h.sublist ?_ rfl
    rw [State.evictTask, map_ptr fun a => exitEvent_ptr a _]
    exact filter_sublist.map _
  | adjust | called | registered | joined | joinReturn => exact h.same (setTask_ptr ..) rfl
  | joinPassed => exact h
  | threadReaper => exact ⟨h.nodup, h.below⟩
  | reaperStep done =>
    obtain ⟨tasks, -, -, -, -, created⟩ := reaperStep_frame done
    exact h.same (tasks ▸ rfl) created

end JeoKernel.Tasks

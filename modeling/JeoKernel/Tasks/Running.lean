import Mathlib.Data.List.Perm.Subperm
import JeoKernel.Tasks.Tasklist

/-!
# One task for each CPU

`switch_tasks` finds the current task by its flags, so each CPU that has started must have one task
that is marked running with its number.  A task that was switched out still uses its stack until its
CPU has left the interrupt: `stack_quarantine` keeps it from the other CPUs until its own CPU enters
`switch_tasks` again.

`terminate_blocked` takes a task off the list whether it is running or not.
-/

namespace JeoKernel.Tasks

open List Machine JeoKernel.Tasks.Task

/-! ## What is claimed -/

/-- Each CPU that has started has one task that is marked running with its number. -/
def State.OneEach (s : State) : Prop :=
  ∀ cpu ∈ s.started, (s.tasks.filter (·.runsOn cpu)).length = 1

/-- A task that `switch_tasks` resumes last ran on the same CPU, or its CPU has entered
`switch_tasks` since. -/
def State.ResumesSafely (s : State) : Prop :=
  ∀ (cpu : ℕ) (stale : Option ℕ) (t : State), exec s (.switchTasks cpu stale) = some t →
    ∀ a ∈ s.tasks, ∀ b ∈ t.tasks, b.ptr = a.ptr → ¬a.running → b.running → a.cpu = cpu ∨ a.vacated

def State.QueuesStopped (s : State) : Prop := ∀ a ∈ s.prequeue ++ s.queue, ¬a.running

/-- The step takes a task off the list that is running, lets a CPU other than that of a switch touch
the stack quarantines, or finds a task of another CPU in the variable that is not initialised. -/
def Action.disturbs (s : State) : Action → Bool
  | .terminateBlocked ptr | .evictTask ptr => s.tasks.any fun a => a.ptr = ptr && a.running
  | .switchTasks cpu stale =>
    s.tasks.any fun a => stale = some a.ptr && a.running && a.cpu ≠ cpu
  | .clearStackQuarantines _ => true
  | _ => false

/-- Only tasks that do not run are terminated, and `current_task` does not happen to hold a task that
runs on another CPU. -/
def Orderly (s : State) (x : Action) : Prop := ¬x.disturbs s

instance (s : State) (x : Action) : Decidable (Orderly s x) := inferInstanceAs (Decidable (¬_))

/-! ## The winner -/

variable {s t : State} {a b : Task} {cpu : ℕ} {stale : Option ℕ} {tasks : List Task}

@[simp]
theorem runsOn_iff : a.runsOn cpu ↔ a.cpu = cpu ∧ a.running := by
  simp [runsOn]

theorem contest_some (current : ℕ) (win a : Task) : contest current (some win) a =
    if a.effective current < win.points then some a else some win := rfl

theorem contest_split {current : ℕ} {win : Task} {first : Option Task}
    (won : tasks.foldl (contest current) first = some win) :
    (∃ l₁ l₂, tasks = l₁ ++ win :: l₂ ∧ ∀ a ∈ l₂, win.points ≤ a.effective current) ∨
      first = some win ∧ ∀ a ∈ tasks, win.points ≤ a.effective current := by
  induction tasks generalizing first with
  | nil => exact .inr ⟨won, by simp⟩
  | cons a tasks ih =>
    rcases ih won with ⟨l₁, l₂, rfl, full⟩ | ⟨here, full⟩
    · exact .inl ⟨a :: l₁, l₂, rfl, full⟩
    · cases first with
      | none =>
        obtain rfl := Option.some.inj here
        exact .inl ⟨[], tasks, rfl, full⟩
      | some w =>
        rw [contest_some] at here
        split_ifs at here with less
        · obtain rfl := Option.some.inj here
          exact .inl ⟨[], tasks, rfl, full⟩
        · obtain rfl := Option.some.inj here
          exact .inr ⟨rfl, forall_mem_cons.mpr ⟨not_lt.mp less, full⟩⟩

theorem contest_mem {current : ℕ} {win : Task} {first : Option Task}
    (won : tasks.foldl (contest current) first = some win) : win ∈ tasks ∨ first = some win := by
  rcases contest_split won with ⟨l₁, l₂, rfl, -⟩ | ⟨before, -⟩
  · exact .inl (by simp)
  · exact .inr before

/-- What the loop has in `current_task`: what was there before, or a task that runs on the CPU. -/
theorem asCurrent_cases (cpu : ℕ) (current : Option ℕ) (a : Task) :
    a.asCurrent cpu current = current ∨ a.runsOn cpu ∧ a.asCurrent cpu current = some a.ptr := by
  unfold asCurrent
  split_ifs with here
  · exact .inr ⟨by simp [here.1, here.2.2], rfl⟩
  · exact .inl rfl

theorem foldl_asCurrent_cases (cpu : ℕ) (current : Option ℕ) (tasks : List Task) :
    tasks.foldl (Task.asCurrent cpu) current = current ∨
      ∃ a ∈ tasks, a.runsOn cpu ∧ tasks.foldl (Task.asCurrent cpu) current = some a.ptr := by
  induction tasks generalizing current with
  | nil => exact .inl rfl
  | cons a tasks ih =>
    rcases ih (a.asCurrent cpu current) with same | ⟨b, mem, runs, last⟩
    · rcases asCurrent_cases cpu current a with before | ⟨runs, here⟩
      · exact .inl (same.trans before)
      · exact .inr ⟨a, by simp, runs, same.trans here⟩
    · exact .inr ⟨b, mem_cons_of_mem _ mem, runs, last⟩

/-- The loop finds a task that runs on the CPU, if it is not in quarantine. -/
theorem foldl_asCurrent_of_mem (current : Option ℕ) (mem : a ∈ tasks) (runs : a.runsOn cpu)
    (free : a.stackQuarantine = false) :
    ∃ b ∈ tasks, b.runsOn cpu ∧ tasks.foldl (Task.asCurrent cpu) current = some b.ptr := by
  induction tasks generalizing current with
  | nil => cases mem
  | cons c tasks ih =>
    rcases mem_cons.mp mem with rfl | mem
    · have here : a.asCurrent cpu current = some a.ptr := by
        rw [runsOn_iff] at runs
        simp [asCurrent, runs, free]
      rcases foldl_asCurrent_cases cpu (a.asCurrent cpu current) tasks with same | ⟨b, mem, last⟩
      · exact ⟨a, by simp, runs, same.trans here⟩
      · exact ⟨b, mem_cons_of_mem _ mem, last⟩
    · obtain ⟨b, mem, last⟩ := ih (c.asCurrent cpu current) mem
      exact ⟨b, mem_cons_of_mem _ mem, last⟩

/-- A task of one of the loops, with what it finds in `current_task`. -/
def Scanned (cpu : ℕ) (stale : Option ℕ) (tasks : List Task) (x : Task × Option ℕ) : Prop :=
  (∃ a ∈ tasks, x.1 = a.clearQuarantine cpu) ∧
    (x.2 = stale ∨ ∃ b ∈ tasks, b.runsOn cpu ∧ x.2 = some b.ptr)

theorem turns_scanned {current : Option ℕ} {x : Task × Option ℕ} (mem : x ∈ turns cpu current tasks) :
    Scanned cpu current tasks x := by
  induction tasks generalizing current with
  | nil => cases mem
  | cons a tasks ih =>
    rcases mem_cons.mp mem with rfl | mem
    · refine ⟨⟨a, by simp, rfl⟩, ?_⟩
      rcases asCurrent_cases cpu current a with same | ⟨runs, here⟩
      · exact .inl same
      · exact .inr ⟨a, by simp, runs, here⟩
    · obtain ⟨⟨c, mem', same⟩, last⟩ := ih mem
      refine ⟨⟨c, mem_cons_of_mem _ mem', same⟩, ?_⟩
      rcases last with last | ⟨b, mem', runs, last⟩
      · rcases asCurrent_cases cpu current a with before | ⟨runs, here⟩
        · exact .inl (last.trans before)
        · exact .inr ⟨a, by simp, runs, last.trans here⟩
      · exact .inr ⟨b, mem_cons_of_mem _ mem', runs, last⟩

/-- A task of a pool is not in quarantine, and does not run unless it was taken for the current
one. -/
theorem pool_mem {group : PriorityGroup} {scanned : List (Task × Option ℕ)} {w : Task}
    (all : ∀ x ∈ scanned, Scanned cpu stale tasks x) (mem : w ∈ pool cpu group scanned) :
    ∃ a ∈ tasks, w = a.clearQuarantine cpu ∧ w.stackQuarantine = false ∧
      (w.running → stale = some w.ptr ∨ ∃ b ∈ tasks, b.runsOn cpu ∧ b.ptr = w.ptr) := by
  obtain ⟨x, picked, rfl⟩ := mem_map.mp mem
  obtain ⟨scanned, viable⟩ := mem_filter.mp picked
  obtain ⟨⟨a, mem', same⟩, current⟩ := all x scanned
  simp only [Task.viable, Bool.and_eq_true, Bool.or_eq_true, Bool.not_eq_true',
    decide_eq_true_eq] at viable
  refine ⟨a, mem', same, viable.1.2, fun running => ?_⟩
  have here : x.2 = some x.1.ptr := viable.2.resolve_right (by simp [running])
  rcases current with last | ⟨b, mem', runs, last⟩
  · exact .inl (last.symm.trans here)
  · exact .inr ⟨b, mem', runs, Option.some.inj (last.symm.trans here)⟩

theorem taskPool_mem {w : Task} (mem : w ∈ taskPool cpu stale tasks) :
    ∃ a ∈ tasks, w = a.clearQuarantine cpu ∧ w.stackQuarantine = false ∧
      (w.running → stale = some w.ptr ∨ ∃ b ∈ tasks, b.runsOn cpu ∧ b.ptr = w.ptr) := by
  have first : ∀ x ∈ turns cpu stale tasks, Scanned cpu stale tasks x := fun x mem => turns_scanned mem
  have second : ∀ x ∈ tasks.map fun a =>
        (a.clearQuarantine cpu, tasks.foldl (asCurrent cpu) stale),
      Scanned cpu stale tasks x := by
    intro x mem
    obtain ⟨a, mem', rfl⟩ := mem_map.mp mem
    exact ⟨⟨a, mem', rfl⟩, foldl_asCurrent_cases cpu stale tasks⟩
  unfold taskPool at mem
  dsimp only at mem
  split_ifs at mem
  · exact pool_mem first mem
  · exact pool_mem first mem
  · exact pool_mem second mem
  · exact pool_mem second mem

/-! ## The invariant -/

/-- What holds of a task on the list, with the CPUs that have started and those that are in
`switch_tasks`. -/
structure Task.Sound (started entered : List ℕ) (a : Task) : Prop where
  runs : a.running → a.cpu ∈ started ∧ a.stackQuarantine = false
  rests : a.running = false → a.stackQuarantine = true ∨ a.vacated = true
  leaves : a.running = false → a.cpu ∈ entered → a.vacated = true

structure Running (s : State) : Prop where
  distinct : Distinct s
  one : ∀ cpu ∈ s.started, ∃ a ∈ s.tasks, a.runsOn cpu ∧ ∀ b ∈ s.tasks, b.runsOn cpu → b.ptr = a.ptr
  entered : s.entered ⊆ s.started
  sound : ∀ a ∈ s.tasks, a.Sound s.started s.entered
  stopped : ∀ a ∈ s.prequeue ++ s.queue, a.running = false

theorem Running.oneEach (h : Running s) : s.OneEach := by
  intro cpu started
  obtain ⟨a, mem, runs, only⟩ := h.one cpu started
  have all : ∀ b ∈ s.tasks.filter (·.runsOn cpu), b.ptr = a.ptr := fun b mem' =>
    only b (mem_filter.mp mem').1 (mem_filter.mp mem').2
  have distinct : ((s.tasks.filter (·.runsOn cpu)).map (·.ptr)).Nodup :=
    h.distinct.nodup.sublist (filter_sublist.map _)
  have few : ((s.tasks.filter (·.runsOn cpu)).map (·.ptr)).length ≤ [a.ptr].length := by
    refine (distinct.subperm fun ptr mem' => ?_).length_le
    obtain ⟨b, here, rfl⟩ := mem_map.mp mem'
    exact mem_singleton.mpr (all b here)
  have some : 0 < (s.tasks.filter (·.runsOn cpu)).length :=
    length_pos_of_mem (mem_filter.mpr ⟨mem, runs⟩)
  rw [length_map] at few
  exact le_antisymm few some

variable {f : Task → Task}

/-- Tasks that do not run leave the list, and the others are changed one by one; none of them starts
or stops. -/
theorem Running.change (h : Running s) {p : Task → Bool}
    (removed : ∀ a ∈ s.tasks, p a = false → a.running = false)
    (same : ∀ a ∈ s.tasks, (f a).ptr = a.ptr ∧ (f a).cpu = a.cpu ∧ (f a).running = a.running)
    (sound : ∀ a ∈ s.tasks, (f a).Sound t.started t.entered) (distinct : Distinct t)
    (tasks : t.tasks = (s.tasks.filter p).map f) (started : t.started = s.started)
    (entered : t.entered ⊆ t.started) (stopped : ∀ a ∈ t.prequeue ++ t.queue, a.running = false) :
    Running t := by
  have from_s : ∀ b ∈ t.tasks, ∃ a ∈ s.tasks, b = f a := fun b mem => by
    rw [tasks] at mem
    obtain ⟨a, here, rfl⟩ := mem_map.mp mem
    exact ⟨a, (mem_filter.mp here).1, rfl⟩
  refine ⟨distinct, fun cpu mem => ?_, entered, fun b mem => ?_, stopped⟩
  · obtain ⟨a, here, runs, only⟩ := h.one cpu (started ▸ mem)
    have keeps : ∀ a ∈ s.tasks, (f a).runsOn cpu = a.runsOn cpu := fun a mem => by
      simp [runsOn, same a mem]
    have stays : p a = true := by
      by_contra gone
      have stopped := removed a here (by simpa using gone)
      simp [stopped] at runs
    refine ⟨f a, ?_, keeps a here ▸ runs, fun b mem' runs' => ?_⟩
    · exact tasks ▸ mem_map_of_mem (mem_filter.mpr ⟨here, stays⟩)
    · obtain ⟨b, here', rfl⟩ := from_s b mem'
      rw [(same a here).1, (same b here').1]
      exact only b here' (keeps b here' ▸ runs')
  · obtain ⟨a, here, rfl⟩ := from_s b mem
    exact sound a here

theorem Running.map (h : Running s)
    (same : ∀ a ∈ s.tasks, (f a).ptr = a.ptr ∧ (f a).cpu = a.cpu ∧ (f a).running = a.running)
    (sound : ∀ a ∈ s.tasks, (f a).Sound t.started t.entered) (distinct : Distinct t)
    (tasks : t.tasks = s.tasks.map f) (started : t.started = s.started)
    (entered : t.entered ⊆ t.started) (stopped : ∀ a ∈ t.prequeue ++ t.queue, a.running = false) :
    Running t :=
  h.change (p := fun _ => true) (by simp) same sound distinct (by simpa using tasks) started
    entered stopped

/-- What the scheduler reads of a task is unchanged. -/
structure Task.Same (a b : Task) : Prop where
  ptr : b.ptr = a.ptr
  cpu : b.cpu = a.cpu
  running : b.running = a.running
  stackQuarantine : b.stackQuarantine = a.stackQuarantine
  vacated : b.vacated = a.vacated

variable {started entered : List ℕ}

theorem Task.Same.sound (same : a.Same b) (h : a.Sound started entered) :
    b.Sound started entered := by
  obtain ⟨-, cpu, running, stackQuarantine, vacated⟩ := same
  constructor
  · rw [running, cpu, stackQuarantine]
    exact h.runs
  · rw [running, stackQuarantine, vacated]
    exact h.rests
  · rw [running, cpu, vacated]
    exact h.leaves

theorem exitEvent_same (a : Task) (id : ℕ) : a.Same (a.exitEvent id) := by
  unfold exitEvent
  split_ifs <;> exact ⟨rfl, rfl, rfl, rfl, rfl⟩

theorem Running.setTask (h : Running s) (mem : a ∈ s.tasks) (same : a.Same b)
    (distinct : Distinct (s.setTask b)) : Running (s.setTask b) := by
  have keeps : ∀ c ∈ s.tasks, c.Same (if c.ptr = b.ptr then b else c) := fun c mem' => by
    split_ifs with here
    · rw [h.distinct.eq mem' mem (here.trans same.ptr)]
      exact same
    · exact ⟨rfl, rfl, rfl, rfl, rfl⟩
  exact h.map (fun c mem' => ⟨(keeps c mem').ptr, (keeps c mem').cpu, (keeps c mem').running⟩)
    (fun c mem' => (keeps c mem').sound (h.sound c mem')) distinct rfl rfl h.entered h.stopped

theorem Running.stopped_append (h : Running s) {new : List Task} (rests : ∀ a ∈ new, a.running = false) :
    ∀ a ∈ s.prequeue ++ new ++ s.queue, a.running = false := by
  have old := forall_mem_append.mp h.stopped
  exact forall_mem_append.mpr ⟨forall_mem_append.mpr ⟨old.1, rests⟩, old.2⟩

theorem Running.evictTask (h : Running s) (mem : a ∈ s.tasks) (same : a.Same b)
    (rests : a.running = false) (distinct : Distinct (s.evictTask b)) : Running (s.evictTask b) := by
  refine h.change (p := (·.ptr ≠ b.ptr)) (fun c mem' here => ?_)
    (fun c _ => ⟨(exitEvent_same c b.id).ptr, (exitEvent_same c b.id).cpu,
      (exitEvent_same c b.id).running⟩)
    (fun c mem' => (exitEvent_same c b.id).sound (h.sound c mem')) distinct rfl rfl h.entered
    (h.stopped_append (forall_mem_singleton.mpr (same.running.trans rests)))
  rw [h.distinct.eq mem' mem ((by simpa using here : c.ptr = b.ptr).trans same.ptr)]
  exact rests

theorem call_same (a : Task) (f : Callback) : a.Same (a.call f) := { call_called a f with }

/-! ## The switch -/

variable {task win : Task} {count : Task → Task}

theorem Running.current (h : Running s) (entered : cpu ∈ s.entered) (mem : task ∈ s.tasks)
    (current : s.tasks.foldl (Task.asCurrent cpu) stale = some task.ptr) :
    task.runsOn cpu ∧ ∀ b ∈ s.tasks, b.runsOn cpu → b.ptr = task.ptr := by
  obtain ⟨a, here, runs, only⟩ := h.one cpu (h.entered entered)
  have free := ((h.sound a here).runs (runsOn_iff.mp runs).2).2
  obtain ⟨b, here', runs', last⟩ := foldl_asCurrent_of_mem stale here runs free
  obtain rfl := h.distinct.eq here' mem (Option.some.inj (last.symm.trans current))
  exact ⟨runs', fun c mem' runs'' => (only c mem' runs'').trans (only b here' runs').symm⟩

theorem Task.ScannedAs.sound (same : Task.ScannedAs cpu a b) (h : a.Sound started entered)
    (mem : cpu ∈ entered) : b.Sound started (entered.filter (· ≠ cpu)) := by
  by_cases here : a.cpu = cpu
  · refine ⟨fun runs => ?_, fun rests => .inr ?_, fun rests _ => ?_⟩
    · rw [same.running] at runs
      exact ⟨same.cpu_eq ▸ (h.runs runs).1, same.here here⟩
    all_goals
      rw [same.running] at rests
      rw [same.vacated]
      exact h.leaves rests (here ▸ mem)
  · refine ⟨fun runs => ?_, fun rests => ?_, fun rests mem' => ?_⟩
    · rw [same.running] at runs
      rw [same.cpu_eq, same.elsewhere here]
      exact h.runs runs
    · rw [same.running] at rests
      rw [same.elsewhere here, same.vacated]
      exact h.rests rests
    · rw [same.running] at rests
      rw [same.cpu_eq] at mem'
      rw [same.vacated]
      exact h.leaves rests (mem_filter.mp mem').1

/-- The winner can run on this CPU, and does not run unless it was taken for the current task. -/
theorem winner_spec (counts : ∃ current points inPool,
      count = Task.countPoints current points inPool)
    (won : ((taskPool cpu stale s.tasks).map count).foldl (contest task.ptr) none = some win) :
    ∃ a ∈ s.tasks, a.ptr = win.ptr ∧ (a.cpu = cpu ∨ a.stackQuarantine = false) ∧
      (a.running → stale = some a.ptr ∨ ∃ b ∈ s.tasks, b.runsOn cpu ∧ b.ptr = a.ptr) := by
  have mem : win ∈ (taskPool cpu stale s.tasks).map count := by
    rcases contest_mem won with mem | none
    · exact mem
    · cases none
  obtain ⟨w, picked, rfl⟩ := mem_map.mp mem
  obtain ⟨a, here, rfl, free, running⟩ := taskPool_mem picked
  have scanned := countPoints_scannedAs cpu counts a
  have ptr : (a.clearQuarantine cpu).ptr = a.ptr := clearQuarantine_ptr a cpu
  refine ⟨a, here, scanned.ptr.symm, ?_, fun runs => ?_⟩
  · by_cases same : a.cpu = cpu
    · exact .inl same
    · exact .inr (by simpa [clearQuarantine, same] using free)
  · rw [← ptr]
    exact running (by unfold clearQuarantine; split_ifs <;> exact runs)

/-- What the switch makes of a task: the current one stops and is in quarantine unless it has ended,
the winner runs here, and the others are as they were. -/
theorem switch_cases (cpu current win : ℕ) (a : Task) :
    let b := a.switch cpu current win
    (a.ptr = current ∧ b.running = false ∧ b.cpu = a.cpu ∧ (b.ended ∨ b.stackQuarantine = true)) ∨
      (a.ptr ≠ current ∧ a.ptr = win ∧ b = { a with running := true, cpu := cpu }) ∨
      (a.ptr ≠ current ∧ a.ptr ≠ win ∧ b = a) := by
  unfold switch
  split_ifs with stops starts
  · have called := setNotRunning_called { a with stackQuarantine := a.stackQuarantine || !a.ended }
    refine .inl ⟨stops, called.running, called.cpu, ?_⟩
    by_cases ended : a.ended
    · exact .inl (called.ended ended)
    · exact .inr (called.stackQuarantine.trans (by simp [ended]))
  · exact .inr (.inl ⟨stops, starts, rfl⟩)
  · exact .inr (.inr ⟨stops, starts, rfl⟩)

/-- A switch on `cpu` from `task` to `w`; `f` is what the loops before it do to the tasks. -/
structure Switching (s : State) (cpu : ℕ) (f : Task → Task) (task w : Task) : Prop where
  entered : cpu ∈ s.entered
  scanned : ∀ a, Task.ScannedAs cpu a (f a)
  mem : task ∈ s.tasks
  runs : task.runsOn cpu
  only : ∀ b ∈ s.tasks, b.runsOn cpu → b.ptr = task.ptr
  mem_win : w ∈ s.tasks
  rests : w.running = false
  viable : w.cpu = cpu ∨ w.stackQuarantine = false
  other : w.ptr ≠ task.ptr

/-- Where the variable holds no task of another CPU, the winner is a task that does not run. -/
theorem Running.switching (h : Running s) (entered : cpu ∈ s.entered) (mem : task ∈ s.tasks)
    (current : s.tasks.foldl (Task.asCurrent cpu) stale = some task.ptr)
    (counts : ∃ current points inPool, count = Task.countPoints current points inPool)
    (won : ((taskPool cpu stale s.tasks).map count).foldl (contest task.ptr) none = some win)
    (other : win.ptr ≠ task.ptr)
    (fresh : ∀ a ∈ s.tasks, stale = some a.ptr → a.running → a.cpu = cpu) :
    ∃ w, w.ptr = win.ptr ∧ Switching s cpu (fun a => count (a.clearQuarantine cpu)) task w := by
  obtain ⟨runs, only⟩ := h.current entered mem current
  obtain ⟨w, here, ptr, viable, taken⟩ := winner_spec counts won
  refine ⟨w, ptr, entered, countPoints_scannedAs cpu counts, mem, runs, only, here, ?_, viable,
    ptr ▸ other⟩
  by_contra running
  have running : w.running := by simpa using running
  rcases taken running with stale | ⟨b, mem', runs', same⟩
  · have := only w here (runsOn_iff.mpr ⟨fresh w here stale running, running⟩)
    exact other (ptr.symm.trans this)
  · exact other (ptr.symm.trans (same.symm.trans (only b mem' runs')))

variable {w : Task} {f : Task → Task}

/-- What the loops and the switch make of a task. -/
def switched (cpu : ℕ) (f : Task → Task) (task w a : Task) : Task :=
  (f a).switch cpu task.ptr w.ptr

section

variable (h : Switching s cpu f task w)

include h

theorem Switching.ptr (a : Task) : (switched cpu f task w a).ptr = a.ptr :=
  (switch_ptr ..).trans (h.scanned a).ptr

theorem Switching.cases (distinct : Distinct s) (mem : a ∈ s.tasks) :
    let b := switched cpu f task w a
    (a = task ∧ b.running = false ∧ b.cpu = cpu ∧ (b.ended ∨ b.stackQuarantine = true)) ∨
      (a = w ∧ b.running ∧ b.cpu = cpu ∧ b.stackQuarantine = false) ∨
      (a.ptr ≠ task.ptr ∧ a.ptr ≠ w.ptr ∧ b = f a) := by
  have scanned := h.scanned a
  rcases switch_cases cpu task.ptr w.ptr (f a) with
    ⟨same, stops, cpu_eq, quarantine⟩ | ⟨-, same, starts⟩ | ⟨not_task, not_w, unchanged⟩
  · obtain rfl := distinct.eq mem h.mem (scanned.ptr.symm.trans same)
    exact .inl ⟨rfl, stops, cpu_eq.trans (scanned.cpu_eq.trans (runsOn_iff.mp h.runs).1), quarantine⟩
  · obtain rfl := distinct.eq mem h.mem_win (scanned.ptr.symm.trans same)
    have free : (f a).stackQuarantine = false := by
      by_cases here : a.cpu = cpu
      · exact scanned.here here
      · exact (scanned.elsewhere here).trans (h.viable.resolve_left here)
    refine .inr (.inl ⟨rfl, ?_⟩)
    rw [switched, starts]
    exact ⟨rfl, rfl, free⟩
  · exact .inr (.inr ⟨scanned.ptr ▸ not_task, scanned.ptr ▸ not_w, unchanged⟩)

theorem Switching.mem_iff (b : Task) :
    b ∈ (State.switchTo { s with entered := s.entered.filter (· ≠ cpu) } (s.tasks.map f) cpu task.ptr
        w.ptr).tasks ↔
      ∃ a ∈ s.tasks, b = switched cpu f task w a ∧ ¬(a.ptr = task.ptr ∧ b.ended) := by
  have stays : ∀ a, (!(decide ((switched cpu f task w a).ptr = task.ptr) &&
      (switched cpu f task w a).ended)) = true ↔
      ¬(a.ptr = task.ptr ∧ (switched cpu f task w a).ended) := fun a => by
    rw [h.ptr a]
    simp [imp_iff_not_or]
  simp only [State.switchTo, map_map, mem_filter, mem_map]
  constructor
  · rintro ⟨⟨a, mem, rfl⟩, here⟩
    exact ⟨a, mem, rfl, (stays a).mp here⟩
  · rintro ⟨a, mem, rfl, here⟩
    exact ⟨⟨a, mem, rfl⟩, (stays a).mpr here⟩

theorem Switching.one (running : Running s) {cpu' : ℕ} (started : cpu' ∈ s.started) :
    ∃ a ∈ s.tasks, a.ptr ≠ task.ptr ∧ (switched cpu f task w a).runsOn cpu' ∧
      ∀ b ∈ s.tasks, (switched cpu f task w b).runsOn cpu' → b.ptr = a.ptr := by
  by_cases here : cpu' = cpu
  · subst here
    refine ⟨w, h.mem_win, h.other, ?_, fun b mem runs => ?_⟩
    · rcases h.cases running.distinct h.mem_win with ⟨same, -⟩ | ⟨-, runs, cpu_eq, -⟩ | ⟨-, not_w, -⟩
      · exact absurd (same ▸ rfl) h.other
      · exact runsOn_iff.mpr ⟨cpu_eq, runs⟩
      · exact absurd rfl not_w
    · rcases h.cases running.distinct mem with ⟨-, stops, -⟩ | ⟨same, -⟩ | ⟨not_task, -, same⟩
      · simp [stops] at runs
      · rw [same]
      · rw [same, runsOn_iff, (h.scanned b).cpu_eq, (h.scanned b).running, ← runsOn_iff] at runs
        exact absurd (h.only b mem runs) not_task
  · obtain ⟨u, mem, runs, only⟩ := running.one cpu' started
    have same : u.ptr ≠ task.ptr ∧ switched cpu f task w u = f u := by
      rcases h.cases running.distinct mem with ⟨same, -⟩ | ⟨same, -⟩ | ⟨not_task, -, same⟩
      · rw [same] at runs
        exact absurd ((runsOn_iff.mp runs).1.symm.trans (runsOn_iff.mp h.runs).1) here
      · rw [same] at runs
        simp [h.rests] at runs
      · exact ⟨not_task, same⟩
    refine ⟨u, mem, same.1, ?_, fun b mem' runs' => ?_⟩
    · rw [same.2, runsOn_iff, (h.scanned u).cpu_eq, (h.scanned u).running, ← runsOn_iff]
      exact runs
    · rcases h.cases running.distinct mem' with ⟨-, stops, -⟩ | ⟨-, -, cpu_eq, -⟩ | ⟨-, -, same⟩
      · simp [stops] at runs'
      · exact absurd ((runsOn_iff.mp runs').1.symm.trans cpu_eq) here
      · rw [same, runsOn_iff, (h.scanned b).cpu_eq, (h.scanned b).running, ← runsOn_iff] at runs'
        exact only b mem' runs'

theorem Switching.sound (running : Running s) (mem : a ∈ s.tasks)
    (stays : ¬(a.ptr = task.ptr ∧ (switched cpu f task w a).ended)) :
    (switched cpu f task w a).Sound s.started (s.entered.filter (· ≠ cpu)) := by
  rcases h.cases running.distinct mem with
    ⟨rfl, stops, cpu_eq, quarantine⟩ | ⟨-, runs, cpu_eq, free⟩ | ⟨-, -, same⟩
  · refine ⟨fun runs => ?_, fun _ => .inl ?_, fun _ mem' => ?_⟩
    · simp [stops] at runs
    · exact quarantine.resolve_left fun ended => stays ⟨rfl, ended⟩
    · simp [cpu_eq] at mem'
  · refine ⟨fun _ => ⟨?_, free⟩, fun rests => ?_, fun rests => ?_⟩
    · rw [cpu_eq]
      exact running.entered h.entered
    · simp [runs] at rests
    · simp [runs] at rests
  · rw [same]
    exact (h.scanned a).sound (running.sound a mem) h.entered

end

theorem Running.switchTo (running : Running s) (h : Switching s cpu f task w)
    (distinct : Distinct (State.switchTo { s with entered := s.entered.filter (· ≠ cpu) }
      (s.tasks.map f) cpu task.ptr w.ptr)) :
    Running (State.switchTo { s with entered := s.entered.filter (· ≠ cpu) } (s.tasks.map f) cpu
      task.ptr w.ptr) := by
  refine ⟨distinct, fun cpu' started => ?_, ?_, fun b mem => ?_, running.stopped_append fun b mem => ?_⟩
  · obtain ⟨a, mem, not_task, runs, only⟩ := h.one running started
    refine ⟨switched cpu f task w a, (h.mem_iff _).mpr ⟨a, mem, rfl, fun gone => not_task gone.1⟩,
      runs, fun b mem' runs' => ?_⟩
    obtain ⟨b, here, rfl, -⟩ := (h.mem_iff b).mp mem'
    rw [h.ptr a, h.ptr b]
    exact only b here runs'
  · exact fun cpu' mem => running.entered (mem_filter.mp mem).1
  · obtain ⟨a, mem', rfl, stays⟩ := (h.mem_iff b).mp mem
    exact h.sound running mem' stays
  · simp only [map_map, mem_filter, mem_map] at mem
    obtain ⟨⟨a, mem, rfl⟩, ended⟩ := mem
    have ptr : a.ptr = task.ptr := by
      have := h.ptr a
      simp only [Bool.and_eq_true, decide_eq_true_eq] at ended
      exact this.symm.trans ended.1
    rcases h.cases running.distinct mem with ⟨-, stops, -⟩ | ⟨same, -⟩ | ⟨not_task, -⟩
    · exact stops
    · exact absurd (same ▸ ptr) h.other
    · exact absurd ptr not_task

/-! ## Runs -/

theorem Running.enterSwitch (h : Running s) (started : cpu ∈ s.started)
    (distinct : Distinct (s.enterSwitch cpu)) : Running (s.enterSwitch cpu) := by
  refine h.map (f := fun a => { a with vacated := a.vacated || (!a.running && a.cpu = cpu) })
    (fun a _ => ⟨rfl, rfl, rfl⟩) (fun a mem => ?_) distinct rfl rfl ?_ fun a mem => ?_
  · have sound := h.sound a mem
    refine ⟨sound.runs, fun rests => ?_, fun rests mem' => ?_⟩
    · exact (sound.rests rests).imp_right fun vacated => by simp [vacated]
    · rcases mem_cons.mp mem' with here | mem'
      · have rests : a.running = false := rests
        have here : a.cpu = cpu := here
        simp [rests, here]
      · simp [sound.leaves rests mem']
  · exact cons_subset.mpr ⟨started, h.entered⟩
  · simp only [State.enterSwitch, mem_append, mem_filter] at mem
    refine h.stopped a (mem_append.mpr ?_)
    tauto

theorem Running.append (h : Running s) (sound : a.Sound t.started t.entered)
    (alone : a.running → a.cpu ∉ s.started) (distinct : Distinct t) (tasks : t.tasks = s.tasks ++ [a])
    (started : ∀ cpu, cpu ∈ t.started ↔ cpu ∈ s.started ∨ a.runsOn cpu)
    (entered : t.entered = s.entered) (prequeue : t.prequeue = s.prequeue) (queue : t.queue = s.queue) :
    Running t := by
  refine ⟨distinct, fun cpu mem => ?_, ?_, fun b mem => ?_, ?_⟩
  · have not_both : ∀ b ∈ s.tasks, b.runsOn cpu → ¬a.runsOn cpu := fun b mem runs runs' => by
      have here := ((h.sound b mem).runs (runsOn_iff.mp runs).2).1
      rw [(runsOn_iff.mp runs).1, ← (runsOn_iff.mp runs').1] at here
      exact alone (runsOn_iff.mp runs').2 here
    rw [tasks]
    rcases (started cpu).mp mem with mem | runs
    · obtain ⟨u, here, runs, only⟩ := h.one cpu mem
      refine ⟨u, mem_append_left _ here, runs, fun b mem' runs' => ?_⟩
      rcases mem_append.mp mem' with mem' | mem'
      · exact only b mem' runs'
      · rw [mem_singleton.mp mem'] at runs'
        exact absurd runs' (not_both u here runs)
    · refine ⟨a, by simp, runs, fun b mem' runs' => ?_⟩
      rcases mem_append.mp mem' with mem' | mem'
      · exact absurd runs (not_both b mem' runs')
      · rw [mem_singleton.mp mem']
  · rw [entered]
    exact fun cpu mem => (started cpu).mpr (.inl (h.entered mem))
  · rcases mem_append.mp (tasks ▸ mem) with mem | mem
    · have sound := h.sound b mem
      exact ⟨fun runs => (sound.runs runs).imp_left fun mem => (started _).mpr (.inl mem), sound.rests,
        entered ▸ sound.leaves⟩
    · rw [mem_singleton.mp mem]
      exact sound
  · rw [prequeue, queue]
    exact h.stopped

theorem Running.step (s : State) (x : Action) (t : State) (h : Running s) (orderly : Orderly s x)
    (taken : exec s x = some t) : Running t := by
  have distinct := h.distinct.step taken
  cases exec_step taken with
  | @createCurrentIdleTask cpu id fresh =>
    refine h.append ⟨fun _ => ⟨by simp, rfl⟩, by simp, by simp⟩ (fun _ => fresh) distinct rfl
      (fun cpu' => ?_) rfl rfl rfl
    simp only [mem_cons, runsOn_iff, and_true]
    tauto
  | newTask =>
    exact h.append ⟨by simp [new], fun _ => .inr rfl, fun _ _ => rfl⟩ (by simp [new]) distinct
      rfl (by simp [new]) rfl rfl rfl
  | adjust mem | registered mem | joined mem | joinReturn mem =>
    exact h.setTask mem ⟨rfl, rfl, rfl, rfl, rfl⟩ distinct
  | enterSwitch started => exact h.enterSwitch started distinct
  | @switched cpu stale task win count entered mem current counts won other =>
    have fresh : ∀ a ∈ s.tasks, stale = some a.ptr → a.running → a.cpu = cpu := by
      simpa [Orderly, Action.disturbs] using orderly
    obtain ⟨w, ptr, switching⟩ := h.switching entered mem current counts won other fresh
    rw [← ptr] at distinct ⊢
    exact h.switchTo switching distinct
  | @stayed cpu stale count entered counts =>
    have scanned := countPoints_scannedAs cpu counts
    refine h.map (fun a _ => ⟨(scanned a).ptr, (scanned a).cpu_eq, (scanned a).running⟩)
      (fun a mem => (scanned a).sound (h.sound a mem) entered) distinct rfl rfl ?_ h.stopped
    exact fun cpu' mem => h.entered (mem_filter.mp mem).1
  | clearStackQuarantines => simp [Orderly, Action.disturbs] at orderly
  | @ended x cpu current =>
    have same : ∀ a : Task, a.Same (if a.ptr = current.ptr then { a with ended := true }
        else a.exitEvent current.id) := fun a => by
      split_ifs
      · exact ⟨rfl, rfl, rfl, rfl, rfl⟩
      · exact exitEvent_same a _
    exact h.map (fun a _ => ⟨(same a).ptr, (same a).cpu, (same a).running⟩)
      (fun a mem => (same a).sound (h.sound a mem)) distinct rfl rfl h.entered h.stopped
  | @terminated ptr =>
    have rests : ∀ a ∈ s.tasks, a.ptr = ptr → a.running = false := by
      simpa [Orderly, Action.disturbs] using orderly
    refine h.change (f := id) (p := (·.ptr ≠ ptr)) (fun a mem gone => rests a mem (by simpa using gone))
      (fun a _ => ⟨rfl, rfl, rfl⟩) h.sound distinct (by simp [State.terminateBlocked]) rfl h.entered
      (h.stopped_append fun a mem => ?_)
    simp only [mem_filter, decide_eq_true_eq] at mem
    exact rests a mem.1 mem.2
  | @evicted x a b mem call =>
    rcases call with ⟨rfl, rfl⟩ | ⟨f, rfl, rests, rfl⟩
    · have rests : ∀ c ∈ s.tasks, c.ptr = b.ptr → c.running = false := by
        simpa [Orderly, Action.disturbs] using orderly
      exact h.evictTask mem ⟨rfl, rfl, rfl, rfl, rfl⟩ (rests _ mem rfl) distinct
    · exact h.evictTask mem (call_same _ f) rests distinct
  | called mem => exact h.setTask mem (call_same _ _) distinct
  | joinPassed => exact h
  | threadReaper => exact { h with distinct }
  | reaperStep done =>
    obtain ⟨tasks, prequeue, queue, started, entered, -⟩ := reaperStep_frame done
    refine h.map (f := id) (fun _ _ => ⟨rfl, rfl, rfl⟩) ?_ distinct (by simpa using tasks) started ?_ ?_
    · rw [started, entered]
      exact h.sound
    · rw [started, entered]
      exact h.entered
    · rw [prequeue]
      intro a mem
      rcases mem_append.mp mem with mem | mem
      · exact h.stopped a (mem_append_left _ mem)
      · exact h.stopped a (mem_append_right _ (queue mem))

theorem Running.resumesSafely (h : Running s) : s.ResumesSafely := by
  intro cpu stale t taken a mem b mem' same rests runs
  have rests : a.running = false := by simpa using rests
  have viable : a.cpu = cpu ∨ a.stackQuarantine = false := by
    cases exec_step taken with
    | @switched _ _ task win count entered mem_task current counts won other =>
      have scanned := countPoints_scannedAs cpu counts
      obtain ⟨w, here, ptr, viable, -⟩ := winner_spec counts won
      simp only [State.switchTo, map_map, mem_filter, mem_map, Function.comp_apply] at mem'
      obtain ⟨⟨c, mem_c, rfl⟩, -⟩ := mem'
      rw [switch_ptr, (scanned c).ptr] at same
      obtain rfl := h.distinct.eq mem_c mem same
      rcases switch_cases cpu task.ptr win.ptr (count (c.clearQuarantine cpu)) with
        ⟨-, stops, -⟩ | ⟨-, wins, -⟩ | ⟨-, -, unchanged⟩
      · simp [stops] at runs
      · obtain rfl := h.distinct.eq mem here ((scanned c).ptr.symm.trans (wins.trans ptr.symm))
        exact viable
      · rw [unchanged, (scanned c).running] at runs
        simp [rests] at runs
    | @stayed _ _ count entered counts =>
      obtain ⟨c, mem_c, rfl⟩ := mem_map.mp mem'
      have scanned := countPoints_scannedAs cpu counts c
      obtain rfl := h.distinct.eq mem_c mem (scanned.ptr.symm.trans same)
      rw [scanned.running] at runs
      simp [rests] at runs
    | ended call | evicted _ call => simp at call
  rcases viable with here | free
  · exact .inl here
  · exact .inr (((h.sound a mem).rests rests).resolve_left (by simp [free]))

theorem running_new : Running .new :=
  ⟨distinct_new, by simp [State.new], by simp [State.new], by simp [State.new], by simp [State.new]⟩

/-- Where only tasks are terminated that do not run, each CPU has one task. -/
theorem oneEach_of_orderly {actions : List Action} (run : RunWhen Orderly exec .new actions s) :
    s.OneEach ∧ s.ResumesSafely ∧ s.QueuesStopped := by
  have running := run.invariant Running.step running_new
  exact ⟨running.oneEach, running.resumesSafely, fun a mem => by simp [running.stopped a mem]⟩

/-- A task runs on one CPU, is blocked, and is resumed on another; a new task is terminated. -/
theorem oneEach_migration : ∃ s, RunWhen Orderly exec .new
      [.createCurrentIdleTask 0, .createCurrentIdleTask 1, .newTask, .enterSwitch 0,
        .switchTasks 0 none, .adjust 2 true 0, .enterSwitch 0, .switchTasks 0 none, .enterSwitch 0,
        .switchTasks 0 none, .adjust 2 false 0, .enterSwitch 1, .switchTasks 1 none, .newTask,
        .terminateBlocked 3] s ∧
    s.tasks.map (fun a => (a.ptr, a.cpu, a.running)) = [(0, 0, true), (1, 1, false), (2, 1, true)] ∧
    s.OneEach ∧ s.ResumesSafely ∧ s.QueuesStopped := by
  exact RunWhen.exists_and (f := fun s => s.tasks.map fun a => (a.ptr, a.cpu, a.running))
    (by decide +kernel) fun s run tasks => ⟨tasks, oneEach_of_orderly run⟩

/-- A page fault cannot be resolved and the task is terminated before its CPU has switched: the CPU
is left without a task, and a task that is marked running waits to be deleted. -/
theorem not_oneEach_terminated : ∃ s, Run exec .new
      [.createCurrentIdleTask 0, .createCurrentIdleTask 1, .newTask, .enterSwitch 0,
        .switchTasks 0 none, .adjust 2 true 0, .terminateBlocked 2] s ∧
    s.tasks.filter (·.runsOn 0) = [] ∧ ¬s.OneEach ∧ ¬s.QueuesStopped := by
  let idle : ℕ → Task := fun cpu => { new cpu (cpu + 1) with
    cpu := cpu, priorityGroup := .idle, cpuPinned := true }
  let faulted : Task := { new 2 3 with running := true, blocked := true }
  refine ⟨⟨[{ idle 0 with stackQuarantine := true, points := 1, vacated := false },
      { idle 1 with running := true }], 3, 3, [faulted], [], 0, [], [], [1, 0], []⟩,
    .of_foldlM (by decide +kernel), rfl, fun one => ?_, fun stopped => ?_⟩
  · exact absurd (one 0 (by simp)) (by decide)
  · exact stopped faulted (by simp) rfl

end JeoKernel.Tasks

import JeoKernel.Tasks.Tasklist

/-!
# Tasks that wait for the end of a task

A task in `join` is blocked until its `task_join_handler` receives `TASK_EVENT_EXIT`.  `exit`,
`user_exit` and `evict_task_with_lock` send the event.  `terminate_blocked` does not, and neither does
`switch_tasks` where a callback ends the task that it switches out.
-/

namespace JeoKernel.Tasks

open List Machine JeoKernel.Tasks.Task

/-! ## What is claimed -/

/-- There is a task with the id that has not ended. -/
def State.Live (s : State) (id : ℕ) : Prop := ∃ b ∈ s.tasks, b.id = id ∧ b.ended = false

/-- A task that is blocked in `join` waits for a task that has not ended. -/
def State.JoinsLive (s : State) : Prop :=
  ∀ a ∈ s.tasks, ∀ id, a.joining = some id → a.blocked → id ∈ a.joins → s.Live id

/-- Another task has a handler that waits for the end of the task. -/
def State.joined (s : State) (a : Task) : Bool :=
  s.tasks.any fun b => b.ptr ≠ a.ptr && a.id ∈ b.joins

/-- The step takes a task off the list that another one waits for, and sends no event. -/
def Action.silences (s : State) : Action → Bool
  | .terminateBlocked ptr => s.tasks.any fun a => a.ptr = ptr && s.joined a
  | .switchTasks cpu stale =>
    s.tasks.any fun a => s.tasks.foldl (Task.asCurrent cpu) stale = some a.ptr && !a.ended &&
      .setEnd ∈ a.doWhenNotRunning && s.joined a
  | _ => false

/-- `terminate_blocked`, and callbacks that end a task which is switched out, are used on tasks that
no other task waits for. -/
def Announced (s : State) (x : Action) : Prop := ¬x.silences s

instance (s : State) (x : Action) : Decidable (Announced s x) := inferInstanceAs (Decidable (¬_))

/-! ## The invariant -/

/-- The task has a handler for the id.  A handler for the task itself counts only while the task is in
the call of `join`. -/
def Task.Awaits (a : Task) (id : ℕ) : Prop := id ∈ a.joins ∧ (id ≠ a.id ∨ a.joining = some id)

structure Joined (s : State) : Prop where
  distinct : Distinct s
  live : ∀ a ∈ s.tasks, ∀ id, a.Awaits id → s.Live id

variable {s t : State} {a b : Task} {id : ℕ}

theorem Joined.joinsLive (h : Joined s) : s.JoinsLive :=
  fun a mem id joining _ handler => h.live a mem id ⟨handler, .inr joining⟩

/-- What `join` reads of a task is unchanged. -/
structure Task.Alike (a b : Task) : Prop where
  id : b.id = a.id
  ended : b.ended = a.ended
  joins : b.joins = a.joins
  joining : b.joining = a.joining ∨ b.joining = none

theorem Task.Awaits.of_eq (same_id : b.id = a.id) (joins : b.joins = a.joins)
    (joining : b.joining = a.joining) (h : b.Awaits id) : a.Awaits id :=
  ⟨joins ▸ h.1, same_id ▸ joining ▸ h.2⟩

theorem Task.Alike.awaits (same : a.Alike b) (h : b.Awaits id) : a.Awaits id := by
  obtain ⟨handler, waits⟩ := h
  refine ⟨same.joins ▸ handler, waits.imp (fun other => same.id ▸ other) fun joining => ?_⟩
  rcases same.joining with equal | none
  · exact equal ▸ joining
  · rw [none] at joining
    cases joining

theorem Joined.map (h : Joined s) {f : Task → Task} (distinct : Distinct t)
    (tasks : t.tasks = s.tasks.map f) (same : ∀ a ∈ s.tasks, a.Alike (f a)) : Joined t := by
  refine ⟨distinct, fun b mem id waits => ?_⟩
  rw [tasks] at mem
  obtain ⟨a, here, rfl⟩ := mem_map.mp mem
  obtain ⟨c, here', named, going⟩ := h.live a here id ((same a here).awaits waits)
  exact ⟨f c, tasks ▸ mem_map_of_mem here', (same c here').id.trans named,
    (same c here').ended.trans going⟩

theorem Joined.setTask (h : Joined s) (distinct : Distinct (s.setTask b)) (mem : a ∈ s.tasks)
    (ptr : b.ptr = a.ptr) (same : a.Alike b) : Joined (s.setTask b) := by
  refine h.map distinct rfl fun c mem' => ?_
  split_ifs with here
  · rw [h.distinct.eq mem' mem (here.trans ptr)]
    exact same
  · exact ⟨rfl, rfl, rfl, .inl rfl⟩

theorem Joined.join (h : Joined s) {current other : Task} (mem : current ∈ s.tasks)
    (mem' : other ∈ s.tasks) (going : other.ended = false) {t : State} (result : t = s.setTask
      { current with joins := current.joins ++ [other.id], blocked := true, joining := some other.id })
    (distinct : Distinct t) : Joined t := by
  have still : ∀ id, s.Live id → t.Live id := by
    subst result
    rintro id ⟨c, here, named, going⟩
    refine ⟨_, mem_map_of_mem here, ?_⟩
    split_ifs with same
    · obtain rfl := h.distinct.eq here mem same
      exact ⟨named, going⟩
    · exact ⟨named, going⟩
  refine ⟨distinct, fun b listed id waits => still id ?_⟩
  subst result
  obtain ⟨c, here, rfl⟩ := mem_map.mp listed
  split_ifs at waits with same
  · rcases mem_append.mp waits.1 with handler | handler
    · rcases waits.2 with not_own | now
      · exact h.live current mem id ⟨handler, .inl not_own⟩
      · exact ⟨other, mem', Option.some.inj now, going⟩
    · exact ⟨other, mem', (mem_singleton.mp handler).symm, going⟩
  · exact h.live c here id waits

theorem exitEvent_alike (a : Task) (id : ℕ) :
    (a.exitEvent id).id = a.id ∧ (a.exitEvent id).ended = a.ended ∧
      ∀ id', (a.exitEvent id).Awaits id' → id' ≠ id ∧ a.Awaits id' := by
  unfold exitEvent
  split_ifs with handler
  · refine ⟨rfl, rfl, fun id' waits => ?_⟩
    obtain ⟨mem, other⟩ := mem_filter.mp waits.1
    exact ⟨by simpa using other, mem, waits.2⟩
  · refine ⟨rfl, rfl, fun id' waits => ⟨?_, waits⟩⟩
    rintro rfl
    exact handler waits.1

theorem Joined.ended (h : Joined s) {current : Task} (mem : current ∈ s.tasks)
    (free : current.joining = none) (distinct : Distinct t)
    (tasks : t.tasks = s.tasks.map fun a =>
      if a.ptr = current.ptr then { a with ended := true } else a.exitEvent current.id) :
    Joined t := by
  have still : ∀ id ≠ current.id, s.Live id → t.Live id := by
    rintro id other ⟨c, here, named, going⟩
    have not_current : c.ptr ≠ current.ptr := fun same =>
      other (named.symm.trans (congrArg Task.id (h.distinct.eq here mem same)))
    refine ⟨c.exitEvent current.id, ?_, (exitEvent_alike c _).1.trans named,
      (exitEvent_alike c _).2.1.trans going⟩
    rw [tasks]
    exact mem_map.mpr ⟨c, here, if_neg not_current⟩
  refine ⟨distinct, fun b listed id waits => ?_⟩
  rw [tasks] at listed
  obtain ⟨a, here, rfl⟩ := mem_map.mp listed
  split_ifs at waits with same
  · obtain rfl := h.distinct.eq here mem same
    have other : id ≠ a.id := waits.2.resolve_right (by simp [free])
    exact still id other (h.live a here id waits)
  · obtain ⟨other, waits⟩ := (exitEvent_alike a current.id).2.2 id waits
    exact still id other (h.live a here id waits)

theorem Joined.evictTask (h : Joined s) (mem : a ∈ s.tasks) (ptr : b.ptr = a.ptr) (same : b.id = a.id)
    (distinct : Distinct (s.evictTask b)) : Joined (s.evictTask b) := by
  refine ⟨distinct, fun d listed id waits => ?_⟩
  obtain ⟨c, here, rfl⟩ := mem_map.mp listed
  obtain ⟨other, waits⟩ := (exitEvent_alike c b.id).2.2 id waits
  obtain ⟨e, here', named, going⟩ := h.live c (mem_filter.mp here).1 id waits
  refine ⟨e.exitEvent b.id, mem_map_of_mem (mem_filter.mpr ⟨here', ?_⟩),
    (exitEvent_alike e _).1.trans named, (exitEvent_alike e _).2.1.trans going⟩
  have : e.ptr ≠ b.ptr := by
    intro equal
    obtain rfl := h.distinct.eq here' mem (equal.trans ptr)
    exact other (named.symm.trans same.symm)
  simpa using this

/-- A task that nobody else waits for leaves the list, and the others are changed one by one. -/
theorem Joined.drop (h : Joined s) {f : Task → Task} (distinct : Distinct t)
    (from_s : ∀ b ∈ t.tasks, ∃ a ∈ s.tasks, b = f a) (same : ∀ a ∈ s.tasks, f a ∈ t.tasks →
      ∀ id, (f a).Awaits id → a.Awaits id)
    (stays : ∀ c ∈ s.tasks, c.ended = false →
      (f c ∈ t.tasks ∧ (f c).id = c.id ∧ (f c).ended = false) ∨
        ∀ a ∈ s.tasks, f a ∈ t.tasks → c.id ∉ a.joins) : Joined t := by
  refine ⟨distinct, fun b here id waits => ?_⟩
  obtain ⟨a, mem, rfl⟩ := from_s b here
  have waits := same a mem here id waits
  obtain ⟨c, mem', named, going⟩ := h.live a mem id waits
  rcases stays c mem' going with ⟨kept, same_id, going⟩ | unheard
  · exact ⟨f c, kept, same_id.trans named, going⟩
  · exact absurd (named ▸ waits.1) (unheard a mem here)

/-! ## The steps -/

theorem setNotRunning_ended (ends : a.setNotRunning.ended) :
    a.ended ∨ .setEnd ∈ a.doWhenNotRunning := by
  have calls : ∀ (fs : List Callback) (b : Task),
      (fs.foldl call b).ended → b.ended ∨ .setEnd ∈ fs := by
    intro fs
    induction fs with
    | nil => exact fun b ends => .inl ends
    | cons f fs ih =>
      intro b ends
      rcases ih _ ends with now | later
      · cases f with
        | setEnd => exact .inr mem_cons_self
        | setBlocked blocked => exact .inl now
      · exact .inr (mem_cons_of_mem _ later)
  exact calls a.doWhenNotRunning { a with running := false } ends

theorem switch_alike (a : Task) (cpu current win : ℕ) :
    let b := a.switch cpu current win
    b.id = a.id ∧ b.joins = a.joins ∧ b.joining = a.joining ∧
      (b.ended → a.ended ∨ a.ptr = current ∧ .setEnd ∈ a.doWhenNotRunning) := by
  unfold switch
  split_ifs with same
  · have called := setNotRunning_called { a with stackQuarantine := a.stackQuarantine || !a.ended }
    exact ⟨called.id, called.joins, called.joining, fun ends =>
      (setNotRunning_ended ends).imp_right fun callback => ⟨same, callback⟩⟩
  · exact ⟨rfl, rfl, rfl, .inl⟩
  · exact ⟨rfl, rfl, rfl, .inl⟩

theorem not_joined (alone : ¬s.joined a) (mem : b ∈ s.tasks) (other : b.ptr ≠ a.ptr) :
    a.id ∉ b.joins := fun handler =>
  alone (any_eq_true.mpr ⟨b, mem, by simp [other, handler]⟩)

theorem Joined.switchTo (h : Joined s) {task win : Task} {count : Task → Task} {cpu : ℕ}
    {stale : Option ℕ}
    (current : s.tasks.foldl (Task.asCurrent cpu) stale = some task.ptr)
    (counts : ∃ current points inPool, count = Task.countPoints current points inPool)
    (announced : Announced s (.switchTasks cpu stale))
    {t : State} (result : t = State.switchTo { s with entered := s.entered.filter (· ≠ cpu) }
      (s.tasks.map fun a => count (a.clearQuarantine cpu)) cpu task.ptr win.ptr)
    (distinct : Distinct t) : Joined t := by
  let f : Task → Task := fun a => (count (a.clearQuarantine cpu)).switch cpu task.ptr win.ptr
  have ptr : ∀ a, (f a).ptr = a.ptr := fun a =>
    (switch_ptr ..).trans (countPoints_scannedAs cpu counts a).ptr
  have listed : ∀ b, b ∈ t.tasks ↔ (∃ a ∈ s.tasks, f a = b) ∧ ¬(b.ptr = task.ptr ∧ b.ended) := by
    simp [result, State.switchTo, f, imp_iff_not_or]
  refine h.drop (f := f) distinct (fun b here => ?_) (fun a here _ id waits => ?_)
    fun c here going => ?_
  · obtain ⟨⟨a, mem, same⟩, -⟩ := (listed b).mp here
    exact ⟨a, mem, same.symm⟩
  · have scanned := countPoints_scannedAs cpu counts a
    obtain ⟨same_id, joins, joining, -⟩ :=
      switch_alike (count (a.clearQuarantine cpu)) cpu task.ptr win.ptr
    exact Task.Awaits.of_eq (same_id.trans scanned.id) (joins.trans scanned.joins)
      (joining.trans scanned.joining) waits
  · have scanned := countPoints_scannedAs cpu counts c
    obtain ⟨same_id, -, -, ends⟩ :=
      switch_alike (count (c.clearQuarantine cpu)) cpu task.ptr win.ptr
    by_cases ended : (f c).ended
    · -- the current task is ended by a callback
      rcases ends ended with before | ⟨same, callback⟩
      · rw [scanned.ended, going] at before
        cases before
      rw [scanned.ptr] at same
      rw [scanned.doWhenNotRunning] at callback
      have alone : ¬s.joined c := fun joined => announced
        (any_eq_true.mpr ⟨c, here, by simp [current, same, going, callback, joined]⟩)
      refine .inr fun a here' kept => not_joined alone here' fun same' => ?_
      obtain rfl := h.distinct.eq here' here same'
      exact ((listed _).mp kept).2 ⟨(ptr a).trans same, ended⟩
    · exact .inl ⟨(listed _).mpr ⟨⟨c, here, rfl⟩, fun gone => ended gone.2⟩,
        same_id.trans scanned.id, by simpa using ended⟩

theorem Joined.append (h : Joined s) (distinct : Distinct t) (tasks : t.tasks = s.tasks ++ [a])
    (idle : a.joins = []) : Joined t := by
  refine ⟨distinct, fun b mem id waits => ?_⟩
  rw [tasks] at mem
  rcases mem_append.mp mem with mem | mem
  · obtain ⟨c, here, live⟩ := h.live b mem id waits
    exact ⟨c, tasks ▸ mem_append_left _ here, live⟩
  · obtain ⟨handler, -⟩ := waits
    rw [mem_singleton.mp mem, idle] at handler
    cases handler

theorem Joined.step {x : Action} (h : Joined s) (announced : Announced s x)
    (taken : exec s x = some t) : Joined t := by
  have distinct := h.distinct.step taken
  cases exec_step taken with
  | createCurrentIdleTask | newTask => exact h.append distinct rfl rfl
  | adjust mem | registered mem => exact h.setTask distinct mem rfl ⟨rfl, rfl, rfl, .inl rfl⟩
  | enterSwitch => exact h.map distinct rfl fun a _ => ⟨rfl, rfl, rfl, .inl rfl⟩
  | switched _ _ current counts => exact h.switchTo current counts announced rfl distinct
  | @stayed cpu _ _ _ counts =>
    refine h.map distinct rfl fun a _ => ?_
    have scanned := countPoints_scannedAs cpu counts a
    exact ⟨scanned.id, scanned.ended, scanned.joins, .inl scanned.joining⟩
  | clearStackQuarantines =>
    refine h.map distinct rfl fun a _ => ?_
    unfold clearQuarantine
    split_ifs <;> exact ⟨rfl, rfl, rfl, .inl rfl⟩
  | ended _ mem free => exact h.ended mem free distinct rfl
  | @terminated ptr =>
    refine h.drop (f := fun a => a) distinct (fun b here => ⟨b, (mem_filter.mp here).1, rfl⟩)
      (fun a _ _ id waits => waits) fun c here going => ?_
    by_cases gone : c.ptr = ptr
    · have alone : ¬s.joined c := fun joined => announced
        (any_eq_true.mpr ⟨c, here, by simp [gone, joined]⟩)
      refine .inr fun a here' kept => not_joined alone here' ?_
      rw [gone]
      simpa using (mem_filter.mp kept).2
    · exact .inl ⟨mem_filter.mpr ⟨here, by simpa using gone⟩, rfl, going⟩
  | evicted mem call =>
    rcases call with ⟨-, rfl⟩ | ⟨f, -, -, rfl⟩
    · exact h.evictTask mem rfl rfl distinct
    · exact h.evictTask mem (call_called _ f).ptr (call_called _ f).id distinct
  | @called a f mem stopped going =>
    have called := call_called a f
    refine h.setTask distinct mem called.ptr ⟨called.id, ?_, called.joins, .inl called.joining⟩
    rw [Bool.eq_false_iff.mpr going]
    exact (Bool.eq_false_iff.mpr fun before => going (called.ended before)).symm
  | joined mem _ mem' going => exact h.join mem mem' (by simpa using going) rfl distinct
  | joinPassed => exact h
  | joinReturn mem => exact h.setTask distinct mem rfl ⟨rfl, rfl, rfl, .inr rfl⟩
  | threadReaper => exact ⟨distinct, h.live⟩
  | reaperStep done =>
    obtain ⟨tasks, -⟩ := reaperStep_frame done
    refine h.map (f := fun a => a) distinct (by simp [tasks]) fun a _ => ⟨rfl, rfl, rfl, .inl rfl⟩

/-! ## The result -/

/-- No task waits for one that is gone, as long as no task is silenced that another one has joined. -/
theorem joinsLive_of_announced {s : State} {xs : List Action}
    (run : RunWhen Announced exec .new xs s) : s.JoinsLive :=
  (RunWhen.invariant (fun _ _ _ h announced taken => Joined.step h announced taken) run
    ⟨distinct_new, by simp [State.new]⟩).joinsLive

/-- A task joins another one, is woken by its exit, and joins a third one. -/
theorem joinsLive_third : ∃ s, RunWhen Announced exec .new
      [.createCurrentIdleTask 0, .createCurrentIdleTask 1, .newTask, .newTask, .newTask,
        .enterSwitch 0, .switchTasks 0 none, .enterSwitch 1, .switchTasks 1 none, .join 0 4,
        .exit 1, .joinReturn 0, .join 0 5] s ∧
    s.JoinsLive ∧ s.Live 5 ∧ ∃ a ∈ s.tasks, a.joining = some 5 ∧ a.blocked ∧ 5 ∈ a.joins := by
  let idle : ℕ → Task := fun cpu => { new cpu (cpu + 1) with
    cpu := cpu, stackQuarantine := true, priorityGroup := .idle, cpuPinned := true, points := 1,
    vacated := false }
  let joiner : Task := { new 2 3 with
    running := true, blocked := true, joins := [5], joining := some 5 }
  refine RunWhen.exists_and (f := State.tasks) (v := [idle 0, idle 1, joiner,
      { new 3 4 with cpu := 1, running := true, ended := true }, .new 4 5])
    (by decide +kernel) fun s run tasks => ?_
  have waits := joinsLive_of_announced run
  have mem : joiner ∈ s.tasks := by simp [tasks]
  exact ⟨waits, waits joiner mem 5 rfl rfl (by simp [joiner]), joiner, mem, rfl, rfl, by simp [joiner]⟩

/-- A task joins one that `terminate_blocked` takes off the list.  A task joins one that a callback
ends when it is switched out. -/
theorem not_joinsLive_silenced :
    (∃ s, Run exec .new
        [.createCurrentIdleTask 0, .newTask, .newTask, .enterSwitch 0, .switchTasks 0 none, .join 0 3,
          .terminateBlocked 2] s ∧ ¬s.JoinsLive) ∧
      ∃ s, Run exec .new
        [.createCurrentIdleTask 0, .createCurrentIdleTask 1, .newTask, .newTask, .enterSwitch 0,
          .switchTasks 0 none, .enterSwitch 1, .switchTasks 1 none, .whenNotRunning 3 .setEnd,
          .join 0 4, .adjust 3 true 0, .enterSwitch 1, .switchTasks 1 none] s ∧ ¬s.JoinsLive := by
  let idle : ℕ → Task := fun cpu => { new cpu (cpu + 1) with
    cpu := cpu, priorityGroup := .idle, cpuPinned := true, points := 1 }
  let joiner : ℕ → Task := fun ptr => { new ptr (ptr + 1) with
    running := true, blocked := true, joins := [ptr + 2], joining := some (ptr + 2) }
  let stopped : Task := { idle 0 with stackQuarantine := true, vacated := false }
  let gone : Task := { new 3 4 with
    cpu := 1, blocked := true, ended := true, stackQuarantine := true, points := 1, vacated := false }
  refine ⟨⟨⟨[stopped, joiner 1], 3, 3, [.new 2 3], [], 0, [], [], [0], []⟩,
      .of_foldlM (by decide +kernel), fun waits => ?_⟩,
    ⟨[stopped, { idle 1 with running := true }, joiner 2], 4, 4, [gone], [], 0, [], [], [1, 0], []⟩,
      .of_foldlM (by decide +kernel), fun waits => ?_⟩
  · have live := waits (joiner 1) (by simp) 3 rfl rfl (by simp [joiner])
    simp [State.Live, stopped, idle, joiner, new] at live
  · have live := waits (joiner 2) (by simp) 4 rfl rfl (by simp [joiner])
    simp [State.Live, stopped, idle, joiner, new] at live

end JeoKernel.Tasks

import JeoKernel.Tasks.Running

/-!
# The task that is chosen

`switch_tasks` lowers the points of a task before it compares them, but compares them with those of the
winner so far as they are.  A winner that has a bonus loses to a task behind it in the list that has
more effective points.
-/

namespace JeoKernel.Tasks

open List Machine JeoKernel.Tasks.Task

/-! ## What is claimed -/

def PriorityGroup.rank : PriorityGroup → ℕ
  | .idle => 0
  | .low => 1
  | .normal => 2
  | .realtime => 3

/-- The task can run on the CPU, whose stack quarantines are lifted. -/
def Task.runnable (cpu : ℕ) (a : Task) : Bool :=
  !a.blocked && !a.ended && !a.stackQuarantine && (a.cpu = cpu || !a.running && !a.cpuPinned)

/-- The tasks of a priority group that can run. -/
def candidates (cpu : ℕ) (group : PriorityGroup) (tasks : List Task) : List Task :=
  tasks.filter fun a => a.runnable cpu && a.priorityGroup = group

structure Chosen (cpu current : ℕ) (tasks : List Task) (win : Task) : Prop where
  mem : win ∈ candidates cpu win.priorityGroup tasks
  highest : ∀ group : PriorityGroup, candidates cpu group tasks ≠ [] →
    group.rank ≤ win.priorityGroup.rank
  least : ∀ a ∈ candidates cpu win.priorityGroup tasks, win.effective current ≤ a.effective current

variable {s t : State} {a b k task win : Task} {cpu current : ℕ} {stale : Option ℕ}
  {tasks l : List Task} {group : PriorityGroup}

/-- The tasks have different addresses, and one runs on the CPU. -/
structure Current (cpu : ℕ) (tasks : List Task) (task : Task) : Prop where
  distinct : (tasks.map (·.ptr)).Nodup
  mem : task ∈ tasks
  runs : task.runsOn cpu
  free : task.stackQuarantine = false
  only : ∀ a ∈ tasks, a.runsOn cpu → a = task

/-- The tasks as they are when `switch_tasks` looks for the winner. -/
def prepared (cpu : ℕ) (stale : Option ℕ) (tasks : List Task) (task : Task) : List Task :=
  tasks.map fun a => (a.clearQuarantine cpu).countPoints task.ptr task.points
    ((taskPool cpu stale tasks).map (·.ptr))

def winner (cpu : ℕ) (stale : Option ℕ) (tasks : List Task) (task : Task) : Option Task :=
  ((taskPool cpu stale tasks).map fun a =>
    a.countPoints task.ptr task.points ((taskPool cpu stale tasks).map (·.ptr))).foldl
      (contest task.ptr) none

/-- `switch_tasks` lets a task run that meets the claim. -/
def State.Selects (s : State) (cpu : ℕ) (stale : Option ℕ) (task : Task) : Prop :=
  ∃ win t, winner cpu stale s.tasks task = some win ∧ s.switchTasks cpu stale = some t ∧
    (∃ b ∈ t.tasks, b.ptr = win.ptr ∧ b.runsOn cpu) ∧
    Chosen cpu task.ptr (prepared cpu stale s.tasks task) win

/-! ## The contest -/

theorem effective_le (current : ℕ) (a : Task) : a.effective current ≤ a.points := by
  unfold effective
  dsimp only
  split_ifs <;> omega

theorem contest_stays (full : ∀ a ∈ l, win.points ≤ a.effective current) :
    l.foldl (contest current) (some win) = some win := by
  induction l with
  | nil => rfl
  | cons a l ih =>
    obtain ⟨here, full⟩ := forall_mem_cons.mp full
    rw [foldl_cons, contest_some, if_neg (not_lt.mpr here), ih full]

theorem contest_least {l₁ l₂ : List Task} (split : l = l₁ ++ k :: l₂)
    (least : ∀ a ∈ l, k.effective current ≤ a.effective current)
    (full : ∀ a ∈ l₂, k.points ≤ a.effective current) :
    ∃ win, l.foldl (contest current) none = some win ∧
      ∀ a ∈ l, win.effective current ≤ a.effective current := by
  subst split
  rw [foldl_append, foldl_cons]
  cases before : l₁.foldl (contest current) none with
  | none => exact ⟨k, contest_stays full, least⟩
  | some w =>
    rw [contest_some]
    split_ifs with less
    · exact ⟨k, contest_stays full, least⟩
    · -- The winner in front of it has no bonus and no more points than it.
      have same : ∀ a ∈ l₁ ++ k :: l₂, w.points ≤ a.effective current := fun a mem =>
        (not_lt.mp less).trans (least a mem)
      refine ⟨w, contest_stays fun a mem => same a (by simp [mem]), fun a mem => ?_⟩
      exact (effective_le current w).trans (same a mem)

/-! ## The pool -/

theorem mem_candidates :
    a ∈ candidates cpu group tasks ↔ a ∈ tasks ∧ a.runnable cpu ∧ a.priorityGroup = group := by
  simp [candidates]

theorem pool_eq {scanned : List (Task × Option ℕ)}
    (settled : ∀ x ∈ scanned, x.1.running → (x.2 = some x.1.ptr ↔ x.1.cpu = cpu)) :
    pool cpu group scanned = candidates cpu group (scanned.map (·.1)) := by
  rw [pool, candidates, filter_map]
  congr 1
  refine filter_congr fun x mem => ?_
  rw [Bool.eq_iff_iff]
  by_cases running : x.1.running <;> simp_all [viable, runnable] <;> tauto

theorem clearQuarantine_keeps (cpu : ℕ) (a : Task) : (a.clearQuarantine cpu).ptr = a.ptr ∧
    (a.clearQuarantine cpu).cpu = a.cpu ∧ (a.clearQuarantine cpu).running = a.running := by
  unfold clearQuarantine
  split_ifs <;> simp

theorem turns_mem {x : Task × Option ℕ} {before : Option ℕ} (mem : x ∈ turns cpu before tasks) :
    ∃ a ∈ tasks, ∃ before, x = (a.clearQuarantine cpu, a.asCurrent cpu before) := by
  induction tasks generalizing before with
  | nil => cases mem
  | cons a tasks ih =>
    rcases mem_cons.mp mem with rfl | mem
    · exact ⟨a, by simp, before, rfl⟩
    · obtain ⟨b, mem, found⟩ := ih mem
      exact ⟨b, by simp [mem], found⟩

theorem turns_map (cpu : ℕ) (before : Option ℕ) (tasks : List Task) :
    (turns cpu before tasks).map (·.1) = tasks.map (·.clearQuarantine cpu) := by
  induction tasks generalizing before with
  | nil => rfl
  | cons a tasks ih => simp [turns, ih]

section

variable (h : Current cpu tasks task) (fresh : ∀ a ∈ tasks, stale = some a.ptr → a.running → a.cpu = cpu)
include h

theorem Current.eq (mem : a ∈ tasks) (mem' : b ∈ tasks) (same : a.ptr = b.ptr) : a = b :=
  inj_on_of_nodup_map h.distinct mem mem' same

theorem Current.last (stale : Option ℕ) : tasks.foldl (Task.asCurrent cpu) stale = some task.ptr := by
  obtain ⟨b, mem, runs, last⟩ := foldl_asCurrent_of_mem stale h.mem h.runs h.free
  rw [last, h.only b mem runs]

include fresh

theorem Current.pool_first : pool cpu group (turns cpu stale tasks) =
    candidates cpu group (tasks.map (·.clearQuarantine cpu)) := by
  rw [pool_eq, turns_map]
  intro x mem running
  obtain ⟨a, here, before, rfl⟩ := turns_mem mem
  have scanned := (turns_scanned mem).2
  simp only [clearQuarantine_keeps] at running scanned ⊢
  constructor
  · intro found
    rcases scanned with old | ⟨b, mem', runs, last⟩
    · exact fresh a here (old.symm.trans found) running
    · obtain rfl := h.eq mem' here (Option.some.inj (last.symm.trans found))
      exact (runsOn_iff.mp runs).1
  · intro runs
    have free := h.only a here (runsOn_iff.mpr ⟨runs, running⟩) ▸ h.free
    simp [asCurrent, runs, running, free]

omit fresh

theorem Current.pool_second : pool cpu group (tasks.map fun a =>
      (a.clearQuarantine cpu, tasks.foldl (Task.asCurrent cpu) stale)) =
    candidates cpu group (tasks.map (·.clearQuarantine cpu)) := by
  rw [h.last, pool_eq, map_map]
  · rfl
  · intro x mem running
    obtain ⟨a, here, rfl⟩ := mem_map.mp mem
    simp only [clearQuarantine_keeps, Option.some.injEq] at running ⊢
    constructor
    · intro same
      obtain rfl := h.eq h.mem here same
      exact (runsOn_iff.mp h.runs).1
    · intro runs
      rw [h.only a here (runsOn_iff.mpr ⟨runs, running⟩)]

end

/-! ## The choice -/

theorem candidates_map (cpu : ℕ) (group : PriorityGroup) (stale : Option ℕ) (tasks : List Task)
    (task : Task) : candidates cpu group (prepared cpu stale tasks task) =
      (candidates cpu group (tasks.map (·.clearQuarantine cpu))).map fun a =>
        a.countPoints task.ptr task.points ((taskPool cpu stale tasks).map (·.ptr)) := by
  have twice : prepared cpu stale tasks task = (tasks.map (·.clearQuarantine cpu)).map fun a =>
      a.countPoints task.ptr task.points ((taskPool cpu stale tasks).map (·.ptr)) := by
    rw [map_map]
    rfl
  rw [twice, candidates, candidates, filter_map]
  congr 1
  refine filter_congr fun a _ => ?_
  dsimp only [Function.comp_apply]
  unfold countPoints
  split_ifs <;> rfl

theorem exists_top (pools : PriorityGroup → List Task) : ∃ top : PriorityGroup,
    (if pools .realtime ≠ [] then pools .realtime else if pools .normal ≠ [] then pools .normal
      else if pools .low ≠ [] then pools .low else pools .idle) = pools top ∧
    ∀ group : PriorityGroup, pools group ≠ [] → group.rank ≤ top.rank ∧ pools top ≠ [] := by
  split_ifs with realtime normal low
  · exact ⟨.realtime, rfl, fun group _ => ⟨by cases group <;> decide, realtime⟩⟩
  · exact ⟨.normal, rfl, fun group _ => ⟨by cases group <;> simp_all [PriorityGroup.rank], normal⟩⟩
  · exact ⟨.low, rfl, fun group _ => ⟨by cases group <;> simp_all [PriorityGroup.rank], low⟩⟩
  · refine ⟨.idle, rfl, fun group some => ?_⟩
    cases group <;> simp_all

theorem Current.winner_eq (h : Current cpu tasks task)
    (fresh : ∀ a ∈ tasks, stale = some a.ptr → a.running → a.cpu = cpu) : ∃ top : PriorityGroup,
    winner cpu stale tasks task =
        (candidates cpu top (prepared cpu stale tasks task)).foldl (contest task.ptr) none ∧
      ∀ group : PriorityGroup, candidates cpu group (prepared cpu stale tasks task) ≠ [] →
        group.rank ≤ top.rank ∧ candidates cpu top (prepared cpu stale tasks task) ≠ [] := by
  obtain ⟨top, picked, highest⟩ :=
    exists_top fun group => candidates cpu group (tasks.map (·.clearQuarantine cpu))
  have pooled : taskPool cpu stale tasks = candidates cpu top (tasks.map (·.clearQuarantine cpu)) := by
    simp only [taskPool, h.pool_first fresh, h.pool_second]
    exact picked
  refine ⟨top, by rw [winner, candidates_map, ← pooled], ?_⟩
  simpa [candidates_map] using highest

theorem chosen_iff {top : PriorityGroup} (highest : ∀ group : PriorityGroup,
      candidates cpu group tasks ≠ [] → group.rank ≤ top.rank ∧ candidates cpu top tasks ≠ []) :
    Chosen cpu current tasks win ↔ win ∈ candidates cpu top tasks ∧
      ∀ a ∈ candidates cpu top tasks, win.effective current ≤ a.effective current := by
  constructor
  · intro chosen
    obtain ⟨le, some⟩ := highest _ (ne_nil_of_mem chosen.mem)
    have ge := chosen.highest top some
    obtain rfl : win.priorityGroup = top := by
      cases same : win.priorityGroup <;> cases top <;> simp_all [PriorityGroup.rank]
    exact ⟨chosen.mem, chosen.least⟩
  · rintro ⟨mem, least⟩
    obtain rfl := (mem_candidates.mp mem).2.2
    exact ⟨mem, fun group some => (highest group some).1, least⟩

theorem Current.switchTasks_runs (h : Current cpu s.tasks task)
    (won : winner cpu stale s.tasks task = some win)
    (chosen : Chosen cpu task.ptr (prepared cpu stale s.tasks task) win) :
    ∃ t, s.switchTasks cpu stale = some t ∧ ∃ b ∈ t.tasks, b.ptr = win.ptr ∧ b.runsOn cpu := by
  obtain ⟨mem, runs, -⟩ := mem_candidates.mp chosen.mem
  obtain ⟨a, here, same⟩ := mem_map.mp mem
  have kept : ScannedAs cpu a win := same ▸ countPoints_scannedAs cpu ⟨_, _, _, rfl⟩ a
  have found : s.tasks.find? (·.ptr = task.ptr) = some task := by
    cases found : s.tasks.find? (·.ptr = task.ptr) with
    | none => exact absurd (find?_eq_none.mp found task h.mem) (by simp)
    | some b => rw [h.eq (mem_of_find?_eq_some found) h.mem (by simpa using find?_some found)]
  unfold State.switchTasks
  rw [h.last, Option.bind_eq_bind, Option.bind_some, found, Option.bind_eq_bind, Option.bind_some]
  change ∃ t, ((winner cpu stale s.tasks task).bind fun win => _) = some t ∧ _
  rw [won, Option.bind_some]
  by_cases other : win.ptr ≠ task.ptr
  · rw [if_pos other]
    refine ⟨_, rfl, { win with running := true, cpu := cpu },
      mem_filter.mpr ⟨mem_map.mpr ⟨_, mem, ?_⟩, by simp [other]⟩, rfl, by simp⟩
    rw [Task.switch, if_neg other, if_pos rfl]
  · obtain rfl := h.eq here h.mem (kept.ptr.symm.trans (not_not.mp other))
    rw [if_neg other, if_neg]
    · exact ⟨_, rfl, _, mem, rfl, by simpa [kept.cpu_eq, kept.running] using h.runs⟩
    · rw [← kept.ended]
      simp only [runnable, Bool.and_eq_true, Bool.not_eq_true'] at runs
      simp [runs]

def onCpu (ptr cpu points : ℕ) : Task :=
  { Task.new ptr ptr with cpu := cpu, running := true, points := points }

end JeoKernel.Tasks

import JeoKernel.Lib.Machine
import Mathlib.Algebra.Order.Ring.Int
import Mathlib.Data.List.Nodup
import Mathlib.Data.List.Perm.Subperm
import Mathlib.Data.List.Range

/-!
# Process ids and resource limits

`AllocPid` keeps the ids it has given out in an ordered vector that nothing is removed from.
`setrlimit` checks a new limit against the hard limit it replaces, and never its two halves against
each other.
-/

namespace JeoKernel

open List Option Function Machine

/-! ## Process ids -/

namespace Pids

structure State where
  pids : List ℤ
  next : ℤ
  deriving DecidableEq

def start : State := ⟨[], 1⟩

def pidMax : ℤ := 2 ^ 31 - 1

def inc (next : ℤ) : ℤ := (next + 1).bmod (2 ^ 32)

/-- The loop of `FindNextPid`: the pid and the cursor behind it, or `none` where the cursor has left
the range of pids. -/
def scan (next : ℤ) : List ℤ → Option (ℤ × ℤ)
  | [] => some (next, inc next)
  | p :: pids =>
    if next < p then some (next, inc next)
    else if next = p then
      if inc next < 1 ∨ pidMax < inc next then none else scan (inc next) pids
    else scan next pids

/-- `FindNextPid`, with fuel for its calls of itself. -/
def findNextPid (pids : List ℤ) : ℕ → ℤ → Option (ℤ × ℤ)
  | 0, _ => none
  | fuel + 1, next => (scan next pids).or (findNextPid pids fuel 1)

def insertPid (pid : ℤ) : List ℤ → List ℤ
  | [] => [pid]
  | p :: pids => if pid < p then pid :: p :: pids else p :: insertPid pid pids

def allocPid (fuel : ℕ) (s : State) : Option (ℤ × State) :=
  (findNextPid s.pids fuel s.next).map fun found => (found.1, ⟨insertPid found.1 s.pids, found.2⟩)

def allocPids (fuel : ℕ) : ℕ → Option (List ℤ × State)
  | 0 => some ([], start)
  | n + 1 =>
    (allocPids fuel n).bind fun (returned, s) =>
      (allocPid fuel s).map fun (pid, s) => (returned ++ [pid], s)

theorem scan_of_lt {next : ℤ} {pids : List ℤ} (below : ∀ p ∈ pids, p < next) :
    scan next pids = some (next, inc next) := by
  induction pids with
  | nil => rfl
  | cons p pids ih =>
    have first := below p mem_cons_self
    rw [scan, if_neg (by omega), if_neg (by omega), ih fun q mem => below q (mem_cons_of_mem p mem)]

theorem insertPid_of_lt {pid : ℤ} {pids : List ℤ} (below : ∀ p ∈ pids, p < pid) :
    insertPid pid pids = pids ++ [pid] := by
  induction pids with
  | nil => rfl
  | cons p pids ih =>
    have first := below p mem_cons_self
    rw [insertPid, if_neg (by omega), ih fun q mem => below q (mem_cons_of_mem p mem), cons_append]

def firstPids (n : ℕ) : List ℤ := (range n).map fun i : ℕ => (i : ℤ) + 1

theorem mem_firstPids {n : ℕ} {pid : ℤ} : pid ∈ firstPids n ↔ 1 ≤ pid ∧ pid ≤ n := by
  simp only [firstPids, List.mem_map, mem_range]
  constructor
  · rintro ⟨i, below, rfl⟩
    omega
  · rintro ⟨pos, le⟩
    exact ⟨(pid - 1).toNat, by omega, by omega⟩

theorem pairwise_firstPids (n : ℕ) : (firstPids n).Pairwise (· < ·) :=
  pairwise_map.mpr (pairwise_lt_range.imp fun lt => by omega)

/-- The cursor leaves the range only behind the last pid. -/
theorem allocPids_eq (fuel : ℕ) {n : ℕ} (short : n < 2 ^ 31) :
    allocPids (fuel + 1) n = some (firstPids n, ⟨firstPids n, inc n⟩) := by
  induction n with
  | zero => rfl
  | succ n ih =>
    have next : inc n = n + 1 := Int.bmod_eq_of_le (by omega) (by omega)
    have below : ∀ p ∈ firstPids n, p < inc n := by
      intro p mem
      have := mem_firstPids.mp mem
      omega
    have more : firstPids (n + 1) = firstPids n ++ [inc n] := by
      simp [firstPids, range_succ, next]
    rw [allocPids, ih (by omega), more, Nat.cast_succ, ← next]
    simp [allocPid, findNextPid, scan_of_lt below, insertPid_of_lt below]

structure Unique (n : ℕ) (returned : List ℤ) (s : State) : Prop where
  length : returned.length = n
  ordered : s.pids.Pairwise (· < ·)
  valid : ∀ pid ∈ returned, 1 ≤ pid ∧ pid ≤ pidMax
  nodup : returned.Nodup

theorem exists_unique_pids (fuel : ℕ) {n : ℕ} (short : n < 2 ^ 31) :
    ∃ returned s, allocPids (fuel + 1) n = some (returned, s) ∧ Unique n returned s := by
  refine ⟨_, _, allocPids_eq fuel short, ?_, pairwise_firstPids n, fun pid mem => ?_, ?_⟩
  · simp [firstPids]
  · have := mem_firstPids.mp mem
    unfold pidMax
    omega
  · exact (pairwise_firstPids n).imp ne_of_lt

theorem exists_three_unique_pids :
    allocPids 1 3 = some ([1, 2, 3], ⟨[1, 2, 3], 4⟩) ∧
      ∃ returned s, allocPids 1 3 = some (returned, s) ∧ Unique 3 returned s :=
  ⟨by decide, exists_unique_pids 0 (by decide)⟩

end Pids

/-! ## Resource limits -/

structure RLimit where
  cur : UInt64
  max : UInt64

namespace RLimits

def infinity : UInt64 := 0xffffffffffffffff

inductive Field
  | cpu | fileSize | data | stack | coreSize | rss | nproc | nofile | memlocks | addressSpace | locks
  | sigpending | msgqueue | nice | rtprio | rttime
  deriving DecidableEq

def resources : List Field :=
  [.cpu, .fileSize, .data, .stack, .coreSize, .rss, .nproc, .nofile, .memlocks, .addressSpace, .locks,
    .sigpending, .msgqueue, .nice, .rtprio, .rttime]

def field (resource : ℤ) : Option Field := if 0 ≤ resource then resources[resource.toNat]? else none

def initial : Field → UInt64
  | .cpu | .fileSize => infinity
  | .data | .rss | .memlocks | .addressSpace => 64 * 1024 * 1024 * 1024
  | .stack => 16 * 1024 * 1024
  | .coreSize => 1024 * 1024 * 1024
  | .nproc | .nofile | .msgqueue => 32768
  | .locks => 65536
  | .sigpending => 512
  | .nice => 40
  | .rtprio => 99
  | .rttime => 60 * 1000000

end RLimits

abbrev RLimits := RLimits.Field → RLimit

namespace RLimits

def start : RLimits := fun f => ⟨initial f, initial f⟩

/-- `setrlimit` on one limit, with 1 for `EPERM`. -/
def setLimit (lim val : RLimit) : ℤ × RLimit :=
  if lim.max < val.max ∨ lim.max < val.cur then (-1, lim)
  else if val.max = infinity ∧ lim.max ≠ infinity then (-1, lim)
  else if val.cur = infinity ∧ lim.max ≠ infinity then (-1, lim)
  else (0, val)

/-- `Process::setrlimit`, with 22 for `EINVAL`. -/
def setrlimit (limits : RLimits) (resource : ℤ) (val : RLimit) : ℤ × RLimits :=
  match field resource with
  | none => (-22, limits)
  | some f => ((setLimit (limits f) val).1, update limits f (setLimit (limits f) val).2)

def exec (limits : RLimits) (call : ℤ × RLimit) : Option RLimits :=
  some (setrlimit limits call.1 call.2).2

/-- A limit that passes the check has its soft half within its hard half. -/
def Fits (limits : RLimits) (call : ℤ × RLimit) : Prop :=
  ∀ f ∈ field call.1, call.2.max ≤ (limits f).max → call.2.cur ≤ (limits f).max →
    call.2.cur ≤ call.2.max

structure Kept (limits limits' : RLimits) : Prop where
  ordered : ∀ f, (limits' f).cur ≤ (limits' f).max
  max_le : ∀ f, (limits' f).max ≤ (limits f).max
  refused : ∀ resource val, (setrlimit limits' resource val).1 ≠ 0 →
    (setrlimit limits' resource val).2 = limits'

variable {lim val : RLimit} {limits limits' limits'' : RLimits}

theorem setLimit_cases (lim val : RLimit) :
    (setLimit lim val).2 = lim ∨
      setLimit lim val = (0, val) ∧ val.max ≤ lim.max ∧ val.cur ≤ lim.max := by
  unfold setLimit
  split_ifs with above _ _
  · exact .inl rfl
  · exact .inl rfl
  · exact .inl rfl
  · rw [not_or, UInt64.not_lt, UInt64.not_lt] at above
    exact .inr ⟨rfl, above⟩

theorem setrlimit_cases (limits : RLimits) (resource : ℤ) (val : RLimit) :
    (setrlimit limits resource val).2 = limits ∨
      ∃ f ∈ field resource, setrlimit limits resource val = (0, update limits f val) ∧
        val.max ≤ (limits f).max ∧ val.cur ≤ (limits f).max := by
  unfold setrlimit
  cases known : field resource with
  | none => exact .inl rfl
  | some f =>
    rcases setLimit_cases (limits f) val with same | ⟨taken, fits⟩
    · exact .inl (by simp [same])
    · exact .inr ⟨f, rfl, by simp [taken], fits⟩

theorem setrlimit_refused (limits : RLimits) (resource : ℤ) (val : RLimit)
    (failed : (setrlimit limits resource val).1 ≠ 0) : (setrlimit limits resource val).2 = limits := by
  rcases setrlimit_cases limits resource val with same | ⟨_, -, taken, -⟩
  · exact same
  · simp [taken] at failed

theorem Kept.refl (ordered : ∀ f, (limits f).cur ≤ (limits f).max) : Kept limits limits :=
  ⟨ordered, fun _ => UInt64.le_refl _, setrlimit_refused limits⟩

theorem Kept.exec (kept : Kept limits limits') {call : ℤ × RLimit} (fits : Fits limits' call)
    (taken : exec limits' call = some limits'') : Kept limits limits'' := by
  obtain rfl := some.inj taken
  refine ⟨fun f => ?_, fun f => ?_, setrlimit_refused _⟩
  · rcases setrlimit_cases limits' call.1 call.2 with same | ⟨g, known, taken, max, cur⟩
    · rw [same]
      exact kept.ordered f
    · rw [taken]
      by_cases here : f = g
      · subst here
        simpa using fits f known max cur
      · simpa [here] using kept.ordered f
  · rcases setrlimit_cases limits' call.1 call.2 with same | ⟨g, -, taken, max, -⟩
    · rw [same]
      exact kept.max_le f
    · rw [taken]
      by_cases here : f = g
      · subst here
        simpa using UInt64.le_trans max (kept.max_le f)
      · simpa [here] using kept.max_le f

theorem kept_of_run {calls calls' : List (ℤ × RLimit)} (before : RunWhen Fits exec start calls limits)
    (run : RunWhen Fits exec limits calls' limits') : Kept limits limits' := by
  have ordered : ∀ f, (limits f).cur ≤ (limits f).max :=
    (before.invariant (fun _ _ _ kept => kept.exec) (Kept.refl fun _ => UInt64.le_refl _)).ordered
  exact run.invariant (fun _ _ _ kept => kept.exec) (Kept.refl ordered)

theorem kept_nofile :
    ∃ limits, RunWhen Fits exec start [(7, ⟨50, 100⟩), (7, ⟨5, 200⟩)] limits ∧ Kept start limits := by
  have fits : ∀ (limits : RLimits) (val : RLimit), val.cur ≤ val.max → Fits limits (7, val) :=
    fun _ _ le _ _ _ _ => le
  exact RunWhen.reaches (.cons (fits _ _ (by decide)) rfl (.cons (fits _ _ (by decide)) rfl (.nil _)))
    fun run => kept_of_run (.nil start) run

/-- A soft limit of 100 with a hard limit of 50. -/
theorem not_kept_nofile :
    ∃ limits, Run exec start [(7, ⟨100, 50⟩)] limits ∧ (setrlimit start 7 ⟨100, 50⟩).1 = 0 ∧
      ¬ Kept start limits :=
  ⟨_, .cons trivial rfl (.nil _), rfl, fun kept => absurd (kept.ordered .nofile) (by decide)⟩

end RLimits

end JeoKernel

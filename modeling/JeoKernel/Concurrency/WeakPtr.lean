import JeoKernel.Lib.Machine
import JeoKernel.Lib.Tickets

/-!
# Weak pointers

The container of a managed object counts the `shared_ptr`s in `ref`.  The first `weak_ptr` gives the
container a `weak_ptr_dir` with two counters: `ref` for the `weak_ptr`s and the container, and `xref`,
which is 0 once the object must not be locked any more.  The last `shared_ptr` lowers `xref` and
destroys the object if it becomes 0; a `weak_ptr::lock` raises it, makes a `shared_ptr`, and lowers it
again unless it is 1, in which case the new `shared_ptr` keeps it.

Each atomic instruction and each access to a pointer that others may change is one step.  The pointers
at rest are only counted; a call works on a `weak_ptr` that stays until it returns.
-/

namespace JeoKernel.WeakPtr

open List Option Machine Tally

/-! ## The code -/

def word (n : ℕ) : ℕ := n % 2 ^ 32

/-- The value behind `lock xaddl` with -1. -/
def less (n : ℕ) : ℕ := word (n + (2 ^ 32 - 1))

/-- What `shared_ptr_container_typeerasure::release` does next when it has found `ref` to be 0, and
then the destructor of the `shared_ptr`. -/
inductive ReleaseStep where
  /-- `weak != nullptr` -/
  | checkWeak
  | xrelease
  | dirRelease
  /-- `delete weak` -/
  | deleteDir
  /-- `delete container`, and with it the object. -/
  | deleteContainer
  deriving DecidableEq

/-- What the constructor of a `weak_ptr` does next.  It holds the `shared_ptr` that it was given. -/
inductive ConstructStep where
  | createTicket
  /-- `while (ticket != currentticket)` -/
  | wait (ticket : ℕ)
  | readWeak (ticket : ℕ)
  /-- `container->Weak(new impl::weak_ptr_dir())` -/
  | setWeak (ticket : ℕ)
  | unlock (ticket : ℕ)
  /-- `weak = container->Weak()` -/
  | getWeak
  | acquire
  /-- The destructor of the argument. -/
  | dropShared
  deriving DecidableEq

inductive LockStep where
  /-- `xacquire`: the value of `xref`. -/
  | load
  | exchange (xref : ℕ)
  /-- `container->acquire()` -/
  | acquire
  /-- `xrelease_or_take_ownership` -/
  | loadTake
  | exchangeTake (xref : ℕ)
  deriving DecidableEq

inductive Place where
  | idle
  | releasing (step : ReleaseStep)
  | constructing (step : ConstructStep)
  | locking (step : LockStep)
  /-- The destructor of a `weak_ptr`, at `delete weak`. -/
  | deletingDir
  deriving DecidableEq

structure State where
  tasks : List Place
  /-- The number of `shared_ptr`s outside of calls. -/
  shared : ℕ
  weaks : ℕ
  ref : ℕ
  /-- The container has a `weak_ptr_dir`. -/
  weak : Bool
  dirRef : ℕ
  xref : ℕ
  ticketgen : ℕ
  currentticket : ℕ
  /-- How often the object has been destroyed. -/
  destroyed : ℕ
  /-- How many `weak_ptr_dir`s have been made, and how often one has been deleted. -/
  created : ℕ
  dirDeleted : ℕ

def State.new (n : ℕ) : State := ⟨List.replicate n .idle, 1, 0, 1, false, 0, 0, 0, 0, 0, 0, 0⟩

/-- `ref` is lowered; whoever makes it 0 goes on. -/
def State.release (s : State) (i : ℕ) : State :=
  { s with
    ref := less s.ref
    tasks := s.tasks.set i (if less s.ref = 0 then .releasing .checkWeak else .idle) }

def State.releaseStep (s : State) (i : ℕ) : ReleaseStep → State
  | .checkWeak =>
    { s with tasks := s.tasks.set i (.releasing (if s.weak then .xrelease else .deleteContainer)) }
  | .xrelease =>
    { s with
      xref := less s.xref
      tasks := s.tasks.set i (if less s.xref ≠ 0 then .idle else .releasing .dirRelease) }
  | .dirRelease =>
    { s with
      dirRef := less s.dirRef
      tasks := s.tasks.set i
        (.releasing (if less s.dirRef = 0 then .deleteDir else .deleteContainer)) }
  | .deleteDir =>
    { s with
      dirDeleted := s.dirDeleted + 1
      tasks := s.tasks.set i (.releasing .deleteContainer) }
  | .deleteContainer =>
    { s with weak := false, destroyed := s.destroyed + 1, tasks := s.tasks.set i .idle }

def State.constructStep (s : State) (i : ℕ) : ConstructStep → State
  | .createTicket =>
    { s with
      ticketgen := s.ticketgen + 1
      tasks := s.tasks.set i (.constructing (.wait s.ticketgen)) }
  | .wait ticket =>
    if word ticket ≠ word s.currentticket then s
    else { s with tasks := s.tasks.set i (.constructing (.readWeak ticket)) }
  | .readWeak ticket =>
    { s with
      tasks := s.tasks.set i (.constructing (if s.weak then .unlock ticket else .setWeak ticket)) }
  | .setWeak ticket =>
    { s with
      weak := true, created := s.created + 1, dirRef := 1, xref := 1
      tasks := s.tasks.set i (.constructing (.unlock ticket)) }
  | .unlock _ =>
    { s with
      currentticket := s.currentticket + 1
      tasks := s.tasks.set i (.constructing .getWeak) }
  | .getWeak => { s with tasks := s.tasks.set i (.constructing .acquire) }
  | .acquire =>
    { s with
      dirRef := word (s.dirRef + 1), weaks := s.weaks + 1
      tasks := s.tasks.set i (.constructing .dropShared) }
  | .dropShared => s.release i

def State.lockStep (s : State) (i : ℕ) : LockStep → State
  | .load =>
    { s with tasks := s.tasks.set i (if s.xref = 0 then .idle else .locking (.exchange s.xref)) }
  | .exchange xref =>
    if s.xref = xref then
      { s with xref := word (xref + 1), tasks := s.tasks.set i (.locking .acquire) }
    else { s with tasks := s.tasks.set i (.locking .load) }
  | .acquire => { s with ref := word (s.ref + 1), tasks := s.tasks.set i (.locking .loadTake) }
  | .loadTake =>
    if s.xref ≤ 1 then { s with shared := s.shared + 1, tasks := s.tasks.set i .idle }
    else { s with tasks := s.tasks.set i (.locking (.exchangeTake s.xref)) }
  | .exchangeTake xref =>
    if s.xref = xref then
      { s with xref := xref - 1, shared := s.shared + 1, tasks := s.tasks.set i .idle }
    else { s with tasks := s.tasks.set i (.locking .loadTake) }

@[simp] def Place.inLock : Place → ℕ
  | .locking _ => 1
  | _ => 0

inductive Action where
  | copyShared
  | destroyShared (i : ℕ)
  | constructWeak (i : ℕ)
  | copyWeak
  | destroyWeak (i : ℕ)
  | lock (i : ℕ)
  | step (i : ℕ)

/-- The first step of a call, or the next step of a CPU.  A copy of a pointer is one step.  The last
`weak_ptr` is not destroyed while `lock` is called. -/
def exec (s : State) : Action → Option State
  | .copyShared =>
    if 0 < s.shared then some { s with ref := word (s.ref + 1), shared := s.shared + 1 } else none
  | .destroyShared i =>
    if s.tasks[i]? = some .idle ∧ 0 < s.shared then
      some (State.release { s with shared := s.shared - 1 } i)
    else none
  | .constructWeak i =>
    if s.tasks[i]? = some .idle ∧ 0 < s.shared then
      some { s with
        ref := word (s.ref + 1)
        tasks := s.tasks.set i (.constructing .createTicket) }
    else none
  | .copyWeak =>
    if 0 < s.weaks then some { s with dirRef := word (s.dirRef + 1), weaks := s.weaks + 1 } else none
  | .destroyWeak i =>
    if s.tasks[i]? = some .idle ∧ 0 < s.weaks ∧ (tally Place.inLock s.tasks = 0 ∨ 1 < s.weaks) then
      some { s with
        dirRef := less s.dirRef, weaks := s.weaks - 1
        tasks := s.tasks.set i (if less s.dirRef = 0 then .deletingDir else .idle) }
    else none
  | .lock i =>
    if s.tasks[i]? = some .idle ∧ 0 < s.weaks then
      some { s with tasks := s.tasks.set i (.locking .load) }
    else none
  | .step i => do
    match ← s.tasks[i]? with
    | .idle => none
    | .releasing step => some (s.releaseStep i step)
    | .constructing step => some (s.constructStep i step)
    | .locking step => some (s.lockStep i step)
    | .deletingDir =>
      some { s with dirDeleted := s.dirDeleted + 1, tasks := s.tasks.set i .idle }

/-! ## What is claimed -/

/-- The `shared_ptr`s that a call holds: the argument of a constructor, the result of `lock`. -/
@[simp] def Place.held : Place → ℕ
  | .constructing _ | .locking .loadTake | .locking (.exchangeTake _) => 1
  | _ => 0

def State.live (s : State) : ℕ := s.shared + tally Place.held s.tasks

/-- The container has let go of its `weak_ptr_dir`. -/
@[simp] def Place.letGo : Place → ℕ
  | .releasing .deleteDir | .releasing .deleteContainer => 1
  | _ => 0

/-- The object is destroyed once, and only when there is no `shared_ptr`; a `weak_ptr_dir` is deleted
once, and only when there is no `weak_ptr` and the container has let go of it; when all calls have
returned, what has no pointer left is gone. -/
structure State.Sound (s : State) : Prop where
  once : s.destroyed ≤ 1
  outlived : 0 < s.destroyed → s.live = 0
  dir_once : s.dirDeleted ≤ 1
  dir_outlived : 0 < s.dirDeleted → s.weaks = 0 ∧ 0 < s.destroyed + tally Place.letGo s.tasks
  rest : (∀ a ∈ s.tasks, a = .idle) → s.shared = 0 → s.destroyed = 1
  dir_rest : (∀ a ∈ s.tasks, a = .idle) → s.shared = 0 → s.weaks = 0 → s.dirDeleted = s.created

/-- The calls of `lock` that have raised `xref` and not yet returned. -/
@[simp] def Place.past : Place → ℕ
  | .locking .acquire | .locking .loadTake | .locking (.exchangeTake _) => 1
  | _ => 0

/-- The calls of `release` that have found `ref` to be 0 and have not yet lowered `xref`. -/
@[simp] def Place.window : Place → ℕ
  | .releasing .checkWeak | .releasing .xrelease => 1
  | _ => 0

/-- `xref` counts more than the calls that will lower it. -/
def State.Spare (s : State) : Prop :=
  tally Place.past s.tasks + tally Place.window s.tasks < s.xref

instance (s : State) : Decidable s.Spare := inferInstanceAs (Decidable (_ < _))

/-- A release that makes `ref` 0, and the exchange at the end of the only call of `lock`. -/
def Place.risky (s : State) : Place → Prop
  | .constructing .dropShared => s.ref = 1 ∧ s.weak
  | .locking (.exchangeTake xref) => s.xref = xref ∧ tally Place.past s.tasks = 1
  | _ => False

instance (s : State) (a : Place) : Decidable (a.risky s) :=
  match a with
  | .constructing .dropShared | .locking (.exchangeTake _) => inferInstanceAs (Decidable (_ ∧ _))
  | .idle | .deletingDir | .releasing _ => inferInstanceAs (Decidable False)
  | .constructing .createTicket | .constructing (.wait _) | .constructing (.readWeak _)
  | .constructing (.setWeak _) | .constructing (.unlock _) | .constructing .getWeak
  | .constructing .acquire => inferInstanceAs (Decidable False)
  | .locking .load | .locking (.exchange _) | .locking .acquire | .locking .loadTake =>
    inferInstanceAs (Decidable False)

/-- There are not too many pointers for a `uint32_t`. -/
def State.Small (s : State) : Prop := s.shared + s.weaks + s.tasks.length + 2 < 2 ^ 32

instance (s : State) : Decidable s.Small := inferInstanceAs (Decidable (_ < _))

/-- Where it matters, `xref` counts more than the calls that will lower it. -/
def Kept (s : State) : Action → Prop
  | .destroyShared _ => s.ref = 1 → s.weak → s.Spare
  | .step i => (s.tasks[i]?).any (·.risky s) → s.Spare
  | _ => True

instance (s : State) (x : Action) : Decidable (Kept s x) :=
  match x with
  | .destroyShared .. | .step .. | .copyShared | .constructWeak .. | .copyWeak
  | .destroyWeak .. | .lock .. => by dsimp only [Kept]; infer_instance

def Owned (s : State) (x : Action) : Prop := s.Small ∧ Kept s x

instance (s : State) (x : Action) : Decidable (Owned s x) := inferInstanceAs (Decidable (_ ∧ _))

/-! ## The accounts -/

@[simp] def Place.dying : Place → ℕ
  | .releasing .dirRelease | .releasing .deleteDir | .releasing .deleteContainer => 1
  | _ => 0

@[simp] def Place.deleting : Place → ℕ
  | .releasing .deleteDir | .deletingDir => 1
  | _ => 0

@[simp] def Place.setting : Place → ℕ
  | .constructing (.setWeak _) => 1
  | _ => 0

@[simp] def Place.beyond : Place → ℕ
  | .releasing .xrelease | .releasing .dirRelease | .releasing .deleteDir
  | .constructing (.unlock _) | .constructing .getWeak
  | .constructing .acquire | .constructing .dropShared | .locking _ | .deletingDir => 1
  | _ => 0

/-- There is no `weak_ptr_dir`: one call destroys the object if there is no `shared_ptr`. -/
structure Bare (s : State) : Prop where
  created : s.created = 0
  weak : s.weak = false
  weaks : s.weaks = 0
  dirDeleted : s.dirDeleted = 0
  beyond : tally Place.beyond s.tasks = 0
  ref : s.ref = s.live
  last : s.live = 0 ∧
      tally Place.window s.tasks + tally Place.dying s.tasks + s.destroyed = 1 ∨
    0 < s.live ∧ tally Place.window s.tasks + tally Place.dying s.tasks + s.destroyed = 0

/-- There is a `weak_ptr_dir`, and the object is not given up.  `xref` counts the calls that will
lower it, and one more for the `shared_ptr`s; the one more may be missing while a call of `lock` is
on its way. -/
structure Alive (s : State) : Prop where
  created : s.created = 1
  weak : s.weak = true
  dirDeleted : s.dirDeleted = 0
  dirRef : s.dirRef = s.weaks + 1
  dying : tally Place.dying s.tasks + tally Place.deleting s.tasks + s.destroyed = 0
  setting : tally Place.setting s.tasks = 0
  ref : s.ref = s.live
  lockable : 0 < tally Place.inLock s.tasks → 0 < s.weaks
  counted : tally Place.past s.tasks + tally Place.window s.tasks ≤ s.xref
  xref : s.xref ≤ tally Place.past s.tasks + tally Place.window s.tasks + 1
  spare : s.xref = tally Place.past s.tasks + tally Place.window s.tasks + 1 → 0 < s.live
  owned : 0 < s.live → s.xref = tally Place.past s.tasks + tally Place.window s.tasks + 1 ∨
    0 < tally Place.past s.tasks
  used : 0 < s.live + tally Place.past s.tasks + tally Place.window s.tasks

/-- There is, or was, a `weak_ptr_dir`, and the object is given up. -/
structure Dead (s : State) : Prop where
  created : s.created = 1
  setting : tally Place.setting s.tasks = 0
  live : s.live = 0
  past : tally Place.past s.tasks = 0
  window : tally Place.window s.tasks = 0
  xref : s.xref = 0
  ref : s.ref = 0
  lockable : 0 < tally Place.inLock s.tasks → 0 < s.weaks
  once : tally Place.dying s.tasks + s.destroyed = 1
  dirRef : s.dirRef + tally Place.letGo s.tasks + s.destroyed = s.weaks + 1
  deleted : s.dirRef = 0 ∧ s.dirDeleted + tally Place.deleting s.tasks = 1 ∨
    0 < s.dirRef ∧ s.dirDeleted + tally Place.deleting s.tasks = 0

variable {s t : State} {a b : Place} {i : ℕ} {x : Action}

theorem word_eq {n : ℕ} (bound : n < 2 ^ 32) : word n = n := Nat.mod_eq_of_lt bound

theorem less_eq {n : ℕ} (pos : 0 < n) (bound : n ≤ 2 ^ 32) : less n = n - 1 := by
  unfold less word
  omega

def Shift (f : Place → ℕ) (l l' : List Place) (a b : Place) : Prop :=
  f a ≤ tally f l ∧ tally f l' + f a = tally f l + f b

def Moved (l l' : List Place) (a b : Place) : Prop :=
  Shift Place.held l l' a b ∧ Shift Place.inLock l l' a b ∧ Shift Place.past l l' a b ∧
  Shift Place.window l l' a b ∧ Shift Place.dying l l' a b ∧ Shift Place.letGo l l' a b ∧
  Shift Place.deleting l l' a b ∧ Shift Place.setting l l' a b ∧ Shift Place.beyond l l' a b

theorem moved (at_i : s.tasks[i]? = some a) (b : Place) : Moved s.tasks (s.tasks.set i b) a b := by
  have shift : ∀ f, Shift f s.tasks (s.tasks.set i b) a b := fun f =>
    ⟨le_tally at_i f, tally_set at_i f b⟩
  exact ⟨shift _, shift _, shift _, shift _, shift _, shift _, shift _, shift _, shift _⟩

open Place

theorem calls_le (s : State) :
    tally Place.past s.tasks + tally Place.window s.tasks ≤ s.tasks.length := by
  rw [tally_add]
  refine tally_le_length (fun a => ?_) s.tasks
  cases a with
  | releasing step => cases step <;> decide
  | locking step => cases step <;> simp [past, window]
  | _ => simp [past, window]

theorem tally_letGo_le (l : List Place) : tally Place.letGo l ≤ tally Place.dying l := by
  refine tally_mono (fun a => ?_) l
  unfold letGo
  split <;> simp

theorem live_le (s : State) : s.live ≤ s.shared + s.tasks.length := by
  refine Nat.add_le_add_left (tally_le_length (fun a => ?_) s.tasks) _
  unfold held
  split <;> simp

theorem State.Small.ref_more (small : s.Small) (ref : s.ref = s.live) :
    word (s.ref + 1) = s.ref + 1 := by
  have live := live_le s
  unfold State.Small at small
  exact word_eq (by omega)

/-! ## With a directory -/

section Alive

variable (h : Alive s)
include h

theorem Alive.move (at_i : s.tasks[i]? = some a) (held : b.held = a.held) (past : b.past = a.past)
    (window : b.window = a.window) (dying : b.dying = 0) (deleting : b.deleting = 0)
    (setting : b.setting = 0) (inLock : b.inLock = 0 ∨ 0 < s.weaks) :
    Alive { s with tasks := s.tasks.set i b } := by
  have m := moved at_i b
  simp only [Moved, Shift] at m
  cases h
  constructor <;> dsimp only [State.live] at * <;> omega

section

variable (small : s.Small)

include small

/-- A `shared_ptr` is destroyed: with `xref` to spare, the last one leaves the one more to the call
that found `ref` to be 0. -/
theorem Alive.release {shared : ℕ} (at_i : s.tasks[i]? = some a)
    (caller : a = .idle ∨ a = .constructing .dropShared) (one : shared + 1 = s.shared + a.held)
    (spared : s.ref = 1 → s.Spare) : Alive (State.release { s with shared := shared } i) := by
  have live := live_le s
  have fewer : less s.ref = s.ref - 1 := by
    have ref := h.ref
    have here := le_tally at_i held
    unfold State.Small at small
    unfold State.live at ref live
    exact less_eq (by omega) (by omega)
  unfold State.Spare at spared
  cases h
  unfold State.release
  rcases caller with rfl | rfl
  all_goals
    dsimp at one
    split_ifs
    · have m := moved at_i (.releasing .checkWeak)
      dsimp [Moved, Shift] at m
      constructor <;> dsimp only [State.live] at * <;> omega
    · have m := moved at_i .idle
      dsimp [Moved, Shift] at m
      constructor <;> dsimp only [State.live] at * <;> omega

theorem Alive.acquire (at_i : s.tasks[i]? = some (.constructing .acquire)) :
    Alive { s with
      dirRef := word (s.dirRef + 1), weaks := s.weaks + 1
      tasks := s.tasks.set i (.constructing .dropShared) } := by
  unfold State.Small at small
  have m := moved at_i (.constructing .dropShared)
  dsimp [Moved, Shift] at m
  cases h
  have more : word (s.dirRef + 1) = s.dirRef + 1 := word_eq (by omega)
  constructor <;> dsimp only [State.live] at * <;> omega

end

/-- `xrelease` destroys the object only if no call of `lock` is on its way. -/
theorem Alive.xrelease (at_i : s.tasks[i]? = some (.releasing .xrelease)) (small : s.Small) :
    Alive (s.releaseStep i .xrelease) ∨ Dead (s.releaseStep i .xrelease) := by
  have calls := calls_le s
  unfold State.Small at small
  cases h
  unfold State.releaseStep
  by_cases zero : less s.xref ≠ 0
  · left
    rw [if_pos zero]
    have m := moved at_i .idle
    dsimp [Moved, Shift] at m
    have fewer : less s.xref = s.xref - 1 := less_eq (by omega) (by omega)
    constructor <;> dsimp only [State.live] at * <;> omega
  · right
    rw [if_neg zero]
    have m := moved at_i (.releasing .dirRelease)
    dsimp [Moved, Shift] at m
    have fewer : less s.xref = s.xref - 1 := less_eq (by omega) (by omega)
    have letGo := tally_letGo_le s.tasks
    constructor <;> dsimp only [State.live] at * <;> omega

/-! ### Calls of lock -/

theorem Alive.exchange {xref : ℕ} (small : s.Small)
    (at_i : s.tasks[i]? = some (.locking (.exchange xref))) (found : s.xref = xref) :
    Alive { s with xref := word (xref + 1), tasks := s.tasks.set i (.locking .acquire) } := by
  have calls := calls_le s
  unfold State.Small at small
  have m := moved at_i (.locking .acquire)
  dsimp [Moved, Shift] at m
  cases h
  have more : word (xref + 1) = xref + 1 := word_eq (by omega)
  constructor <;> dsimp only [State.live] at * <;> omega

theorem Alive.lockAcquire (small : s.Small) (at_i : s.tasks[i]? = some (.locking .acquire)) :
    Alive { s with ref := word (s.ref + 1), tasks := s.tasks.set i (.locking .loadTake) } := by
  have more := small.ref_more h.ref
  have m := moved at_i (.locking .loadTake)
  dsimp [Moved, Shift] at m
  cases h
  constructor <;> dsimp only [State.live] at * <;> omega

/-- The new `shared_ptr` keeps the one that this call has added to `xref`. -/
theorem Alive.take (at_i : s.tasks[i]? = some (.locking .loadTake)) (only : s.xref ≤ 1) :
    Alive { s with shared := s.shared + 1, tasks := s.tasks.set i .idle } := by
  have m := moved at_i .idle
  dsimp [Moved, Shift] at m
  cases h
  constructor <;> dsimp only [State.live] at * <;> omega

theorem Alive.exchangeTake {xref : ℕ} (at_i : s.tasks[i]? = some (.locking (.exchangeTake xref)))
    (found : s.xref = xref) (spared : tally Place.past s.tasks = 1 → s.Spare) :
    Alive { s with xref := xref - 1, shared := s.shared + 1, tasks := s.tasks.set i .idle } := by
  have m := moved at_i .idle
  dsimp [Moved, Shift] at m
  unfold State.Spare at spared
  cases h
  constructor <;> dsimp only [State.live] at * <;> omega

end Alive

/-! ## Without a directory -/

section Bare

variable (h : Bare s)
include h

theorem Bare.move (at_i : s.tasks[i]? = some a) (held : b.held = a.held)
    (window : b.window + b.dying = a.window + a.dying) (beyond : b.beyond = 0) :
    Bare { s with tasks := s.tasks.set i b } := by
  have m := moved at_i b
  simp only [Moved, Shift] at m
  cases h
  constructor <;> dsimp only [State.live] at * <;> omega

theorem Bare.destroyShared (small : s.Small) (at_i : s.tasks[i]? = some .idle)
    (source : 0 < s.shared) : Bare (State.release { s with shared := s.shared - 1 } i) := by
  have live := live_le s
  unfold State.Small at small
  have fewer : less s.ref = s.ref - 1 := by
    have ref := h.ref
    unfold State.live at ref live
    exact less_eq (by omega) (by omega)
  cases h
  unfold State.release
  split_ifs
  · have m := moved at_i (.releasing .checkWeak)
    dsimp [Moved, Shift] at m
    constructor <;> dsimp only [State.live] at * <;> omega
  · have m := moved at_i .idle
    dsimp [Moved, Shift] at m
    constructor <;> dsimp only [State.live] at * <;> omega

theorem Bare.setWeak {ticket : ℕ} (at_i : s.tasks[i]? = some (.constructing (.setWeak ticket)))
    (alone : tally Place.setting s.tasks ≤ 1) : Alive (s.constructStep i (.setWeak ticket)) := by
  have m := moved at_i (.constructing (.unlock ticket))
  dsimp [Moved, Shift] at m
  have locked := tally_mono (f := inLock) (g := Place.beyond)
    (fun a => by unfold inLock; split <;> simp) s.tasks
  have past := tally_mono (f := past) (g := Place.beyond)
    (fun a => by unfold past; split <;> simp) s.tasks
  have deleting := tally_mono (f := deleting) (g := Place.beyond)
    (fun a => by unfold deleting; split <;> simp) s.tasks
  cases h
  constructor <;> dsimp only [State.live, State.constructStep] at * <;> omega

end Bare

/-! ## After the object is given up -/

section Dead

variable (h : Dead s)
include h

theorem Dead.move (at_i : s.tasks[i]? = some a) (held : b.held = 0) (past : b.past = 0)
    (window : b.window = 0) (dying : b.dying = a.dying) (letGo : b.letGo = a.letGo)
    (deleting : b.deleting = a.deleting) (setting : b.setting = 0)
    (inLock : b.inLock = 0 ∨ 0 < s.weaks) : Dead { s with tasks := s.tasks.set i b } := by
  have m := moved at_i b
  simp only [Moved, Shift] at m
  cases h
  constructor <;> dsimp only [State.live] at * <;> omega

theorem Dead.deletingDir (at_i : s.tasks[i]? = some .deletingDir) :
    Dead { s with dirDeleted := s.dirDeleted + 1, tasks := s.tasks.set i .idle } := by
  have m := moved at_i .idle
  dsimp [Moved, Shift] at m
  cases h
  constructor <;> dsimp only [State.live] at * <;> omega

/-- No other call has let go of the directory: this one is the only call that is left. -/
theorem Dead.letGo_eq_zero (at_i : s.tasks[i]? = some (.releasing .dirRelease)) :
    tally Place.letGo s.tasks = 0 := by
  have m := moved at_i .idle
  dsimp [Moved, Shift] at m
  have others := tally_letGo_le (s.tasks.set i .idle)
  have once := h.once
  omega

theorem Dead.dirRelease (small : s.Small) (at_i : s.tasks[i]? = some (.releasing .dirRelease)) :
    Dead (s.releaseStep i .dirRelease) := by
  unfold State.Small at small
  have letGo := h.letGo_eq_zero at_i
  have here := le_tally at_i dying
  dsimp at here
  cases h
  have fewer : less s.dirRef = s.dirRef - 1 := less_eq (by omega) (by omega)
  unfold State.releaseStep
  rw [fewer]
  by_cases last : s.dirRef - 1 = 0
  · rw [if_pos last]
    have m := moved at_i (.releasing .deleteDir)
    dsimp [Moved, Shift] at m
    constructor <;> dsimp only [State.live] at * <;> omega
  · rw [if_neg last]
    have m := moved at_i (.releasing .deleteContainer)
    dsimp [Moved, Shift] at m
    constructor <;> dsimp only [State.live] at * <;> omega

theorem Dead.deleteDir (at_i : s.tasks[i]? = some (.releasing .deleteDir)) :
    Dead (s.releaseStep i .deleteDir) := by
  have m := moved at_i (.releasing .deleteContainer)
  dsimp [Moved, Shift] at m
  cases h
  constructor <;> dsimp only [State.live, State.releaseStep] at * <;> omega

end Dead

/-! ## Two phases alike -/

section

variable (small : s.Small)
include small

theorem copyShared_phase (h : Bare s ∨ Alive s) (source : 0 < s.shared) :
    let t := { s with ref := word (s.ref + 1), shared := s.shared + 1 }
    Bare t ∨ Alive t := by
  have more := small.ref_more (h.elim (·.ref) (·.ref))
  refine h.imp (fun h => ?_) fun h => ?_
  all_goals
    cases h
    constructor <;> dsimp only [State.live] at * <;> omega

theorem constructWeak_phase (h : Bare s ∨ Alive s) (at_i : s.tasks[i]? = some .idle)
    (source : 0 < s.shared) :
    let t := { s with
      ref := word (s.ref + 1), tasks := s.tasks.set i (.constructing .createTicket) }
    Bare t ∨ Alive t := by
  have more := small.ref_more (h.elim (·.ref) (·.ref))
  have m := moved at_i (.constructing .createTicket)
  dsimp [Moved, Shift] at m
  refine h.imp (fun h => ?_) fun h => ?_
  all_goals
    cases h
    constructor <;> dsimp only [State.live] at * <;> omega

theorem copyWeak_phase (h : Alive s ∨ Dead s) (source : 0 < s.weaks) :
    let t := { s with dirRef := word (s.dirRef + 1), weaks := s.weaks + 1 }
    Alive t ∨ Dead t := by
  unfold State.Small at small
  have letGo := tally_letGo_le s.tasks
  refine h.imp (fun h => ?_) fun h => ?_
  all_goals
    cases h
    have more : word (s.dirRef + 1) = s.dirRef + 1 := word_eq (by omega)
    constructor <;> dsimp only [State.live] at * <;> omega

theorem destroyWeak_phase (h : Alive s ∨ Dead s) (at_i : s.tasks[i]? = some .idle)
    (legal : 0 < s.weaks ∧ (tally Place.inLock s.tasks = 0 ∨ 1 < s.weaks)) :
    let t := { s with
      dirRef := less s.dirRef, weaks := s.weaks - 1
      tasks := s.tasks.set i (if less s.dirRef = 0 then .deletingDir else .idle) }
    Alive t ∨ Dead t := by
  unfold State.Small at small
  have letGo := tally_letGo_le s.tasks
  refine h.imp (fun h => ?_) fun h => ?_
  all_goals
    cases h
    have fewer : less s.dirRef = s.dirRef - 1 := less_eq (by omega) (by omega)
    have m := moved at_i (if less s.dirRef = 0 then .deletingDir else .idle)
    simp only [Moved, Shift] at m
    split_ifs at m ⊢ <;> dsimp at m <;> constructor <;> dsimp only [State.live] at * <;> omega

end

theorem deleteContainer_phase (h : Bare s ∨ Dead s)
    (at_i : s.tasks[i]? = some (.releasing .deleteContainer)) :
    Bare (s.releaseStep i .deleteContainer) ∨ Dead (s.releaseStep i .deleteContainer) := by
  have m := moved at_i .idle
  dsimp [Moved, Shift] at m
  refine h.imp (fun h => ?_) fun h => ?_
  all_goals
    cases h
    constructor <;> dsimp only [State.live, State.releaseStep] at * <;> omega

/-! ## Runs -/

/-- The ticket of a constructor that waits for the container or holds it. -/
def Place.ticket : Place → Option ℕ
  | .constructing (.wait ticket) | .constructing (.readWeak ticket)
  | .constructing (.setWeak ticket) | .constructing (.unlock ticket) => some ticket
  | _ => none

def Place.Owner : Place → Prop
  | .constructing (.readWeak _) | .constructing (.setWeak _) | .constructing (.unlock _) => True
  | _ => False

/-- The values of `xref` that a call of `lock` goes on with. -/
def Place.Read : Place → Prop
  | .locking (.exchange xref) => 0 < xref
  | .locking (.exchangeTake xref) => 1 < xref
  | _ => True

abbrev Ordered (s : State) : Prop :=
  Tickets.Ordered Place.ticket Place.Owner (2 ^ 32) s.tasks s.currentticket s.ticketgen

abbrev Phase (s : State) : Prop := Bare s ∨ Alive s ∨ Dead s

structure Ok (s : State) : Prop where
  ordered : Ordered s
  read : ∀ a ∈ s.tasks, a.Read
  phase : Phase s

theorem tally_idle {l : List Place} {f : Place → ℕ} (idle : ∀ a ∈ l, a = .idle)
    (zero : f .idle = 0) : tally f l = 0 :=
  tally_eq_zero fun a mem => by rw [idle a mem, zero]

theorem ok_new (n : ℕ) : Ok (.new n) := by
  have idle : ∀ a ∈ List.replicate n idle, a = .idle := fun a => eq_of_mem_replicate
  refine ⟨?_, fun a mem => ?_, .inl ?_⟩
  · refine Tickets.ordered_new (by decide) (fun a mem => ?_) (fun a mem => ?_) 0
    · rw [idle a mem]
      rfl
    · rw [idle a mem]
      exact id
  · rw [idle a mem]
    trivial
  · have held := tally_idle (f := held) idle rfl
    have window := tally_idle (f := window) idle rfl
    have dying := tally_idle (f := dying) idle rfl
    have beyond := tally_idle (f := beyond) idle rfl
    constructor <;> dsimp only [State.live, State.new] <;> omega

theorem Ok.sound (h : Ok s) : s.Sound := by
  have letGo := tally_letGo_le s.tasks
  rcases h.phase with bare | alive | dead
  · have last := bare.last
    refine ⟨by omega, by omega, by simp [bare.dirDeleted], by simp [bare.dirDeleted], ?_, ?_⟩
    · intro idle none
      have held := tally_idle (f := held) idle rfl
      have window := tally_idle (f := window) idle rfl
      have dying := tally_idle (f := dying) idle rfl
      unfold State.live at last
      omega
    · intro _ _ _
      rw [bare.dirDeleted, bare.created]
  · have dying := alive.dying
    refine ⟨by omega, by omega, by simp [alive.dirDeleted], by simp [alive.dirDeleted], ?_, ?_⟩
    all_goals
      intro idle none
      -- somebody would still be on the way
      have used := alive.used
      have held := tally_idle (f := held) idle rfl
      have past := tally_idle (f := past) idle rfl
      have window := tally_idle (f := window) idle rfl
      unfold State.live at used
      omega
  · have once := dead.once
    have dirRef := dead.dirRef
    have deleted := dead.deleted
    refine ⟨by omega, fun _ => dead.live, by omega, by omega, ?_, ?_⟩
    · intro idle _
      have dying := tally_idle (f := dying) idle rfl
      omega
    · intro idle _ none
      have dying := tally_idle (f := dying) idle rfl
      have deleting := tally_idle (f := deleting) idle rfl
      have created := dead.created
      omega

theorem Ok.read_set (h : Ok s) (read : b.Read) : ∀ c ∈ s.tasks.set i b, c.Read := by
  intro c mem
  rcases mem_or_eq_of_mem_set mem with old | rfl
  · exact h.read c old
  · exact read

theorem Ok.next (h : Ok s) (at_i : s.tasks[i]? = some a) (tasks : t.tasks = s.tasks.set i b)
    (tickets : t.currentticket = s.currentticket ∧ t.ticketgen = s.ticketgen)
    (same : b.ticket = a.ticket) (owner : b.Owner → b.ticket = some s.currentticket)
    (read : b.Read) (phase : Phase t) : Ok t := by
  refine ⟨?_, tasks ▸ h.read_set read, phase⟩
  unfold Ordered
  rw [tasks, tickets.1, tickets.2]
  exact h.ordered.move at_i same owner

/-- A place that has nothing to do with the lock of the container and knows no value of `xref`. -/
structure Place.Plain (a : Place) : Prop where
  ticket : a.ticket = none
  out : ¬a.Owner
  read : a.Read

theorem Place.Plain.ite {p : Prop} [Decidable p] (ha : a.Plain) (hb : b.Plain) :
    (if p then a else b).Plain := by
  split_ifs
  · exact ha
  · exact hb

theorem Place.plain_idle : Place.idle.Plain := ⟨rfl, id, trivial⟩

theorem Place.plain_releasing (step : ReleaseStep) : (Place.releasing step).Plain :=
  ⟨rfl, id, trivial⟩

theorem Ok.next_plain (h : Ok s) (at_i : s.tasks[i]? = some a) (none : a.ticket = none)
    (tasks : t.tasks = s.tasks.set i b)
    (tickets : t.currentticket = s.currentticket ∧ t.ticketgen = s.ticketgen) (plain : b.Plain)
    (phase : Phase t) : Ok t :=
  h.next at_i tasks tickets (plain.ticket.trans none.symm) (fun owner => absurd owner plain.out)
    plain.read phase

/-! ### Places that a phase does not have -/

theorem Bare.not_beyond (h : Bare s) (at_i : s.tasks[i]? = some a) : a.beyond = 0 := by
  have here := le_tally at_i Place.beyond
  have beyond := h.beyond
  omega

theorem Alive.not_dying (h : Alive s) (at_i : s.tasks[i]? = some a) :
    a.dying = 0 ∧ a.deleting = 0 ∧ a.setting = 0 := by
  have here := le_tally at_i Place.dying
  have here' := le_tally at_i deleting
  have here'' := le_tally at_i Place.setting
  have dying := h.dying
  have setting := h.setting
  omega

theorem Dead.not_live (h : Dead s) (at_i : s.tasks[i]? = some a) :
    a.held = 0 ∧ a.past = 0 ∧ a.window = 0 := by
  have here := le_tally at_i held
  have here' := le_tally at_i Place.past
  have here'' := le_tally at_i Place.window
  have live := h.live
  have past := h.past
  have window := h.window
  unfold State.live at live
  omega

theorem Dead.not_shared (h : Dead s) : s.shared = 0 := by
  have live := h.live
  unfold State.live at live
  omega

theorem Ok.has_weak (h : Ok s) (source : 0 < s.weaks) : Alive s ∨ Dead s :=
  h.phase.resolve_left fun bare => source.ne' bare.weaks

theorem Ok.bare_or_alive (h : Ok s) (source : 0 < s.shared) : Bare s ∨ Alive s :=
  h.phase.imp_right (·.resolve_right fun dead => source.ne' dead.not_shared)

section

variable (h : Ok s) (at_i : s.tasks[i]? = some a) (beyond : a.beyond ≠ 0)
include h at_i beyond

theorem Ok.alive_or_dead : Alive s ∨ Dead s :=
  h.phase.resolve_left fun bare => beyond (bare.not_beyond at_i)

/-- A call that has a directory, and a `shared_ptr` or one more in `xref`. -/
theorem Ok.alive (live : a.held + a.past + a.window ≠ 0) : Alive s := by
  refine (h.alive_or_dead at_i beyond).resolve_right fun dead => live ?_
  obtain ⟨held, past, window⟩ := dead.not_live at_i
  omega

theorem Ok.dead (dying : a.dying + a.deleting ≠ 0) : Dead s := by
  refine (h.alive_or_dead at_i beyond).resolve_left fun alive => dying ?_
  obtain ⟨dying, deleting, -⟩ := alive.not_dying at_i
  omega

end

/-! ### One step -/

theorem Ok.releaseStep (h : Ok s) (small : s.Small) {step : ReleaseStep}
    (at_i : s.tasks[i]? = some (.releasing step)) : Ok (s.releaseStep i step) := by
  cases step with
  | checkWeak =>
    refine h.next_plain at_i rfl rfl ⟨rfl, rfl⟩ (plain_releasing _) ?_
    unfold State.releaseStep
    rcases h.phase with bare | alive | dead
    · rw [if_neg (by simp [bare.weak])]
      exact .inl (bare.move at_i rfl rfl rfl)
    · rw [if_pos alive.weak]
      exact .inr (.inl (alive.move at_i rfl rfl rfl rfl rfl rfl (.inl rfl)))
    · exact absurd (dead.not_live at_i).2.2 one_ne_zero
  | xrelease =>
    have alive := h.alive at_i (by decide) (by decide)
    exact h.next_plain at_i rfl rfl ⟨rfl, rfl⟩ (plain_idle.ite (plain_releasing _))
      (.inr (alive.xrelease at_i small))
  | dirRelease =>
    have dead := h.dead at_i (by decide) (by decide)
    exact h.next_plain at_i rfl rfl ⟨rfl, rfl⟩ (plain_releasing _)
      (.inr (.inr (dead.dirRelease small at_i)))
  | deleteDir =>
    have dead := h.dead at_i (by decide) (by decide)
    exact h.next_plain at_i rfl rfl ⟨rfl, rfl⟩ (plain_releasing _)
      (.inr (.inr (dead.deleteDir at_i)))
  | deleteContainer =>
    refine h.next_plain at_i rfl rfl ⟨rfl, rfl⟩ plain_idle ?_
    have phase : Bare s ∨ Dead s := h.phase.imp_right
      (·.resolve_left fun alive => one_ne_zero (alive.not_dying at_i).1)
    exact (deleteContainer_phase phase at_i).imp_right .inr

theorem Ok.release {shared : ℕ} (h : Ok s) (at_i : s.tasks[i]? = some a) (none : a.ticket = none)
    (phase : Bare (State.release { s with shared := shared } i) ∨
      Alive (State.release { s with shared := shared } i)) :
    Ok (State.release { s with shared := shared } i) :=
  h.next_plain at_i none rfl ⟨rfl, rfl⟩ ((plain_releasing _).ite plain_idle)
    (phase.imp_right .inl)

theorem Ok.move_constructing (h : Ok s) {step : ConstructStep} (step' : ConstructStep)
    (at_i : s.tasks[i]? = some (.constructing step))
    (beyond : (Place.constructing step').beyond = (Place.constructing step).beyond)
    (setting : (Place.constructing step').setting = 0 ∨ ¬s.weak) :
    Bare { s with tasks := s.tasks.set i (.constructing step') } ∨
      Alive { s with tasks := s.tasks.set i (.constructing step') } := by
  rcases h.phase with bare | alive | dead
  · exact .inl (bare.move at_i rfl rfl (beyond.trans (bare.not_beyond at_i)))
  · have none := setting.resolve_right fun bare => bare alive.weak
    exact .inr (alive.move at_i rfl rfl rfl rfl rfl none (.inl rfl))
  · exact absurd (dead.not_live at_i).1 one_ne_zero

theorem Ok.alone (h : Ok s) : tally Place.setting s.tasks ≤ 1 := by
  refine tally_le_one (fun a => ?_) fun i j a b at_i at_j pos pos' => ?_
  · unfold setting
    split <;> simp
  · refine h.ordered.owner_unique at_i at_j ?_ ?_
    all_goals
      unfold setting at pos pos'
      split at pos <;> split at pos' <;> simp_all [Place.Owner]

theorem Ok.constructStep (h : Ok s) (small : s.Small) {step : ConstructStep}
    (at_i : s.tasks[i]? = some (.constructing step))
    (spared : (Place.constructing step).risky s → s.Spare) : Ok (s.constructStep i step) := by
  cases step with
  | createTicket =>
    have few := h.ordered.length_le
    unfold State.Small at small
    refine ⟨?_, h.read_set trivial, ?_⟩
    · exact h.ordered.take at_i rfl (by omega) rfl fun owner => owner.elim
    · rcases h.move_constructing (.wait s.ticketgen) at_i rfl (.inl rfl) with bare | alive
      · exact .inl { bare with }
      · exact .inr (.inl { alive with })
  | wait ticket =>
    unfold State.constructStep
    dsimp only
    split_ifs with other
    · exact h
    · have current := h.ordered.eq_current at_i rfl (not_not.mp other)
      refine h.next at_i rfl ⟨rfl, rfl⟩ rfl (fun _ => congrArg some current) trivial ?_
      exact (h.move_constructing (.readWeak ticket) at_i rfl (.inl rfl)).imp_right .inl
  | readWeak ticket =>
    have owns := h.ordered.owns i _ at_i trivial
    unfold State.constructStep
    split_ifs with weak
    · refine h.next at_i rfl ⟨rfl, rfl⟩ rfl (fun _ => owns) trivial ?_
      rcases h.phase with bare | alive | dead
      · simp [bare.weak] at weak
      · exact .inr (.inl (alive.move at_i rfl rfl rfl rfl rfl rfl (.inl rfl)))
      · exact absurd (dead.not_live at_i).1 one_ne_zero
    · refine h.next at_i rfl ⟨rfl, rfl⟩ rfl (fun _ => owns) trivial ?_
      exact (h.move_constructing (.setWeak ticket) at_i rfl (.inr weak)).imp_right .inl
  | setWeak ticket =>
    have owns := h.ordered.owns i _ at_i trivial
    refine h.next at_i rfl ⟨rfl, rfl⟩ rfl (fun _ => owns) trivial ?_
    rcases h.phase with bare | alive | dead
    · exact .inr (.inl (bare.setWeak at_i h.alone))
    · exact absurd (alive.not_dying at_i).2.2 one_ne_zero
    · exact absurd (dead.not_live at_i).1 one_ne_zero
  | unlock ticket =>
    have owns := h.ordered.owns i _ at_i trivial
    refine ⟨h.ordered.release at_i owns rfl id, h.read_set trivial, ?_⟩
    rcases h.move_constructing .getWeak at_i rfl (.inl rfl) with bare | alive
    · exact .inl { bare with }
    · exact .inr (.inl { alive with })
  | getWeak =>
    exact h.next_plain at_i rfl rfl ⟨rfl, rfl⟩ ⟨rfl, id, trivial⟩
      ((h.move_constructing .acquire at_i rfl (.inl rfl)).imp_right .inl)
  | acquire =>
    have alive := h.alive at_i (by decide) (by decide)
    exact h.next_plain at_i rfl rfl ⟨rfl, rfl⟩ ⟨rfl, id, trivial⟩ (.inr (.inl (alive.acquire small at_i)))
  | dropShared =>
    have alive := h.alive at_i (by decide) (by decide)
    refine h.release at_i rfl (.inr (alive.release small at_i (.inr rfl) rfl fun last => ?_))
    exact spared ⟨last, alive.weak⟩

theorem Ok.move_locking (h : Ok s) {step : LockStep} (at_i : s.tasks[i]? = some (.locking step))
    (kind : b = .idle ∨ ∃ step', b = .locking step') (held : b.held = (Place.locking step).held)
    (past : b.past = (Place.locking step).past) (read : b.Read) :
    Ok { s with tasks := s.tasks.set i b } := by
  have here := le_tally at_i inLock
  have plain : b.Plain ∧ b.window = 0 ∧ b.dying = 0 ∧ b.letGo = 0 ∧ b.deleting = 0 ∧ b.setting = 0 := by
    rcases kind with rfl | ⟨step', rfl⟩
    · exact ⟨⟨rfl, id, read⟩, rfl, rfl, rfl, rfl, rfl⟩
    · exact ⟨⟨rfl, id, read⟩, rfl, rfl, rfl, rfl, rfl⟩
  obtain ⟨plain, window, dying, letGo, deleting, setting⟩ := plain
  refine h.next_plain at_i rfl rfl ⟨rfl, rfl⟩ plain (.inr ?_)
  rcases h.alive_or_dead at_i one_ne_zero with alive | dead
  · exact .inl (alive.move at_i held past window dying deleting setting (.inr (alive.lockable here)))
  · obtain ⟨noHeld, noPast, -⟩ := dead.not_live at_i
    exact .inr (dead.move at_i (held.trans noHeld) (past.trans noPast) window dying letGo deleting
      setting (.inr (dead.lockable here)))

theorem Ok.lockStep (h : Ok s) (small : s.Small) {step : LockStep}
    (at_i : s.tasks[i]? = some (.locking step))
    (spared : (Place.locking step).risky s → s.Spare) : Ok (s.lockStep i step) := by
  have read := h.read _ (mem_of_getElem? at_i)
  cases step with
  | load =>
    unfold State.lockStep
    dsimp only
    split_ifs with gone
    · exact h.move_locking at_i (.inl rfl) rfl rfl trivial
    · exact h.move_locking at_i (.inr ⟨_, rfl⟩) rfl rfl (Nat.pos_of_ne_zero gone)
  | exchange xref =>
    unfold State.lockStep
    dsimp only
    split_ifs with found
    · refine h.next_plain at_i rfl rfl ⟨rfl, rfl⟩ ⟨rfl, id, trivial⟩ (.inr ?_)
      rcases h.alive_or_dead at_i one_ne_zero with alive | dead
      · exact .inl (alive.exchange small at_i found)
      · exact absurd (found.symm.trans dead.xref) read.ne'
    · exact h.move_locking at_i (.inr ⟨_, rfl⟩) rfl rfl trivial
  | acquire =>
    have alive := h.alive at_i (by decide) (by decide)
    exact h.next_plain at_i rfl rfl ⟨rfl, rfl⟩ ⟨rfl, id, trivial⟩
      (.inr (.inl (alive.lockAcquire small at_i)))
  | loadTake =>
    unfold State.lockStep
    dsimp only
    split_ifs with only
    · have alive := h.alive at_i (by decide) (by decide)
      exact h.next_plain at_i rfl rfl ⟨rfl, rfl⟩ plain_idle (.inr (.inl (alive.take at_i only)))
    · exact h.move_locking at_i (.inr ⟨_, rfl⟩) rfl rfl (not_le.mp only)
  | exchangeTake xref =>
    unfold State.lockStep
    dsimp only
    split_ifs with found
    · have alive := h.alive at_i (by simp) (by simp)
      exact h.next_plain at_i rfl rfl ⟨rfl, rfl⟩ plain_idle
        (.inr (.inl (alive.exchangeTake at_i found fun one => spared ⟨found, one⟩)))
    · exact h.move_locking at_i (.inr ⟨_, rfl⟩) rfl rfl trivial

theorem Ok.count (h : Ok s) (tasks : t.tasks = s.tasks)
    (tickets : t.currentticket = s.currentticket ∧ t.ticketgen = s.ticketgen)
    (phase : Phase t) : Ok t := by
  refine ⟨?_, fun c mem => h.read c (tasks ▸ mem), phase⟩
  unfold Ordered
  rw [tasks, tickets.1, tickets.2]
  exact h.ordered

theorem Ok.destroyShared (h : Ok s) (small : s.Small) (at_i : s.tasks[i]? = some .idle)
    (source : 0 < s.shared) (spared : s.ref = 1 → s.weak → s.Spare) :
    Ok (State.release { s with shared := s.shared - 1 } i) := by
  refine h.release at_i rfl ?_
  rcases h.phase with bare | alive | dead
  · exact .inl (bare.destroyShared small at_i source)
  · exact .inr (alive.release small at_i (.inl rfl) (by dsimp; omega) fun last =>
      spared last alive.weak)
  · exact absurd dead.not_shared source.ne'

theorem Ok.step (h : Ok s) (owned : Owned s x) (step : exec s x = some t) : Ok t := by
  obtain ⟨small, kept⟩ := owned
  cases x with
  | copyShared =>
    obtain ⟨source, ⟨⟩⟩ := ite_none_right_eq_some.mp step
    exact h.count rfl ⟨rfl, rfl⟩
      ((copyShared_phase small (h.bare_or_alive source) source).imp_right .inl)
  | destroyShared i =>
    obtain ⟨⟨at_i, source⟩, ⟨⟩⟩ := ite_none_right_eq_some.mp step
    exact h.destroyShared small at_i source kept
  | constructWeak i =>
    obtain ⟨⟨at_i, source⟩, ⟨⟩⟩ := ite_none_right_eq_some.mp step
    exact h.next_plain at_i rfl rfl ⟨rfl, rfl⟩ ⟨rfl, id, trivial⟩
      ((constructWeak_phase small (h.bare_or_alive source) at_i source).imp_right .inl)
  | copyWeak =>
    obtain ⟨source, ⟨⟩⟩ := ite_none_right_eq_some.mp step
    exact h.count rfl ⟨rfl, rfl⟩
      (.inr (copyWeak_phase small (h.has_weak source) source))
  | destroyWeak i =>
    obtain ⟨⟨at_i, legal⟩, ⟨⟩⟩ := ite_none_right_eq_some.mp step
    exact h.next_plain at_i rfl rfl ⟨rfl, rfl⟩ (Place.Plain.ite ⟨rfl, id, trivial⟩ plain_idle)
      (.inr (destroyWeak_phase small (h.has_weak legal.1) at_i legal))
  | lock i =>
    obtain ⟨⟨at_i, source⟩, ⟨⟩⟩ := ite_none_right_eq_some.mp step
    refine h.next_plain at_i rfl rfl ⟨rfl, rfl⟩ ⟨rfl, id, trivial⟩ (.inr ?_)
    exact (h.has_weak source).imp
      (fun alive => alive.move at_i rfl rfl rfl rfl rfl rfl (.inr source))
      fun dead => dead.move at_i rfl rfl rfl rfl rfl rfl rfl (.inr source)
  | step i =>
    obtain ⟨a, at_i, step⟩ := bind_eq_some_iff.mp step
    have spared : a.risky s → s.Spare := fun risky => kept (by simp [at_i, risky])
    cases a with
    | idle => cases step
    | releasing r =>
      cases step
      exact h.releaseStep small at_i
    | constructing r =>
      cases step
      exact h.constructStep small at_i spared
    | locking r =>
      cases step
      exact h.lockStep small at_i spared
    | deletingDir =>
      cases step
      have dead := h.dead at_i (by decide) (by decide)
      exact h.next_plain at_i rfl rfl ⟨rfl, rfl⟩ plain_idle (.inr (.inr (dead.deletingDir at_i)))

/-- The object and the directory are destroyed once, when nothing points to them, and are destroyed
then. -/
theorem sound_of_owned {n : ℕ} {xs : List Action} (run : RunWhen Owned exec (.new n) xs s) :
    s.Sound :=
  (RunWhen.invariant (fun _ _ _ ok owned step => Ok.step ok owned step) run (ok_new n)).sound

/-- A `weak_ptr` is made and locked, and all pointers are destroyed. -/
theorem sound_lock : ∃ s, RunWhen Owned exec (.new 2)
      [.constructWeak 0, .step 0, .step 0, .step 0, .step 0, .step 0, .step 0, .step 0, .step 0,
        .lock 1, .step 1, .step 1, .step 1, .step 1, .step 1, .destroyShared 0, .destroyShared 1,
        .step 1, .step 1, .step 1, .step 1, .destroyWeak 0, .step 0] s ∧
    s.destroyed = 1 ∧ s.dirDeleted = 1 ∧ s.Sound := by
  refine RunWhen.exists_and (f := fun s => (s.destroyed, s.dirDeleted)) (v := (1, 1))
    (by decide +kernel) fun s run value => ?_
  obtain ⟨once, dirOnce⟩ := Prod.mk.inj value
  exact ⟨once, dirOnce, sound_of_owned run⟩

/-- The last `shared_ptr` finds `ref` to be 0, then `lock` makes a new one and lowers `xref`, and then
the object is destroyed. -/
theorem not_sound_lock : ∃ s, Run exec (.new 2)
      [.constructWeak 0, .step 0, .step 0, .step 0, .step 0, .step 0, .step 0, .step 0, .step 0,
        .destroyShared 0, .lock 1, .step 1, .step 1, .step 1, .step 1, .step 1, .step 0, .step 0,
        .step 0, .step 0] s ∧
    s.destroyed = 1 ∧ s.shared = 1 ∧ ¬s.Sound := by
  refine RunWhen.exists_and (f := fun s => (s.destroyed, s.shared)) (v := (1, 1))
    (by decide +kernel) fun s run value => ?_
  obtain ⟨once, left⟩ := Prod.mk.inj value
  refine ⟨once, left, fun sound => ?_⟩
  have none := sound.outlived (once ▸ one_pos)
  unfold State.live at none
  omega

end JeoKernel.WeakPtr

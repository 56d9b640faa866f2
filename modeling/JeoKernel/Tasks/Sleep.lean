import Mathlib.Algebra.Order.Ring.Nat

/-!
# Sleeping

`millisleep`, `usleep` and `nanosleep` register a handler that unblocks the task at the first timer event
whose counter has reached its wake-up time.  If the nanosecond clock is not reliable, or the duration is
too long for it, the handler counts ticks of 10 ms.
-/

namespace JeoKernel.Sleep

def tick : ℕ := 10000000

/-- `TASK_EVENT_TIMER100HZ` with the tick, and `TASK_EVENT_NANOTIME` with the nanoseconds. -/
inductive Event where
  | timer100hz (currentTick : ℕ)
  | nanotime (nanos : ℕ)
  deriving DecidableEq

/-- `task_timer100hz_handler` and `task_nanos_handler`, with the wake-up time. -/
inductive Handler where
  | timer100hz (wakeupTime : ℕ)
  | nanos (wakeupTime : ℕ)
  deriving DecidableEq

/-- The handler's `event` unblocks the task. -/
def Handler.unblocks : Handler → Event → Bool
  | .timer100hz wakeupTime, .timer100hz currentTick => currentTick ≥ wakeupTime
  | .nanos wakeupTime, .nanotime time => time ≥ wakeupTime
  | _, _ => false

inductive Call where
  | millisleep (ms : UInt64)
  | usleep (us : UInt64)
  | nanosleep (nanos : UInt64)

def ticksMillisleep (now : UInt64) (ms : ℕ) : Handler :=
  .timer100hz ((now.toNat / tick + (ms / 10 + 1)) % 2 ^ 64)

def tscNanosleep (now : UInt64) (nanos : ℕ) : Handler := .nanos ((nanos + (now.toNat + 1)) % 2 ^ 64)

def millisleep (reliable : Bool) (now : UInt64) (ms : ℕ) : Option Handler :=
  if ms > 1000000000 ∨ ¬reliable then some (ticksMillisleep now ms)
  else some (tscNanosleep now (ms * 1000000))

/-- The handler that a call registers at the time `now`.  In `usleep` the test of `us % 1000` guards the
call of `ticks_millisleep`. -/
def Call.handler (reliable : Bool) (now : UInt64) : Call → Option Handler
  | .millisleep ms => Sleep.millisleep reliable now ms.toNat
  | .usleep us =>
    if us.toNat > 1000000000000 ∨ ¬reliable then
      if us.toNat % 1000 ≠ 0 then
        some (ticksMillisleep now (us.toNat / 1000 + if us.toNat % 1000 > 0 then 1 else 0))
      else none
    else some (tscNanosleep now (us.toNat * 1000))
  | .nanosleep nanos =>
    if reliable then some (tscNanosleep now nanos.toNat)
    else Sleep.millisleep reliable now
      (nanos.toNat / 1000000 + if nanos.toNat % 1000000 > 0 then 1 else 0)

/-! ## The time that a call takes -/

/-- The requested duration in nanoseconds. -/
def Call.duration : Call → ℕ
  | .millisleep ms => ms.toNat * 1000000
  | .usleep us => us.toNat * 1000
  | .nanosleep nanos => nanos.toNat

def Event.time : Event → ℕ
  | .timer100hz currentTick => currentTick * tick
  | .nanotime nanos => nanos

/-- The event comes after `now`, which is somewhere inside a tick. -/
def Event.Later (now : UInt64) : Event → Prop
  | .timer100hz currentTick => now.toNat / tick < currentTick
  | .nanotime nanos => now.toNat ≤ nanos

/-- The handler unblocks the task, at the first event of a stream that it reacts to, when the duration is
over. -/
def Handler.Waits (h : Handler) (now : UInt64) (duration : ℕ) : Prop :=
  ∀ events : List Event, events.Pairwise (·.time ≤ ·.time) → (∀ e ∈ events, e.Later now) →
    ∀ e, events.find? h.unblocks = some e → now.toNat + duration ≤ e.time

def Call.Sleeps (call : Call) (reliable : Bool) (now : UInt64) : Prop :=
  (0 < call.duration → (call.handler reliable now).isSome = true) ∧
    ∀ h ∈ call.handler reliable now, h.Waits now call.duration

def Call.ByTicks (reliable : Bool) : Call → Prop
  | .millisleep ms => ms.toNat > 1000000000 ∨ reliable = false
  | .usleep us => us.toNat > 1000000000000 ∨ reliable = false
  | .nanosleep _ => reliable = false

/-- The call is `usleep` with whole milliseconds. -/
def Call.Whole : Call → Prop
  | .usleep us => us.toNat % 1000 = 0
  | _ => False

variable {h : Handler} {now : UInt64} {ms nanos duration : ℕ}

theorem waits_iff : h.Waits now duration ↔
    ∀ e : Event, e.Later now → h.unblocks e = true → now.toNat + duration ≤ e.time := by
  constructor
  · intro waits e later unblocks
    exact waits [e] (List.pairwise_singleton ..) (by simpa using later) e (by simp [unblocks])
  · intro each events _ later e found
    exact each e (later e (List.mem_of_find?_eq_some found)) (List.find?_some found)

/-- The ticks up to the wake-up time cover the duration and the part of the first tick that is over. -/
theorem waits_ticksMillisleep (small : ms < 2 ^ 64) : (ticksMillisleep now ms).Waits now duration ↔
    now.toNat % tick + duration ≤ (ms / 10 + 1) * tick := by
  have bound := now.toNat_lt
  have nowrap : (now.toNat / tick + (ms / 10 + 1)) % 2 ^ 64 = now.toNat / tick + (ms / 10 + 1) := by
    refine Nat.mod_eq_of_lt ?_
    unfold tick
    omega
  have split := Nat.div_add_mod' now.toNat tick
  rw [waits_iff, ticksMillisleep, nowrap]
  constructor
  · intro each
    have last := each (.timer100hz (now.toNat / tick + (ms / 10 + 1)))
      (Nat.lt_add_of_pos_right (Nat.succ_pos _)) (by simp [Handler.unblocks])
    rw [Event.time, Nat.add_mul] at last
    omega
  · rintro enough (currentTick | nanos) - unblocks
    · have reached : now.toNat / tick + (ms / 10 + 1) ≤ currentTick := by
        simpa [Handler.unblocks] using unblocks
      have time := Nat.mul_le_mul_right tick reached
      rw [Nat.add_mul] at time
      rw [Event.time]
      omega
    · simp [Handler.unblocks] at unblocks

theorem waits_tscNanosleep (small : nanos < 2 ^ 64) : (tscNanosleep now nanos).Waits now nanos ↔
    nanos = 0 ∨ now.toNat + nanos + 1 < 2 ^ 64 := by
  rw [waits_iff, tscNanosleep]
  constructor
  · intro each
    by_contra wraps
    have first := each (.nanotime now.toNat) (Nat.le_refl _) (by
      simp only [Handler.unblocks, ge_iff_le, decide_eq_true_eq]
      omega)
    rw [Event.time] at first
    omega
  · rintro enough (currentTick | time) later unblocks
    · simp [Handler.unblocks] at unblocks
    · simp only [Handler.unblocks, ge_iff_le, decide_eq_true_eq] at unblocks
      simp only [Event.Later, Event.time] at later ⊢
      omega

variable {call : Call} {reliable : Bool}

theorem handler_of_byTicks (ticks : call.ByTicks reliable) (other : ¬call.Whole) :
    call.handler reliable now = some (ticksMillisleep now ((call.duration + 999999) / 1000000)) := by
  cases call with
  | millisleep ms =>
    have rounded : (ms.toNat * 1000000 + 999999) / 1000000 = ms.toNat := by omega
    simp_all [Call.ByTicks, Call.handler, Call.duration, millisleep]
  | usleep us =>
    have rounded : (us.toNat * 1000 + 999999) / 1000000 =
        us.toNat / 1000 + if us.toNat % 1000 > 0 then 1 else 0 := by
      split_ifs <;> omega
    simp_all [Call.ByTicks, Call.handler, Call.duration, Call.Whole]
  | nanosleep nanos =>
    have rounded : (nanos.toNat + 999999) / 1000000 =
        nanos.toNat / 1000000 + if nanos.toNat % 1000000 > 0 then 1 else 0 := by
      split_ifs <;> omega
    simp_all [Call.ByTicks, Call.handler, Call.duration, millisleep]

theorem handler_of_whole (ticks : call.ByTicks reliable) (whole : call.Whole) :
    call.handler reliable now = none := by
  cases call with
  | usleep us => simp_all [Call.ByTicks, Call.handler, Call.Whole]
  | millisleep | nanosleep => exact absurd whole id

theorem handler_of_not_byTicks (precise : ¬call.ByTicks reliable) : call.duration < 2 ^ 64 ∧
    call.handler reliable now = some (tscNanosleep now call.duration) := by
  cases call with
  | millisleep | usleep =>
    simp only [Call.ByTicks, not_or] at precise
    refine ⟨?_, if_neg (by simpa using precise)⟩
    rw [Call.duration]
    omega
  | nanosleep nanos => exact ⟨nanos.toNat_lt, if_pos (by simpa [Call.ByTicks] using precise)⟩

theorem sleeps_of_handler (registers : call.handler reliable now = some h) :
    call.Sleeps reliable now ↔ h.Waits now call.duration := by
  simp [Call.Sleeps, registers]

/-- With the nanosecond clock the wake-up time must not wrap around.  With ticks, the part of the
current tick that is over and the duration must fit into the ticks that are counted, and `usleep` must not
be called with whole milliseconds. -/
theorem sleeps_iff (call : Call) (reliable : Bool) (now : UInt64) : call.Sleeps reliable now ↔
    (¬call.ByTicks reliable → call.duration = 0 ∨ now.toNat + call.duration + 1 < 2 ^ 64) ∧
    (call.ByTicks reliable → (call.Whole → call.duration = 0) ∧
      now.toNat % tick + call.duration ≤ ((call.duration + 999999) / 1000000 / 10 + 1) * tick) := by
  by_cases ticks : call.ByTicks reliable
  · simp only [ticks, not_true, false_imp_iff, true_and, true_imp_iff]
    by_cases whole : call.Whole
    · have fits : call.duration = 0 →
          now.toNat % tick + call.duration ≤ ((call.duration + 999999) / 1000000 / 10 + 1) * tick := by
        intro zero
        rw [zero]
        exact (Nat.mod_lt _ (by decide)).le
      simpa [Call.Sleeps, handler_of_whole ticks whole, whole] using fits
    · have small : (call.duration + 999999) / 1000000 < 2 ^ 64 := by
        cases call with
        | millisleep n | usleep n | nanosleep n =>
          have := n.toNat_lt
          rw [Call.duration]
          omega
      rw [sleeps_of_handler (handler_of_byTicks ticks whole), waits_ticksMillisleep small]
      simp [whole]
  · obtain ⟨small, registers⟩ := @handler_of_not_byTicks now call reliable ticks
    rw [sleeps_of_handler registers, waits_tscNanosleep small]
    simp [ticks]

/-- Without the nanosecond clock `usleep(1000)` does not wait at all, and `millisleep(9)` that is called
9 ms into a tick waits for one millisecond. -/
theorem not_sleeps_ticks : ¬Call.Sleeps (.usleep 1000) false 0 ∧
    ¬Call.Sleeps (.millisleep 9) false 9000000 := by
  constructor
  · rintro ⟨registers, -⟩
    exact absurd (registers (by decide)) (by decide)
  · rintro ⟨-, waits⟩
    have early := waits _ rfl [.timer100hz 1] (List.pairwise_singleton ..)
      (List.forall_mem_singleton.mpr (Nat.one_pos : 9000000 / tick < 1)) _ rfl
    exact absurd early (by decide)

end JeoKernel.Sleep

import JeoKernel.Lib.Machine

/-!
# Restartable sequences

A thread registers an area in its memory that shows the CPU it runs on and names, while it executes a
critical section, the descriptor of this section.  Each time the thread is resumed, `Notify` updates
the CPU number and lets a thread that was interrupted within its section continue at the abort
address.

In a run the thread starts sequences, executes instructions, leaves the CPU, is resumed on some CPU,
and takes signals while it does not run.
-/

namespace JeoKernel.RSeq

open List

/-! ## The area, the descriptor and the thread -/

structure Rseq where
  cpuIdStart : UInt32
  cpuId : UInt32
  ptr : UInt64
  flags : UInt32
  deriving DecidableEq

structure RsecCs where
  version : UInt32
  flags : UInt32
  startIp : UInt64
  postCommitOffset : UInt64
  abortIp : UInt64
  deriving DecidableEq

structure ThreadRSeq where
  uptrRseq : UInt64
  sig : UInt32
  cpuid : UInt8
  preempted : Bool
  signaled : Bool
  migrated : Bool
  deriving DecidableEq

/-- What `Notify` reads and writes: the thread's record, its area and the saved `rip`. -/
structure Resume where
  thread : ThreadRSeq
  area : Rseq
  rip : UInt64
  deriving DecidableEq

def noRestartOnPreempt (flags : UInt32) : Bool := flags &&& 1 != 0

def noRestartOnSignal (flags : UInt32) : Bool := flags &&& 2 != 0

def noRestartOnMigrate (flags : UInt32) : Bool := flags &&& 4 != 0

def legal (flags : UInt32) : Bool :=
  !(noRestartOnSignal flags && (!noRestartOnMigrate flags || !noRestartOnPreempt flags))

def ThreadRSeq.needRestart (thread : ThreadRSeq) (flags : UInt32) : Bool :=
  thread.preempted && !noRestartOnPreempt flags || thread.signaled && !noRestartOnSignal flags ||
    thread.migrated && !noRestartOnMigrate flags

/-- The test for an address that is not within the section. -/
def RsecCs.notWithin (cs : RsecCs) (rip : UInt64) : Bool :=
  rip < cs.startIp || cs.postCommitOffset < rip - cs.startIp

/-- `Check`; `descriptor` is what can be read at an address. -/
def check (descriptor : UInt64 → Option RsecCs) (s : Resume) : Resume × Bool :=
  match descriptor s.area.ptr with
  | none => (s, false)
  | some cs =>
    if cs.notWithin s.rip then ({ s with area := { s.area with ptr := 0 } }, true)
    else
      let flags := s.area.flags ||| cs.flags
      if !legal flags then (s, false)
      else
        let thread := { s.thread with preempted := false, signaled := false, migrated := false }
        if s.thread.needRestart flags then
          (⟨thread, { s.area with ptr := 0 }, cs.abortIp⟩, true)
        else ({ s with thread }, true)

/-- The first lines of `Notify`. -/
def ThreadRSeq.arrive (thread : ThreadRSeq) (cpu : UInt8) : ThreadRSeq :=
  if cpu ≠ thread.cpuid then { thread with migrated := true } else thread

/-- `Notify`; `accessible` says whether the area can be mapped. -/
def notify (descriptor : UInt64 → Option RsecCs) (accessible : Bool) (s : Resume) (cpu : UInt8) :
    Resume :=
  let s := { s with thread := s.thread.arrive cpu }
  if s.thread.uptrRseq = 0 ∨ accessible = false ∨ s.area.ptr = 0 then
    { s with thread := { s.thread with cpuid := cpu } }
  else
    let (s, ok) := check descriptor s
    let area :=
      if ok then { s.area with cpuId := cpu.toUInt32, cpuIdStart := cpu.toUInt32 } else s.area
    ⟨{ s.thread with cpuid := cpu }, area, s.rip⟩

def ThreadRSeq.preempt (thread : ThreadRSeq) : ThreadRSeq := { thread with preempted := true }

/-! ## What a resume has to do -/

def RsecCs.Inside (cs : RsecCs) (rip : UInt64) : Prop :=
  cs.startIp.toNat ≤ rip.toNat ∧ rip.toNat < cs.startIp.toNat + cs.postCommitOffset.toNat

instance (cs : RsecCs) (rip : UInt64) : Decidable (cs.Inside rip) :=
  inferInstanceAs (Decidable (_ ∧ _))

/-- The thread is resumed on `cpu`: the area shows this CPU, an interrupted section is aborted, and
outside of the section nothing happens to the thread. -/
structure Resumed (descriptor : UInt64 → Option RsecCs) (s : Resume) (cpu : UInt8) (t : Resume) :
    Prop where
  cpuId : t.area.cpuId = cpu.toUInt32
  cpuIdStart : t.area.cpuIdStart = cpu.toUInt32
  aborted : ∀ cs, s.area.ptr ≠ 0 → descriptor s.area.ptr = some cs → cs.Inside s.rip →
    (s.thread.arrive cpu).needRestart (s.area.flags ||| cs.flags) = true →
    t.rip = cs.abortIp ∧ t.area.ptr = 0
  untouched : ∀ cs, s.area.ptr ≠ 0 → descriptor s.area.ptr = some cs → ¬cs.Inside s.rip → t.rip = s.rip

/-- The address right after the section, where the last instruction has been executed. -/
def RsecCs.Committed (cs : RsecCs) (rip : UInt64) : Prop :=
  rip.toNat = cs.startIp.toNat + cs.postCommitOffset.toNat

instance (cs : RsecCs) (rip : UInt64) : Decidable (cs.Committed rip) :=
  inferInstanceAs (Decidable (_ = _))

/-- The descriptor that the area names can be read and its flags are legal. -/
def Described (descriptor : UInt64 → Option RsecCs) (area : Rseq) : Prop :=
  area.ptr ≠ 0 → ∃ cs, descriptor area.ptr = some cs ∧ legal (area.flags ||| cs.flags) = true

/-- Outside of sections the area already shows the CPU; a section that was committed is not
interrupted right there. -/
structure Spared (descriptor : UInt64 → Option RsecCs) (s : Resume) (cpu : UInt8) : Prop where
  shown : s.area.ptr = 0 → s.area.cpuId = cpu.toUInt32 ∧ s.area.cpuIdStart = cpu.toUInt32
  committed : ∀ cs, s.area.ptr ≠ 0 → descriptor s.area.ptr = some cs → cs.Committed s.rip →
    (s.thread.arrive cpu).needRestart (s.area.flags ||| cs.flags) = true → cs.abortIp = s.rip

section Notify

variable {descriptor : UInt64 → Option RsecCs} {s : Resume} {cpu : UInt8} {cs : RsecCs}

theorem RsecCs.notWithin_iff (cs : RsecCs) (rip : UInt64) :
    cs.notWithin rip = true ↔ ¬cs.Inside rip ∧ ¬cs.Committed rip := by
  unfold RsecCs.notWithin RsecCs.Inside RsecCs.Committed
  rw [Bool.or_eq_true, decide_eq_true_iff, decide_eq_true_iff, UInt64.lt_iff_toNat_lt,
    UInt64.lt_iff_toNat_lt]
  by_cases before : rip.toNat < cs.startIp.toNat
  · omega
  · rw [UInt64.toNat_sub_of_le _ _ (UInt64.le_iff_toNat_le.mpr (by omega))]
    omega

open ThreadRSeq

theorem ThreadRSeq.uptrRseq_arrive (thread : ThreadRSeq) (cpu : UInt8) :
    (thread.arrive cpu).uptrRseq = thread.uptrRseq := by
  unfold arrive
  split_ifs <;> rfl

theorem notify_idle (idle : s.area.ptr = 0) :
    notify descriptor true s cpu =
      { s with thread := { s.thread.arrive cpu with cpuid := cpu } } := by
  rw [notify, if_pos (.inr (.inr idle))]

theorem notify_active (registered : s.thread.uptrRseq ≠ 0) (active : s.area.ptr ≠ 0)
    (described : descriptor s.area.ptr = some cs) (lawful : legal (s.area.flags ||| cs.flags) = true) :
    notify descriptor true s cpu =
      let cleared := { s.thread.arrive cpu with
        preempted := false, signaled := false, migrated := false, cpuid := cpu }
      let area := { s.area with cpuId := cpu.toUInt32, cpuIdStart := cpu.toUInt32 }
      if cs.notWithin s.rip then
        ⟨{ s.thread.arrive cpu with cpuid := cpu }, { area with ptr := 0 }, s.rip⟩
      else if (s.thread.arrive cpu).needRestart (s.area.flags ||| cs.flags) then
        ⟨cleared, { area with ptr := 0 }, cs.abortIp⟩
      else ⟨cleared, area, s.rip⟩ := by
  have known : (s.thread.arrive cpu).uptrRseq ≠ 0 := by rwa [uptrRseq_arrive]
  simp only [notify, check, known, active, described, lawful, Bool.true_eq_false, or_self, if_false,
    Bool.not_true, Bool.false_eq_true]
  cases cs.notWithin s.rip <;>
    cases (s.thread.arrive cpu).needRestart (s.area.flags ||| cs.flags) <;> rfl

theorem notify_keeps (cpu : UInt8) (registered : s.thread.uptrRseq ≠ 0)
    (described : Described descriptor s.area) :
    let t := notify descriptor true s cpu
    t.thread.uptrRseq = s.thread.uptrRseq ∧ t.thread.cpuid = cpu ∧ t.area.flags = s.area.flags ∧
    (t.area.ptr = 0 ∨
      t.area.ptr = s.area.ptr ∧ t.rip = s.rip ∧ ∀ cs, descriptor s.area.ptr = some cs →
        (s.thread.arrive cpu).needRestart (s.area.flags ||| cs.flags) = false) := by
  have uptr := s.thread.uptrRseq_arrive cpu
  by_cases idle : s.area.ptr = 0
  · rw [notify_idle idle]
    exact ⟨uptr, rfl, rfl, .inl idle⟩
  · obtain ⟨cs, found, lawful⟩ := described idle
    rw [notify_active registered idle found lawful]
    split_ifs with _ restart
    · exact ⟨uptr, rfl, rfl, .inl rfl⟩
    · exact ⟨uptr, rfl, rfl, .inl rfl⟩
    · refine ⟨uptr, rfl, rfl, .inr ⟨rfl, rfl, fun cs' found' => ?_⟩⟩
      obtain rfl : cs' = cs := Option.some.inj (found'.symm.trans found)
      exact Bool.eq_false_iff.mpr restart

/-- Without a restart, the thread is on its old CPU, or the section does not ask for one. -/
theorem ThreadRSeq.cpu_eq_of_not_needRestart {thread : ThreadRSeq} {flags : UInt32}
    (goes_on : (thread.arrive cpu).needRestart flags = false)
    (unmasked : noRestartOnMigrate flags = false) : thread.cpuid = cpu := by
  by_contra other
  have migrated : (thread.arrive cpu).migrated = true := by
    rw [arrive, if_pos (Ne.symm other)]
  simp [needRestart, migrated, unmasked] at goes_on

theorem Resumed.spared (registered : s.thread.uptrRseq ≠ 0) (described : Described descriptor s.area)
    (resumed : Resumed descriptor s cpu (notify descriptor true s cpu)) : Spared descriptor s cpu := by
  constructor
  · intro idle
    have cpuId := resumed.cpuId
    have cpuIdStart := resumed.cpuIdStart
    rw [notify_idle idle] at cpuId cpuIdStart
    exact ⟨cpuId, cpuIdStart⟩
  · intro cs active found committed restart
    obtain ⟨cs', found', lawful⟩ := described active
    obtain rfl : cs = cs' := Option.some.inj (found.symm.trans found')
    have outside : ¬cs.Inside s.rip := by
      unfold RsecCs.Inside RsecCs.Committed at *
      omega
    have within : cs.notWithin s.rip ≠ true := fun h => ((cs.notWithin_iff _).mp h).2 committed
    have same := resumed.untouched cs active found outside
    rwa [notify_active registered active found lawful, if_neg within, if_pos restart] at same

theorem Spared.resumed (spared : Spared descriptor s cpu) (registered : s.thread.uptrRseq ≠ 0)
    (described : Described descriptor s.area) :
    Resumed descriptor s cpu (notify descriptor true s cpu) := by
  by_cases idle : s.area.ptr = 0
  · obtain ⟨cpuId, cpuIdStart⟩ := spared.shown idle
    rw [notify_idle idle]
    exact ⟨cpuId, cpuIdStart, fun _ active => absurd idle active, fun _ active => absurd idle active⟩
  · obtain ⟨cs, found, lawful⟩ := described idle
    have unique {cs' : RsecCs} (found' : descriptor s.area.ptr = some cs') : cs' = cs :=
      Option.some.inj (found'.symm.trans found)
    rw [notify_active registered idle found lawful]
    split_ifs with outside restart
    · refine ⟨rfl, rfl, fun cs' _ found' inside => ?_, fun _ _ _ _ => rfl⟩
      obtain rfl := unique found'
      exact absurd inside ((cs'.notWithin_iff _).mp outside).1
    · refine ⟨rfl, rfl, fun cs' _ found' _ _ => ?_, fun cs' active found' not_inside => ?_⟩
      · obtain rfl := unique found'
        exact ⟨rfl, rfl⟩
      · obtain rfl := unique found'
        have committed : cs'.Committed s.rip := by
          by_contra not_committed
          exact outside ((cs'.notWithin_iff _).mpr ⟨not_inside, not_committed⟩)
        exact spared.committed cs' active found' committed restart
    · refine ⟨rfl, rfl, fun cs' _ found' _ restart' => ?_, fun _ _ _ _ => rfl⟩
      obtain rfl := unique found'
      exact absurd restart' restart

end Notify

/-! ## Runs -/

/-- A sequence that a thread executes, with the CPU number it has read. -/
structure Sequence where
  ptr : UInt64
  cs : RsecCs
  number : UInt32

/-- A thread that runs or waits, the sequence it is in, and the places where signals have
interrupted it. -/
structure Life where
  state : Resume
  running : Bool
  sequence : Option Sequence
  interrupted : List (UInt64 × Option Sequence)

inductive LifeAction where
  | start (ptr : UInt64) (flags : UInt32)
  | step (rip : UInt64)
  | clear
  | leave
  | signal (handler : UInt64)
  | sigreturn
  | resume (cpu : UInt8)

def Life.start (s : Life) (ptr : UInt64) (flags : UInt32) (cs : RsecCs) : Life :=
  { s with
    state := { s.state with area := { s.state.area with ptr, flags }, rip := cs.startIp }
    sequence := if cs.Inside cs.startIp then some ⟨ptr, cs, s.state.area.cpuIdStart⟩ else none }

def Life.step (s : Life) (rip : UInt64) : Life :=
  { s with
    state := { s.state with rip }
    sequence := s.sequence.filter fun q => q.cs.Inside rip }

def Life.clear (s : Life) : Life :=
  { s with state := { s.state with area := { s.state.area with ptr := 0 } }, sequence := none }

def Life.leave (s : Life) : Life :=
  { s with running := false, state := { s.state with thread := s.state.thread.preempt } }

/-- `LaunchSignal` makes the thread continue in the handler. -/
def Life.signal (s : Life) (handler : UInt64) : Life :=
  { s with
    state := { s.state with rip := handler }
    sequence := none
    interrupted := (s.state.rip, s.sequence) :: s.interrupted }

def Life.resume (descriptor : UInt64 → Option RsecCs) (s : Life) (cpu : UInt8) : Life :=
  let state := notify descriptor true s.state cpu
  { s with
    running := true
    state
    sequence := s.sequence.filter fun q => ¬(s.state.area.ptr = q.ptr ∧ state.area.ptr = 0) }

def lifeExec (descriptor : UInt64 → Option RsecCs) (s : Life) : LifeAction → Option Life
  | .start ptr flags =>
    if s.running ∧ ptr ≠ 0 then (descriptor ptr).map (s.start ptr flags) else none
  | .step rip => if s.running then some (s.step rip) else none
  | .clear => if s.running then some s.clear else none
  | .leave => if s.running then some s.leave else none
  | .signal handler => if s.running then none else some (s.signal handler)
  | .sigreturn =>
    if s.running then none
    else s.interrupted.head?.map fun x =>
      { s with
        state := { s.state with rip := x.1 }
        sequence := x.2
        interrupted := s.interrupted.tail }
  | .resume cpu => if s.running then none else some (s.resume descriptor cpu)

/-- While the thread runs, the area shows its CPU, and no sequence goes on that was started on
another one. -/
structure Life.Sound (s : Life) : Prop where
  shown : s.running = true → s.state.area.cpuId = s.state.thread.cpuid.toUInt32 ∧
    s.state.area.cpuIdStart = s.state.thread.cpuid.toUInt32
  started : s.running = true → ∀ q ∈ s.sequence,
    noRestartOnMigrate (s.state.area.flags ||| q.cs.flags) = false →
    q.number = s.state.thread.cpuid.toUInt32

/-- Each resume is one that `Notify` gets right, and no signal interrupts a sequence. -/
def Life.Spared (descriptor : UInt64 → Option RsecCs) (s : Life) : LifeAction → Prop
  | .resume cpu => Described descriptor s.state.area ∧ RSeq.Spared descriptor s.state cpu
  | .signal _ => s.sequence = none
  | _ => True

/-- The sequence is the one of the descriptor that the area names, and it was started on the CPU of
the thread. -/
structure Life.Inv (descriptor : UInt64 → Option RsecCs) (s : Life) : Prop where
  registered : s.state.thread.uptrRseq ≠ 0
  shown : s.running = true → s.state.area.cpuId = s.state.thread.cpuid.toUInt32 ∧
    s.state.area.cpuIdStart = s.state.thread.cpuid.toUInt32
  sequence : ∀ q ∈ s.sequence, q.ptr ≠ 0 ∧ s.state.area.ptr = q.ptr ∧ descriptor q.ptr = some q.cs ∧
    q.cs.Inside s.state.rip ∧ (noRestartOnMigrate (s.state.area.flags ||| q.cs.flags) = false →
      q.number = s.state.thread.cpuid.toUInt32)
  interrupted : ∀ x ∈ s.interrupted, x.2 = none

namespace Life.Inv

variable {descriptor : UInt64 → Option RsecCs} {s : Life}

section

variable (h : s.Inv descriptor)

include h

theorem start (running : s.running = true) {ptr : UInt64} (flags : UInt32) {cs : RsecCs}
    (nonzero : ptr ≠ 0) (found : descriptor ptr = some cs) :
    (s.start ptr flags cs).Inv descriptor := by
  refine ⟨h.registered, h.shown, fun q started => ?_, h.interrupted⟩
  simp only [Life.start] at started
  split_ifs at started with inside
  · cases started
    exact ⟨nonzero, rfl, found, inside, fun _ => (h.shown running).2⟩
  · cases started

theorem step (rip : UInt64) : (s.step rip).Inv descriptor := by
  refine ⟨h.registered, h.shown, fun q kept => ?_, h.interrupted⟩
  obtain ⟨same, inside⟩ := Option.filter_eq_some_iff.mp kept
  obtain ⟨nonzero, ptr, found, -, number⟩ := h.sequence q same
  exact ⟨nonzero, ptr, found, of_decide_eq_true inside, number⟩

theorem clear : s.clear.Inv descriptor :=
  ⟨h.registered, h.shown, fun q started => by simp [Life.clear] at started, h.interrupted⟩

theorem leave : s.leave.Inv descriptor :=
  ⟨h.registered, fun running => absurd running (by simp [Life.leave]), h.sequence, h.interrupted⟩

theorem signal (stopped : s.running = false) (between : s.sequence = none) (handler : UInt64) :
    (s.signal handler).Inv descriptor := by
  refine ⟨h.registered, fun running => absurd running (by simp [Life.signal, stopped]),
    fun q started => by simp [Life.signal] at started, fun x listed => ?_⟩
  rcases mem_cons.mp listed with rfl | listed
  · exact between
  · exact h.interrupted x listed

theorem resume {cpu : UInt8} (described : Described descriptor s.state.area)
    (spared : RSeq.Spared descriptor s.state cpu) : (s.resume descriptor cpu).Inv descriptor := by
  have resumed := spared.resumed h.registered described
  obtain ⟨uptr, cpuid, flags, outcome⟩ := notify_keeps cpu h.registered described
  have state : (s.resume descriptor cpu).state = notify descriptor true s.state cpu := rfl
  refine ⟨?_, fun _ => ?_, fun q kept => ?_, h.interrupted⟩
  · exact fun zero => h.registered (uptr.symm.trans zero)
  · rw [state, cpuid]
    exact ⟨resumed.cpuId, resumed.cpuIdStart⟩
  · obtain ⟨same, goes_on⟩ := Option.filter_eq_some_iff.mp kept
    obtain ⟨nonzero, ptr, found, inside, number⟩ := h.sequence q same
    have not_cleared := of_decide_eq_true goes_on
    rcases outcome with cleared | ⟨same_ptr, same_rip, no_restart⟩
    · exact absurd ⟨ptr, cleared⟩ not_cleared
    · refine ⟨nonzero, same_ptr.trans ptr, found, same_rip ▸ inside, fun unmasked => ?_⟩
      rw [state, flags] at unmasked
      have same_cpu := ThreadRSeq.cpu_eq_of_not_needRestart (no_restart q.cs (ptr ▸ found)) unmasked
      rw [number unmasked, state, cpuid, same_cpu]

theorem exec {x : LifeAction} {t : Life} (spared : s.Spared descriptor x)
    (taken : lifeExec descriptor s x = some t) : t.Inv descriptor := by
  cases x with
  | start ptr flags =>
    obtain ⟨⟨running, nonzero⟩, started⟩ := Option.ite_none_right_eq_some.mp taken
    obtain ⟨cs, found, rfl⟩ := Option.map_eq_some_iff.mp started
    exact h.start running flags nonzero found
  | step rip =>
    obtain ⟨-, result⟩ := Option.ite_none_right_eq_some.mp taken
    cases result
    exact h.step rip
  | clear =>
    obtain ⟨-, result⟩ := Option.ite_none_right_eq_some.mp taken
    cases result
    exact h.clear
  | leave =>
    obtain ⟨-, result⟩ := Option.ite_none_right_eq_some.mp taken
    cases result
    exact h.leave
  | signal handler =>
    obtain ⟨stopped, result⟩ := Option.ite_none_left_eq_some.mp taken
    cases result
    exact h.signal (Bool.eq_false_iff.mpr stopped) spared handler
  | sigreturn =>
    obtain ⟨stopped, returned⟩ := Option.ite_none_left_eq_some.mp taken
    obtain ⟨x, first, rfl⟩ := Option.map_eq_some_iff.mp returned
    have none_left := h.interrupted x (mem_of_mem_head? first)
    refine ⟨h.registered, fun running => absurd running stopped, fun q started => ?_, fun y listed => ?_⟩
    · exact absurd started (by simp [none_left])
    · exact h.interrupted y (mem_of_mem_tail listed)
  | resume cpu =>
    obtain ⟨-, result⟩ := Option.ite_none_left_eq_some.mp taken
    cases result
    exact h.resume spared.1 spared.2

theorem sound : s.Sound :=
  ⟨h.shown, fun _ q started => (h.sequence q started).2.2.2.2⟩

end

end Life.Inv

/-- A run of a thread that is registered, from before a resume on: as long as each resume is spared and
no signal interrupts a sequence, the area shows the CPU of the thread and no sequence goes on that was
started on another CPU.  A resume does what it has to do exactly if it is spared. -/
theorem sound_of_spared {descriptor : UInt64 → Option RsecCs} {s t : Life} {xs : List LifeAction}
    (registered : s.state.thread.uptrRseq ≠ 0) (stopped : s.running = false) (between : s.sequence = none)
    (uninterrupted : s.interrupted = [])
    (run : Machine.RunWhen (Life.Spared descriptor) (lifeExec descriptor) s xs t) :
    t.Sound ∧ ∀ cpu, Described descriptor t.state.area →
      (Resumed descriptor t.state cpu (notify descriptor true t.state cpu) ↔
        Spared descriptor t.state cpu) := by
  have start : s.Inv descriptor :=
    ⟨registered, fun running => absurd running (by simp [stopped]), by simp [between],
      by simp [uninterrupted]⟩
  have inv := run.invariant (fun _ _ _ h spared taken => Life.Inv.exec h spared taken) start
  exact ⟨inv.sound, fun cpu described => ⟨fun resumed => resumed.spared inv.registered described,
    fun spared => spared.resumed inv.registered described⟩⟩

def shortSection : RsecCs := ⟨0, 0, 0x1000, 0x10, 0x2000⟩

def oneDescriptor (addr : UInt64) : Option RsecCs := if addr = 0x100 then some shortSection else none

def waiting : Life where
  state := ⟨⟨0x80, 0, 1, true, false, false⟩, ⟨1, 1, 0, 0⟩, 0x500⟩
  running := false
  sequence := none
  interrupted := []

/-- A sequence that is started on CPU 1 and resumed on CPU 2 is aborted. -/
theorem sound_migrated_sequence : ∃ t, Machine.RunWhen (Life.Spared oneDescriptor)
    (lifeExec oneDescriptor) waiting [.resume 1, .start 0x100 0, .leave, .resume 2] t ∧
    t.state.rip = 0x2000 ∧ t.Sound := by
  refine Machine.RunWhen.reaches (.cons ⟨?_, ?_⟩ rfl (.cons trivial rfl (.cons trivial rfl
    (.cons ⟨?_, ?_⟩ rfl (.nil _))))) fun run =>
      ⟨by decide, (sound_of_spared (by decide) rfl rfl rfl run).1⟩
  · exact fun active => absurd rfl active
  · exact ⟨fun _ => by decide, fun _ active => absurd rfl active⟩
  · exact fun _ => ⟨shortSection, by decide, by decide⟩
  · refine ⟨fun idle => absurd idle (by decide), fun cs _ found committed _ => ?_⟩
    obtain rfl : shortSection = cs := Option.some.inj found
    exact absurd committed (by decide)

/-- A sequence has executed its last instruction when the thread leaves CPU 1; on its return to this
CPU it is restarted. -/
theorem not_resumed_committed : ∃ t, Machine.Run (lifeExec oneDescriptor) waiting
    [.resume 1, .start 0x100 0, .step 0x1010, .leave] t ∧ Described oneDescriptor t.state.area ∧
    t.state.rip = 0x1010 ∧ (notify oneDescriptor true t.state 1).rip = 0x2000 ∧
    ¬Resumed oneDescriptor t.state 1 (notify oneDescriptor true t.state 1) := by
  refine ⟨_, .of_foldlM rfl,
    fun _ => ⟨shortSection, by decide, by decide⟩, by decide, by decide, fun resumed => ?_⟩
  have same := resumed.untouched shortSection (by decide) (by decide) (by decide)
  exact absurd same (by decide)

end JeoKernel.RSeq

import JeoKernel.Lib.Bytes
import JeoKernel.Lib.Machine
import JeoKernel.Lib.Space
import JeoKernel.Lib.WordBits

/-!
# Signal delivery and the return from a handler

`LaunchSignal` blocks the signal, writes the registers and the old mask into a `SignalStackFrame` on
the user's stack and lets the thread continue in the handler.  The handler returns to
`SIGTRAMP_ADDR`, or to a restorer that calls `sigreturn`, which continues there; the page fault at this
address reads the frame back.

In between the thread runs any code, changes its mask, and takes further signals.
-/

namespace JeoKernel.Signals

/-! ## Signal sets -/

/-- `sigset_t`, the signals 1 to 64 in two words. -/
structure SigSet where
  val : List (BitVec 32)
  length_val : val.length = 2
  deriving DecidableEq

namespace SigSet

def empty : SigSet := ⟨[0, 0], rfl⟩

def set (s : SigSet) (signal : ℕ) : SigSet where
  val := if signal < 1 ∨ 64 < signal then s.val else WordBits.setBit s.val (signal - 1) true
  length_val := by split_ifs <;> simp [s.length_val]

def test (s : SigSet) (signal : ℕ) : Bool :=
  if signal < 1 ∨ 64 < signal then false else WordBits.bit s.val (signal - 1)

def bytes (s : SigSet) : List UInt8 := Record.encode [4, 4] (s.val.map BitVec.toNat)

def ofBytes (bytes : List UInt8) : SigSet where
  val := (Record.decode [4, 4] bytes).map (BitVec.ofNat 32)
  length_val := by simp [Record.decode]

def copy (size : ℕ) (source target : SigSet) : SigSet :=
  ofBytes (source.bytes.take size ++ target.bytes.drop size)

def union (s t : SigSet) : SigSet where
  val := List.zipWith (· ||| ·) s.val t.val
  length_val := by simp [s.length_val, t.length_val]

def diff (s t : SigSet) : SigSet where
  val := List.zipWith (fun a b => a &&& ~~~b) s.val t.val
  length_val := by simp [s.length_val, t.length_val]

end SigSet

inductive How where
  | block
  | unblock
  | setmask
  | other
  deriving DecidableEq

/-- `Process::sigprocmask`: the new mask and what is stored in `oldset`, or `-EINVAL`. -/
def sigprocmask (sigmask : SigSet) (how : How) (set : Option SigSet) (sigsetsize : ℕ) :
    Option (SigSet × SigSet) :=
  if 8 < sigsetsize ∨ how = .other then none
  else
    let oldset := SigSet.copy sigsetsize sigmask .empty
    match set with
    | none => some (sigmask, oldset)
    | some set =>
      let tmp := SigSet.copy sigsetsize set .empty
      let sigmask :=
        if how = .block then sigmask.union tmp
        else if how = .unblock then sigmask.diff tmp
        else SigSet.copy sigsetsize set sigmask
      some (sigmask, oldset)

/-! ## The frame on the stack -/

structure InterruptStackFrame where
  fs : UInt16
  gs : UInt16
  r15 : UInt64
  r14 : UInt64
  r13 : UInt64
  r12 : UInt64
  r11 : UInt64
  r10 : UInt64
  r9 : UInt64
  r8 : UInt64
  rsi : UInt64
  rdi : UInt64
  rbp : UInt64
  rdx : UInt64
  rcx : UInt64
  rbx : UInt64
  rax : UInt64
  deriving DecidableEq

structure InterruptCpuFrame where
  rip : UInt64
  cs : UInt64
  rflags : UInt64
  rsp : UInt64
  deriving DecidableEq

/-- `SignalStackFrame`; `zero0` and `reserved0` are zero and are not read. -/
structure SignalStackFrame where
  sigtramp : UInt64
  r8 : UInt64
  r9 : UInt64
  r10 : UInt64
  r11 : UInt64
  r12 : UInt64
  r13 : UInt64
  r14 : UInt64
  r15 : UInt64
  rdi : UInt64
  rsi : UInt64
  rbp : UInt64
  rbx : UInt64
  rdx : UInt64
  rax : UInt64
  rcx : UInt64
  rsp : UInt64
  rip : UInt64
  rflags : UInt64
  cs : UInt16
  gs : UInt16
  fs : UInt16
  err : UInt64
  trapno : UInt64
  oldmask : UInt64
  cr2 : UInt64
  fpstate : UInt64
  deriving DecidableEq

namespace SignalStackFrame

def layout : List ℕ := List.replicate 19 8 ++ [2, 2, 2, 2] ++ List.replicate 13 8

def size : ℕ := 264

def toFields (f : SignalStackFrame) : List ℕ :=
  [f.sigtramp, f.r8, f.r9, f.r10, f.r11, f.r12, f.r13, f.r14, f.r15, f.rdi, f.rsi, f.rbp, f.rbx, f.rdx,
    f.rax, f.rcx, f.rsp, f.rip, f.rflags].map UInt64.toNat ++
  [f.cs.toNat, f.gs.toNat, f.fs.toNat, 0] ++
  [f.err, f.trapno, f.oldmask, f.cr2, f.fpstate, 0, 0, 0, 0, 0, 0, 0, 0].map UInt64.toNat

def ofFields (fields : List ℕ) : SignalStackFrame :=
  let word (i : ℕ) : UInt64 := UInt64.ofNat (fields.getD i 0)
  let half (i : ℕ) : UInt16 := UInt16.ofNat (fields.getD i 0)
  { sigtramp := word 0, r8 := word 1, r9 := word 2, r10 := word 3, r11 := word 4, r12 := word 5,
    r13 := word 6, r14 := word 7, r15 := word 8, rdi := word 9, rsi := word 10, rbp := word 11,
    rbx := word 12, rdx := word 13, rax := word 14, rcx := word 15, rsp := word 16, rip := word 17,
    rflags := word 18, cs := half 19, gs := half 20, fs := half 21, err := word 23, trapno := word 24,
    oldmask := word 25, cr2 := word 26, fpstate := word 27 }

def bytes (f : SignalStackFrame) : List UInt8 := Record.encode layout f.toFields

def read (memory : Space) (addr : UInt64) : SignalStackFrame :=
  ofFields (Record.decode layout (memory.load addr size))

end SignalStackFrame

/-! ## Delivery and return -/

def sigtrampAddr : UInt64 := 0xFFFFFFFFFFFF6000

/-- `struct sigaction`; `sa_handler` and `sa_sigaction` are one field. -/
structure SigAction where
  handler : UInt64
  flags : UInt64
  restorer : UInt64

/-- A thread that is not running, with its memory and the mask of its process. -/
structure Thread where
  cpuframe : InterruptCpuFrame
  cpustate : InterruptStackFrame
  memory : Space
  sigmask : SigSet

/-- Below the red zone, and as if a return address had been pushed to an aligned stack. -/
def framePtr (rsp : UInt64) : UInt64 :=
  ((rsp - 128 - UInt64.ofNat SignalStackFrame.size) &&& ~~~0xF) - 8

def Thread.stackFrame (t : Thread) (action : SigAction) (oldmask : UInt64) : SignalStackFrame where
  sigtramp := if action.flags &&& 0x4000000 ≠ 0 then action.restorer else sigtrampAddr
  r8 := t.cpustate.r8
  r9 := t.cpustate.r9
  r10 := t.cpustate.r10
  r11 := t.cpustate.r11
  r12 := t.cpustate.r12
  r13 := t.cpustate.r13
  r14 := t.cpustate.r14
  r15 := t.cpustate.r15
  rdi := t.cpustate.rdi
  rsi := t.cpustate.rsi
  rbp := t.cpustate.rbp
  rbx := t.cpustate.rbx
  rdx := t.cpustate.rdx
  rax := t.cpustate.rax
  rcx := t.cpustate.rcx
  rsp := t.cpuframe.rsp
  rip := t.cpuframe.rip
  rflags := t.cpuframe.rflags
  cs := t.cpuframe.cs.toUInt16
  gs := t.cpustate.gs
  fs := t.cpustate.fs
  err := 0
  trapno := 0
  oldmask := oldmask
  cr2 := 0
  fpstate := 0

def Thread.block (t : Thread) (signum : ℕ) : SigSet × SigSet :=
  let sig := SigSet.empty.set signum
  (sigprocmask t.sigmask .block (some sig) 8).getD (t.sigmask, sig)

def Thread.launchFrame (t : Thread) (action : SigAction) (signum : ℕ) : SignalStackFrame :=
  t.stackFrame action (UInt64.ofNat (Record.leValue (t.block signum).2.bytes))

/-- `LaunchSignal`; `writable` says whether the memory of the frame can be read, written and mapped.
Otherwise the thread ends. -/
def Thread.launchSignal (t : Thread) (action : SigAction) (signum : ℕ) (writable : Bool) :
    Option Thread :=
  let frameptr := framePtr t.cpuframe.rsp
  if writable then
    some
      { cpuframe := { t.cpuframe with rip := action.handler, rsp := frameptr }
        cpustate := { t.cpustate with rdi := UInt64.ofNat signum }
        memory := t.memory.store frameptr (t.launchFrame action signum).bytes
        sigmask := (t.block signum).1 }
  else none

def Thread.sigreturn (t : Thread) : Thread :=
  { t with
    cpuframe := { t.cpuframe with rip := sigtrampAddr }
    cpustate := { t.cpustate with rax := 0 } }

def SignalStackFrame.cpuframe (frame : SignalStackFrame) : InterruptCpuFrame where
  rsp := frame.rsp
  rip := frame.rip
  rflags := frame.rflags
  cs := (frame.cs ||| 3).toUInt64

def SignalStackFrame.cpustate (frame : SignalStackFrame) : InterruptStackFrame where
  r8 := frame.r8
  r9 := frame.r9
  r10 := frame.r10
  r11 := frame.r11
  r12 := frame.r12
  r13 := frame.r13
  r14 := frame.r14
  r15 := frame.r15
  rdi := frame.rdi
  rsi := frame.rsi
  rbp := frame.rbp
  rbx := frame.rbx
  rdx := frame.rdx
  rax := frame.rax
  rcx := frame.rcx
  gs := frame.gs ||| 3
  fs := frame.fs ||| 3

def Thread.returnMask (t : Thread) (oldmask : UInt64) : SigSet :=
  let sig := ((sigprocmask t.sigmask .setmask none 8).map Prod.snd).getD .empty
  let sig := SigSet.ofBytes (Record.leBytes 8 oldmask.toNat ++ sig.bytes.drop 8)
  ((sigprocmask t.sigmask .setmask (some sig) 8).map Prod.fst).getD t.sigmask

def Thread.restore (t : Thread) (frame : SignalStackFrame) : Thread where
  cpuframe := frame.cpuframe
  cpustate := frame.cpustate
  memory := t.memory
  sigmask := t.returnMask frame.oldmask

/-- `ProcThread::page_fault`; `readable` says whether the memory of the frame can be mapped, otherwise
the thread ends.  A fault at another address is left to `Process::page_fault`. -/
def Thread.pageFault (processFault : Thread → Option Thread) (t : Thread) (readable : Bool) :
    Option Thread :=
  if t.cpuframe.rip = sigtrampAddr then
    if readable then some (t.restore (.read t.memory (t.cpuframe.rsp - 8))) else none
  else processFault t

/-! ## Sets in memory and out of it -/

namespace SigSet

theorem fits (s : SigSet) : Record.Fits [4, 4] (s.val.map BitVec.toNat) := by
  obtain ⟨val, length_val⟩ := s
  obtain ⟨a, b, rfl⟩ := List.length_eq_two.mp length_val
  exact ⟨a.isLt, b.isLt, trivial⟩

@[simp] theorem length_bytes (s : SigSet) : s.bytes.length = 8 := Record.length_encode s.fits

@[simp] theorem ofBytes_bytes (s : SigSet) : ofBytes s.bytes = s := by
  have val : (ofBytes s.bytes).val = s.val := by
    simp [ofBytes, bytes, Record.decode_encode s.fits, Function.comp_def]
  cases s
  simpa [ofBytes] using val

@[simp] theorem copy_eight (s t : SigSet) : copy 8 s t = s := by
  rw [copy, List.take_of_length_le (by simp), List.drop_of_length_le (by simp), List.append_nil,
    ofBytes_bytes]

theorem test_union (s t : SigSet) (signal : ℕ) :
    (s.union t).test signal = (s.test signal || t.test signal) := by
  unfold test
  by_cases outside : signal < 1 ∨ 64 < signal
  · simp only [if_pos outside, Bool.or_false]
  · obtain ⟨a, b, sval⟩ := List.length_eq_two.mp s.length_val
    obtain ⟨c, d, tval⟩ := List.length_eq_two.mp t.length_val
    have word : (signal - 1) / 32 = 0 ∨ (signal - 1) / 32 = 1 := by omega
    simp only [outside, if_false, union, WordBits.bit, sval, tval]
    rcases word with word | word <;> simp [word]

theorem test_set_self (s : SigSet) {signal : ℕ} (lower : 1 ≤ signal) (upper : signal ≤ 64) :
    (s.set signal).test signal = true := by
  have outside : ¬(signal < 1 ∨ 64 < signal) := by omega
  simp only [test, set, outside, if_false]
  rw [WordBits.bit_setBit _ (by rw [s.length_val]; omega) (by decide), if_pos rfl]

end SigSet

theorem sigprocmask_block (sigmask set : SigSet) :
    sigprocmask sigmask .block (some set) 8 = some (sigmask.union set, sigmask) := by
  simp [sigprocmask]

open Thread

theorem Thread.returnMask_leValue (t : Thread) (sigmask : SigSet) :
    t.returnMask (UInt64.ofNat (Record.leValue sigmask.bytes)) = sigmask := by
  have small : Record.leValue sigmask.bytes < 2 ^ 64 := by
    have := Record.leValue_lt sigmask.bytes
    rwa [SigSet.length_bytes] at this
  have word : Record.leBytes 8 (UInt64.ofNat (Record.leValue sigmask.bytes)).toNat = sigmask.bytes := by
    rw [UInt64.toNat_ofNat', Nat.mod_eq_of_lt small]
    have := Record.leBytes_leValue sigmask.bytes
    rwa [SigSet.length_bytes] at this
  simp only [returnMask, word]
  simp [sigprocmask, List.drop_of_length_le]

/-! ## Frames in memory and out of it -/

namespace SignalStackFrame

theorem fits (f : SignalStackFrame) : Record.Fits layout f.toFields := by
  have words {n : ℕ} (xs : List UInt64) (length : xs.length = n) :
      Record.Fits (List.replicate n 8) (xs.map UInt64.toNat) := by
    rw [← length, ← List.length_map UInt64.toNat]
    refine Record.fits_replicate 8 _ fun value listed => ?_
    obtain ⟨x, -, rfl⟩ := List.mem_map.mp listed
    exact x.toNat_lt
  have half (x : UInt16) : x.toNat < 256 ^ 2 := x.toNat_lt
  exact .append (.append (words _ rfl) ⟨half _, half _, half _, by decide, trivial⟩) (words _ rfl)

@[simp] theorem length_bytes (f : SignalStackFrame) : f.bytes.length = size :=
  Record.length_encode f.fits

theorem ofFields_toFields (f : SignalStackFrame) : ofFields f.toFields = f := by
  simp [ofFields, toFields]

theorem read_eq {memory : Space} {addr : UInt64} {f : SignalStackFrame}
    (stored : memory.load addr size = f.bytes) : read memory addr = f := by
  rw [read, stored, bytes, Record.decode_encode f.fits, ofFields_toFields]

theorem load_store (memory : Space) (addr : UInt64) (f : SignalStackFrame) :
    (memory.store addr f.bytes).load addr size = f.bytes := by
  have := memory.load_store_self addr f.bytes (by rw [length_bytes]; decide)
  rwa [length_bytes] at this

end SignalStackFrame

variable {t : Thread}

theorem Thread.restore_of_pageFault {processFault : Thread → Option Thread} {u : Thread}
    {readable : Bool} (trampoline : t.cpuframe.rip = sigtrampAddr)
    (resumed : t.pageFault processFault readable = some u) :
    t.restore (.read t.memory (t.cpuframe.rsp - 8)) = u := by
  rw [pageFault, if_pos trampoline] at resumed
  cases readable with
  | false => cases resumed
  | true => exact Option.some.inj resumed

/-! ## What a forged frame can do -/

def UserPrivilege (selector : UInt16) : Prop := selector.toNat % 4 = 3

/-- The selectors of the two user code segments, descriptors 3 and 5 of the table. -/
def userCode : List UInt64 := [0x18 ||| 3, 0x28 ||| 3]

/-- Trap, interrupt enable, I/O privilege level, nested task, resume, virtual mode, alignment check,
virtual interrupts and identification. -/
def systemFlags : UInt64 := 0x3F7300

/-- The state in which a thread is resumed has no more privilege than before. -/
structure NoPrivilege (before after : Thread) : Prop where
  cs : after.cpuframe.cs ∈ userCode
  fs : UserPrivilege after.cpustate.fs
  gs : UserPrivilege after.cpustate.gs
  rflags : after.cpuframe.rflags &&& systemFlags = before.cpuframe.rflags &&& systemFlags

theorem toNat_or_three (x : UInt16) : (x ||| 3).toNat = 4 * (x.toNat / 4) + 3 := by
  have high : (x.toNat ||| 3) / 4 = x.toNat / 4 := by
    have := @Nat.or_div_two_pow x.toNat 3 2
    simpa using this
  have low : (x.toNat ||| 3) % 4 = 3 := by
    have small : x.toNat % 4 < 4 := Nat.mod_lt _ (by decide)
    have all : ∀ r < 4, r ||| 3 = 3 := by decide
    have := @Nat.or_mod_two_pow x.toNat 3 2
    simpa [all _ small] using this
  change x.toNat ||| 3 = _
  omega

theorem userPrivilege_or (x : UInt16) : UserPrivilege (x ||| 3) := by
  rw [UserPrivilege, toNat_or_three]
  omega

theorem or_three_mem_userCode (x : UInt16) :
    (x ||| 3).toUInt64 ∈ userCode ↔ x.toNat / 4 = 6 ∨ x.toNat / 4 = 10 := by
  have value (y : UInt64) : (x ||| 3).toUInt64 = y ↔ 4 * (x.toNat / 4) + 3 = y.toNat := by
    rw [← UInt64.toNat_inj, UInt16.toNat_toUInt64, toNat_or_three]
  have first : ((0x18 : UInt64) ||| 3).toNat = 27 := by decide
  have second : ((0x28 : UInt64) ||| 3).toNat = 43 := by decide
  rw [userCode, List.mem_cons, List.mem_singleton, value, value, first, second]
  omega

/-- Exactly for which contents of the stack the return gives no privilege. -/
theorem noPrivilege_iff {processFault : Thread → Option Thread} {t u : Thread} {readable : Bool}
    (trampoline : t.cpuframe.rip = sigtrampAddr) (resumed : t.pageFault processFault readable = some u) :
    NoPrivilege t u ↔
      let frame := SignalStackFrame.read t.memory (t.cpuframe.rsp - 8)
      (frame.cs.toNat / 4 = 6 ∨ frame.cs.toNat / 4 = 10) ∧
        frame.rflags &&& systemFlags = t.cpuframe.rflags &&& systemFlags := by
  obtain rfl := restore_of_pageFault trampoline resumed
  constructor
  · intro safe
    exact ⟨(or_three_mem_userCode _).mp safe.cs, safe.rflags⟩
  · rintro ⟨code, flags⟩
    exact ⟨(or_three_mem_userCode _).mpr code, userPrivilege_or _, userPrivilege_or _, flags⟩

def userThread (rip rsp : UInt64) (selector : UInt16) (memory : Space) : Thread where
  cpuframe := ⟨rip, 0x1B, 0x202, rsp⟩
  cpustate := ⟨selector, selector, 0, 0, 0, 0, 0, 0, 0, 0, 0, 0, 0, 0, 0, 0, 0⟩
  memory := memory
  sigmask := .empty

def forged (rflags : UInt64) : SignalStackFrame where
  sigtramp := 0
  r8 := 0
  r9 := 0
  r10 := 0
  r11 := 0
  r12 := 0
  r13 := 0
  r14 := 0
  r15 := 0
  rdi := 0
  rsi := 0
  rbp := 0
  rbx := 0
  rdx := 0
  rax := 0
  rcx := 0
  rsp := 0x3000
  rip := 0x1000
  rflags := rflags
  cs := 0x1B
  gs := 0x23
  fs := 0x23
  err := 0
  trapno := 0
  oldmask := 0
  cr2 := 0
  fpstate := 0

/-- The thread has jumped to the trampoline with such a frame at 0x2000. -/
def forgedReturn (rflags : UInt64) : Thread :=
  userThread sigtrampAddr 0x2008 0x23 (Space.store (fun _ => 0) 0x2000 (forged rflags).bytes)

theorem read_forgedReturn (rflags : UInt64) :
    SignalStackFrame.read (forgedReturn rflags).memory ((forgedReturn rflags).cpuframe.rsp - 8) =
      forged rflags := by
  have place : (0x2008 : UInt64) - 8 = 0x2000 := by decide
  rw [forgedReturn, userThread, place]
  exact SignalStackFrame.read_eq (SignalStackFrame.load_store (fun _ => 0) 0x2000 (forged rflags))

/-- The zero and the parity flag may change. -/
theorem noPrivilege_status_flags : ∃ u, (forgedReturn 0x246).pageFault (fun _ => none) true = some u ∧
    NoPrivilege (forgedReturn 0x246) u := by
  have resumed : (forgedReturn 0x246).pageFault (fun _ => none) true = some _ := rfl
  refine ⟨_, resumed, (noPrivilege_iff rfl resumed).mpr ?_⟩
  rw [read_forgedReturn]
  exact ⟨.inl (by decide), by decide⟩

/-- The frame sets the I/O privilege level to 3. -/
theorem not_noPrivilege_iopl : ∃ u, (forgedReturn 0x3202).pageFault (fun _ => none) true = some u ∧
    ¬NoPrivilege (forgedReturn 0x3202) u := by
  refine ⟨_, rfl, fun safe => ?_⟩
  have flags := safe.rflags
  rw [restore, read_forgedReturn] at flags
  exact absurd flags (by decide)

/-! ## Handlers that run -/

/-- A signal that was delivered and whose handler has not returned: the frame that was written, the
mask before, and whether a call of `sigprocmask` has unblocked the signal since. -/
structure Delivery where
  signum : ℕ
  frameptr : UInt64
  frame : SignalStackFrame
  sigmask : SigSet
  unblocked : Bool
  oldmask : frame.oldmask = UInt64.ofNat (Record.leValue sigmask.bytes)

/-- The thread with its running handlers, the innermost one first. -/
structure Handling where
  thread : Thread
  active : List Delivery

theorem Thread.block_eq (t : Thread) (signum : ℕ) :
    t.block signum = (t.sigmask.union (SigSet.empty.set signum), t.sigmask) := by
  rw [block, sigprocmask_block]
  rfl

def Thread.delivery (t : Thread) (action : SigAction) (signum : ℕ) : Delivery where
  signum := signum
  frameptr := framePtr t.cpuframe.rsp
  frame := t.launchFrame action signum
  sigmask := t.sigmask
  unblocked := false
  oldmask := by
    rw [Thread.launchFrame, Thread.block_eq]
    rfl

/-- The signal was unblocked if the new mask does not have it. -/
def Delivery.note (sigmask : SigSet) (d : Delivery) : Delivery :=
  { d with unblocked := d.unblocked || !sigmask.test d.signum }

/-- What the thread does while handlers run: any user code, and the calls of the kernel. -/
inductive HandlerAction where
  | run (cpuframe : InterruptCpuFrame) (cpustate : InterruptStackFrame) (memory : Space)
  | sigprocmask (how : How) (set : Option SigSet) (sigsetsize : ℕ)
  | sigreturn
  | launch (action : SigAction) (signum : ℕ) (writable : Bool)
  | fault (readable : Bool)

def handlerExec (s : Handling) : HandlerAction → Option Handling
  | .run cpuframe cpustate memory =>
    some { s with thread := { s.thread with cpuframe, cpustate, memory } }
  | .sigprocmask how set sigsetsize =>
    match Signals.sigprocmask s.thread.sigmask how set sigsetsize with
    | none => some s
    | some (sigmask, _) =>
      some ⟨{ s.thread with sigmask }, s.active.map (Delivery.note sigmask)⟩
  | .sigreturn => some { s with thread := s.thread.sigreturn }
  | .launch action signum writable =>
    (s.thread.launchSignal action signum writable).map fun t =>
      ⟨t, s.thread.delivery action signum :: s.active⟩
  | .fault readable =>
    if s.thread.cpuframe.rip = sigtrampAddr then
      (s.thread.pageFault (fun _ => none) readable).map fun t => ⟨t, s.active.tail⟩
    else none

/-- The handler of `d` has popped the address that it returns to, and its frame is what was
written. -/
structure Handling.Returns (s : Handling) (d : Delivery) : Prop where
  rsp : s.thread.cpuframe.rsp = d.frameptr + 8
  frame : s.thread.memory.load d.frameptr SignalStackFrame.size = d.frame.bytes

/-- Signals are 1 to 64; a return is the return of the innermost handler, and not of the
outermost one. -/
def Handling.Nested (s : Handling) : HandlerAction → Prop
  | .launch _ signum _ => 1 ≤ signum ∧ signum ≤ 64
  | .fault _ => ∃ d e ds, s.active = d :: e :: ds ∧ s.Returns d
  | _ => True

structure Restored (t u : Thread) : Prop where
  cpuframe : u.cpuframe = t.cpuframe
  cpustate : u.cpustate = t.cpustate
  sigmask : u.sigmask = t.sigmask

/-- However the handler of a signal runs, with all handlers that run inside of it: its signal is
blocked, unless it is unblocked by a call, and after its return the thread is `expected`. -/
def Transparent (t : Thread) (action : SigAction) (signum : ℕ) (expected : Thread) : Prop :=
  ∀ t₁ xs s, t.launchSignal action signum true = some t₁ →
    Machine.RunWhen Handling.Nested handlerExec ⟨t₁, [t.delivery action signum]⟩ xs s →
    (∃ d ∈ s.active, d.signum = signum ∧ (s.thread.sigmask.test signum = true ∨ d.unblocked = true)) ∧
    ∀ d readable u, s.active = [d] → s.Returns d → s.thread.cpuframe.rip = sigtrampAddr →
      s.thread.pageFault (fun _ => none) readable = some u → Restored expected u

def Thread.withUserPrivilege (t : Thread) : Thread :=
  { t with
    cpuframe := { t.cpuframe with cs := (t.cpuframe.cs.toUInt16 ||| 3).toUInt64 }
    cpustate := { t.cpustate with fs := t.cpustate.fs ||| 3, gs := t.cpustate.gs ||| 3 } }

/-! ### The signals of the running handlers are blocked -/

def Delivery.Blocked (sigmask : SigSet) (d : Delivery) : Prop :=
  sigmask.test d.signum = true ∨ d.unblocked = true

/-- Under every handler, the mask that its return brings back blocks the signals of the handlers
around it. -/
def Stacked : List Delivery → SigSet → Prop
  | [], _ => True
  | d :: ds, sigmask => (∀ e ∈ d :: ds, e.Blocked sigmask) ∧ Stacked ds d.sigmask

variable {ds : List Delivery} {sigmask : SigSet} {d : Delivery}

theorem Stacked.blocked (h : Stacked ds sigmask) (listed : d ∈ ds) : d.Blocked sigmask := by
  cases ds with
  | nil => cases listed
  | cons e ds => exact h.1 d listed

theorem Delivery.Blocked.note (h : d.Blocked sigmask) (sigmask' : SigSet) :
    (d.note sigmask').Blocked sigmask :=
  h.imp id fun unblocked => by simp [Delivery.note, unblocked]

theorem Stacked.map_note (h : Stacked ds sigmask) (sigmask' : SigSet) :
    Stacked (ds.map (Delivery.note sigmask')) sigmask := by
  induction ds generalizing sigmask with
  | nil => trivial
  | cons d ds ih =>
    refine ⟨fun e listed => ?_, ih h.2⟩
    rw [← List.map_cons] at listed
    obtain ⟨d', old, rfl⟩ := List.mem_map.mp listed
    exact (h.1 d' old).note sigmask'

theorem Stacked.sigprocmask (h : Stacked ds sigmask) (sigmask' : SigSet) :
    Stacked (ds.map (Delivery.note sigmask')) sigmask' := by
  cases ds with
  | nil => trivial
  | cons d ds =>
    refine ⟨fun e listed => ?_, h.2.map_note sigmask'⟩
    rw [← List.map_cons] at listed
    obtain ⟨d', listed, rfl⟩ := List.mem_map.mp listed
    by_cases blocked : sigmask'.test d'.signum = true
    · exact .inl blocked
    · exact .inr (by simp [Delivery.note, blocked])

theorem Stacked.launch (h : Stacked ds t.sigmask) (action : SigAction) {signum : ℕ}
    (valid : 1 ≤ signum ∧ signum ≤ 64) :
    Stacked (t.delivery action signum :: ds) (t.block signum).1 := by
  rw [block_eq]
  refine ⟨fun e listed => ?_, h⟩
  rcases List.mem_cons.mp listed with rfl | listed
  · left
    rw [SigSet.test_union]
    simp [delivery, SigSet.test_set_self _ valid.1 valid.2]
  · refine (h.blocked listed).imp (fun blocked => ?_) id
    rw [SigSet.test_union, blocked, Bool.true_or]

/-! ### What a return restores -/

theorem Handling.Returns.restore {s : Handling} (h : s.Returns d) {readable : Bool} {u : Thread}
    (trampoline : s.thread.cpuframe.rip = sigtrampAddr)
    (resumed : s.thread.pageFault (fun _ => none) readable = some u) :
    u = s.thread.restore d.frame := by
  rw [← restore_of_pageFault trampoline resumed, h.rsp, UInt64.add_sub_cancel,
    SignalStackFrame.read_eq h.frame]

theorem Delivery.sigmask_restore (d : Delivery) (t : Thread) :
    (t.restore d.frame).sigmask = d.sigmask := by
  rw [restore, d.oldmask, returnMask_leValue]

theorem restored_launchFrame (t s : Thread) (action : SigAction) (signum : ℕ) :
    Restored t.withUserPrivilege (s.restore (t.launchFrame action signum)) :=
  ⟨rfl, rfl, (t.delivery action signum).sigmask_restore s⟩

/-! ### Runs -/

/-- The outermost handler is that of `d`, and the signals of all handlers are blocked. -/
structure HandlerInv (d : Delivery) (s : Handling) : Prop where
  outermost : ∃ ds e, s.active = ds ++ [e] ∧ e.signum = d.signum ∧ e.frameptr = d.frameptr ∧
    e.frame = d.frame
  stacked : Stacked s.active s.thread.sigmask

theorem HandlerInv.step {s u : Handling} {x : HandlerAction} (h : HandlerInv d s)
    (nested : s.Nested x) (taken : handlerExec s x = some u) : HandlerInv d u := by
  obtain ⟨ds, e, active, signum, frameptr, frame⟩ := h.outermost
  cases x with
  | run cpuframe cpustate memory | sigreturn =>
    cases taken
    exact ⟨h.outermost, h.stacked⟩
  | sigprocmask how set sigsetsize =>
    rw [handlerExec] at taken
    cases result : Signals.sigprocmask s.thread.sigmask how set sigsetsize with
    | none =>
      rw [result] at taken
      cases taken
      exact h
    | some masks =>
      obtain ⟨sigmask, oldset⟩ := masks
      rw [result] at taken
      cases taken
      refine ⟨⟨ds.map (Delivery.note sigmask), e.note sigmask, ?_, signum, frameptr, frame⟩,
        h.stacked.sigprocmask sigmask⟩
      simp [active]
  | launch action signal writable =>
    obtain ⟨t, launched, rfl⟩ := Option.map_eq_some_iff.mp taken
    cases writable with
    | false => cases launched
    | true =>
      cases launched
      refine ⟨⟨s.thread.delivery action signal :: ds, e, ?_, signum, frameptr, frame⟩,
        h.stacked.launch action nested⟩
      simp [active]
  | fault readable =>
    obtain ⟨f, f', fs, innermost, returns⟩ := nested
    obtain ⟨trampoline, popped⟩ := Option.ite_none_right_eq_some.mp taken
    obtain ⟨t, resumed, rfl⟩ := Option.map_eq_some_iff.mp popped
    obtain rfl := returns.restore trampoline resumed
    have stacked := h.stacked
    rw [innermost] at stacked
    refine ⟨⟨ds.tail, e, ?_, signum, frameptr, frame⟩, ?_⟩
    · -- another handler is inside of the outermost one
      rw [active] at innermost
      cases ds with
      | nil => simp at innermost
      | cons first ds => simp [active]
    · rw [f.sigmask_restore, innermost]
      exact stacked.2

theorem Transparent.restored {expected : Thread} {action : SigAction} {signum : ℕ}
    (transparent : Transparent t action signum expected) :
    ∃ s : Thread, Restored expected (s.restore (t.launchFrame action signum)) := by
  obtain ⟨t₁, launched⟩ : ∃ t₁, t.launchSignal action signum true = some t₁ := ⟨_, rfl⟩
  -- the handler that does nothing
  let returned : Handling := ⟨{ t₁ with cpuframe :=
    { t₁.cpuframe with rip := sigtrampAddr, rsp := framePtr t.cpuframe.rsp + 8 } },
    [t.delivery action signum]⟩
  have run : Machine.RunWhen Handling.Nested handlerExec ⟨t₁, [t.delivery action signum]⟩
      [.run returned.thread.cpuframe t₁.cpustate t₁.memory] returned :=
    .cons trivial rfl (.nil _)
  have returns : returned.Returns (t.delivery action signum) := by
    refine ⟨rfl, ?_⟩
    cases launched
    exact SignalStackFrame.load_store _ _ _
  have resumed : returned.thread.pageFault (fun _ => none) true = some _ := rfl
  have restored := (transparent t₁ _ returned launched run).2 _ true _ rfl returns rfl resumed
  rw [returns.restore rfl resumed] at restored
  exact ⟨_, restored⟩

/-- A handler is transparent, but for the privilege bits of the selectors, which its return sets. -/
theorem transparent_withUserPrivilege (t : Thread) (action : SigAction) {signum : ℕ}
    (valid : 1 ≤ signum ∧ signum ≤ 64) : Transparent t action signum t.withUserPrivilege := by
  intro t₁ xs s launched run
  have start : HandlerInv (t.delivery action signum) ⟨t₁, [t.delivery action signum]⟩ := by
    cases launched
    have none_active : Stacked [] t.sigmask := trivial
    exact ⟨⟨[], _, rfl, rfl, rfl, rfl⟩, none_active.launch action valid⟩
  have inv := run.invariant (fun _ _ _ h nested taken => h.step nested taken) start
  obtain ⟨ds, e, active, same_signum, same_frameptr, same_frame⟩ := inv.outermost
  have listed : e ∈ s.active := by simp [active]
  constructor
  · refine ⟨e, listed, same_signum, ?_⟩
    have blocked := inv.stacked.blocked listed
    rwa [Delivery.Blocked, same_signum] at blocked
  · intro d readable u alone returns trampoline resumed
    obtain rfl : d = e := by
      rw [alone] at listed
      exact (List.mem_singleton.mp listed).symm
    rw [returns.restore trampoline resumed, same_frame]
    exact restored_launchFrame t _ action signum

/-- `SIGUSR1` in a thread whose `fs` and `gs` hold the user data selector. -/
theorem transparent_user_data : Transparent (userThread 0x1000 0x3000 0x23 fun _ => 0) ⟨0x4000, 0, 0⟩ 10
    (userThread 0x1000 0x3000 0x23 fun _ => 0) :=
  transparent_withUserPrivilege (userThread 0x1000 0x3000 0x23 fun _ => 0) ⟨0x4000, 0, 0⟩
    ⟨by decide, by decide⟩

/-- `SIGUSR1` in a thread whose `fs` and `gs` hold the null selector: the return makes them 3. -/
theorem not_transparent_null_selector : ¬Transparent (userThread 0x1000 0x3000 0 fun _ => 0)
    ⟨0x4000, 0, 0⟩ 10 (userThread 0x1000 0x3000 0 fun _ => 0) := by
  intro transparent
  obtain ⟨s, restored⟩ := transparent.restored
  have gs : (0 : UInt16) ||| 3 = 0 := congrArg InterruptStackFrame.gs restored.cpustate
  exact absurd gs (by decide)

end JeoKernel.Signals

import Mathlib.Data.List.Perm.Basic
import JeoKernel.Lib.Machine

/-!
# Page faults that need the resolver thread

`page_fault`, `resolve_read` and `resolve_read_nullterm` put what they cannot resolve at once into
the list `p_faults`, from which the pfault thread takes one record after the other.  A request for
a page that is already pending, or that the thread is working on, joins the existing record.  The
thread moves the record to `p_faults_in_progress`, calls `resolve_page` on the process and address
of the record, takes the record out again and answers everything queued on it.

Each section under `pfault_lck` and each step of the thread outside of it is one action of the
machine; requests may arrive between any two of them.
-/

namespace JeoKernel.PageFault

open List Option Machine PageFault Perm

/-- What waits for the answer: a blocked thread or a callback. -/
inductive Waiter where
  | thread
  | callback
  deriving DecidableEq

/-- A queued thread or callback, with the process and the address it faulted on. -/
structure Request where
  id : ℕ
  process : ℕ
  address : ℕ
  waiter : Waiter
  deriving DecidableEq

/-- `process_pfault`; `key` is the identity of the record. -/
structure Pfault where
  key : ℕ
  threads : List Request
  callbacks : List Request
  process : ℕ
  address : ℕ
  deriving DecidableEq

def pageaddr (address : ℕ) : ℕ := address / 4096 * 4096

def Pfault.requests (f : Pfault) : List Request := f.threads ++ f.callbacks

def Pfault.push (f : Pfault) (r : Request) : Pfault :=
  match r.waiter with
  | .thread => { f with threads := f.threads ++ [r] }
  | .callback => { f with callbacks := f.callbacks ++ [r] }

/-- The test by which a request recognises a record: the page addresses are equal. -/
def Pfault.samePage (address : ℕ) (f : Pfault) : Bool := pageaddr f.address == pageaddr address

/-- The loop over one of the two lists: queue the request on the first record of its page. -/
def join (r : Request) : List Pfault → Option (List Pfault)
  | [] => none
  | f :: faults =>
    if f.samePage r.address then some (f.push r :: faults) else (join r faults).map (f :: ·)

structure ResolveRun where
  process : ℕ
  address : ℕ
  result : Bool
  deriving DecidableEq

inductive Worker where
  | acquire
  | dequeue
  | resolve (key : ℕ)
  | finish (key : ℕ) (run : ResolveRun)
  | complete (threads callbacks : List Request) (run : ResolveRun)
  deriving DecidableEq

/-- An answered request: `run.result` is the success value it was given. -/
structure Completion where
  request : Request
  run : ResolveRun
  deriving DecidableEq

structure State where
  pFaults : List Pfault
  inProgress : List Pfault
  sema : ℕ
  worker : Worker
  nextKey : ℕ
  issued : ℕ
  completed : List Completion
  deriving DecidableEq

def initial : State := ⟨[], [], 0, .acquire, 0, 0, []⟩

inductive Action where
  | request (process address : ℕ) (waiter : Waiter)
  | acquire
  | dequeue
  | resolvePage (result : Bool)
  | finish
  | complete

/-- Queueing, as at the end of `page_fault`, `resolve_read` and `resolve_read_nullterm_impl`: join a
pending record, else one in progress, else add a record and release the semaphore. -/
def enqueue (s : State) (r : Request) : State :=
  match join r s.pFaults with
  | some pFaults => { s with pFaults }
  | none =>
    match join r s.inProgress with
    | some inProgress => { s with inProgress }
    | none =>
      { s with
        pFaults := s.pFaults ++
          [Pfault.push ⟨s.nextKey, [], [], r.process, r.address⟩ r]
        nextKey := s.nextKey + 1
        sema := s.sema + 1 }

/-- The loop of the pfault thread, one action at a time. -/
def work (s : State) : Action → Option State
  | .acquire =>
    match s.worker, s.sema with
    | .acquire, sema + 1 => some { s with sema, worker := .dequeue }
    | _, _ => none
  | .dequeue =>
    match s.worker, s.pFaults with
    | .dequeue, [] => some { s with worker := .acquire }
    | .dequeue, f :: pFaults =>
      some { s with pFaults, inProgress := s.inProgress ++ [f], worker := .resolve f.key }
    | _, _ => none
  | .resolvePage result =>
    match s.worker with
    | .resolve key => (s.inProgress.find? (·.key == key)).map fun f =>
        { s with worker := .finish key ⟨f.process, f.address, result⟩ }
    | _ => none
  | .finish =>
    match s.worker with
    -- A record that is not listed any more is `wild_panic`: no next state.
    | .finish key run => (s.inProgress.find? (·.key == key)).map fun f =>
        { s with
          inProgress := s.inProgress.eraseP (·.key == key)
          worker := .complete f.threads f.callbacks run }
    | _ => none
  | .complete =>
    match s.worker with
    | .complete (r :: threads) callbacks run =>
      some { s with
        completed := s.completed ++ [⟨r, run⟩], worker := .complete threads callbacks run }
    | .complete [] (r :: callbacks) run =>
      some { s with completed := s.completed ++ [⟨r, run⟩], worker := .complete [] callbacks run }
    | .complete [] [] _ => some { s with worker := .acquire }
    | _ => none
  | .request .. => none

def exec (s : State) : Action → Option State
  | .request process address waiter =>
    some { enqueue s ⟨s.issued, process, address, waiter⟩ with issued := s.issued + 1 }
  | a => work s a

/-! ## What the queue promises -/

def Worker.requests : Worker → List Request
  | .complete threads callbacks _ => threads ++ callbacks
  | _ => []

def State.requests (s : State) : List Request :=
  s.pFaults.flatMap Pfault.requests ++ s.inProgress.flatMap Pfault.requests ++
    s.worker.requests ++ s.completed.map Completion.request

/-- The answer comes from `resolve_page` on the request's own process, for its own page. -/
def Completion.Own (c : Completion) : Prop :=
  c.run.process = c.request.process ∧ pageaddr c.run.address = pageaddr c.request.address

/-- The record a request joins, if it joins one. -/
def State.record? (s : State) (address : ℕ) : Option Pfault :=
  (s.pFaults.find? (Pfault.samePage address)).or (s.inProgress.find? (Pfault.samePage address))

/-- A request only joins a record of its own process. -/
def JoinsOwn (s : State) : Action → Prop
  | .request process address _ => ∀ f ∈ s.record? address, f.process = process
  | _ => True

instance (s : State) (a : Action) : Decidable (JoinsOwn s a) :=
  match a with
  | .request .. | .acquire | .dequeue | .resolvePage .. | .finish | .complete => by
    dsimp only [JoinsOwn]
    infer_instance

def AllCompleted (s : State) : Prop :=
  (s.completed.map fun c => c.request.id).Perm (range s.issued)

/-- No request is lost or answered twice, each answer is the result for the request's own process
and page, and the pfault thread, left alone, comes to rest after finitely many steps and only when
everything issued is answered. -/
structure ExactlyOnce (s : State) : Prop where
  once : (s.requests.map Request.id).Perm (range s.issued)
  own : ∀ c ∈ s.completed, c.Own
  rests : ∃ n, ∀ as t, Run work s as t → as.length ≤ n
  answered : (∀ a, work s a = none) → AllCompleted s

/-! ## Joining a record -/

variable {r : Request} {faults joined : List Pfault}

theorem join_eq_some (h : join r faults = some joined) :
    ∃ before f after, faults = before ++ f :: after ∧ joined = before ++ f.push r :: after ∧
      faults.find? (Pfault.samePage r.address) = some f := by
  induction faults generalizing joined with
  | nil => simp [join] at h
  | cons g faults ih =>
    rw [join] at h
    split_ifs at h with same
    · cases h
      exact ⟨[], g, faults, rfl, rfl, by simp [same]⟩
    · obtain ⟨rest, joinedRest, rfl⟩ := map_eq_some_iff.mp h
      obtain ⟨before, f, after, rfl, rfl, found⟩ := ih joinedRest
      exact ⟨g :: before, f, after, rfl, rfl, by simpa [find?_cons, same] using found⟩

theorem join_eq_none (h : join r faults = none) :
    faults.find? (Pfault.samePage r.address) = none := by
  induction faults with
  | nil => rfl
  | cons g faults ih =>
    rw [join] at h
    split_ifs at h with same
    simpa [find?_cons, same] using ih (map_eq_none_iff.mp h)

open Pfault

theorem Pfault.requests_push (f : Pfault) (r : Request) :
    (f.push r).requests.Perm (r :: f.requests) := by
  rcases r with ⟨id, process, address, _ | _⟩
  · simp only [push, requests, append_assoc, singleton_append]
    exact perm_middle
  · simp only [push, requests, ← append_assoc]
    exact perm_append_singleton _ _

@[simp] theorem Pfault.push_key (f : Pfault) (r : Request) : (f.push r).key = f.key := by
  unfold push; split <;> rfl

@[simp] theorem Pfault.push_process (f : Pfault) (r : Request) :
    (f.push r).process = f.process := by
  unfold push; split <;> rfl

@[simp] theorem Pfault.push_address (f : Pfault) (r : Request) :
    (f.push r).address = f.address := by
  unfold push; split <;> rfl

theorem flatMap_join (h : join r faults = some joined) :
    (joined.flatMap Pfault.requests).Perm (r :: faults.flatMap Pfault.requests) := by
  obtain ⟨before, f, after, rfl, rfl, -⟩ := join_eq_some h
  simp only [flatMap_append, flatMap_cons]
  refine .trans (append_left _ ((f.requests_push r).append_right _)) ?_
  exact perm_middle

theorem requests_enqueue (s : State) (r : Request) :
    (enqueue s r).requests.Perm (r :: s.requests) := by
  unfold enqueue State.requests
  split
  case h_1 joined h =>
    simpa using (flatMap_join h).append_right _
  case h_2 =>
    split
    case h_1 joined h =>
      simp only [append_assoc]
      refine .trans (append_left _ ((flatMap_join h).append_right _)) ?_
      exact perm_middle
    case h_2 =>
      simp only [flatMap_append, flatMap_singleton, append_assoc]
      refine .trans (append_left _ ((requests_push _ r).append_right _)) ?_
      simp [requests]

/-! ## The invariant -/

/-- Everything queued on a record is of the record's process and page. -/
def Pfault.Own (f : Pfault) : Prop :=
  ∀ r ∈ f.requests, f.process = r.process ∧ pageaddr f.address = pageaddr r.address

theorem Pfault.Own.push {f : Pfault} (own : f.Own) (process : f.process = r.process)
    (page : f.samePage r.address) : (f.push r).Own := by
  intro q hq
  rcases mem_cons.mp ((f.requests_push r).mem_iff.mp hq) with rfl | hq
  · simpa [process] using eq_of_beq page
  · simpa using own q hq

theorem own_join (h : join r faults = some joined)
    (process : ∀ f, faults.find? (Pfault.samePage r.address) = some f → f.process = r.process)
    (own : ∀ f ∈ faults, f.Own) : ∀ f ∈ joined, f.Own := by
  obtain ⟨before, f, after, rfl, rfl, found⟩ := join_eq_some h
  simp only [forall_mem_append, forall_mem_cons] at own ⊢
  exact ⟨own.1, own.2.1.push (process f found) (find?_some found), own.2.2⟩

/-- How many semaphore counts the pfault thread holds for records it has not taken yet. -/
def Worker.tokens : Worker → ℕ
  | .dequeue => 1
  | _ => 0

def Worker.Holds : Worker → List Pfault → Prop
  | .resolve key, faults => ∃ f, faults = [f] ∧ f.key = key
  | .finish key run, faults =>
    ∃ f, faults = [f] ∧ f.key = key ∧ run.process = f.process ∧ run.address = f.address
  | _, faults => faults = []

/-- What the pfault thread still has to answer is answered from a call for the same page. -/
def Worker.Own : Worker → Prop
  | .complete threads callbacks run => ∀ r ∈ threads ++ callbacks, Completion.Own ⟨r, run⟩
  | _ => True

structure Inv (s : State) : Prop where
  once : (s.requests.map Request.id).Perm (range s.issued)
  pending : ∀ f ∈ s.pFaults, f.Own
  progress : ∀ f ∈ s.inProgress, f.Own
  worker : s.worker.Own
  own : ∀ c ∈ s.completed, c.Own
  holds : s.worker.Holds s.inProgress
  sema : s.sema + s.worker.tokens = s.pFaults.length

theorem inv_initial : Inv initial where
  once := by simp [initial, State.requests, Worker.requests]
  pending := by simp [initial]
  progress := by simp [initial]
  worker := trivial
  own := by simp [initial]
  holds := rfl
  sema := rfl

/-! ## Requests -/

theorem Worker.Holds.join {w : Worker} (holds : w.Holds faults) (h : join r faults = some joined) :
    w.Holds joined := by
  obtain ⟨before, f, after, rfl, rfl, -⟩ := join_eq_some h
  cases w with
  | resolve key =>
    obtain ⟨g, only, rfl⟩ := holds
    obtain ⟨rfl, rfl, rfl⟩ : before = [] ∧ f = g ∧ after = [] := by
      simpa [append_eq_cons_iff] using only
    exact ⟨f.push r, rfl, by simp⟩
  | finish key run =>
    obtain ⟨g, only, rfl, process, address⟩ := holds
    obtain ⟨rfl, rfl, rfl⟩ : before = [] ∧ f = g ∧ after = [] := by
      simpa [append_eq_cons_iff] using only
    exact ⟨f.push r, rfl, by simp, by simpa using process, by simpa using address⟩
  | acquire | dequeue | complete threads callbacks run => simp [Holds] at holds

variable {s : State}

theorem Inv.enqueue (inv : Inv s) (fresh : r.id = s.issued)
    (joins : ∀ f ∈ s.record? r.address, f.process = r.process) :
    Inv { enqueue s r with issued := s.issued + 1 } := by
  have once : ((PageFault.enqueue s r).requests.map Request.id).Perm
      (range (s.issued + 1)) := by
    refine ((requests_enqueue s r).map _).trans ?_
    rw [map_cons, range_succ, fresh]
    exact (inv.once.cons _).trans (perm_append_singleton _ _).symm
  unfold PageFault.enqueue at once ⊢
  rcases h : join r s.pFaults with _ | joined
  · have absent := join_eq_none h
    rcases h' : join r s.inProgress with _ | joined
    · rw [h, h'] at once
      refine ⟨once, ?_, inv.progress, inv.worker, inv.own, inv.holds, ?_⟩
      · have empty : Pfault.Own ⟨s.nextKey, [], [], r.process, r.address⟩ := by
          simp [Pfault.Own, requests]
        intro f hf
        rcases mem_append.mp hf with hf | hf
        · exact inv.pending f hf
        · obtain rfl := mem_singleton.mp hf
          exact empty.push rfl (by simp [samePage])
      · have := inv.sema
        simp only [length_append, length_singleton]
        omega
    · rw [h, h'] at once
      refine ⟨once, inv.pending, ?_, inv.worker, inv.own, inv.holds.join h', inv.sema⟩
      refine own_join h' (fun f found => joins f ?_) inv.progress
      rw [State.record?, absent, found, none_or, mem_some]
  · rw [h] at once
    refine ⟨once, ?_, inv.progress, inv.worker, inv.own, inv.holds, ?_⟩
    · refine own_join h (fun f found => joins f ?_) inv.pending
      rw [State.record?, found, some_or, mem_some]
    · obtain ⟨before, f, after, eq, rfl, -⟩ := join_eq_some h
      simpa [eq] using inv.sema

/-! ## The pfault thread -/

def Worker.load : Worker → ℕ
  | .acquire => 1
  | .dequeue => 0
  | .resolve _ => 4
  | .finish _ _ => 3
  | .complete threads callbacks _ => 2 + threads.length + callbacks.length

def State.load (s : State) : ℕ :=
  (s.pFaults.map fun f => 5 + f.requests.length).sum +
    (s.inProgress.map fun f => f.requests.length).sum + s.worker.load

theorem requests_complete {run : ResolveRun} {w : Worker}
    (head : s.worker.requests.Perm (r :: w.requests)) :
    State.requests { s with completed := s.completed ++ [⟨r, run⟩], worker := w } |>.Perm
      s.requests := by
  simp only [State.requests, map_append, map_cons, map_nil, append_assoc]
  refine append_left _ (append_left _ ?_)
  refine .trans ?_ (head.append_right _).symm
  rw [← append_assoc]
  exact perm_append_singleton _ _

/-- Each step of the pfault thread keeps the invariant and leaves less to do. -/
theorem Inv.work {t : State} {a : Action} (inv : Inv s) (h : work s a = some t) :
    Inv t ∧ t.load < s.load := by
  obtain ⟨pFaults, inProgress, sema, worker, nextKey, issued, completed⟩ := s
  obtain ⟨once, pending, progress, ready, own, holds, count⟩ := inv
  cases a with
  | request => simp [work] at h
  | acquire =>
    cases worker <;> cases sema <;> simp [work] at h
    subst h
    exact ⟨⟨once, pending, progress, trivial, own, holds, by simpa [Worker.tokens] using count⟩,
      by simp [State.load, Worker.load]⟩
  | dequeue =>
    cases worker <;> cases pFaults <;> simp [work] at h
    · simp [Worker.tokens] at count
    · subst h
      rename_i f pFaults
      obtain rfl : inProgress = [] := holds
      refine ⟨⟨?_, ?_, ?_, trivial, own, ⟨f, rfl, rfl⟩, ?_⟩, ?_⟩
      · refine .trans (map _ ?_) once
        simp only [State.requests, Worker.requests, flatMap_cons, flatMap_nil,
          nil_append, append_nil]
        exact perm_append_comm.append_right _
      · exact (forall_mem_cons.mp pending).2
      · simpa using (forall_mem_cons.mp pending).1
      · simp only [Worker.tokens, length_cons] at count ⊢
        omega
      · simp [State.load, Worker.load]
        omega
  | resolvePage result =>
    cases worker <;> simp only [work, map_eq_some_iff, reduceCtorEq] at h
    rename_i key
    obtain ⟨f, rfl, rfl⟩ := holds
    obtain ⟨g, found, rfl⟩ := h
    obtain rfl : f = g := by simpa using found
    exact ⟨⟨once, pending, progress, trivial, own, ⟨f, rfl, rfl, rfl, rfl⟩, count⟩,
      by simp [State.load, Worker.load]⟩
  | finish =>
    cases worker <;> simp only [work, map_eq_some_iff, reduceCtorEq] at h
    rename_i key run
    obtain ⟨f, rfl, rfl, process, address⟩ := holds
    obtain ⟨g, found, rfl⟩ := h
    obtain rfl : f = g := by simpa using found
    refine ⟨⟨?_, pending, by simp, ?_, own, by simp [Worker.Holds], count⟩, ?_⟩
    · simpa [State.requests, Worker.requests, requests] using once
    · intro r hr
      simpa [Completion.Own, process, address] using progress f (by simp) r hr
    · simp [State.load, Worker.load, requests]
      omega
  | complete =>
    cases worker with
    | complete threads callbacks run =>
      obtain rfl : inProgress = [] := holds
      rcases threads with _ | ⟨r, threads⟩
      · rcases callbacks with _ | ⟨r, callbacks⟩
        · cases h
          exact ⟨⟨once, pending, progress, trivial, own, rfl, count⟩,
            by simp [State.load, Worker.load]⟩
        · cases h
          obtain ⟨first, rest⟩ := forall_mem_cons.mp ready
          refine ⟨⟨.trans (map _ ?_) once, pending, progress, rest, ?_, rfl, count⟩, ?_⟩
          · exact requests_complete (w := .complete [] callbacks run) (Perm.refl _)
          · exact forall_mem_append.mpr ⟨own, forall_mem_singleton.mpr first⟩
          · simp [State.load, Worker.load]
      · cases h
        obtain ⟨first, rest⟩ := forall_mem_cons.mp ready
        refine ⟨⟨.trans (map _ ?_) once, pending, progress, rest, ?_, rfl, count⟩, ?_⟩
        · exact requests_complete (w := .complete threads callbacks run) (Perm.refl _)
        · exact forall_mem_append.mpr ⟨own, forall_mem_singleton.mpr first⟩
        · simp [State.load, Worker.load]
    | _ => simp [work] at h

theorem Inv.exec {t : State} {a : Action} (inv : Inv s) (joins : JoinsOwn s a)
    (h : exec s a = some t) : Inv t := by
  cases a with
  | request process address waiter =>
    cases h
    exact inv.enqueue rfl joins
  | _ =>
    simp only [PageFault.exec] at h
    exact (inv.work h).1

/-- The pfault thread only rests in front of the semaphore with nothing queued. -/
theorem Inv.allCompleted (inv : Inv s) (rest : ∀ a, PageFault.work s a = none) :
    AllCompleted s := by
  obtain ⟨pFaults, inProgress, sema, worker, nextKey, issued, completed⟩ := s
  obtain ⟨once, -, -, -, -, holds, count⟩ := inv
  cases worker with
  | acquire =>
    obtain rfl : inProgress = [] := holds
    rcases sema with _ | sema
    · obtain rfl : pFaults = [] := length_eq_zero_iff.mp count.symm
      simpa [AllCompleted, State.requests, Worker.requests, Function.comp_def] using once
    · simpa [PageFault.work] using rest .acquire
  | dequeue =>
    have stuck := rest .dequeue
    cases pFaults <;> simp [PageFault.work] at stuck
  | resolve key =>
    obtain ⟨f, rfl, rfl⟩ := holds
    simpa [PageFault.work] using rest (.resolvePage true)
  | finish key run =>
    obtain ⟨f, rfl, rfl, -⟩ := holds
    simpa [PageFault.work] using rest .finish
  | complete threads callbacks run =>
    have stuck := rest .complete
    cases threads <;> cases callbacks <;> simp [PageFault.work] at stuck

theorem Inv.exactlyOnce (inv : Inv s) : ExactlyOnce s where
  __ := inv
  rests := ⟨s.load, fun _ _ run =>
    run.length_le State.load (fun _ _ _ kept _ taken => kept.work taken) inv⟩
  answered := inv.allCompleted

/-! ## Every run -/

/-- As long as no request joins a record of another process, every request is answered exactly
once, with the result for its own process and page. -/
theorem exactlyOnce_of_joinsOwn {as : List Action} {s : State}
    (run : RunWhen JoinsOwn exec initial as s) : ExactlyOnce s :=
  (run.invariant (I := Inv) (fun _ _ _ inv joins taken => inv.exec joins taken)
    inv_initial).exactlyOnce

/-- A process takes two faults on one page, the second while the first is being resolved. -/
theorem exactlyOnce_joined_fault :
    ∃ as s, RunWhen JoinsOwn exec initial as s ∧ ExactlyOnce s ∧ s.issued = 2 ∧ AllCompleted s := by
  have run : RunWhen JoinsOwn exec initial
      [.request 1 4196 .thread, .acquire, .dequeue, .request 1 4200 .callback, .resolvePage true,
        .finish, .complete, .complete, .complete]
      ⟨[], [], 0, .acquire, 1, 2, [⟨⟨0, 1, 4196, .thread⟩, ⟨1, 4196, true⟩⟩,
        ⟨⟨1, 1, 4200, .callback⟩, ⟨1, 4196, true⟩⟩]⟩ := .of_foldlM (by decide)
  exact ⟨_, _, run, exactlyOnce_of_joinsOwn run, rfl, .refl _⟩

/-- Two processes fault on one address: the second is answered by the fault of the first. -/
theorem not_exactlyOnce_shared_address :
    ∃ s, Run exec initial [.request 1 4196 .thread, .request 2 4196 .thread, .acquire, .dequeue,
      .resolvePage true, .finish, .complete, .complete] s ∧ ¬ExactlyOnce s := by
  refine ⟨_, .of_foldlM (t := ⟨[], [], 0, .complete [] [] ⟨1, 4196, true⟩, 1, 2,
    [⟨⟨0, 1, 4196, .thread⟩, ⟨1, 4196, true⟩⟩, ⟨⟨1, 2, 4196, .thread⟩, ⟨1, 4196, true⟩⟩]⟩)
    (by decide), fun once => ?_⟩
  have own := once.own ⟨⟨1, 2, 4196, .thread⟩, ⟨1, 4196, true⟩⟩ (by simp)
  simp [Completion.Own] at own

end JeoKernel.PageFault

import JeoKernel.Exec.FdSets
import JeoKernel.Lib.Machine
import JeoKernel.Lib.Tally

/-!
# `pselect6`

The call makes a `SelectImpl` and goes through the descriptors that it was given; each one's handler
gets a subscription (`FileDescriptorHandler::Subscribe`).  A handler that becomes ready for reading
notifies its subscriptions (`SetReadyRead`).  The first `NotifyRead`, or an abort (`NotifyIntr`), takes
the flag `wake` and queues the function that writes the sets back and answers the call.

A step is what runs under one lock, or one call of `submitAsync`.  `Subscribe` keeps the handler's
`fdmtx` over all of its steps; `SetReadyRead` lets go of it while it notifies.  Any number of
`SetReadyRead`s and aborts may be in progress.  Only the subscriptions of this call are modelled:
those of other calls are other objects.
-/

namespace JeoKernel.Pselect

open Option Function Machine Tally FdSet

/-! ## The select object -/

/-- `u_inp`, `u_outp` and `u_exc`; `none` is a null pointer. -/
structure Sets where
  inp : Option FdSet
  outp : Option FdSet
  exc : Option FdSet

/-- A call with an `n` that is an `int` and not negative. -/
structure Request extends Sets where
  n : ℕ
  int : n < 2 ^ 31

def listed (set : Option FdSet) (n : ℕ) : List ℕ := set.elim [] fun set => set.forEach n

structure SelectImpl where
  n : ℕ
  sigN : ℕ
  wake : Bool
  /-- The descriptors that are still waited for. -/
  inpSel : Option FdSet
  /-- The descriptors that were notified. -/
  inpSig : Option FdSet

namespace SelectImpl

/-- `Select`, as far as it holds the lock. -/
def select (r : Request) : SelectImpl where
  n := r.n
  sigN := 0
  wake := true
  inpSel :=
    if 0 < r.n then r.inp.map fun _ => (listed r.inp r.n).foldl FdSet.set FdSet.zero else none
  inpSig := if 0 < r.n then r.inp.map fun _ => FdSet.zero else none

def keepSubscription (s : SelectImpl) : Bool := s.inpSel.elim false fun sel => sel.anySet s.n

/-- What `NotifyRead` does under the lock, with the flag that it found; `none` is an access through a
null pointer. -/
def notifyRead (s : SelectImpl) (fd : ℕ) : Option (Bool × SelectImpl) :=
  if fd < s.n then
    s.inpSel.bind fun sel => s.inpSig.map fun sig =>
      (s.wake, { s with
          wake := false
          inpSel := some (sel.unset fd)
          inpSig := some (sig.set fd)
          sigN := s.sigN + 1 })
  else some (s.wake, { s with wake := false })

def sig (s : SelectImpl) : FdSet := s.inpSig.getD FdSet.zero

def copyBack (s : SelectImpl) (u : Sets) : Sets where
  inp := u.inp.map (FdSet.overwrite (FdSet.sizeOfFdSet s.n) s.sig)
  outp := u.outp.map (FdSet.overwrite (FdSet.sizeOfFdSet s.n) FdSet.zero)
  exc := u.exc.map (FdSet.overwrite (FdSet.sizeOfFdSet s.n) FdSet.zero)

end SelectImpl

def Request.subscribeTo (r : Request) : FdSet :=
  (listed r.exc r.n).foldl FdSet.set
    ((listed r.outp r.n).foldl FdSet.set ((listed r.inp r.n).foldl FdSet.set FdSet.zero))

/-! ## The system -/

/-- What a thread does next with a subscription that it notifies. -/
inductive Stage where
  | notify
  /-- `submitAsync`, after the flag was taken. -/
  | submit
  /-- `KeepSubscription` -/
  | keep

def Stage.after (wake : Bool) : Stage := if wake then .submit else .keep

inductive Place (H : Type*) where
  | walking (todo : List ℕ)
  /-- In `Subscribe`, with the lock of the handler. -/
  | subscribing (fd : ℕ) (handler : H) (stage : Stage) (todo : List ℕ)
  | returned

/-- A `SetReadyRead` after its first part: the subscriptions to notify, and those to remove. -/
structure Setter (H : Type*) where
  handler : H
  todo : List ℕ
  stage : Stage
  remove : List ℕ

/-- The function that was given to `submitAsync`. -/
inductive Queued where
  | read
  | intr

structure Answer where
  value : ℤ
  sets : Sets

structure State (H : Type*) where
  sel : SelectImpl
  place : Place H
  ready : H → Bool
  subs : H → List ℕ
  setters : List (Setter H)
  /-- The `NotifyIntr`s that have taken the flag. -/
  intrs : ℕ
  queue : List Queued
  answers : List Answer
  /-- The thread's aborter, which holds the select object. -/
  aborter : Bool
  /-- The handlers that were ready at some moment of the call. -/
  seen : H → Bool

inductive Action (H : Type*) where
  /-- The next step of the call. -/
  | call
  | setReadyRead (handler : H) (ready : Bool)
  /-- The next step of a `SetReadyRead` in progress. -/
  | setter (i : ℕ)
  | abort
  /-- A `NotifyIntr` that has taken the flag calls `submitAsync`. -/
  | intr
  /-- The first queued function runs. -/
  | answer

namespace State

variable {H : Type*}

def start (r : Request) (ready : H → Bool) : State H where
  sel := .select r
  place := .walking (r.subscribeTo.forEach r.n)
  ready := ready
  subs := fun _ => []
  setters := []
  intrs := 0
  queue := []
  answers := []
  aborter := false
  seen := ready

/-- The queued function's weak reference finds the object: `DoSelect` has it, or the aborter. -/
def held (s : State H) : Bool :=
  s.aborter || match s.place with
    | .returned => false
    | _ => true

def reply (r : Request) (s : State H) : Queued → Answer
  | .read => ⟨s.sel.sigN, s.sel.copyBack r.toSets⟩
  | .intr => ⟨-4, r.toSets⟩

variable [DecidableEq H]

def locked (s : State H) (h : H) : Bool :=
  match s.place with
  | .subscribing _ h' _ _ => h' = h
  | _ => false

def callStep (files : ℕ → Option H) (s : State H) : Option (State H) :=
  match s.place with
  | .walking [] => some { s with place := .returned, aborter := true }
  | .walking (fd :: todo) =>
    match files fd with
    | none => some { s with place := .walking todo }
    | some h =>
      some { s with place := .subscribing fd h (if s.ready h then .notify else .keep) todo }
  | .subscribing fd h .notify todo =>
    (s.sel.notifyRead fd).map fun p =>
      { s with sel := p.2, place := .subscribing fd h (.after p.1) todo }
  | .subscribing fd h .submit todo =>
    some { s with queue := s.queue ++ [.read], place := .subscribing fd h .keep todo }
  | .subscribing fd h .keep todo =>
    some { s with
      subs := if s.sel.keepSubscription then update s.subs h (s.subs h ++ [fd]) else s.subs
      place := .walking todo }
  | .returned => none

def setReadyRead (s : State H) (h : H) (ready : Bool) : Option (State H) :=
  if s.locked h then none
  else some { s with
    ready := update s.ready h ready
    seen := update s.seen h (s.seen h || ready)
    setters := s.setters ++ [⟨h, if s.ready h ≠ ready ∧ ready then s.subs h else [], .notify, []⟩] }

def setterStep (s : State H) (i : ℕ) : Option (State H) :=
  match s.setters[i]? with
  | none => none
  | some ⟨h, [], _, remove⟩ =>
    if s.locked h then none
    else some { s with
      subs := update s.subs h ((s.subs h).filter fun fd => fd ∉ remove)
      setters := s.setters.eraseIdx i }
  | some ⟨h, fd :: todo, .notify, remove⟩ =>
    (s.sel.notifyRead fd).map fun p =>
      { s with sel := p.2, setters := s.setters.set i ⟨h, fd :: todo, .after p.1, remove⟩ }
  | some ⟨h, fd :: todo, .submit, remove⟩ =>
    some { s with
      queue := s.queue ++ [.read]
      setters := s.setters.set i ⟨h, fd :: todo, .keep, remove⟩ }
  | some ⟨h, fd :: todo, .keep, remove⟩ =>
    some { s with
      setters := s.setters.set i
        ⟨h, todo, .notify, if s.sel.keepSubscription then remove else remove ++ [fd]⟩ }

def exec (files : ℕ → Option H) (r : Request) (s : State H) : Action H → Option (State H)
  | .call => s.callStep files
  | .setReadyRead h ready => s.setReadyRead h ready
  | .setter i => s.setterStep i
  | .abort =>
    match s.place with
    | .returned =>
      if s.sel.wake then some { s with sel := { s.sel with wake := false }, intrs := s.intrs + 1 }
      else some s
    | _ => none
  | .intr =>
    if 0 < s.intrs then some { s with intrs := s.intrs - 1, queue := s.queue ++ [.intr] } else none
  | .answer =>
    match s.queue with
    | [] => none
    | f :: queue =>
      if s.held then
        some { s with queue := queue, answers := s.answers ++ [s.reply r f], aborter := false }
      else some { s with queue := queue }

def notifies (s : State H) : Action H → Option ℕ
  | .call =>
    match s.place with
    | .subscribing fd _ .notify _ => some fd
    | _ => none
  | .setter i =>
    match s.setters[i]? with
    | some ⟨_, fd :: _, .notify, _⟩ => some fd
    | _ => none
  | _ => none

end State

/-! ## What the call promises -/

def Request.Requested (r : Request) (fd : ℕ) : Prop := fd < r.n ∧ ∃ set ∈ r.inp, set.isSet fd = true

def Sets.count (u : Sets) (n : ℕ) : ℕ :=
  u.inp.elim 0 (·.count n) + u.outp.elim 0 (·.count n) + u.exc.elim 0 (·.count n)

section Promise

variable {H : Type*} (files : ℕ → Option H) (r : Request)

/-- The read set names requested descriptors that were ready, and the value is the number of bits
set. -/
structure Truthful (seen : H → Bool) (a : Answer) : Prop where
  subset : ∀ set ∈ a.sets.inp, ∀ fd < 32 * FdSet.maxPos r.n, set.isSet fd = true →
    r.Requested fd ∧ ∃ h, files fd = some h ∧ seen h = true
  count : a.value = a.sets.count r.n

/-- No `Subscribe`, `SetReadyRead`, `NotifyRead` or `NotifyIntr` is in progress. -/
structure State.Quiet (s : State H) : Prop where
  returned : s.place = .returned
  setters : s.setters = []
  intrs : s.intrs = 0

structure State.Sound (s : State H) : Prop where
  once : s.answers.length ≤ 1
  truthful : ∀ a ∈ s.answers, 0 ≤ a.value → Truthful files r s.seen a
  answered : s.Quiet → ∀ fd h, r.Requested fd → files fd = some h → s.ready h = true →
    s.answers ≠ [] ∨ s.queue ≠ [] ∧ s.held = true
  /-- No step uses a null pointer. -/
  safe : ∀ (a : Action H), ∀ fd ∈ s.notifies a, s.sel.notifyRead fd ≠ none

/-- Only descriptors below 32 are asked for, and the write and exception sets name none that the read
set does not name. -/
structure Request.Plain (r : Request) : Prop where
  inp : ∀ set ∈ r.inp, set.Low r.n
  outp : ∀ set ∈ r.outp, set.Low r.n ∧ ∀ fd < r.n, set.isSet fd = true → r.Requested fd
  exc : ∀ set ∈ r.exc, set.Low r.n ∧ ∀ fd < r.n, set.isSet fd = true → r.Requested fd

/-- No descriptor is notified again before the call is answered. -/
def State.Fresh (s : State H) (a : Action H) : Prop :=
  ∀ fd ∈ s.notifies a, s.answers = [] → s.sel.sig.isSet fd = false

end Promise

/-! ## Steps of the select object -/

namespace SelectImpl

structure Notified (s : SelectImpl) (fd : ℕ) (p : Bool × SelectImpl) : Prop where
  flag : p.1 = s.wake
  wake : p.2.wake = false
  n : p.2.n = s.n
  inpSel : p.2.inpSel.isSome = s.inpSel.isSome
  inpSig : p.2.inpSig.isSome = s.inpSig.isSome
  sig : fd < s.n → p.2.sig = s.sig.set fd
  sigN : fd < s.n → p.2.sigN = s.sigN + 1

theorem notified_of_notifyRead {s : SelectImpl} {fd : ℕ} {p : Bool × SelectImpl}
    (taken : s.notifyRead fd = some p) : s.Notified fd p := by
  unfold notifyRead at taken
  split_ifs at taken with below
  · obtain ⟨sel, selected, rest⟩ := bind_eq_some_iff.mp taken
    obtain ⟨sig, signalled, rfl⟩ := map_eq_some_iff.mp rest
    refine ⟨rfl, rfl, rfl, ?_, ?_, fun _ => ?_, fun _ => rfl⟩
    · simp [selected]
    · simp [signalled]
    · simp [SelectImpl.sig, signalled]
  · obtain rfl := some.inj taken
    exact ⟨rfl, rfl, rfl, rfl, rfl, fun inside => absurd inside below,
      fun inside => absurd inside below⟩

theorem notifyRead_ne_none {s : SelectImpl} {fd : ℕ} (sel : s.inpSel.isSome)
    (sig : s.inpSig.isSome) : s.notifyRead fd ≠ none := by
  obtain ⟨sel, selected⟩ := isSome_iff_exists.mp sel
  obtain ⟨sig, signalled⟩ := isSome_iff_exists.mp sig
  unfold notifyRead
  by_cases below : fd < s.n
  · simp [below, selected, signalled]
  · simp [below]

end SelectImpl

/-! ## Plain requests -/

namespace Request

variable {r : Request} {fd : ℕ}

theorem Plain.mem_inp (plain : r.Plain) : fd ∈ listed r.inp r.n ↔ r.Requested fd := by
  unfold listed Requested
  cases given : r.inp with
  | none => simp
  | some set => simp [(plain.inp set given).mem_forEach]

theorem mem_listed_of {set : Option FdSet}
    (named : ∀ s ∈ set, s.Low r.n ∧ ∀ fd < r.n, s.isSet fd = true → r.Requested fd)
    (mem : fd ∈ listed set r.n) : r.Requested fd := by
  unfold listed at mem
  cases given : set with
  | none => simp [given] at mem
  | some s =>
    obtain ⟨low, requested⟩ := named s given
    rw [given] at mem
    obtain ⟨below, isSet⟩ := low.mem_forEach.mp mem
    exact requested fd below isSet

theorem Plain.lt (plain : r.Plain) (requested : r.Requested fd) : fd < 32 := by
  obtain ⟨below, set, given, isSet⟩ := requested
  exact (plain.inp set given).lt below isSet

theorem Plain.isSet_subscribeTo (plain : r.Plain) :
    r.subscribeTo.isSet fd = true ↔ r.Requested fd := by
  unfold subscribeTo
  rw [isSet_foldl_set, isSet_foldl_set, isSet_foldl_set, isSet_zero,
    Bool.or_false, Bool.or_eq_true, Bool.or_eq_true, decide_eq_true_eq, decide_eq_true_eq,
    decide_eq_true_eq, plain.mem_inp]
  constructor
  · rintro (exc | outp | inp)
    · exact mem_listed_of plain.exc exc
    · exact mem_listed_of plain.outp outp
    · exact inp
  · exact fun inp => .inr (.inr inp)

theorem Plain.mem_subscribeTo (plain : r.Plain) :
    fd ∈ r.subscribeTo.forEach r.n ↔ r.Requested fd := by
  have low : r.subscribeTo.Low r.n := by
    intro fd high _
    rw [Bool.eq_false_iff]
    intro given
    have := plain.lt (plain.isSet_subscribeTo.mp given)
    omega
  rw [low.mem_forEach, plain.isSet_subscribeTo]
  exact ⟨fun h => h.2, fun requested => ⟨requested.1, requested⟩⟩

/-- As long as nothing was notified, a requested descriptor keeps the subscriptions. -/
theorem Plain.keepSubscription (plain : r.Plain) (requested : r.Requested fd) {s : SelectImpl}
    (n : s.n = r.n) (same : s.inpSel = (SelectImpl.select r).inpSel) :
    s.keepSubscription = true := by
  obtain ⟨below, set, given, isSet⟩ := id requested
  have sel : s.inpSel = some ((listed r.inp r.n).foldl FdSet.set zero) := by
    rw [same]
    simp only [SelectImpl.select]
    rw [if_pos (by omega), given, map_some]
  have low : ((listed r.inp r.n).foldl FdSet.set zero).Low r.n :=
    low_foldl_set (fun fd mem => plain.lt (plain.mem_inp.mp mem)) r.n
  have mem : ((listed r.inp r.n).foldl FdSet.set zero).isSet fd = true := by
    simp [isSet_foldl_set, plain.mem_inp.mpr requested]
  rw [SelectImpl.keepSubscription, sel, n]
  exact low.anySet below mem

end Request

end JeoKernel.Pselect

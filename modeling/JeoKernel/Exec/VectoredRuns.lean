import Mathlib.Algebra.BigOperators.Ring.Finset
import JeoKernel.Exec.Vectored

/-!
# Runs of `readv` and `writev`

A call goes through four phases: the first loop (`Opening`), the buffers are resolved (`Resolving`), the
entries are read (`Processing`, for `readv`), and there is an answer (`Answered`).  While buffers are
resolved, `remaining` is the number of those that wait for a page fault and of those that the second
loop has still to come to.
-/

namespace JeoKernel.Vectored

open List Function Machine State RunWhen

/-! ## Phases -/

def more (iov : List Entry) (i : ℕ) : ℕ := (iov.drop i).countP fun e => e.len ≠ 0

variable {i : ℕ}

theorem more_eq (s : State) (below : i < s.iov.length) :
    more s.iov i = (if (s.entry i).len = 0 then 0 else 1) + more s.iov (i + 1) := by
  have first : s.iov.drop i = s.entry i :: s.iov.drop (i + 1) := by
    rw [drop_eq_getElem_cons below, entry, getD_eq_getElem?_getD,
      getElem?_eq_getElem below, Option.getD_some]
  unfold more
  rw [first, countP_cons]
  by_cases empty : (s.entry i).len = 0 <;> simp [empty, add_comm]

theorem more_of_le {iov : List Entry} (past : iov.length ≤ i) : more iov i = 0 := by
  simp [more, drop_eq_nil_of_le past]

namespace State

/-- What an action does, and where the call is then. -/
inductive Does (kind : Kind) (s : State) : Action → State → Prop
  | enter {late : Bool} (here : s.place = .start) : Does kind s (.array true late)
      { s with
        isAsync := late || s.isAsync, nestedAsync := late || s.isAsync, place := .creating 0 }
  | refuse {late : Bool} (here : s.place = .start) :
      Does kind s (.array false late) { s.answer eFault with place := .done }
  | create {i : ℕ} (here : s.place = .creating i) (below : i < s.iov.length) : Does kind s .create
      { s with
        iovecs := s.iovecs ++ [⟨offset (s.entry i).base + (s.entry i).len, none, 0, (s.entry i).len⟩]
        remaining := if (s.entry i).len = 0 then s.remaining - 1 else s.remaining
        place := .creating (i + 1) }
  | empty {i : ℕ} (here : s.place = .creating i) (past : ¬i < s.iov.length)
      (none : s.remaining = 0) : Does kind s .create { s.answer 0 with place := .done }
  | created {i : ℕ} (here : s.place = .creating i) (past : ¬i < s.iov.length)
      (some : s.remaining ≠ 0) : Does kind s .create { s with place := .resolving 0 }
  | skip {i : ℕ} (here : s.place = .resolving i) (below : i < s.iov.length)
      (empty : (s.entry i).len = 0) : Does kind s .resolve { s with place := .resolving (i + 1) }
  | take {i : ℕ} (here : s.place = .resolving i) (below : i < s.iov.length)
      (nonempty : (s.entry i).len ≠ 0) :
      Does kind s .resolve { s with place := .nested i (s.entry i).base (s.entry i).len }
  | finish {i : ℕ} {answers : List ℤ} (here : s.place = .resolving i) (past : ¬i < s.iov.length)
      (quiet : kind = .readv ∨ s.nestedAsync = true → answers = s.answers) :
      Does kind s .resolve { s with place := .done, answers := answers }
  | late {i base len : ℕ} (here : s.place = .nested i base len) : Does kind s .late
      { s with
        waiting := s.waiting ++ [⟨i, base, len⟩], nestedAsync := true, place := .resolving (i + 1) }
  | now {i base len : ℕ} {page : Page} {counts : ℕ → ℤ} (here : s.place = .nested i base len) :
      Does kind s (.now page counts)
        (next i (settle s.isAsync (s.callback kind i base len page counts)))
  | complete {k : ℕ} {w : Waiting} {page : Page} {counts : ℕ → ℤ} (at_k : s.waiting[k]? = some w) :
      Does kind s (.complete k page counts)
        (settle true (State.callback kind { s with
            waiting := s.waiting.eraseIdx k, isAsync := s.isAsync || decide (kind = Kind.readv) }
          w.index w.base w.len page counts)).2
  | process {response : Option ℤ} {t : State} (queued : s.worker = .queued)
      (processed : s.process response = some t) : Does kind s (.process response) t
  | check (checking : s.worker = .checking) : Does kind s .check s.check
  | reply {j : ℕ} {result : ℤ} {c : Call} (at_j : s.calls[j]? = some c) (pending : c.result = none)
      (le : result ≤ c.len) : Does kind s (.reply j result)
        ({ s with calls := s.calls.set j { c with result := some result } }.filter c.len result)
  | store {i : ℕ} {e : Entry} : Does kind s (.store i e) { s with iov := s.iov.set i e }

variable {t : State} {s : State}

theorem does_of_exec {kind : Kind} {a : Action} (taken : s.exec kind a = some t) :
    Does kind s a t := by
  revert taken
  fun_cases exec kind s a with first | rintro ⟨⟩ | intro taken
  | case1 late here => exact .enter here
  | case2 success late here refused =>
    rw [Bool.not_eq_true] at refused
    exact refused ▸ .refuse here
  | case4 i here below => exact .create here below
  | case5 i here past none => exact .empty here past none
  | case6 i here past some => exact .created here past some
  | case8 i here below empty => exact .skip here below empty
  | case9 i here below nonempty => exact .take here below nonempty
  | case10 i here past => exact .finish here past fun _ => rfl
  | case11 i here past quiet => exact .finish here past fun async => absurd async quiet
  | case13 i base len here => exact .late here
  | case15 page counts i base len here => exact .now here
  | case17 k page counts w at_k => exact .complete at_k
  | case19 response queued => exact .process queued taken
  | case21 checking => exact .check checking
  | case23 j result c at_j pending => exact .reply at_j pending.1 pending.2.1
  | case26 => exact .store

def left (s : State) : ℕ :=
  match s.place with
  | .resolving i => more s.iov i
  | .nested i _ _ => 1 + more s.iov (i + 1)
  | _ => 0

def Late (s : State) : Prop := s.place ≠ .start ∧ ∀ i, s.place ≠ .creating i

structure Idle (s : State) : Prop where
  calls : s.calls = []
  worker : s.worker = .idle
  queue : s.queue = []
  totlen : s.totlen = 0

structure Made (iov : List Entry) (iovecs : List Kiovec) : Prop where
  length : iovecs.length = iov.length
  lens : ∀ i, (iovecs.getD i ⟨0, none, 0, 0⟩).len = (iov.getD i ⟨0, 0⟩).len

structure Opening (s : State) : Prop where
  idle : s.Idle
  failed : s.failed = false
  answers : s.answers = []
  waiting : s.waiting = []
  /-- The entries before `i` have their `kiovec`. -/
  loop : ∃ i, (s.place = .start ∧ i = 0 ∨ s.place = .creating i) ∧ i ≤ s.iov.length ∧
    s.iovecs.length = i ∧ (∀ j < i, (s.kiovec j).len = (s.entry j).len) ∧
    s.remaining + more s.iov i = (s.iov.length - i : ℕ) + more s.iov 0

structure Resolving (s : State) : Prop where
  idle : s.Idle
  failed : s.failed = false
  answers : s.answers = []
  made : Made s.iov s.iovecs
  late : s.Late
  remaining : s.remaining = (s.waiting.length + s.left : ℕ)
  pos : 0 < s.waiting.length + s.left
  async : s.waiting ≠ [] → s.nestedAsync = true

structure Transfer (iov : List Entry) (calls : List Call) : Prop where
  order : calls.map Call.index = range calls.length
  lens : ∀ c ∈ calls, c.len = (iov.getD c.index ⟨0, 0⟩).len
  full : ∀ c ∈ calls.dropLast, c.result = some (c.len : ℤ)

structure Processing (s : State) : Prop where
  failed : s.failed = false
  answers : s.answers = []
  waiting : s.waiting = []
  left : s.left = 0
  late : s.Late
  made : Made s.iov s.iovecs
  worker : s.worker ≠ .idle
  transfer : Transfer s.iov s.calls
  totlen : s.totlen = transferred s.calls
  /-- While entries are queued, the calls were answered in full, the last one perhaps not yet. -/
  queue : s.queue = [] ∨
    (∀ c ∈ s.calls, c.result = some (c.len : ℤ) ∨ c.result = none) ∧
      s.queue = range' s.calls.length (s.iov.length - s.calls.length)

structure Answered (kind : Kind) (s : State) : Prop where
  answer : ∃ a, s.answers = [a] ∧ (a < 0 ∧ transferred s.calls = 0 ∨ a = transferred s.calls)
  settled : s.failed = true ∨ s.waiting = [] ∧ s.left = 0
  worker : s.worker = .idle ∨ s.failed = true
  queue : s.queue = []
  late : s.Late
  replied : ∀ c ∈ s.calls, c.result.isSome = true
  transfer : Transfer s.iov s.calls
  async : kind = .writev → s.place = .done ∨ s.nestedAsync = true

inductive Inv (kind : Kind) (s : State) : Prop
  | opening (phase : s.Opening)
  | resolving (phase : s.Resolving)
  | processing (readv : kind = .readv) (phase : s.Processing)
  | answered (phase : s.Answered kind)

theorem Idle.transfer (idle : s.Idle) : Transfer s.iov s.calls := by
  constructor <;> simp [idle.calls]

theorem Inv.sound {kind : Kind} (inv : s.Inv kind) : s.Sound := by
  have quiet : s.answers = [] → Transfer s.iov s.calls → (s.Finished → s.answers ≠ []) → s.Sound :=
    fun none transfer answered =>
      ⟨by simp [none], transfer.order, transfer.lens, transfer.full, by simp [none], answered⟩
  cases inv with
  | opening phase =>
    refine quiet phase.answers phase.idle.transfer fun finished => ?_
    obtain ⟨i, place, -⟩ := phase.loop
    simp [finished.done] at place
  | resolving phase =>
    refine quiet phase.answers phase.idle.transfer fun finished => ?_
    have pos := phase.pos
    simp [finished.waiting, left, finished.done] at pos
  | processing _ phase =>
    exact quiet phase.answers phase.transfer fun finished => absurd finished.worker phase.worker
  | answered phase =>
    obtain ⟨a, answers, truthful⟩ := phase.answer
    refine ⟨by simp [answers], phase.transfer.order, phase.transfer.lens, phase.transfer.full,
      fun b mem => ?_, fun _ => by simp [answers]⟩
    obtain rfl : b = a := by simpa [answers] using mem
    exact ⟨phase.replied, truthful⟩

/-! ## The transfer of `readv` -/

theorem transferred_append (calls : List Call) (c : Call) :
    transferred (calls ++ [c]) = transferred calls + max 0 (c.result.getD 0) := by
  simp [transferred]

variable {kind : Kind} {s : State}

variable {j : ℕ} {c : Call}

theorem Transfer.pending (transfer : Transfer s.iov s.calls) (at_j : s.calls[j]? = some c)
    (pending : c.result = none) : ∃ init, s.calls = init ++ [c] ∧ j = init.length := by
  have below : j < s.calls.length := (List.getElem?_eq_some_iff.mp at_j).1
  have last : j = s.calls.length - 1 := by
    by_contra earlier
    have mem : c ∈ s.calls.dropLast := by
      refine mem_of_getElem? (i := j) ?_
      rw [getElem?_dropLast, if_pos (by omega), at_j]
    simp [transfer.full c mem] at pending
  have nonempty : s.calls ≠ [] := List.ne_nil_of_length_pos (by omega)
  have same : s.calls.getLast nonempty = c := by
    rw [List.getLast_eq_getElem]
    exact List.getElem_of_getElem? at_j |>.choose_spec ▸ by simp [last]
  refine ⟨s.calls.dropLast, ?_, by simp [last]⟩
  rw [← same, List.dropLast_append_getLast]

/-- The handler has answered the last call, and the answer is to go through the filter. -/
structure Reported (s : State) (init : List Call) (c : Call) (result : ℤ) : Prop where
  failed : s.failed = false
  answers : s.answers = []
  waiting : s.waiting = []
  left : s.left = 0
  late : s.Late
  made : Made s.iov s.iovecs
  worker : s.worker ≠ .idle
  transfer : Transfer s.iov s.calls
  calls : s.calls = init ++ [c]
  reply : c.result = some result
  le : result ≤ c.len
  full : ∀ d ∈ init, d.result = some (d.len : ℤ)
  totlen : s.totlen = transferred init
  queue : s.queue = [] ∨ s.queue = range' s.calls.length (s.iov.length - s.calls.length)

variable {result : ℤ} {init : List Call}

theorem Reported.replied (reported : s.Reported init c result) :
    ∀ d ∈ s.calls, d.result.isSome = true := by
  intro d mem
  rw [reported.calls, mem_append, mem_singleton] at mem
  rcases mem with old | rfl
  · simp [reported.full d old]
  · simp [reported.reply]

theorem Reported.filter (reported : s.Reported init c result) :
    (s.filter c.len result).Inv .readv := by
  have sum : transferred s.calls = s.totlen + max 0 result := by
    rw [reported.calls, transferred_append, reported.reply, reported.totlen, Option.getD_some]
  unfold State.filter
  by_cases nonneg : 0 ≤ result
  · rw [if_pos nonneg]
    refine .processing rfl { reported with totlen := ?_, queue := ?_ }
    · push_cast
      omega
    · by_cases short : result < c.len
      · exact .inl (if_pos short)
      · rw [if_neg short]
        rcases reported.queue with empty | rest
        · exact .inl empty
        · refine .inr ⟨fun d mem => .inl ?_, rest⟩
          rw [reported.calls, mem_append, mem_singleton] at mem
          rcases mem with old | rfl
          · exact reported.full d old
          · rw [reported.reply, le_antisymm reported.le (not_lt.mp short)]
  · rw [if_neg nonneg]
    rw [max_eq_left (by omega), add_zero] at sum
    by_cases zero : s.totlen = 0
    · rw [if_pos zero]
      refine .answered ⟨⟨result, by simp [answer, reported.answers], .inl ⟨by omega, ?_⟩⟩,
        .inl rfl, .inr rfl, rfl, reported.late, reported.replied, reported.transfer, by simp⟩
      simp only [answer, sum, zero, Nat.cast_zero]
    · rw [if_neg zero]
      exact .processing rfl { reported with totlen := sum.symm, queue := .inl rfl }

variable {response : Option ℤ}

theorem Processing.process (phase : s.Processing)
    (replied : ∀ c ∈ s.calls, c.result.isSome = true) (taken : s.process response = some t) :
    t.Inv .readv := by
  unfold State.process at taken
  cases queue : s.queue with
  | nil =>
    rw [queue] at taken
    cases taken
    exact .processing rfl { phase with worker := by simp, queue := .inl rfl }
  | cons i rest =>
    obtain ⟨full, range⟩ := phase.queue.resolve_left (by simp [queue])
    have full : ∀ c ∈ s.calls, c.result = some (c.len : ℤ) := by
      intro c mem
      refine (full c mem).resolve_right fun pending => ?_
      simpa [pending] using replied c mem
    have below : s.calls.length < s.iov.length := by
      by_contra past
      rw [Nat.sub_eq_zero_of_le (by omega)] at range
      simp [queue] at range
    rw [queue, show s.iov.length - s.calls.length = s.iov.length - (s.calls.length + 1) + 1 by omega,
      range'_succ] at range
    obtain ⟨rfl, rest_eq⟩ := List.cons.inj range
    have transfer : Transfer s.iov (s.calls ++ [s.handed s.calls.length response]) := by
      refine ⟨by simp [phase.transfer.order, handed, range_succ], fun c mem => ?_, by simpa using full⟩
      rcases mem_append.mp mem with old | new
      · exact phase.transfer.lens c old
      · obtain rfl := mem_singleton.mp new
        exact phase.made.lens _
    have queued : rest = range' (s.calls ++ [s.handed s.calls.length response]).length
        (s.iov.length - (s.calls ++ [s.handed s.calls.length response]).length) := by
      simpa using rest_eq
    simp only [queue] at taken
    cases response with
    | none =>
      cases taken
      refine .processing rfl { phase with
        worker := by simp
        transfer := transfer
        totlen := ?_
        queue := .inr ⟨fun c mem => ?_, queued⟩ }
      · simp [transferred_append, phase.totlen, handed]
      · rcases mem_append.mp mem with old | new
        · exact .inl (full c old)
        · obtain rfl := mem_singleton.mp new
          exact .inr rfl
    | some result =>
      dsimp only at taken
      split_ifs at taken with small
      · obtain rfl := Option.some.inj taken
        have reported : Reported
            { s with
              queue := rest
              calls := s.calls ++ [s.handed s.calls.length (some result)]
              worker := .checking }
            s.calls (s.handed s.calls.length (some result)) result :=
          { phase with
            worker := by simp
            transfer := transfer
            calls := rfl
            reply := rfl
            le := small.1
            full := full
            queue := .inr queued }
        exact reported.filter

theorem Processing.reply (phase : s.Processing) (at_j : s.calls[j]? = some c)
    (pending : c.result = none) (le : result ≤ c.len) :
    (filter { s with calls := s.calls.set j { c with result := some result } } c.len
      result).Inv .readv := by
  obtain ⟨init, calls, rfl⟩ := phase.transfer.pending at_j pending
  have set : s.calls.set init.length { c with result := some result } =
      init ++ [{ c with result := some result }] := by simp [calls]
  have full : ∀ d ∈ init, d.result = some (d.len : ℤ) := by
    intro d mem
    exact phase.transfer.full d (by simpa [calls] using mem)
  have transfer : Transfer s.iov (s.calls.set init.length { c with result := some result }) := by
    rw [set]
    refine ⟨by simpa [calls] using phase.transfer.order, fun d mem => ?_, by simpa using full⟩
    rcases mem_append.mp mem with old | new
    · exact phase.transfer.lens d (by simp [calls, old])
    · obtain rfl := mem_singleton.mp new
      exact phase.transfer.lens c (by simp [calls])
  have reported : Reported
      { s with calls := s.calls.set init.length { c with result := some result } } init
      { c with result := some result } result :=
    { phase with
      transfer := transfer
      calls := set
      reply := rfl
      le := le
      full := full
      totlen := by
        rw [phase.totlen, calls, transferred_append, pending]
        simp
      queue := phase.queue.imp id fun shape => by simpa using shape.2 }
  exact reported.filter

theorem Processing.check (phase : s.Processing)
    (replied : s.queue = [] → ∀ c ∈ s.calls, c.result.isSome = true) :
    s.check.Inv .readv := by
  unfold State.check
  by_cases empty : s.queue = []
  · rw [if_pos empty, if_neg (by simp [phase.failed])]
    exact .answered ⟨⟨s.totlen, by simp [answer, phase.answers], .inr phase.totlen⟩,
      .inr ⟨phase.waiting, phase.left⟩, .inl rfl, empty, phase.late, replied empty,
      phase.transfer, by simp⟩
  · rw [if_neg empty]
    exact .processing rfl { phase with worker := by simp }

/-! ## The callbacks of the buffers -/

variable {iovec : Kiovec}

theorem Made.set (made : Made s.iov s.iovecs) (i : ℕ) (len : iovec.len = (s.entry i).len) :
    Made s.iov (s.iovecs.set i iovec) := by
  refine ⟨by simpa using made.length, fun j => ?_⟩
  by_cases here : i = j
  · subst here
    by_cases below : i < s.iovecs.length
    · simpa [below, entry] using len
    · rw [set_eq_of_length_le (by omega)]
      exact made.lens i
  · simpa [getElem?_set_ne here] using made.lens j

/-- A `kiovec` as the callback for the entry makes it, for a buffer that was resolved with `len`. -/
structure Fits (s : State) (i len : ℕ) (iovec : Kiovec) : Prop where
  size : iovec.size = (s.kiovec i).size
  resolved : iovec.resolved = len
  room : ∀ b ∈ iovec.buffer, len = (s.entry i).len →
    (s.kiovec i).size = offset (s.entry i).base + (s.entry i).len → (s.entry i).len ≤ b.room
  length : iovec.len = (s.entry i).len

theorem fits_readIovec (s : State) (i base len : ℕ) : s.Fits i len (s.readIovec i base len) where
  size := rfl
  length := rfl
  resolved := rfl
  room b given same _ := by
    cases given
    exact same.ge

theorem le_npages (size : ℕ) : size ≤ npages size * pageSize := by
  unfold npages pageSize
  omega

theorem fits_writeIovec (s : State) (i len : ℕ) : s.Fits i len (s.writeIovec i len) where
  size := rfl
  length := rfl
  resolved := rfl
  room b given _ size := by
    cases given
    have mapped := le_npages (s.kiovec i).size
    dsimp only
    omega

/-- What the callback for a buffer returns as long as the call has not failed, and the state behind
it. -/
inductive Outcome (kind : Kind) (s : State) (i len : ℕ) (page : Page) (counts : ℕ → ℤ) :
    Ret × State → Prop
  | fault (remaining : ℤ) :
      Outcome kind s i len page counts
        (.value eFault, { s with remaining := remaining, failed := true })
  | more {iovec : Kiovec} (present : page = .present) (fits : s.Fits i len iovec)
      (others : s.remaining ≠ 1) : Outcome kind s i len page counts (.none, s.resolvedOne i iovec)
  | read {iovec : Kiovec} (readv : kind = .readv) (fits : s.Fits i len iovec)
      (last : s.remaining = 1) :
      Outcome kind s i len page counts (.async, (s.resolvedOne i iovec).enqueue)
  | write {iovec : Kiovec} (writev : kind = .writev) (fits : s.Fits i len iovec)
      (last : s.remaining = 1) :
      Outcome kind s i len page counts
        (.value (((range s.iov.length).map fun j =>
            ((s.resolvedOne i iovec).kiovec j).len).sum : ℕ),
          (s.resolvedOne i iovec).writeAll counts)

theorem onRead_outcome (running : s.failed = false) (i base len : ℕ) (page : Page)
    (counts : ℕ → ℤ) : Outcome .readv s i len page counts (s.onRead i base len page) := by
  cases page with
  | present =>
    have fits := fits_readIovec s i base len
    unfold onRead
    rw [if_neg (by simp [running])]
    by_cases last : s.remaining = 1
    · rw [if_pos (by simp [resolvedOne, last])]
      exact .read rfl fits last
    · rw [if_neg (by simp only [resolvedOne]; omega)]
      exact .more rfl fits last
  | invalid | gone => exact .fault s.remaining

theorem onWrite_outcome (running : s.failed = false) (i len : ℕ) (page : Page) (counts : ℕ → ℤ) :
    Outcome .writev s i len page counts (s.onWrite i len counts page) := by
  unfold onWrite
  rw [if_neg (by simp [running])]
  cases page with
  | present =>
    have fits := fits_writeIovec s i len
    by_cases last : s.remaining = 1
    · rw [if_pos (by simp [resolvedOne, last])]
      exact .write rfl fits last
    · rw [if_neg (by simp only [resolvedOne]; omega)]
      exact .more rfl fits last
  | invalid => exact .fault s.remaining
  | gone => exact .fault (s.remaining - 1)

theorem callback_outcome (running : s.failed = false) (i base len : ℕ) (page : Page)
    (counts : ℕ → ℤ) :
    Outcome kind s i len page counts (s.callback kind i base len page counts) := by
  cases kind with
  | readv => exact onRead_outcome running i base len page counts
  | writev => exact onWrite_outcome running i len page counts

/-- What the callback for a buffer finds: `remaining` counts the buffer and the `rest`. -/
structure Due (s : State) (rest : ℕ) : Prop where
  idle : s.Idle
  failed : s.failed = false
  answers : s.answers = []
  made : Made s.iov s.iovecs
  remaining : s.remaining = 1 + rest

variable {rest : ℕ}

/-! ### The phase behind a callback

The second loop is at `place` then. -/

variable {len : ℕ} {counts : ℕ → ℤ}

section Behind

variable {place : Place} {nestedAsync : Bool} (late : place ≠ .start ∧ ∀ i, place ≠ .creating i)

include late

theorem Due.faulted (due : s.Due rest) {remaining : ℤ}
    (async : kind = .writev → place = .done ∨ nestedAsync = true) :
    Answered kind { s with
      remaining := remaining
      failed := true
      answers := s.answers ++ [eFault]
      place := place
      nestedAsync := nestedAsync } where
  answer := ⟨eFault, by simp [due.answers], .inl ⟨by decide, by simp [due.idle.calls, transferred]⟩⟩
  settled := .inl rfl
  worker := .inl due.idle.worker
  queue := due.idle.queue
  late := late
  replied := by simp [due.idle.calls]
  transfer := due.idle.transfer
  async := async

theorem Due.reading (due : s.Due rest) (fits : s.Fits i len iovec) (waiting : s.waiting = [])
    (left : left { s with place := place } = 0) :
    Processing { (s.resolvedOne i iovec).enqueue with
      place := place
      nestedAsync := nestedAsync } where
  __ := due
  waiting := waiting
  left := left
  late := late
  made := due.made.set i fits.length
  worker := by simp [enqueue]
  transfer := due.idle.transfer
  totlen := by simp [enqueue, resolvedOne, due.idle.totlen, due.idle.calls, transferred]
  queue := .inr ⟨by simp [enqueue, resolvedOne, due.idle.calls], by
    simp [enqueue, resolvedOne, due.idle.calls, range_eq_range']⟩

theorem Due.written (due : s.Due rest) (fits : s.Fits i len iovec) (waiting : s.waiting = [])
    (left : left { s with place := place } = 0)
    (full : ∀ i < s.iov.length, counts i = (s.entry i).len)
    (async : place = .done ∨ nestedAsync = true) :
    Answered kind { (s.resolvedOne i iovec).writeAll counts with
      answers := s.answers ++ [((((range s.iov.length).map fun j =>
        ((s.resolvedOne i iovec).kiovec j).len).sum : ℕ) : ℤ)]
      place := place
      nestedAsync := nestedAsync } := by
  have len : ∀ j, ((s.resolvedOne i iovec).kiovec j).len = (s.entry j).len :=
    (due.made.set i fits.length).lens
  have calls : ((s.resolvedOne i iovec).writeAll counts).calls = (range s.iov.length).map
      fun j => (s.resolvedOne i iovec).handed j (some ((s.entry j).len : ℤ)) :=
    map_congr_left fun j mem => by rw [full j (mem_range.mp mem)]
  have each : ∀ c ∈ ((s.resolvedOne i iovec).writeAll counts).calls,
      c.len = (s.entry c.index).len ∧ c.result = some (c.len : ℤ) := by
    intro c mem
    rw [calls] at mem
    obtain ⟨j, -, rfl⟩ := mem_map.mp mem
    exact ⟨len j, by simp [handed, len j]⟩
  have sum : transferred ((s.resolvedOne i iovec).writeAll counts).calls =
      (((range s.iov.length).map fun j => ((s.resolvedOne i iovec).kiovec j).len).sum : ℕ) := by
    rw [calls]
    simp [transferred, handed, len, comp_def, Nat.cast_list_sum]
  exact {
    answer := ⟨_, by simp only [due.answers, nil_append], .inr sum.symm⟩
    settled := .inr ⟨waiting, left⟩
    worker := .inl due.idle.worker
    queue := due.idle.queue
    late := late
    replied := fun c mem => by simp [(each c mem).2]
    transfer := ⟨by simp [calls, handed, comp_def], fun c mem => (each c mem).1,
      fun c mem => (each c (dropLast_subset _ mem)).2⟩
    async := fun _ => async }

theorem Due.further (due : s.Due rest) (fits : s.Fits i len iovec) (others : s.remaining ≠ 1)
    (counts : rest = s.waiting.length + left { s with place := place })
    (async : s.waiting ≠ [] → s.nestedAsync = true) :
    Resolving { s.resolvedOne i iovec with place := place } where
  idle := { due.idle with }
  __ := due
  made := due.made.set i fits.length
  late := late
  remaining := by
    have remaining := due.remaining
    simp only [resolvedOne]
    rw [remaining, counts]
    simp [left]
  pos := by
    have remaining := due.remaining
    have pos : 0 < rest := by omega
    rw [counts] at pos
    exact pos
  async := async

end Behind

theorem late_resolving (i : ℕ) : Place.resolving i ≠ .start ∧ ∀ j, Place.resolving i ≠ .creating j := by
  simp

theorem late_done : Place.done ≠ .start ∧ ∀ j, Place.done ≠ .creating j := by simp

variable {page : Page}

theorem Resolving.complete (phase : s.Resolving) {k : ℕ} {w : Waiting}
    (at_k : s.waiting[k]? = some w) (quiet : s.Quiet kind true page)
    (full : s.WritesFull kind counts) (isAsync : Bool) :
    (settle true (callback kind { s with waiting := s.waiting.eraseIdx k, isAsync := isAsync }
      w.index w.base w.len page counts)).2.Inv kind := by
  have below : k < s.waiting.length := (List.getElem?_eq_some_iff.mp at_k).1
  have async : s.nestedAsync = true := phase.async (List.ne_nil_of_length_pos (by omega))
  have due : Due { s with waiting := s.waiting.eraseIdx k, isAsync := isAsync }
      ((s.waiting.eraseIdx k).length + s.left) := by
    refine ⟨{ phase.idle with }, phase.failed, phase.answers, phase.made, ?_⟩
    rw [phase.remaining, length_eraseIdx, if_pos below]
    omega
  have alone : s.remaining = 1 → s.waiting.eraseIdx k = [] ∧ s.left = 0 := by
    intro last
    have remaining := due.remaining
    dsimp only at remaining
    exact ⟨eq_nil_of_length_eq_zero (by omega), by omega⟩
  have spec : Outcome kind _ w.index w.len page counts _ :=
    callback_outcome due.failed w.index w.base w.len page counts
  generalize callback kind
    { s with waiting := s.waiting.eraseIdx k, isAsync := isAsync }
    w.index w.base w.len page counts = p at spec ⊢
  cases spec with
  | fault remaining => exact .answered (due.faulted phase.late fun _ => .inr async)
  | more present fits others => simpa using quiet.outstanding present others
  | read readv fits last =>
    exact .processing readv (due.reading phase.late fits (alone last).1 (alone last).2)
  | write writev fits last =>
    exact .answered (due.written phase.late fits (alone last).1 (alone last).2 (full writev last)
      (.inr async))

variable {base : ℕ}

theorem Resolving.now (phase : s.Resolving) (here : s.place = .nested i base len)
    (quiet : s.Quiet kind s.isAsync page) (full : s.WritesFull kind counts) :
    (next i (settle s.isAsync (s.callback kind i base len page counts))).Inv kind := by
  have left : s.left = 1 + more s.iov (i + 1) := by simp [left, here]
  have due : s.Due (s.waiting.length + more s.iov (i + 1)) := by
    refine ⟨phase.idle, phase.failed, phase.answers, phase.made, ?_⟩
    rw [phase.remaining, left]
    omega
  have alone : s.remaining = 1 → s.waiting = [] ∧ more s.iov (i + 1) = 0 := by
    intro last
    have remaining := due.remaining
    exact ⟨eq_nil_of_length_eq_zero (by omega), by omega⟩
  have spec : Outcome kind s i len page counts _ :=
    callback_outcome due.failed i base len page counts
  generalize s.callback kind i base len page counts = p at spec ⊢
  generalize s.isAsync = async at quiet ⊢
  have resolving := late_resolving (i + 1)
  cases spec with
  | fault remaining =>
    cases async with
    | false => exact .answered (due.faulted late_done fun _ => .inl rfl)
    | true => exact .answered (due.faulted resolving fun _ => .inr rfl)
  | more present fits others =>
    rw [quiet.outstanding present others]
    exact .resolving (due.further resolving fits others rfl phase.async)
  | read readv fits last =>
    obtain ⟨none, zero⟩ := alone last
    cases async with
    | false | true => exact .processing readv (due.reading resolving fits none zero)
  | write writev fits last =>
    have writes := full writev last
    obtain ⟨none, zero⟩ := alone last
    cases async with
    | false => exact .answered (due.written late_done fits none rfl writes (.inl rfl))
    | true => exact .answered (due.written resolving fits none zero writes (.inr rfl))

/-! ## The loops -/

theorem Opening.create (phase : s.Opening) (here : s.place = .creating i) (below : i < s.iov.length):
    Opening { s with
      iovecs := s.iovecs ++ [⟨offset (s.entry i).base + (s.entry i).len, none, 0, (s.entry i).len⟩]
      remaining := if (s.entry i).len = 0 then s.remaining - 1 else s.remaining
      place := .creating (i + 1) } := by
  obtain ⟨j, place, -, length, lens, remaining⟩ := phase.loop
  obtain rfl : i = j := by simpa [here] using place
  refine ⟨{ phase.idle with },
    phase.failed, phase.answers, phase.waiting, i + 1, .inr rfl, by dsimp only; omega,
    by simp [length], fun j before => ?_, ?_⟩
  · simp only [kiovec, getD_eq_getElem?_getD]
    by_cases last : j = i
    · subst last
      rw [getElem?_append_right (by omega), length]
      simp [entry]
    · rw [getElem?_append_left (by omega)]
      have earlier := lens j (by omega)
      simpa [kiovec, entry] using earlier
  · have first := more_eq s below
    dsimp only
    by_cases empty : (s.entry i).len = 0
    · rw [if_pos empty] at first ⊢
      omega
    · rw [if_neg empty] at first ⊢
      omega

theorem Opening.finish (phase : s.Opening) (here : s.place = .creating i) (past : ¬i < s.iov.length)
    (some : s.remaining ≠ 0) :
    Resolving { s with place := .resolving 0 } := by
  obtain ⟨j, place, le, length, lens, remaining⟩ := phase.loop
  obtain rfl : i = j := by simpa [here] using place
  have all : i = s.iov.length := by omega
  rw [all, more_of_le (le_refl _), Nat.sub_self] at remaining
  have made : Made s.iov s.iovecs := by
    refine ⟨length.trans all, fun j => ?_⟩
    by_cases below : j < i
    · exact lens j below
    · simp only [getD_eq_getElem?_getD]
      rw [getElem?_eq_none (by omega), getElem?_eq_none (by omega)]
      rfl
  refine ⟨{ phase.idle with }, phase.failed, phase.answers, made, late_resolving 0, ?_, ?_,
    by simp [phase.waiting]⟩ <;> rw [left] <;> simp only [phase.waiting, length_nil] <;> omega

/-- The second loop goes past an empty entry, or takes the next one. -/
theorem left_resolve (here : s.place = .resolving i) (below : i < s.iov.length) :
    left { s with
      place :=
        if (s.entry i).len = 0 then .resolving (i + 1)
        else .nested i (s.entry i).base (s.entry i).len } = s.left := by
  have first := more_eq s below
  by_cases empty : (s.entry i).len = 0
  · rw [if_pos empty] at first ⊢
    simp only [left, here]
    omega
  · rw [if_neg empty] at first ⊢
    simp only [left, here]
    omega

theorem Opening.early (phase : s.Opening) : ¬s.Late := by
  obtain ⟨i, ⟨here, -⟩ | here, -⟩ := phase.loop <;> simp [State.Late, here]

theorem Inv.moved (inv : s.Inv kind) (late : s.Late) {place : Place}
    (later : place ≠ .start ∧ ∀ i, place ≠ .creating i)
    (left : left { s with place := place } = s.left)
    (done : s.place = .done → place = .done) : Inv kind { s with place := place } := by
  cases inv with
  | opening phase => exact absurd late phase.early
  | resolving phase =>
    refine .resolving ⟨{ phase.idle with },
      phase.failed, phase.answers, phase.made, later, ?_, ?_, phase.async⟩
    · rw [left]
      exact phase.remaining
    · rw [left]
      exact phase.pos
  | processing readv phase =>
    exact .processing readv { phase with left := left.trans phase.left, late := later }
  | answered phase =>
    exact .answered { phase with
      settled := phase.settled.imp id fun none => ⟨none.1, left.trans none.2⟩
      late := later
      async := fun writev => (phase.async writev).imp done id }

/-- At the end of the second loop of `writev` a buffer waits or there is an answer. -/
theorem Inv.nestedAsync (inv : s.Inv .writev) (here : s.place = .resolving i)
    (past : s.iov.length ≤ i) : s.nestedAsync = true := by
  cases inv with
  | opening phase =>
    obtain ⟨j, place, -⟩ := phase.loop
    simp [here] at place
  | resolving phase =>
    refine phase.async fun none => ?_
    have pos := phase.pos
    simp [none, left, here, more_of_le past] at pos
  | processing readv phase => simp at readv
  | answered phase => exact (phase.async rfl).resolve_left (by simp [here])

theorem Inv.finish (inv : s.Inv kind) (here : s.place = .resolving i) (past : ¬i < s.iov.length)
    {answers : List ℤ} (quiet : kind = .readv ∨ s.nestedAsync = true → answers = s.answers) :
    Inv kind { s with place := .done, answers := answers } := by
  have async : kind = .readv ∨ s.nestedAsync = true := by
    cases kind with
    | readv => exact .inl rfl
    | writev => exact .inr (inv.nestedAsync here (by omega))
  obtain rfl := quiet async
  refine inv.moved (by simp [State.Late, here]) late_done ?_ (by simp)
  simp [left, here, more_of_le (not_lt.mp past)]

/-- Within the second loop the call is not yet answered, or has failed. -/
theorem Answered.failed_of_nested (phase : s.Answered kind) (here : s.place = .nested i base len) :
    s.failed = true :=
  phase.settled.resolve_right fun none => by simp [left, here] at none

theorem Inv.late (inv : s.Inv kind) (here : s.place = .nested i base len) :
    Inv kind { s with
      waiting := s.waiting ++ [⟨i, base, len⟩], nestedAsync := true, place := .resolving (i + 1) } := by
  cases inv with
  | opening phase =>
    obtain ⟨j, place, -⟩ := phase.loop
    simp [here] at place
  | resolving phase =>
    have left : s.left = 1 + more s.iov (i + 1) := by simp [State.left, here]
    have remaining := phase.remaining
    refine .resolving ⟨{ phase.idle with }, phase.failed, phase.answers, phase.made,
      late_resolving (i + 1), ?_, ?_, fun _ => rfl⟩
    · simp only [State.left, length_append, length_singleton]
      omega
    · simp only [length_append, length_singleton]
      omega
  | processing readv phase => simpa [State.left, here] using phase.left
  | answered phase =>
    exact .answered { phase with
      settled := .inl (phase.failed_of_nested here)
      late := late_resolving (i + 1)
      async := fun _ => .inr rfl }

theorem callback_of_failed (failed : s.failed = true) {async : Bool}
    (quiet : s.Quiet kind async page) (i base len : ℕ) (counts : ℕ → ℤ) :
    s.callback kind i base len page counts = (.none, s) := by
  cases kind with
  | readv =>
    obtain rfl : page = .present := by simpa using (quiet.failed failed).2
    simp [callback, onRead, failed]
  | writev => simp [callback, onWrite, failed]

theorem Inv.now (inv : s.Inv kind) (here : s.place = .nested i base len)
    (quiet : s.Quiet kind s.isAsync page) (full : s.WritesFull kind counts) :
    (next i (settle s.isAsync (s.callback kind i base len page counts))).Inv kind := by
  cases inv with
  | opening phase =>
    obtain ⟨j, place, -⟩ := phase.loop
    simp [here] at place
  | resolving phase => exact phase.now here quiet full
  | processing readv phase => simpa [left, here] using phase.left
  | answered phase =>
    have failed := phase.failed_of_nested here
    rw [callback_of_failed failed quiet, (quiet.failed failed).1]
    exact .answered { phase with
      settled := .inl failed
      late := late_resolving (i + 1)
      async := fun writev => .inr ((phase.async writev).resolve_left (by simp [here])) }

theorem Inv.complete (inv : s.Inv kind) {k : ℕ} {w : Waiting} (at_k : s.waiting[k]? = some w)
    (quiet : s.Quiet kind true page) (full : s.WritesFull kind counts) (isAsync : Bool) :
    (settle true (callback kind { s with waiting := s.waiting.eraseIdx k, isAsync := isAsync }
      w.index w.base w.len page counts)).2.Inv kind := by
  have nonempty : s.waiting ≠ [] := by
    rintro none
    simp [none] at at_k
  cases inv with
  | opening phase | processing readv phase => exact absurd phase.waiting nonempty
  | resolving phase => exact phase.complete at_k quiet full isAsync
  | answered phase =>
    have failed := phase.settled.resolve_right fun none => nonempty none.1
    simpa using (quiet.failed failed).1

/-! ## Runs -/

theorem Inv.start (kind : Kind) (iov : List Entry) (stale : Bool) :
    (State.start kind iov stale).Inv kind :=
  .opening ⟨⟨rfl, rfl, rfl, rfl⟩, rfl, rfl, rfl, 0, .inl ⟨rfl, rfl⟩, Nat.zero_le _, rfl, by simp,
    by simp [State.start]⟩

theorem Inv.opening_of (inv : s.Inv kind) (early : ¬s.Late) : s.Opening := by
  cases inv with
  | opening phase => exact phase
  | resolving phase | processing readv phase | answered phase => exact absurd phase.late early

theorem Opening.enter (phase : s.Opening) (here : s.place = .start) (async : Bool) :
    Opening { s with isAsync := async, nestedAsync := async, place := .creating 0 } := by
  obtain ⟨i, place, rest⟩ := phase.loop
  obtain rfl : i = 0 := by simpa [here] using place
  exact ⟨{ phase.idle with }, phase.failed, phase.answers, phase.waiting, 0, .inr rfl, rest⟩

theorem Opening.answered (phase : s.Opening) {a : ℤ} (le : a ≤ 0) :
    Answered kind { s.answer a with place := .done } := by
  have none : transferred s.calls = 0 := by simp [phase.idle.calls, transferred]
  refine ⟨⟨a, by simp [answer, phase.answers], ?_⟩, .inr ⟨phase.waiting, rfl⟩,
    .inl phase.idle.worker, phase.idle.queue, late_done, ?_, phase.idle.transfer, fun _ => .inl rfl⟩
  · rw [show calls { s.answer a with place := .done } = s.calls from rfl, none]
    omega
  · simp [answer, phase.idle.calls]

theorem Inv.process (inv : s.Inv kind) (replied : ∀ c ∈ s.calls, c.result.isSome = true)
    (queued : s.worker = .queued) (processed : s.process response = some t) : t.Inv kind := by
  cases inv with
  | opening phase | resolving phase => simp [phase.idle.worker] at queued
  | processing readv phase =>
    subst readv
    exact phase.process replied processed
  | answered phase =>
    have failed := phase.worker.resolve_left (by simp [queued])
    simp only [State.process, phase.queue] at processed
    cases processed
    exact .answered { phase with worker := .inr failed, queue := rfl }

theorem Inv.check (inv : s.Inv kind)
    (replied : s.queue = [] → ∀ c ∈ s.calls, c.result.isSome = true)
    (checking : s.worker = .checking) : s.check.Inv kind := by
  cases inv with
  | opening phase | resolving phase => simp [phase.idle.worker] at checking
  | processing readv phase =>
    subst readv
    exact phase.check replied
  | answered phase =>
    have failed := phase.worker.resolve_left (by simp [checking])
    rw [State.check, if_pos phase.queue, if_pos failed]
    exact .answered { phase with worker := .inl rfl }

theorem Inv.reply (inv : s.Inv kind) (at_j : s.calls[j]? = some c) (pending : c.result = none)
    (le : result ≤ c.len) :
    (filter { s with calls := s.calls.set j { c with result := some result } } c.len
      result).Inv kind := by
  cases inv with
  | opening phase | resolving phase => simp [phase.idle.calls] at at_j
  | processing readv phase =>
    subst readv
    exact phase.reply at_j pending le
  | answered phase => simpa [pending] using phase.replied c (mem_of_getElem? at_j)

theorem Inv.step (inv : s.Inv kind) {a : Action} (orderly : s.Orderly kind a)
    (taken : s.exec kind a = some t) : t.Inv kind := by
  have opening : ¬s.Late → s.Opening := inv.opening_of
  cases does_of_exec taken with
  | enter here => exact .opening ((opening (by simp [State.Late, here])).enter here _)
  | refuse here => exact .answered ((opening (by simp [State.Late, here])).answered (by decide))
  | create here below => exact .opening ((opening (by simp [State.Late, here])).create here below)
  | empty here past none =>
    exact .answered ((opening (by simp [State.Late, here])).answered (le_refl 0))
  | created here past some =>
    exact .resolving ((opening (by simp [State.Late, here])).finish here past some)
  | skip here below empty =>
    have left := left_resolve here below
    rw [if_pos empty] at left
    exact inv.moved (by simp [State.Late, here]) (late_resolving _) left (by simp [here])
  | take here below nonempty =>
    have left := left_resolve here below
    rw [if_neg nonempty] at left
    exact inv.moved (by simp [State.Late, here]) (by simp) left (by simp [here])
  | finish here past quiet => exact inv.finish here past quiet
  | late here => exact inv.late here
  | now here => exact inv.now here orderly.1 orderly.2
  | complete at_k => exact inv.complete at_k orderly.1 orderly.2 _
  | process queued processed => exact inv.process orderly queued processed
  | check checking => exact inv.check orderly checking
  | reply at_j pending le => exact inv.reply at_j pending le
  | store => exact absurd orderly id

/-- Every run of either call whose steps are in order is one transfer. -/
theorem sound_of_orderly {iov : List Entry} {stale : Bool} {as : List Action} {t : State}
    (run : RunWhen (Orderly kind) (exec kind) (start kind iov stale) as t) : t.Sound :=
  (run.invariant (fun _ _ _ inv orderly taken => inv.step orderly taken)
    (Inv.start kind iov stale) : t.Inv kind).sound

instance (kind : Kind) (s : State) (async : Bool) (page : Page) :
    Decidable (s.Quiet kind async page) :=
  decidable_of_iff
    ((s.failed = true → async = false ∧ (kind = .writev ∨ page = .present)) ∧
      (page = .present → s.remaining ≠ 1 → async = false))
    ⟨fun h => ⟨h.1, h.2⟩, fun h => ⟨h.failed, h.outstanding⟩⟩

instance (kind : Kind) (s : State) (counts : ℕ → ℤ) : Decidable (s.WritesFull kind counts) := by
  dsimp only [WritesFull]
  infer_instance

instance (kind : Kind) (s : State) (a : Action) : Decidable (s.Orderly kind a) :=
  match a with
  | .now .. | .complete .. | .process .. | .check | .store .. | .array .. | .create | .resolve | .late
  | .reply .. => by dsimp only [Orderly]; infer_instance

/-- Three entries with an empty one: a `readv` whose last buffer needs a page fault and that gets fewer
bytes than it asks for, and a `writev`. -/
theorem sound_three_entries :
    (∃ t, RunWhen (Orderly .readv) (exec .readv)
        (start .readv [⟨4096, 3⟩, ⟨8192, 0⟩, ⟨12288, 5⟩] false)
        [.array true false, .create, .create, .create, .create, .resolve, .now .present fun _ => 0,
          .resolve, .resolve, .late, .resolve, .complete 0 .present fun _ => 0, .process (some 3),
          .check, .process none, .reply 1 0, .check, .process (some 2), .check] t ∧
      t.answers = [5] ∧ t.Sound) ∧
    ∃ t, RunWhen (Orderly .writev) (exec .writev)
        (start .writev [⟨4096, 3⟩, ⟨8192, 0⟩, ⟨12288, 5⟩] false)
        [.array true false, .create, .create, .create, .create, .resolve, .now .present fun _ => 0,
          .resolve, .resolve, .now .present ([3, 0, 5].getD · 0)] t ∧
      t.answers = [8] ∧ t.Sound := by
  constructor
  · exact exists_and (f := answers) (by decide +kernel)
      fun t run answers => ⟨answers, sound_of_orderly run⟩
  · exact exists_and (f := answers) (by decide +kernel)
      fun t run answers => ⟨answers, sound_of_orderly run⟩

/-- A `readv` of two bytes whose buffers both need a page fault is answered with 0 when the first one is
there, and later with 2.  A `readv` from a handler that answers later is answered with 0.  A `writev` of
two bytes of which the handler takes one is answered with 2. -/
theorem not_sound_vectored :
    (∃ t, Run (exec .readv) (start .readv [⟨4096, 1⟩, ⟨8192, 1⟩] false)
        [.array true false, .create, .create, .create, .resolve, .late, .resolve, .late, .resolve,
          .complete 0 .present fun _ => 0, .complete 0 .present fun _ => 0, .process (some 1),
          .check, .process (some 1), .check] t ∧ t.answers = [0, 2] ∧ ¬t.Sound) ∧
    (∃ t, Run (exec .readv) (start .readv [⟨4096, 1⟩] false)
        [.array true false, .create, .create, .resolve, .now .present fun _ => 0, .process none,
          .check, .reply 0 1] t ∧ t.answers = [0] ∧ ¬t.Sound) ∧
    ∃ t, Run (exec .writev) (start .writev [⟨4096, 2⟩] false)
        [.array true false, .create, .create, .resolve, .now .present fun _ => 1] t ∧
      t.answers = [2] ∧ ¬t.Sound := by
  refine ⟨?_, ?_, ?_⟩
  · refine exists_and (f := answers) (v := [0, 2]) (by decide +kernel)
      fun t _ answers => ⟨answers, fun sound => ?_⟩
    simpa [answers] using sound.once
  · refine exists_and (f := fun t => (t.answers, transferred t.calls)) (v := ([0], 1))
      (by decide +kernel) fun t _ data => ?_
    obtain ⟨answers, count⟩ := Prod.mk.inj data
    refine ⟨answers, fun sound => ?_⟩
    simpa [count] using (sound.truthful 0 (by simp [answers])).2
  · refine exists_and (f := fun t => (t.answers, transferred t.calls)) (v := ([2], 1))
      (by decide +kernel) fun t _ data => ?_
    obtain ⟨answers, count⟩ := Prod.mk.inj data
    refine ⟨answers, fun sound => ?_⟩
    simpa [count] using (sound.truthful 2 (by simp [answers])).2

end State

end JeoKernel.Vectored

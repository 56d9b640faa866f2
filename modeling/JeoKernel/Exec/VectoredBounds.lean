import JeoKernel.Exec.VectoredStores

/-!
# The lengths that a vectored transfer hands to its handler

As long as stores go to settled entries, every callback finds the entry for which its buffer was
resolved.  When the last one has run, each `kiovec` covers its length, and so does each call of the
handler.
-/

namespace JeoKernel.Vectored

open List Option Machine State Bool

/-- The length is one for which the buffer was resolved, and that is mapped behind the pointer. -/
structure Covers (buffer : Option Buffer) (resolved len : ℕ) : Prop where
  resolved : len ≤ resolved
  room : ∀ b ∈ buffer, len ≤ b.room

def Kiovec.Covered (k : Kiovec) : Prop := Covers k.buffer k.resolved k.len

def Call.Covered (c : Call) : Prop := Covers c.buffer c.resolved c.len

structure Matches (e : Entry) (k : Kiovec) : Prop where
  size : k.size = offset e.base + e.len
  len : k.len = e.len

variable {e : Entry}

theorem Matches.covered {k : Kiovec} (made : Matches e k) (empty : e.len = 0) :
    k.Covered := by
  have len : k.len = 0 := made.len.trans empty
  refine ⟨?_, fun b _ => ?_⟩ <;> rw [len] <;> exact Nat.zero_le _

/-! ## The entries that are left -/

variable {iov : List Entry} {j : ℕ}

theorem len_of_more {i : ℕ} (none : more iov i = 0) (le : i ≤ j) :
    (iov.getD j ⟨0, 0⟩).len = 0 := by
  by_cases below : j < iov.length
  · rw [getD_eq_getElem?_getD, getElem?_eq_getElem below, getD_some]
    have mem : iov[j] ∈ iov.drop i := by
      refine List.mem_of_getElem? (i := j - i) ?_
      rw [getElem?_drop, Nat.add_sub_cancel' le, getElem?_eq_getElem below]
    simpa using countP_eq_zero.mp none _ mem
  · rw [getD_eq_getElem?_getD, getElem?_eq_none (by omega)]
    rfl

/-- A store behind the first `k` entries counts the same from `k` on and from the first one on. -/
theorem more_set_of_le {i k : ℕ} (le : k ≤ i) (e : Entry) :
    more (iov.set i e) k + more iov 0 = more iov k + more (iov.set i e) 0 := by
  have split : ∀ l : List Entry, more l 0 = (l.take k).countP (fun e => e.len ≠ 0) + more l k := by
    intro l
    rw [more, more, drop_zero, ← countP_append, take_append_drop]
  rw [split iov, split (iov.set i e), take_set_of_le le]
  omega

namespace State

variable {s t : State} {kind : Kind}

theorem kiovec_resolvedOne_of_ne (s : State) {i : ℕ} (apart : i ≠ j) (iovec : Kiovec) :
    (s.resolvedOne i iovec).kiovec j = s.kiovec j := by
  simp [kiovec, resolvedOne, getElem?_set_ne apart]

theorem kiovec_resolvedOne (s : State) (i : ℕ) (iovec : Kiovec) :
    (s.resolvedOne i iovec).kiovec i = iovec ∨
      (s.resolvedOne i iovec).kiovec i = ⟨0, none, 0, 0⟩ ∧ s.kiovec i = ⟨0, none, 0, 0⟩ := by
  by_cases below : i < s.iovecs.length
  · simp [kiovec, resolvedOne, below]
  · simp [kiovec, resolvedOne, not_lt.mp below]

/-! ## Phases -/

structure Pending (s : State) : Prop where
  calls : s.calls = []
  queue : s.queue = []
  failed : s.failed = false
  remaining : s.remaining = (s.waiting.length + s.left : ℕ)
  matching : ∀ i, s.reads i = true → Matches (s.entry i) (s.kiovec i)
  waits : ∀ w ∈ s.waiting, w.len = (s.entry w.index).len
  nested : ∀ i base len, s.place = .nested i base len → len = (s.entry i).len
  others : ∀ i, s.reads i = true ∨ (s.kiovec i).Covered

structure Closed (s : State) : Prop where
  calls : ∀ c ∈ s.calls, c.Covered
  queue : ∀ i ∈ s.queue, (s.kiovec i).Covered
  settled : s.failed = true ∨ s.waiting = [] ∧ s.left = 0

inductive Kept (s : State) : Prop
  | opening (phase : s.Opening)
      (matching : ∀ j < s.iovecs.length, Matches (s.entry j) (s.kiovec j))
  | pending (read : s.Read) (phase : s.Pending)
  | closed (read : s.Read) (phase : s.Closed)

theorem Kept.covered (kept : s.Kept) : ∀ c ∈ s.calls, c.Covered := by
  cases kept with
  | opening phase matching => simp [phase.idle.calls]
  | pending read phase => simp [phase.calls]
  | closed read phase => exact phase.calls

theorem Kept.read (kept : s.Kept) (late : s.Late) : s.Read := by
  cases kept with
  | opening phase matching => exact absurd late phase.early
  | pending read phase | closed read phase => exact read

/-! ## Callbacks -/

/-- What a callback finds that goes on to `place`: its own entry, and the others. -/
structure Turn (s : State) (i len : ℕ) (place : Place) : Prop where
  calls : s.calls = []
  queue : s.queue = []
  failed : s.failed = false
  remaining : s.remaining = (1 + s.waiting.length + State.left { s with place := place } : ℕ)
  own : Matches (s.entry i) (s.kiovec i)
  len : len = (s.entry i).len
  late : place ≠ .start ∧ ∀ j, place ≠ .creating j
  matching : ∀ j, State.reads { s with place := place } j = true →
    Matches (s.entry j) (s.kiovec j)
  waits : ∀ w ∈ s.waiting, w.len = (s.entry w.index).len
  nested : ∀ j base len, place = .nested j base len → len = (s.entry j).len
  others : ∀ j, j = i ∨ State.reads { s with place := place } j = true ∨ (s.kiovec j).Covered

variable {i len : ℕ} {place : Place} {iovec : Kiovec}

theorem Turn.covered_own (turn : s.Turn i len place) (fits : s.Fits i len iovec) :
    ((s.resolvedOne i iovec).kiovec i).Covered := by
  rcases kiovec_resolvedOne s i iovec with here | ⟨here, -⟩
  · rw [here]
    refine ⟨?_, fun b given => ?_⟩
    · rw [fits.length, fits.resolved, turn.len]
    · rw [fits.length]
      exact fits.room b given turn.len turn.own.size
  · rw [here]
    exact ⟨le_refl _, by simp⟩

theorem Turn.matching_own (turn : s.Turn i len place) (fits : s.Fits i len iovec) :
    Matches (s.entry i) ((s.resolvedOne i iovec).kiovec i) := by
  rcases kiovec_resolvedOne s i iovec with here | ⟨here, before⟩
  · rw [here]
    exact ⟨fits.size.trans turn.own.size, fits.length⟩
  · rw [here, ← before]
    exact turn.own

theorem Turn.none_left (turn : s.Turn i len place) (last : s.remaining = 1) :
    s.waiting = [] ∧ left { s with place := place } = 0 := by
  have remaining := turn.remaining
  constructor
  · exact length_eq_zero_iff.mp (by omega)
  · omega

theorem len_of_left (waiting : s.waiting = []) (late : s.Late) (left : s.left = 0)
    (reads : s.reads j = true) : (s.entry j).len = 0 := by
  simp only [State.reads, waiting, any_nil, Bool.false_or] at reads
  cases here : s.place with
  | start => exact absurd here late.1
  | creating k => exact absurd here (late.2 k)
  | resolving k =>
    rw [here] at reads
    simp only [State.left, here] at left
    exact len_of_more left (by simpa using reads)
  | nested k base len => simp [State.left, here] at left
  | done => simp [here] at reads

theorem Turn.covered (turn : s.Turn i len place) (fits : s.Fits i len iovec)
    (last : s.remaining = 1) (j : ℕ) : ((s.resolvedOne i iovec).kiovec j).Covered := by
  by_cases own : i = j
  · subst own
    exact turn.covered_own fits
  · rw [kiovec_resolvedOne_of_ne s own]
    obtain ⟨waiting, left⟩ := turn.none_left last
    rcases turn.others j with here | reads | covered
    · exact absurd here.symm own
    · have empty : (s.entry j).len = 0 :=
        len_of_left (s := { s with place := place }) waiting turn.late left reads
      exact (turn.matching j reads).covered empty
    · exact covered

variable {answers : List ℤ} {nestedAsync : Bool}

section

variable (turn : s.Turn i len place)

include turn

theorem Turn.faulted (remaining : ℤ) (place' : Place) :
    Closed { s with
      remaining := remaining, failed := true, place := place', answers := answers,
      nestedAsync := nestedAsync } :=
  ⟨by simp [turn.calls], by simp [turn.queue], .inl rfl⟩

theorem Turn.further (fits : s.Fits i len iovec) :
    Pending { s.resolvedOne i iovec with
      place := place, answers := answers, nestedAsync := nestedAsync } := by
  refine ⟨turn.calls, turn.queue, turn.failed, ?_, fun j reads => ?_, turn.waits, turn.nested,
    fun j => ?_⟩
  · have remaining := turn.remaining
    have left : left { s.resolvedOne i iovec with
        place := place, answers := answers, nestedAsync := nestedAsync } =
        left { s with place := place } := rfl
    rw [left]
    simp only [resolvedOne]
    omega
  · by_cases own : i = j
    · subst own
      exact turn.matching_own fits
    · have same := kiovec_resolvedOne_of_ne s own iovec
      have old := turn.matching j reads
      rw [← same] at old
      exact old
  · by_cases own : i = j
    · subst own
      exact .inr (turn.covered_own fits)
    · have same := kiovec_resolvedOne_of_ne s own iovec
      have old := (turn.others j).resolve_left (Ne.symm own)
      rw [← same] at old
      exact old

theorem Turn.reading (fits : s.Fits i len iovec) (last : s.remaining = 1) :
    Closed { (s.resolvedOne i iovec).enqueue with
      place := place, answers := answers, nestedAsync := nestedAsync } := by
  refine ⟨?_, fun j _ => turn.covered fits last j, .inr (turn.none_left last)⟩
  simp [enqueue, resolvedOne, turn.calls]

theorem Turn.written (fits : s.Fits i len iovec) (last : s.remaining = 1) {place' : Place}
    (ends : place' = place ∨ place' = .done) (counts : ℕ → ℤ) :
    Closed { (s.resolvedOne i iovec).writeAll counts with
      place := place', answers := answers, nestedAsync := nestedAsync } := by
  refine ⟨fun c mem => ?_, ?_, .inr ?_⟩
  · obtain ⟨j, -, rfl⟩ := mem_map.mp mem
    exact turn.covered fits last j
  · simp [writeAll, resolvedOne, turn.queue]
  · obtain ⟨waiting, left⟩ := turn.none_left last
    rcases ends with rfl | rfl
    · exact ⟨waiting, left⟩
    · exact ⟨waiting, rfl⟩

end

/-! ### The two places of a callback -/

variable {base : ℕ}

theorem Pending.turn_now (phase : s.Pending) (here : s.place = .nested i base len) :
    s.Turn i len (.resolving (i + 1)) := by
  have own : s.reads i = true := by simp [reads, here]
  have moves : ∀ j, s.reads j = true ↔
      j = i ∨ reads { s with place := .resolving (i + 1) } j = true := by
    intro j
    simp only [reads, here, or_eq_true, decide_eq_true_eq]
    constructor
    · rintro (waits | past)
      · exact .inr (.inl waits)
      · rcases Nat.eq_or_lt_of_le past with eq | lt
        · exact .inl eq.symm
        · exact .inr (.inr lt)
    · rintro (rfl | waits | past)
      · exact .inr (le_refl _)
      · exact .inl waits
      · exact .inr (by omega)
  refine ⟨phase.calls, phase.queue, phase.failed, ?_, phase.matching i own,
    phase.nested i base len here, late_resolving (i + 1),
    fun j reads => phase.matching j ((moves j).mpr (.inr reads)), phase.waits, by simp, fun j => ?_⟩
  · have remaining := phase.remaining
    simp only [left, here] at remaining ⊢
    omega
  · rcases phase.others j with reads | covered
    · exact ((moves j).mp reads).imp id .inl
    · exact .inr (.inr covered)

variable {w : Waiting} {k : ℕ}

theorem Pending.turn_complete (phase : s.Pending) (late : s.Late) (at_k : s.waiting[k]? = some w)
    (isAsync : Bool) :
    State.Turn { s with waiting := s.waiting.eraseIdx k, isAsync := isAsync } w.index w.len
      s.place := by
  have mem := List.mem_of_getElem? at_k
  have below := (List.getElem?_eq_some_iff.mp at_k).1
  refine ⟨phase.calls, phase.queue, phase.failed, ?_, phase.matching w.index (reads_of_waiting at_k),
    phase.waits w mem, late, fun j reads => phase.matching j ?_,
    fun v mem' => phase.waits v (mem_of_mem_eraseIdx mem'), phase.nested, fun j => ?_⟩
  · have remaining := phase.remaining
    have left : left { s with
        waiting := s.waiting.eraseIdx k, isAsync := isAsync, place := s.place } = s.left := rfl
    rw [left, length_eraseIdx_of_lt below]
    dsimp only
    omega
  · simp only [State.reads, or_eq_true] at reads ⊢
    refine reads.imp (fun waits => ?_) id
    obtain ⟨v, mem', index⟩ := any_eq_true.mp waits
    exact any_eq_true.mpr ⟨v, mem_of_mem_eraseIdx mem', index⟩
  · rcases phase.others j with reads | covered
    · simp only [State.reads, or_eq_true] at reads ⊢
      rcases reads with waits | place
      · obtain ⟨v, mem', index⟩ := any_eq_true.mp waits
        by_cases same : v = w
        · subst same
          exact .inl (beq_iff_eq.mp index).symm
        · refine .inr (.inl (.inl (any_eq_true.mpr ⟨v, ?_, index⟩)))
          obtain ⟨m, at_m⟩ := getElem?_of_mem mem'
          refine mem_eraseIdx_iff_getElem?.mpr ⟨m, ?_, at_m⟩
          rintro rfl
          exact same (some.inj (at_m.symm.trans at_k))
      · exact .inr (.inl (.inr place))
    · exact .inr (.inr covered)

theorem Pending.now (phase : s.Pending) (here : s.place = .nested i base len) (async : Bool)
    (page : Page) (counts : ℕ → ℤ) :
    State.Pending (next i (settle async (s.callback kind i base len page counts))) ∨
      State.Closed (next i (settle async (s.callback kind i base len page counts))) := by
  have turn := phase.turn_now here
  have spec : Outcome kind s i len page counts _ :=
    callback_outcome phase.failed i base len page counts
  generalize s.callback kind i base len page counts = r at spec ⊢
  cases spec with
  | fault remaining =>
    right
    cases async with
    | false => exact turn.faulted remaining .done
    | true => exact turn.faulted remaining (.resolving (i + 1))
  | more present fits others =>
    left
    cases async <;> exact turn.further fits
  | read readv fits last =>
    right
    cases async <;> exact turn.reading fits last
  | write writev fits last =>
    right
    cases async with
    | false => exact turn.written fits last (.inr rfl) counts
    | true => exact turn.written fits last (.inl rfl) counts

theorem Pending.complete (phase : s.Pending) (late : s.Late) (at_k : s.waiting[k]? = some w)
    {isAsync : Bool} {page : Page} {counts : ℕ → ℤ} {r : Ret × State}
    (called : callback kind { s with waiting := s.waiting.eraseIdx k, isAsync := isAsync }
      w.index w.base w.len page counts = r) :
    State.Pending (settle true r).2 ∨ State.Closed (settle true r).2 := by
  have turn := phase.turn_complete late at_k isAsync
  have spec : Outcome kind _ w.index w.len page counts _ :=
    callback_outcome turn.failed w.index w.base w.len page counts
  rw [called] at spec
  cases spec with
  | fault remaining => exact .inr (turn.faulted remaining s.place)
  | more present fits others => exact .inl (turn.further fits)
  | read readv fits last => exact .inr (turn.reading fits last)
  | write writev fits last => exact .inr (turn.written fits last (.inl rfl) counts)

variable {r : Ret × State}

theorem Closed.settle (phase : r.2.Closed) (async : Bool) :
    (settle async r).2.Closed := by
  unfold State.settle
  split_ifs
  · exact { phase with }
  · exact phase

theorem settle_failed (failed : r.2.failed = true) (async : Bool) :
    (settle async r).2.failed = true := by
  unfold settle
  split_ifs <;> exact failed

theorem Closed.next (phase : r.2.Closed) (failed : r.2.failed = true) (i : ℕ) :
    (next i r).Closed := by
  obtain ⟨ret, t⟩ := r
  cases ret <;> exact ⟨phase.calls, phase.queue, .inl failed⟩

theorem Closed.now (phase : s.Closed) (here : s.place = .nested i base len) (async : Bool)
    (page : Page) (counts : ℕ → ℤ) :
    State.Closed (State.next i (State.settle async (s.callback kind i base len page counts))) := by
  have failed : s.failed = true :=
    phase.settled.resolve_right fun none => by simp [left, here] at none
  have same : (s.callback kind i base len page counts).2 = s :=
    callback_failed failed i base len page counts
  have behind : (s.callback kind i base len page counts).2.Closed := by rwa [same]
  exact (behind.settle async).next (settle_failed (by rwa [same]) async) i

theorem Closed.complete (phase : s.Closed) (at_k : s.waiting[k]? = some w) (isAsync : Bool)
    (page : Page) (counts : ℕ → ℤ) :
    State.Closed (State.settle true (callback kind
      { s with waiting := s.waiting.eraseIdx k, isAsync := isAsync }
      w.index w.base w.len page counts)).2 := by
  have failed : s.failed = true :=
    phase.settled.resolve_right fun none => by simp [none.1] at at_k
  have same := @callback_failed
    { s with waiting := s.waiting.eraseIdx k, isAsync := isAsync } kind failed
  refine Closed.settle ?_ true
  rw [same]
  exact ⟨phase.calls, phase.queue, .inl failed⟩

/-! ## The loops -/

/-- The second loop moves on to `place` without a buffer. -/
structure Moves (s : State) (place : Place) : Prop where
  left : State.left { s with place := place } = s.left
  dropped : ∀ j, s.reads j = true →
    State.reads { s with place := place } j = true ∨ (s.entry j).len = 0
  fewer : ∀ j, State.reads { s with place := place } j = true → s.reads j = true
  nested : ∀ i base len, place = .nested i base len → len = (s.entry i).len

theorem moves_skip (here : s.place = .resolving i) (below : i < s.iov.length)
    (empty : (s.entry i).len = 0) : s.Moves (.resolving (i + 1)) := by
  refine ⟨?_, fun j reads => ?_, fun j reads => ?_, by simp⟩
  · have left := left_resolve here below
    rwa [if_pos empty] at left
  · simp only [State.reads, here, or_eq_true, decide_eq_true_eq] at reads ⊢
    by_cases own : i = j
    · subst own
      exact .inr empty
    · exact .inl (reads.imp id fun past => by omega)
  · simp only [State.reads, here, or_eq_true, decide_eq_true_eq] at reads ⊢
    exact reads.imp id fun past => by omega

theorem moves_nested (here : s.place = .resolving i) (below : i < s.iov.length)
    (nonempty : (s.entry i).len ≠ 0) :
    s.Moves (.nested i (s.entry i).base (s.entry i).len) := by
  refine ⟨?_, fun j reads => ?_, fun j reads => ?_, ?_⟩
  · have left := left_resolve here below
    rwa [if_neg nonempty] at left
  · simp only [State.reads, here] at reads ⊢
    exact .inl reads
  · simp only [State.reads, here] at reads ⊢
    exact reads
  · rintro j base len same
    obtain ⟨rfl, -, rfl⟩ := Place.nested.inj same
    rfl

theorem moves_done (here : s.place = .resolving i) (past : s.iov.length ≤ i) :
    s.Moves .done := by
  refine ⟨?_, fun j reads => ?_, fun j reads => ?_, by simp⟩
  · simp [left, here, more_of_le past]
  · simp only [State.reads, here, or_eq_true, decide_eq_true_eq] at reads ⊢
    exact reads.imp .inl fun le => len_of_more (more_of_le past) le
  · simp only [State.reads, Bool.or_false] at reads
    simp only [State.reads, reads, Bool.true_or]

theorem Pending.moved (phase : s.Pending) (moves : s.Moves place) :
    State.Pending { s with place := place, answers := answers } := by
  refine ⟨phase.calls, phase.queue, phase.failed, ?_,
    fun j reads => phase.matching j (moves.fewer j reads), phase.waits, moves.nested, fun j => ?_⟩
  · have left : left { s with place := place, answers := answers } = s.left := moves.left
    rw [left]
    exact phase.remaining
  · rcases phase.others j with reads | covered
    · exact (moves.dropped j reads).imp id fun empty => (phase.matching j reads).covered empty
    · exact .inr covered

theorem Closed.moved (phase : s.Closed) (moves : s.Moves place) :
    State.Closed { s with place := place, answers := answers } :=
  ⟨phase.calls, phase.queue, phase.settled.imp id fun none => ⟨none.1, moves.left.trans none.2⟩⟩

theorem Pending.late (phase : s.Pending) (here : s.place = .nested i base len) :
    State.Pending { s with
      waiting := s.waiting ++ [⟨i, base, len⟩], nestedAsync := true
      place := .resolving (i + 1) } := by
  have same : ∀ j, reads { s with
      waiting := s.waiting ++ [⟨i, base, len⟩], nestedAsync := true
      place := .resolving (i + 1) } j = s.reads j := by
    intro j
    simp only [reads, here, any_append, any_cons, any_nil, Bool.or_false]
    rw [Bool.or_assoc, Bool.eq_iff_iff]
    simp only [or_eq_true, beq_iff_eq, decide_eq_true_eq]
    refine or_congr Iff.rfl ?_
    omega
  refine ⟨phase.calls, phase.queue, phase.failed, ?_, fun j reads => ?_, fun w mem => ?_, by simp,
    fun j => ?_⟩
  · have remaining := phase.remaining
    simp only [left, here, length_append, length_singleton] at remaining ⊢
    omega
  · rw [same] at reads
    exact phase.matching j reads
  · rcases mem_append.mp mem with old | new
    · exact phase.waits w old
    · obtain rfl := mem_singleton.mp new
      exact phase.nested i base len here
  · rw [same]
    exact phase.others j

section

variable (phase : s.Opening)
  (matching : ∀ j < s.iovecs.length, Matches (s.entry j) (s.kiovec j)) (here : s.place = .creating i)
include phase matching here

theorem pending_of_opening (past : ¬i < s.iov.length) :
    State.Read { s with place := .resolving 0 } ∧ State.Pending { s with place := .resolving 0 } := by
  obtain ⟨j, place, le, length, lens, remaining⟩ := phase.loop
  obtain rfl : i = j := by simpa [here] using place
  have all : i = s.iov.length := by omega
  rw [all, more_of_le (le_refl _), Nat.sub_self] at remaining
  have reads : ∀ j, reads { s with place := .resolving 0 } j = true := by
    simp [reads]
  refine ⟨⟨late_resolving 0, fun j below _ => by dsimp only at below ⊢; omega⟩, phase.idle.calls,
    phase.idle.queue, phase.failed, ?_, fun j _ => ?_, by simp [phase.waiting], by simp,
    fun j => .inl (reads j)⟩
  · simp only [left, phase.waiting, length_nil]
    omega
  · by_cases below : j < s.iovecs.length
    · exact matching j below
    · have entry : s.entry j = ⟨0, 0⟩ := by
        simp [entry, getElem?_eq_none (show s.iov.length ≤ j by omega)]
      have kiovec : s.kiovec j = ⟨0, none, 0, 0⟩ := by
        simp [kiovec, getElem?_eq_none (not_lt.mp below)]
      refine show Matches (s.entry j) (s.kiovec j) from ?_
      rw [entry, kiovec]
      exact ⟨by decide, rfl⟩

theorem matching_create :
    ∀ j < (s.iovecs ++ [(⟨offset (s.entry i).base + (s.entry i).len, none, 0, (s.entry i).len⟩ :
        Kiovec)]).length,
      Matches (s.entry j) ((s.iovecs ++
        [(⟨offset (s.entry i).base + (s.entry i).len, none, 0, (s.entry i).len⟩ : Kiovec)]).getD j
          ⟨0, none, 0, 0⟩) := by
  obtain ⟨k, place, -, length, -⟩ := phase.loop
  obtain rfl : i = k := by simpa [here] using place
  intro j below
  rw [length_append, length_singleton] at below
  rw [getD_eq_getElem?_getD]
  by_cases last : j = i
  · subst last
    rw [getElem?_append_right (by omega), length]
    simp only [Nat.sub_self, getElem?_cons_zero, getD_some]
    exact ⟨rfl, rfl⟩
  · rw [getElem?_append_left (by omega), ← getD_eq_getElem?_getD]
    exact matching j (by omega)

end

/-! ## Stores -/

/-- In the first loop a settled store is to an entry that was not read yet. -/
theorem kept_store_of_opening (phase : s.Opening)
    (matching : ∀ j < s.iovecs.length, Matches (s.entry j) (s.kiovec j))
    (settled : s.Settled (.store i e)) : State.Kept { s with iov := s.iov.set i e } := by
  obtain ⟨k, place, le, length, lens, remaining⟩ := phase.loop
  have reads : s.reads i = true := by
    rcases place with ⟨start, -⟩ | creating
    · simp [reads, start]
    · simp [reads, creating]
  have later : k ≤ i := by
    by_contra before
    exact absurd ((settled (by omega)).symm.trans reads) (by decide)
  have entry : ∀ j < k, entry { s with iov := s.iov.set i e } j = s.entry j := by
    intro j before
    simp [entry, getElem?_set_ne (show i ≠ j by omega)]
  refine .opening ⟨{ phase.idle with },
    phase.failed, phase.answers, phase.waiting, k, place, ?_, length, fun j before => ?_, ?_⟩
    fun j before => ?_
  · simpa using le
  · rw [entry j before]
    exact lens j before
  · have count := @more_set_of_le s.iov i k later e
    simp only [length_set]
    omega
  · rw [entry j (by simpa [length] using before)]
    exact matching j before

/-! ## The transfer -/

theorem Closed.filter (phase : s.Closed) (len : ℕ) (result : ℤ) : (s.filter len result).Closed := by
  unfold State.filter
  split_ifs with nonneg short zero
  · exact ⟨phase.calls, by simp, phase.settled⟩
  · exact { phase with }
  · exact ⟨phase.calls, by simp, .inl rfl⟩
  · exact ⟨phase.calls, by simp, phase.settled⟩

theorem Closed.process (phase : s.Closed) {response : Option ℤ}
    (taken : s.process response = some t) : t.Closed := by
  have handed {i : ℕ} {rest : List ℕ} (queue : s.queue = i :: rest) : State.Closed { s with
      queue := rest, calls := s.calls ++ [s.handed i response], worker := .checking } := by
    refine ⟨fun c mem => ?_, fun j mem => phase.queue j (by simp [queue, mem]), phase.settled⟩
    rcases mem_append.mp mem with old | new
    · exact phase.calls c old
    · obtain rfl := mem_singleton.mp new
      exact phase.queue i (by simp [queue])
  revert taken
  fun_cases State.process s response with intro taken
  | case4 => cases taken
  | case1 queue =>
    cases taken
    exact { phase with }
  | case2 i rest queue =>
    obtain rfl := Option.some.inj taken
    exact handed queue
  | case3 i rest queue =>
    obtain rfl := Option.some.inj taken
    exact (handed queue).filter _ _

theorem Closed.check (phase : s.Closed) : s.check.Closed := by
  unfold State.check
  split_ifs <;> exact { phase with }

theorem Closed.reply (phase : s.Closed) {c : Call} (at_j : s.calls[j]? = some c) (result : ℤ) :
    State.Closed { s with calls := s.calls.set j { c with result := some result } } := by
  refine ⟨fun d mem => ?_, phase.queue, phase.settled⟩
  rcases mem_or_eq_of_mem_set mem with old | rfl
  · exact phase.calls d old
  · exact phase.calls c (List.mem_of_getElem? at_j)

/-! ## Steps and runs -/

theorem kept_answered (phase : s.Opening) (a : ℤ) : Kept { s.answer a with place := .done } := by
  refine .closed ⟨late_done, fun j _ reads => ?_⟩
    ⟨by simp [answer, phase.idle.calls], by simp [answer, phase.idle.queue],
      .inr ⟨phase.waiting, rfl⟩⟩
  simp [State.reads, answer, phase.waiting] at reads

variable {a : Action}

theorem Pending.step (phase : s.Pending) (late : s.Late) (other : ∀ i e, a ≠ .store i e)
    (taken : s.exec kind a = some t) : t.Pending ∨ t.Closed := by
  cases does_of_exec taken with
  | enter here | refuse here => exact absurd here late.1
  | create here below | empty here past none | created here past some =>
    exact absurd here (late.2 _)
  | skip here below empty => exact .inl (phase.moved (moves_skip here below empty))
  | take here below nonempty => exact .inl (phase.moved (moves_nested here below nonempty))
  | finish here past quiet => exact .inl (phase.moved (moves_done here (not_lt.mp past)))
  | late here => exact .inl (phase.late here)
  | now here => exact phase.now here s.isAsync _ _
  | complete at_k => exact phase.complete late at_k rfl
  | process queued processed =>
    rw [process, phase.queue] at processed
    cases processed
    exact .inl { phase with queue := rfl }
  | check checking =>
    rw [check, if_pos phase.queue, if_neg (by simp [phase.failed])]
    exact .inl { phase with }
  | reply at_j pending le => simp [phase.calls] at at_j
  | store => exact absurd rfl (other _ _)

theorem Closed.step (phase : s.Closed) (late : s.Late) (other : ∀ i e, a ≠ .store i e)
    (taken : s.exec kind a = some t) : t.Closed := by
  cases does_of_exec taken with
  | enter here | refuse here => exact absurd here late.1
  | create here below | empty here past none | created here past some =>
    exact absurd here (late.2 _)
  | skip here below empty => exact phase.moved (moves_skip here below empty)
  | take here below nonempty => exact phase.moved (moves_nested here below nonempty)
  | finish here past quiet => exact phase.moved (moves_done here (not_lt.mp past))
  | late here =>
    have failed : s.failed = true :=
      phase.settled.resolve_right fun none => by simp [left, here] at none
    exact ⟨phase.calls, phase.queue, .inl failed⟩
  | now here => exact phase.now here s.isAsync _ _
  | complete at_k => exact phase.complete at_k _ _ _
  | process queued processed => exact phase.process processed
  | check checking => exact phase.check
  | @reply j result c at_j pending le => exact (phase.reply at_j result).filter c.len result
  | store => exact absurd rfl (other _ _)

theorem kept_step_of_opening (phase : s.Opening)
    (matching : ∀ j < s.iovecs.length, Matches (s.entry j) (s.kiovec j)) (settled : s.Settled a)
    (taken : s.exec kind a = some t) : t.Kept := by
  have worker := phase.idle.worker
  cases does_of_exec taken with
  | enter here => exact .opening (phase.enter here _) matching
  | refuse here => exact kept_answered phase eFault
  | create here below =>
    exact .opening (phase.create here below) (matching_create phase matching here)
  | empty here past none => exact kept_answered phase 0
  | created here past some =>
    obtain ⟨read, pending⟩ := pending_of_opening phase matching here past
    exact .pending read pending
  | complete at_k => simp [phase.waiting] at at_k
  | process queued processed => simp [worker] at queued
  | check checking => simp [worker] at checking
  | reply at_j pending le => simp [phase.idle.calls] at at_j
  | store => exact kept_store_of_opening phase matching settled
  | _ here => exact absurd (by simp [State.Late, here]) phase.early

theorem Kept.step (kept : s.Kept) (settled : s.Settled a) (keeps : s.Late → ∀ i e, a ≠ .store i e)
    (taken : s.exec kind a = some t) : t.Kept := by
  cases kept with
  | opening phase matching => exact kept_step_of_opening phase matching settled taken
  | pending read phase =>
    have other := keeps read.late
    rcases phase.step read.late other taken with pending | closed
    · exact .pending (read.step other taken) pending
    · exact .closed (read.step other taken) closed
  | closed read phase =>
    have other := keeps read.late
    exact .closed (read.step other taken) (phase.step read.late other taken)

/-- A run that has left the first loop, from the state in which it did. -/
theorem Kept.exists_late {as : List Action} (kept : s.Kept)
    (run : RunWhen Settled (exec kind) s as t) (late : t.Late) :
    ∃ u bs, u.Kept ∧ u.Read ∧ RunWhen Settled (exec kind) u bs t := by
  induction run with
  | nil s => exact ⟨s, [], kept, kept.read late, .nil s⟩
  | @cons s _ _ a as settled taken rest ih =>
    by_cases left : s.Late
    · exact ⟨s, a :: as, kept, kept.read left, .cons settled taken rest⟩
    · exact ih (kept.step settled (absurd · left) taken) late

/-- Behind the first loop the stores of a run do not change its calls. -/
theorem Kept.covered_run {as : List Action} (kept : s.Kept) (read : s.Read)
    (run : RunWhen Settled (exec kind) s as t) : ∀ c ∈ t.calls, c.Covered := by
  obtain ⟨v, others, agrees⟩ := Agrees.run run read (.refl s)
  have ends : v.Kept := others.invariant (fun s a t kept other taken =>
    kept.step (a := a) (by cases a <;> first | trivial | exact absurd rfl (other _ _))
      (fun _ => other) taken) kept
  rw [← agrees.calls]
  exact ends.covered

theorem Read.run {as : List Action} (read : s.Read) (run : RunWhen Settled (exec kind) s as t) :
    t.Read := by
  refine run.invariant (fun s a t read _ taken => ?_) read
  by_cases other : ∀ i e, a ≠ .store i e
  · exact read.step other taken
  · push Not at other
    obtain ⟨i, e, rfl⟩ := other
    cases taken
    exact read.store i e

theorem kept_start (kind : Kind) (iov : List Entry) (stale : Bool) :
    (start kind iov stale).Kept := by
  refine .opening ⟨⟨rfl, rfl, rfl, rfl⟩, rfl, rfl, rfl, 0, .inl ⟨rfl, rfl⟩, Nat.zero_le _, rfl,
    by simp, by simp [start]⟩ ?_
  simp [start]

instance (s : State) (a : Action) : Decidable (s.Settled a) :=
  match a with
  | .store .. | .array .. | .create | .resolve | .late | .now .. | .complete .. | .process .. | .check
  | .reply .. => by dsimp only [Settled]; infer_instance

end State

end JeoKernel.Vectored

import JeoKernel.Exec.VectoredRuns

/-!
# Stores to the `iovec` array

Another thread of the process may store to the array while the call runs.  A store to an entry that
the call has read and will not read again changes nothing (`Settled`): two runs that differ only in
such stores go through the same states but for the array.
-/

namespace JeoKernel.Vectored

open List Option Machine State Bool

namespace State

/-! ## Entries that are read again -/

/-- The second loop or a callback is still to read the entry. -/
def reads (s : State) (i : ℕ) : Bool :=
  s.waiting.any (fun w => w.index == i) ||
    match s.place with
    | .resolving j | .nested j _ _ => decide (j ≤ i)
    | .done => false
    | _ => true

/-- A store goes to an entry that was not read yet, or that is not read again. -/
def Settled (s : State) : Action → Prop
  | .store i _ => i < s.iovecs.length → s.reads i = false
  | _ => True

/-! ## The steps do not depend on the other entries -/

def withIov (s : State) (iov : List Entry) : State := { s with iov := iov }

/-- The arrays have the same entries where they are still read. -/
structure Same (s : State) (iov : List Entry) : Prop where
  length : iov.length = s.iov.length
  entry : ∀ i, s.reads i = true → (s.withIov iov).entry i = s.entry i

def both (iov : List Entry) (r : Ret × State) : Ret × State := (r.1, r.2.withIov iov)

variable {s t : State} {iov : List Entry} {kind : Kind}

theorem both_ite (c : Prop) [Decidable c] (a b : Ret × State) :
    both iov (if c then a else b) = if c then both iov a else both iov b :=
  apply_ite ..

theorem withIov_ite (c : Prop) [Decidable c] (a b : State) :
    withIov (if c then a else b) iov = if c then withIov a iov else withIov b iov :=
  apply_ite (withIov · iov) ..

variable {i : ℕ}

section

variable (length : iov.length = s.iov.length) (entry : (s.withIov iov).entry i = s.entry i)

include length entry

theorem withIov_onRead (base len : ℕ) (page : Page) :
    (s.withIov iov).onRead i base len page = both iov (s.onRead i base len page) := by
  have iovec : (s.withIov iov).readIovec i base len = s.readIovec i base len := by
    simp only [readIovec, entry]
    rfl
  cases page with
  | present =>
    simp only [onRead, iovec, both_ite]
    simp only [enqueue, withIov, resolvedOne, length]
    rfl
  | _ => rfl

theorem withIov_onWrite (len : ℕ) (counts : ℕ → ℤ) (page : Page) :
    (s.withIov iov).onWrite i len counts page = both iov (s.onWrite i len counts page) := by
  have iovec : (s.withIov iov).writeIovec i len = s.writeIovec i len := by
    simp only [writeIovec, entry]
    rfl
  cases page <;> simp only [onWrite, iovec, both_ite]
  · simp only [writeAll, withIov, resolvedOne, length]
    rfl
  · rfl
  · rfl

theorem withIov_callback (base len : ℕ) (page : Page) (counts : ℕ → ℤ) :
    (s.withIov iov).callback kind i base len page counts =
      both iov (s.callback kind i base len page counts) := by
  cases kind with
  | readv => exact withIov_onRead length entry base len page
  | writev => exact withIov_onWrite length entry len counts page

end

theorem settle_both (async : Bool) (r : Ret × State) :
    settle async (both iov r) = both iov (settle async r) := by
  simp only [settle, both_ite]
  rfl

theorem next_both (i : ℕ) (r : Ret × State) : next i (both iov r) = (next i r).withIov iov := by
  obtain ⟨ret, s⟩ := r
  cases ret <;> rfl

theorem withIov_filter (len : ℕ) (result : ℤ) :
    (s.withIov iov).filter len result = (s.filter len result).withIov iov := by
  simp only [filter, withIov_ite]
  rfl

theorem withIov_check : (s.withIov iov).check = s.check.withIov iov := by
  simp only [check, withIov_ite]
  rfl

theorem withIov_process (response : Option ℤ) :
    (s.withIov iov).process response = (s.process response).map (·.withIov iov) := by
  have queue : (s.withIov iov).queue = s.queue := rfl
  unfold process
  rw [queue]
  cases s.queue with
  | nil => rfl
  | cons i rest =>
    cases response with
    | none => rfl
    | some result =>
      simp only [apply_ite (Option.map (withIov · iov)), map_some, ← withIov_filter]
      rfl

theorem reads_of_waiting {k : ℕ} {w : Waiting} (at_k : s.waiting[k]? = some w) :
    s.reads w.index = true := by
  have mem := List.mem_of_getElem? at_k
  simp only [reads, or_eq_true, List.any_eq_true]
  exact .inl ⟨w, mem, by simp⟩

variable {a : Action}

theorem withIov_exec (same : s.Same iov) (late : s.Late) (other : ∀ i e, a ≠ .store i e) :
    (s.withIov iov).exec kind a = (s.exec kind a).map (·.withIov iov) := by
  have place : (s.withIov iov).place = s.place := rfl
  cases a with
  | array success late' =>
    simp only [exec, place, if_neg late.1, map_none]
  | create =>
    simp only [exec, place]
    cases here : s.place with
    | creating i => exact absurd here (late.2 i)
    | _ => rfl
  | resolve =>
    simp only [exec, place]
    cases here : s.place with
    | resolving i =>
      have entry := same.entry i (by simp [reads, here])
      have length : (s.withIov iov).iov.length = s.iov.length := same.length
      have async : (s.withIov iov).nestedAsync = s.nestedAsync := rfl
      simp only [entry, length, async, apply_ite (Option.map (withIov · iov))]
      rfl
    | _ => rfl
  | late =>
    simp only [exec, place]
    cases s.place <;> rfl
  | now page counts =>
    simp only [exec, place]
    cases here : s.place with
    | nested i base len =>
      have entry := same.entry i (by simp [reads, here])
      dsimp only
      rw [withIov_callback same.length entry, show (s.withIov iov).isAsync = s.isAsync from rfl,
        settle_both, next_both, map_some]
    | _ => rfl
  | complete k page counts =>
    have waiting : (s.withIov iov).waiting = s.waiting := rfl
    simp only [exec, waiting]
    cases at_k : s.waiting[k]? with
    | none => rfl
    | some w =>
      have entry := same.entry w.index (reads_of_waiting at_k)
      have callback : callback kind
          { s.withIov iov with
            waiting := s.waiting.eraseIdx k
            isAsync := (s.withIov iov).isAsync || decide (kind = .readv) }
          w.index w.base w.len page counts = both iov (callback kind { s with
              waiting := s.waiting.eraseIdx k
              isAsync := s.isAsync || decide (kind = .readv) } w.index w.base w.len page counts) :=
        withIov_callback
          (s := { s with
            waiting := s.waiting.eraseIdx k
            isAsync := s.isAsync || decide (kind = .readv) })
          same.length entry _ _ _ _
      dsimp only
      rw [callback, settle_both, map_some]
      rfl
  | process response =>
    simp only [exec, withIov_process, apply_ite (Option.map (withIov · iov))]
    rfl
  | check =>
    simp only [exec, withIov_check, apply_ite (Option.map (withIov · iov))]
    rfl
  | reply j result =>
    have calls : (s.withIov iov).calls = s.calls := rfl
    simp only [exec, calls]
    cases s.calls[j]? with
    | none => rfl
    | some c =>
      simp only [apply_ite (Option.map (withIov · iov)), map_some, ← withIov_filter]
      rfl
  | store i e => exact absurd rfl (other i e)

/-! ## What a step leaves -/

/-- A callback leaves the loops and the array. -/
structure Frame (s t : State) : Prop where
  iov : t.iov = s.iov
  place : t.place = s.place
  waiting : t.waiting = s.waiting
  length : t.iovecs.length = s.iovecs.length

theorem callback_failed (failed : s.failed = true) (i base len : ℕ) (page : Page)
    (counts : ℕ → ℤ) : (s.callback kind i base len page counts).2 = s := by
  have same : { s with failed := true } = s := by rw [← failed]
  cases kind with
  | readv =>
    cases page with
    | present => simp [callback, onRead, failed]
    | invalid | gone => exact same
  | writev => simp [callback, onWrite, failed]

theorem frame_callback (i base len : ℕ) (page : Page) (counts : ℕ → ℤ) :
    s.Frame (s.callback kind i base len page counts).2 := by
  cases failed : s.failed with
  | true =>
    rw [callback_failed failed]
    exact ⟨rfl, rfl, rfl, rfl⟩
  | false =>
    have spec : Outcome kind s i len page counts _ := callback_outcome failed i base len page counts
    generalize s.callback kind i base len page counts = r at spec ⊢
    cases spec with
    | fault => exact ⟨rfl, rfl, rfl, rfl⟩
    | more | read | write => exact ⟨rfl, rfl, rfl, length_set ..⟩

variable {r : Ret × State}

theorem Frame.settle (frame : s.Frame r.2) (async : Bool) : s.Frame (settle async r).2 := by
  unfold State.settle
  split_ifs
  · exact { frame with }
  · exact frame

/-- What a step of the call does to the loops, once the first one is over. -/
structure Advance (s t : State) : Prop where
  iov : t.iov = s.iov
  late : t.Late
  reads : ∀ i, t.reads i = true → s.reads i = true
  length : t.iovecs.length = s.iovecs.length

theorem Advance.of_same (late : s.Late) (iov : t.iov = s.iov) (place : t.place = s.place)
    (waiting : t.waiting = s.waiting) (length : t.iovecs.length = s.iovecs.length) :
    s.Advance t := by
  refine ⟨iov, ?_, fun i reads => ?_, length⟩
  · rwa [State.Late, place]
  · rwa [State.reads, waiting, place] at reads

theorem Advance.next {base len : ℕ} (here : s.place = .nested i base len) (frame : s.Frame r.2) :
    s.Advance (next i r) := by
  obtain ⟨ret, t⟩ := r
  have waiting : t.waiting = s.waiting := frame.waiting
  cases ret with
  | value result =>
    refine ⟨frame.iov, late_done, fun j reads => ?_, frame.length⟩
    simp only [State.next, State.reads, answer, Bool.or_false] at reads
    rw [waiting] at reads
    simp only [State.reads, reads, Bool.true_or]
  | async | none =>
    refine ⟨frame.iov, late_resolving (i + 1), fun j reads => ?_, frame.length⟩
    simp only [State.next, State.reads, or_eq_true, decide_eq_true_eq] at reads
    rw [waiting] at reads
    simp only [State.reads, here, or_eq_true, decide_eq_true_eq]
    exact reads.imp id fun past => by omega

theorem filter_frame (len : ℕ) (result : ℤ) : s.Frame (s.filter len result) := by
  unfold filter
  split_ifs <;> exact ⟨rfl, rfl, rfl, rfl⟩

theorem process_frame {response : Option ℤ} (processed : s.process response = some t) :
    s.Frame t := by
  revert processed
  fun_cases process s response with intro processed
  | case4 => cases processed
  | _ =>
    obtain rfl := Option.some.inj processed
    first | exact ⟨rfl, rfl, rfl, rfl⟩ | exact { filter_frame _ _ with }

theorem check_frame : s.Frame s.check := by
  unfold check
  split_ifs <;> exact ⟨rfl, rfl, rfl, rfl⟩

theorem Advance.of_frame (late : s.Late) (frame : s.Frame t) : s.Advance t :=
  .of_same late frame.iov frame.place frame.waiting frame.length

theorem advance_of_exec (late : s.Late) (other : ∀ i e, a ≠ .store i e)
    (taken : s.exec kind a = some t) : s.Advance t := by
  cases does_of_exec taken with
  | enter here | refuse here => exact absurd here late.1
  | create here below | empty here past none | created here past some =>
    exact absurd here (late.2 _)
  | @skip i here below empty =>
    refine ⟨rfl, late_resolving (i + 1), fun j reads => ?_, rfl⟩
    simp only [State.reads, here, or_eq_true, decide_eq_true_eq] at reads ⊢
    exact reads.imp id fun past => by omega
  | take here below nonempty =>
    refine ⟨rfl, by simp [State.Late], fun j reads => ?_, rfl⟩
    simpa only [State.reads, here] using reads
  | finish here past quiet =>
    refine ⟨rfl, late_done, fun j reads => ?_, rfl⟩
    simp only [State.reads, Bool.or_false] at reads
    simp only [State.reads, reads, Bool.true_or]
  | @late i base len here =>
    refine ⟨rfl, late_resolving (i + 1), fun j reads => ?_, rfl⟩
    simp only [State.reads, any_append, any_cons, any_nil, Bool.or_false,
      or_eq_true, decide_eq_true_eq, beq_iff_eq] at reads
    simp only [State.reads, here, or_eq_true, decide_eq_true_eq]
    rcases reads with (old | new) | past
    · exact .inl old
    · exact .inr (by omega)
    · exact .inr (by omega)
  | now here => exact .next here ((frame_callback _ _ _ _ _).settle s.isAsync)
  | @complete k w page counts at_k =>
    have frame := (@frame_callback { s with
        waiting := s.waiting.eraseIdx k
        isAsync := s.isAsync || decide (kind = .readv) }
      kind w.index w.base w.len page counts).settle true
    refine ⟨frame.iov, ?_, fun j reads => ?_, frame.length⟩
    · rw [State.Late, frame.place]
      exact late
    · simp only [State.reads, frame.waiting, frame.place, or_eq_true] at reads
      simp only [State.reads, or_eq_true]
      refine reads.imp (fun waits => ?_) id
      obtain ⟨v, mem, index⟩ := List.any_eq_true.mp waits
      exact List.any_eq_true.mpr ⟨v, mem_of_mem_eraseIdx mem, index⟩
  | process queued processed => exact .of_frame late (process_frame processed)
  | check checking => exact .of_frame late check_frame
  | reply at_j pending le => exact .of_frame late { filter_frame _ _ with }
  | store => exact absurd rfl (other _ _)

/-! ## Two runs -/

/-- The states are equal but for entries of the array that are not read again. -/
structure Agrees (s u : State) : Prop where
  eq : u = s.withIov u.iov
  same : s.Same u.iov

/-- The first loop is over, and has read what is read again. -/
structure Read (s : State) : Prop where
  late : s.Late
  seen : ∀ i < s.iov.length, s.reads i = true → i < s.iovecs.length

def Action.other : Action → Bool
  | .store _ _ => false
  | _ => true

theorem Agrees.refl (s : State) : s.Agrees s := ⟨rfl, rfl, fun _ _ => rfl⟩

theorem Read.step (read : s.Read) (other : ∀ i e, a ≠ .store i e) (taken : s.exec kind a = some t) :
    t.Read := by
  have advance := advance_of_exec read.late other taken
  refine ⟨advance.late, fun i below reads => ?_⟩
  rw [advance.iov] at below
  rw [advance.length]
  exact read.seen i below (advance.reads i reads)

theorem Read.entry_store (read : s.Read) {e : Entry} (settled : s.Settled (.store i e)) {j : ℕ}
    (reads : s.reads j = true) :
    State.entry { s with iov := s.iov.set i e } j = s.entry j := by
  by_cases below : i < s.iov.length
  · have apart : i ≠ j := by
      rintro rfl
      have none := settled (read.seen i below reads)
      exact absurd (none.symm.trans reads) (by decide)
    simp [entry, getElem?_set_ne apart]
  · rw [set_eq_of_length_le (by omega)]

theorem Read.store (read : s.Read) (i : ℕ) (e : Entry) :
    State.Read { s with iov := s.iov.set i e } :=
  ⟨read.late, fun j below reads => read.seen j (by simpa using below) reads⟩

variable {u : State}

theorem Agrees.step (agrees : s.Agrees u) (read : s.Read) (other : ∀ i e, a ≠ .store i e)
    (taken : s.exec kind a = some t) :
    u.exec kind a = some (t.withIov u.iov) ∧ t.Agrees (t.withIov u.iov) := by
  have advance := advance_of_exec read.late other taken
  refine ⟨?_, rfl, ?_, fun i reads => ?_⟩
  · rw [agrees.eq, withIov_exec agrees.same read.late other, taken]
    rfl
  · rw [advance.iov]
    exact agrees.same.length
  · have entry := agrees.same.entry i (advance.reads i reads)
    simp only [State.entry, withIov, advance.iov] at entry ⊢
    exact entry

theorem Agrees.store (agrees : s.Agrees u) (read : s.Read) {e : Entry}
    (settled : s.Settled (.store i e)) :
    State.Agrees { s with iov := s.iov.set i e } u := by
  refine ⟨agrees.eq, ?_, fun j reads => ?_⟩
  · simpa using agrees.same.length
  · have entry := agrees.same.entry j reads
    rw [read.entry_store settled reads, ← entry]
    rfl

theorem Agrees.run {as : List Action} (run : RunWhen Settled (exec kind) s as t) (read : s.Read)
    (agrees : s.Agrees u) :
    ∃ v, RunWhen (fun _ a => ∀ i e, a ≠ .store i e) (exec kind) u (as.filter Action.other) v ∧
      t.Agrees v := by
  induction run generalizing u with
  | nil s => exact ⟨u, .nil u, agrees⟩
  | @cons s t' t a as settled taken rest ih =>
    by_cases other : ∃ i e, a = .store i e
    · obtain ⟨i, e, rfl⟩ := other
      cases taken
      exact ih (read.store i e) (agrees.store read settled)
    · have other : ∀ i e, a ≠ .store i e := fun i e is => other ⟨i, e, is⟩
      obtain ⟨taken', agrees'⟩ := agrees.step read other taken
      obtain ⟨v, rest', last⟩ := ih (read.step other taken) agrees'
      refine ⟨v, ?_, last⟩
      have keeps : Action.other a = true := by
        cases a <;> first | rfl | exact absurd rfl (other _ _)
      rw [filter_cons_of_pos keeps]
      exact .cons other taken' rest'

theorem Agrees.calls (agrees : t.Agrees u) : u.calls = t.calls := by
  rw [agrees.eq]
  rfl

/-- Two runs that differ in stores to settled entries end in states that differ in the array only. -/
theorem calls_eq_of_settled (read : s.Read) {as as' : List Action} {t' : State}
    (run : RunWhen Settled (exec kind) s as t) (run' : RunWhen Settled (exec kind) s as' t')
    (same : as.filter Action.other = as'.filter Action.other) : t.calls = t'.calls := by
  obtain ⟨v, rest, agrees⟩ := Agrees.run run read (.refl s)
  obtain ⟨v', rest', agrees'⟩ := Agrees.run run' read (.refl s)
  rw [same] at rest
  obtain rfl := rest.unique rest'
  rw [← agrees.calls, agrees'.calls]

end State

end JeoKernel.Vectored

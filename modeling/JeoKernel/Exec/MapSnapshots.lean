import Mathlib.Algebra.Order.Ring.Nat
import Mathlib.Data.Finset.Max
import JeoKernel.Lib.Machine

/-!
# Snapshots of the memory map

Pages that `ClearRange` takes out of the map may still be in use by threads that run with an older map.
Each such thread holds a `MemoryMapSnapshotBarrier`.  `ClearRange` hangs the list of its pages on the
newest snapshot; a barrier that is released hands its lists to the next older snapshot, and the oldest
one drops them.
-/

namespace JeoKernel.MapSnapshots

open List Machine

/-! ## The code -/

/-- `MemoryMapSnapshot`; a release list is given by its number. -/
structure Snapshot where
  serial : ℕ
  deferredRelease : List ℕ
  deriving DecidableEq

structure State where
  memoryMapSnapshots : List Snapshot
  memoryMapSerial : ℕ
  /-- The serials of the barriers that are `valid`. -/
  valid : List ℕ
  /-- The number of release lists so far. -/
  lists : ℕ

inductive Action where
  /-- A barrier is made. -/
  | create
  | clearRange
  | release (serial : ℕ)

/-- `ClearRange` adds its list to the last snapshot. -/
def deferLast (release : ℕ) : List Snapshot → List Snapshot
  | [] => []
  | [last] => [{ last with deferredRelease := last.deferredRelease ++ [release] }]
  | first :: second :: rest => first :: deferLast release (second :: rest)

def releaseAfter (serial : ℕ) (previous : Snapshot) : List Snapshot → List Snapshot
  | [] => [previous]
  | snapshot :: rest =>
    if snapshot.serial = serial then
      { previous with
        deferredRelease := previous.deferredRelease ++ snapshot.deferredRelease } :: rest
    else previous :: releaseAfter serial snapshot rest

def release (serial : ℕ) : List Snapshot → List Snapshot
  | [] => []
  | first :: rest => if first.serial = serial then rest else releaseAfter serial first rest

namespace State

def start : State := ⟨[], 0, [], 0⟩

def exec (s : State) : Action → Option State
  | .create =>
    some { s with
      memoryMapSerial := s.memoryMapSerial + 1
      memoryMapSnapshots := s.memoryMapSnapshots ++ [⟨s.memoryMapSerial + 1, []⟩]
      valid := s.valid ++ [s.memoryMapSerial + 1] }
  | .clearRange =>
    some { s with
      memoryMapSnapshots := deferLast s.lists s.memoryMapSnapshots
      lists := s.lists + 1 }
  | .release serial =>
    if serial ∈ s.valid then
      some { s with
        memoryMapSnapshots := MapSnapshots.release serial s.memoryMapSnapshots
        valid := s.valid.erase serial }
    else some s

def Referenced (s : State) (list : ℕ) : Prop :=
  ∃ q ∈ s.memoryMapSnapshots, list ∈ q.deferredRelease

end State

/-! ## The snapshot lists -/

def merge (p q : Snapshot) : Snapshot :=
  { p with deferredRelease := p.deferredRelease ++ q.deferredRelease }

theorem releaseAfter_eq {serial : ℕ} {rest : List Snapshot} (previous : Snapshot)
    (found : serial ∈ rest.map Snapshot.serial) :
    ∃ before p q after, previous :: rest = before ++ p :: q :: after ∧ q.serial = serial ∧
      releaseAfter serial previous rest = before ++ merge p q :: after := by
  induction rest generalizing previous with
  | nil => simp at found
  | cons snapshot rest ih =>
    by_cases here : snapshot.serial = serial
    · refine ⟨[], previous, snapshot, rest, rfl, here, ?_⟩
      rw [releaseAfter, if_pos here]
      rfl
    · have later : serial ∈ rest.map Snapshot.serial :=
        (mem_cons.mp found).resolve_left fun same => here same.symm
      obtain ⟨before, p, q, after, shape, same, result⟩ := ih snapshot later
      refine ⟨previous :: before, p, q, after, by rw [shape]; rfl, same, ?_⟩
      rw [releaseAfter, if_neg here, result]
      rfl

variable {snapshots : List Snapshot}

/-- The oldest snapshot is dropped, another one is merged with the one before it. -/
theorem release_eq {serial : ℕ} (found : serial ∈ snapshots.map Snapshot.serial) :
    (∃ q after, snapshots = q :: after ∧ q.serial = serial ∧ release serial snapshots = after) ∨
      ∃ before p q after, snapshots = before ++ p :: q :: after ∧ q.serial = serial ∧
        release serial snapshots = before ++ merge p q :: after := by
  cases snapshots with
  | nil => simp at found
  | cons first rest =>
    by_cases here : first.serial = serial
    · exact .inl ⟨first, rest, rfl, here, by rw [release, if_pos here]⟩
    · right
      have later : serial ∈ rest.map Snapshot.serial :=
        (mem_cons.mp found).resolve_left fun same => here same.symm
      rw [release, if_neg here]
      exact releaseAfter_eq first later

theorem deferLast_eq (list : ℕ) (nonempty : snapshots ≠ []) :
    ∃ before last, snapshots = before ++ [last] ∧
      deferLast list snapshots = before ++ [merge last ⟨0, [list]⟩] := by
  induction snapshots with
  | nil => exact absurd rfl nonempty
  | cons first rest ih =>
    cases rest with
    | nil => exact ⟨[], first, rfl, rfl⟩
    | cons second rest =>
      obtain ⟨before, last, shape, result⟩ := ih (by simp)
      refine ⟨first :: before, last, by rw [shape]; rfl, ?_⟩
      rw [deferLast, result]
      rfl

theorem serials_releaseAfter (serial : ℕ) (previous : Snapshot) (rest : List Snapshot) :
    (releaseAfter serial previous rest).map Snapshot.serial =
      previous.serial :: (rest.map Snapshot.serial).erase serial := by
  induction rest generalizing previous with
  | nil => rfl
  | cons snapshot rest ih =>
    by_cases here : snapshot.serial = serial
    · simp [releaseAfter, here]
    · simp [releaseAfter, here, ih, erase_cons_tail]

theorem serials_release (serial : ℕ) (snapshots : List Snapshot) :
    (release serial snapshots).map Snapshot.serial =
      (snapshots.map Snapshot.serial).erase serial := by
  cases snapshots with
  | nil => rfl
  | cons first rest =>
    by_cases here : first.serial = serial
    · simp [release, here]
    · simp [release, here, serials_releaseAfter, erase_cons_tail]

theorem serials_deferLast (list : ℕ) (snapshots : List Snapshot) :
    (deferLast list snapshots).map Snapshot.serial = snapshots.map Snapshot.serial := by
  by_cases none : snapshots = []
  · simp [none, deferLast]
  · obtain ⟨before, last, shape, result⟩ := deferLast_eq list none
    simp [shape ▸ result, shape, merge]

/-! ## Runs -/

structure Ordered (s : State) : Prop where
  valid : s.memoryMapSnapshots.map Snapshot.serial = s.valid
  sorted : s.valid.Pairwise (· < ·)
  le : ∀ b ∈ s.valid, b ≤ s.memoryMapSerial
  fresh : ∀ q ∈ s.memoryMapSnapshots, ∀ list ∈ q.deferredRelease, list < s.lists

def Newest (serial : ℕ) (snapshots : List Snapshot) (q : Snapshot) : Prop :=
  q.serial ≤ serial ∧ ∀ p ∈ snapshots, p.serial ≤ serial → p.serial ≤ q.serial

/-- The list was made when `serial` was the last serial and `valid` the valid barriers.  It hangs on the
newest snapshot of that time. -/
structure Held (serial list : ℕ) (valid : List ℕ) (s : State) : Prop where
  le : serial ≤ s.memoryMapSerial
  lt : list < s.lists
  held : ∀ q ∈ s.memoryMapSnapshots,
    list ∈ q.deferredRelease ↔ Newest serial s.memoryMapSnapshots q
  old : ∀ b ∈ s.valid, b ≤ serial → b ∈ valid

variable {s t : State} {serial list : ℕ} {valid : List ℕ}

variable {p q : Snapshot}

theorem mem_merge :
    list ∈ (merge p q).deferredRelease ↔ list ∈ p.deferredRelease ∨ list ∈ q.deferredRelease :=
  mem_append

theorem Ordered.create (ordered : Ordered s) (taken : s.exec .create = some t) : Ordered t := by
  cases taken
  refine ⟨?_, ?_, fun b mem => ?_, fun q mem list inside => ?_⟩
  · simp [ordered.valid]
  · refine pairwise_append.mpr ⟨ordered.sorted, pairwise_singleton .., fun a mem b new => ?_⟩
    obtain rfl := mem_singleton.mp new
    exact Nat.lt_succ_of_le (ordered.le a mem)
  · rcases mem_append.mp mem with old | new
    · exact Nat.le_succ_of_le (ordered.le b old)
    · exact (mem_singleton.mp new).le
  · rcases mem_append.mp mem with old | new
    · exact ordered.fresh q old list inside
    · obtain rfl := mem_singleton.mp new
      simp at inside

theorem Ordered.clearRange (ordered : Ordered s) (taken : s.exec .clearRange = some t) :
    Ordered t := by
  cases taken
  refine ⟨?_, ordered.sorted, ordered.le, fun q mem list inside => ?_⟩
  · simpa [serials_deferLast] using ordered.valid
  · have fresh := ordered.fresh
    by_cases none : s.memoryMapSnapshots = []
    · simp [none, deferLast] at mem
    · obtain ⟨before, last, shape, result⟩ := deferLast_eq s.lists none
      rw [shape] at fresh
      simp only [result] at mem
      rcases mem_append.mp mem with old | new
      · exact Nat.lt_succ_of_lt (fresh q (by simp [old]) list inside)
      · obtain rfl := mem_singleton.mp new
        rcases mem_merge.mp inside with earlier | here
        · exact Nat.lt_succ_of_lt (fresh last (by simp) list earlier)
        · obtain rfl := mem_singleton.mp here
          exact Nat.lt_succ_self _

theorem Ordered.release (ordered : Ordered s) {released : ℕ} (live : released ∈ s.valid) :
    Ordered { s with
      memoryMapSnapshots := MapSnapshots.release released s.memoryMapSnapshots
      valid := s.valid.erase released } := by
  have fresh := ordered.fresh
  refine ⟨?_, ordered.sorted.sublist (erase_sublist ..),
    fun b mem => ordered.le b (mem_of_mem_erase mem), fun x mem list inside => ?_⟩
  · rw [serials_release, ordered.valid]
  · rw [← ordered.valid] at live
    obtain ⟨q, after, shape, -, result⟩ | ⟨before, p, q, after, shape, -, result⟩ :=
      release_eq live
    · rw [shape] at fresh
      simp only [result] at mem
      exact fresh x (by simp [mem]) list inside
    · rw [shape] at fresh
      simp only [result, mem_append, mem_cons] at mem
      rcases mem with early | rfl | late
      · exact fresh x (by simp [early]) list inside
      · rcases mem_merge.mp inside with own | handed
        · exact fresh p (by simp) list own
        · exact fresh q (by simp) list handed
      · exact fresh x (by simp [late]) list inside

open State

theorem Ordered.step (ordered : Ordered s) {a : Action} (taken : s.exec a = some t) : Ordered t := by
  cases a with
  | create => exact ordered.create taken
  | clearRange => exact ordered.clearRange taken
  | release released =>
    simp only [exec] at taken
    split_ifs at taken with live
    · obtain rfl := Option.some.inj taken
      exact ordered.release live
    · obtain rfl := Option.some.inj taken
      exact ordered

/-! ### The list of one `ClearRange` -/

theorem Newest.congr {snapshots' : List Snapshot} {q' : Snapshot}
    (serials : snapshots'.map Snapshot.serial = snapshots.map Snapshot.serial)
    (same : q'.serial = q.serial) (newest : Newest serial snapshots q) :
    Newest serial snapshots' q' := by
  refine ⟨same ▸ newest.1, fun p mem le => ?_⟩
  have mem' : p.serial ∈ snapshots.map Snapshot.serial :=
    serials ▸ mem_map_of_mem mem
  obtain ⟨x, mem_x, eq⟩ := mem_map.mp mem'
  rw [same, ← eq]
  exact newest.2 x mem_x (eq ▸ le)

theorem Held.create (held : Held serial list valid s) (taken : s.exec .create = some t) :
    Held serial list valid t := by
  cases taken
  have later : serial < s.memoryMapSerial + 1 := Nat.lt_succ_of_le held.le
  refine ⟨later.le, held.lt, fun q mem => ?_, fun b mem le => ?_⟩
  · rcases mem_append.mp mem with old | new
    · rw [held.held q old]
      refine and_congr_right fun _ => ⟨fun newest p mem' le => ?_, fun newest p mem' => ?_⟩
      · rcases mem_append.mp mem' with old' | new'
        · exact newest p old' le
        · obtain rfl := mem_singleton.mp new'
          exact absurd le (not_le.mpr later)
      · exact newest p (mem_append_left _ mem')
    · obtain rfl := mem_singleton.mp new
      exact iff_of_false (by simp) fun newest => absurd newest.1 (not_le.mpr later)
  · rcases mem_append.mp mem with old | new
    · exact held.old b old le
    · obtain rfl := mem_singleton.mp new
      exact absurd le (not_le.mpr later)

theorem Held.clearRange (held : Held serial list valid s) (taken : s.exec .clearRange = some t) :
    Held serial list valid t := by
  cases taken
  have other : list ≠ s.lists := held.lt.ne
  refine ⟨held.le, Nat.lt_succ_of_lt held.lt, fun q mem => ?_, held.old⟩
  have serials := serials_deferLast s.lists s.memoryMapSnapshots
  by_cases none : s.memoryMapSnapshots = []
  · simp [none, deferLast] at mem
  · obtain ⟨before, last, shape, result⟩ := deferLast_eq s.lists none
    have same : ∃ x ∈ s.memoryMapSnapshots, x.serial = q.serial ∧
        (list ∈ q.deferredRelease ↔ list ∈ x.deferredRelease) := by
      simp only [result] at mem
      rcases mem_append.mp mem with old | new
      · exact ⟨q, by simp [shape, old], rfl, Iff.rfl⟩
      · obtain rfl := mem_singleton.mp new
        exact ⟨last, by simp [shape], rfl, by simp [mem_merge, other]⟩
    obtain ⟨x, mem_x, eq, inside⟩ := same
    rw [inside, held.held x mem_x]
    exact ⟨Newest.congr serials eq.symm, Newest.congr serials.symm eq⟩

structure Between (before after : List Snapshot) (p q : Snapshot) : Prop where
  lt : p.serial < q.serial
  before : ∀ x ∈ before, x.serial < p.serial
  after : ∀ x ∈ after, q.serial < x.serial

variable {before after : List Snapshot}

theorem between_of_sorted
    (sorted : ((before ++ p :: q :: after).map Snapshot.serial).Pairwise (· < ·)) :
    Between before after p q := by
  simp only [pairwise_map, pairwise_append, pairwise_cons] at sorted
  obtain ⟨-, ⟨first, second, -⟩, across⟩ := sorted
  exact ⟨first q (by simp), fun x mem => across x mem p (by simp), second⟩

variable {x : Snapshot}

theorem newest_tail (lt : q.serial < x.serial) :
    Newest serial (q :: after) x ↔ Newest serial after x := by
  refine and_congr_right fun _ => ⟨fun newest p mem => newest p (by simp [mem]), ?_⟩
  intro newest p mem le
  rcases mem_cons.mp mem with rfl | later
  · exact lt.le
  · exact newest p later le

theorem newest_split :
    Newest serial (before ++ p :: q :: after) x ↔
      x.serial ≤ serial ∧ (∀ y ∈ before, y.serial ≤ serial → y.serial ≤ x.serial) ∧
        (p.serial ≤ serial → p.serial ≤ x.serial) ∧ (q.serial ≤ serial → q.serial ≤ x.serial) ∧
        ∀ y ∈ after, y.serial ≤ serial → y.serial ≤ x.serial := by
  simp [Newest, or_imp, forall_and]

theorem newest_merge :
    Newest serial (before ++ merge p q :: after) x ↔
      x.serial ≤ serial ∧ (∀ y ∈ before, y.serial ≤ serial → y.serial ≤ x.serial) ∧
        (p.serial ≤ serial → p.serial ≤ x.serial) ∧
        ∀ y ∈ after, y.serial ≤ serial → y.serial ≤ x.serial := by
  simp [Newest, or_imp, forall_and, merge]

theorem Held.release (held : Held serial list valid s) (ordered : Ordered s) {released : ℕ}
    (live : released ∈ s.valid) :
    Held serial list valid { s with
      memoryMapSnapshots := MapSnapshots.release released s.memoryMapSnapshots
      valid := s.valid.erase released } := by
  refine ⟨held.le, held.lt, fun x mem => ?_, fun b mem => held.old b (mem_of_mem_erase mem)⟩
  have old := held.held
  have sorted := ordered.sorted
  rw [← ordered.valid] at live sorted
  obtain ⟨q, after, shape, -, result⟩ | ⟨before, p, q, after, shape, -, result⟩ := release_eq live
  · rw [shape] at old sorted
    simp only [result] at mem ⊢
    have lt : q.serial < x.serial := by
      simp only [map_cons, pairwise_cons] at sorted
      exact sorted.1 x.serial (mem_map_of_mem mem)
    rw [old x (by simp [mem]), newest_tail lt]
  · rw [shape] at old sorted
    have between := between_of_sorted sorted
    have lt := between.lt
    simp only [result] at mem ⊢
    rw [newest_merge]
    rcases mem_append.mp mem with early | mem
    · -- Behind an earlier snapshot there is still `p`.
      rw [old x (by simp [early]), newest_split]
      have earlier := between.before x early
      constructor
      · rintro ⟨le, all, to_p, to_q, rest⟩
        exact ⟨le, all, to_p, rest⟩
      · rintro ⟨le, all, to_p, rest⟩
        refine ⟨le, all, to_p, fun le_q => ?_, rest⟩
        omega
    · rcases mem_cons.mp mem with rfl | late
      · -- The newest one was `p` or `q`.
        rw [mem_merge, old p (by simp), old q (by simp), newest_split, newest_split]
        have same : (merge p q).serial = p.serial := rfl
        constructor
        · rintro (⟨le, all, -, -, rest⟩ | ⟨le, all, -, -, rest⟩)
          · exact ⟨le, all, fun _ => le_refl _, rest⟩
          · refine ⟨by omega, fun y mem_y _ => (between.before y mem_y).le, fun _ => le_refl _,
              fun y mem_y le_y => ?_⟩
            have := between.after y mem_y
            have := rest y mem_y le_y
            omega
        · rintro ⟨le, all, -, rest⟩
          have none : ∀ y ∈ after, ¬y.serial ≤ serial := by
            intro y mem_y le_y
            have := between.after y mem_y
            have := rest y mem_y le_y
            omega
          by_cases le_q : q.serial ≤ serial
          · right
            refine ⟨le_q, fun y mem_y _ => ?_, fun _ => lt.le, fun _ => le_refl _,
              fun y mem_y le_y => absurd le_y (none y mem_y)⟩
            have := between.before y mem_y
            omega
          · exact .inl ⟨le, all, fun _ => le_refl _, fun le' => absurd le' le_q, rest⟩
      · rw [old x (by simp [late]), newest_split]
        have later := between.after x late
        constructor
        · rintro ⟨le, all, to_p, to_q, rest⟩
          exact ⟨le, all, to_p, rest⟩
        · rintro ⟨le, all, to_p, rest⟩
          exact ⟨le, all, to_p, fun _ => later.le, rest⟩

theorem Held.step (held : Held serial list valid s) (ordered : Ordered s) {a : Action}
    (taken : s.exec a = some t) : Held serial list valid t := by
  cases a with
  | create => exact held.create taken
  | clearRange => exact held.clearRange taken
  | release released =>
    simp only [exec] at taken
    split_ifs at taken with live
    · obtain rfl := Option.some.inj taken
      exact held.release ordered live
    · obtain rfl := Option.some.inj taken
      exact held

theorem held_clearRange (ordered : Ordered s) (taken : s.exec .clearRange = some t) :
    Held s.memoryMapSerial s.lists s.valid t := by
  cases taken
  refine ⟨le_refl _, Nat.lt_succ_self _, fun q mem => ?_, fun b mem _ => mem⟩
  have fresh := ordered.fresh
  have sorted := ordered.sorted
  have le := ordered.le
  by_cases none : s.memoryMapSnapshots = []
  · simp [none, deferLast] at mem
  · obtain ⟨before, last, shape, result⟩ := deferLast_eq s.lists none
    rw [← ordered.valid, shape] at sorted le
    rw [shape] at fresh
    simp only [result] at mem ⊢
    have top : last.serial ≤ s.memoryMapSerial := le last.serial (by simp)
    have earlier : ∀ x ∈ before, x.serial < last.serial := by
      intro x mem_x
      simp only [pairwise_map, pairwise_append] at sorted
      exact sorted.2.2 x mem_x last (by simp)
    rcases mem_append.mp mem with old | new
    · refine iff_of_false (fun inside => ?_) fun newest => ?_
      · exact absurd (fresh q (by simp [old]) s.lists inside) (lt_irrefl _)
      · have := newest.2 (merge last ⟨0, [s.lists]⟩) (by simp) top
        exact absurd (earlier q old) (not_lt.mpr this)
    · obtain rfl := mem_singleton.mp new
      refine iff_of_true (by simp [mem_merge]) ⟨top, fun x mem_x _ => ?_⟩
      rcases mem_append.mp mem_x with old | same
      · exact (earlier x old).le
      · exact (mem_singleton.mp same) ▸ le_refl _

theorem Held.referenced_iff (held : Held serial list valid s) (ordered : Ordered s)
    (bound : ∀ b ∈ valid, b ≤ serial) : s.Referenced list ↔ ∃ b ∈ valid, b ∈ s.valid := by
  constructor
  · rintro ⟨q, mem, inside⟩
    have newest := (held.held q mem).mp inside
    have live : q.serial ∈ s.valid := ordered.valid ▸ mem_map_of_mem mem
    exact ⟨q.serial, held.old _ live newest.1, live⟩
  · rintro ⟨b, was, live⟩
    rw [← ordered.valid] at live
    obtain ⟨p, mem, rfl⟩ := mem_map.mp live
    have some_old : (s.memoryMapSnapshots.toFinset.filter fun q => q.serial ≤ serial).Nonempty :=
      ⟨p, by simp [mem, bound _ was]⟩
    obtain ⟨q, mem_q, newest⟩ := Finset.exists_max_image _ Snapshot.serial some_old
    simp only [Finset.mem_filter, mem_toFinset] at mem_q newest
    exact ⟨q, mem_q.1, (held.held q mem_q.1).mpr ⟨mem_q.2, fun x mem_x le => newest x ⟨mem_x, le⟩⟩⟩

theorem ordered_start : Ordered .start := by
  refine ⟨rfl, ?_, ?_, ?_⟩ <;> simp [start]

/-- In every run the list that a `ClearRange` has made is referenced as long as one of the barriers
that were valid at that time is valid, and no longer. -/
theorem referenced_iff_of_run {as bs : List Action} {u : State}
    (before : Run State.exec .start as s) (taken : s.exec .clearRange = some t)
    (after : Run State.exec t bs u) :
    u.Referenced s.lists ↔ ∃ barrier ∈ s.valid, barrier ∈ u.valid := by
  have ordered : Ordered s :=
    before.invariant (fun _ _ _ ordered _ taken => ordered.step taken) ordered_start
  have kept : Ordered u ∧ Held s.memoryMapSerial s.lists s.valid u :=
    after.invariant (I := fun u => Ordered u ∧ Held s.memoryMapSerial s.lists s.valid u)
      (fun _ _ _ kept _ taken => ⟨kept.1.step taken, kept.2.step kept.1 taken⟩)
      ⟨ordered.step taken, held_clearRange ordered taken⟩
  exact kept.2.referenced_iff kept.1 ordered.le

/-- Two barriers, a `ClearRange`, a third barrier; the second one is released, then the first one. -/
theorem referenced_two_barriers :
    ∃ s t u v, Run State.exec .start [.create, .create] s ∧ s.exec .clearRange = some t ∧
      Run State.exec t [.create, .release 2] u ∧ Run State.exec t [.create, .release 2, .release 1] v ∧
      u.Referenced 0 ∧ ¬v.Referenced 0 := by
  have run : Run exec .start [.create, .create]
      ⟨[⟨1, []⟩, ⟨2, []⟩], 2, [1, 2], 0⟩ := .of_foldlM rfl
  have taken : exec ⟨[⟨1, []⟩, ⟨2, []⟩], 2, [1, 2], 0⟩ .clearRange =
      some ⟨[⟨1, []⟩, ⟨2, [0]⟩], 2, [1, 2], 1⟩ := rfl
  have first : Run exec ⟨[⟨1, []⟩, ⟨2, [0]⟩], 2, [1, 2], 1⟩ [.create, .release 2]
      ⟨[⟨1, [0]⟩, ⟨3, []⟩], 3, [1, 3], 1⟩ := .of_foldlM rfl
  have second : Run exec ⟨[⟨1, []⟩, ⟨2, [0]⟩], 2, [1, 2], 1⟩
      [.create, .release 2, .release 1] ⟨[⟨3, []⟩], 3, [3], 1⟩ := .of_foldlM rfl
  refine ⟨_, _, _, _, run, taken, first, second, ?_, ?_⟩
  · exact (referenced_iff_of_run run taken first).mpr (by decide)
  · exact fun inside => absurd ((referenced_iff_of_run run taken second).mp inside) (by decide)

end JeoKernel.MapSnapshots

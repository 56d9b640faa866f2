import JeoKernel.Memory.VPAllocator

/-!
# One page of the virtual page allocator

What `TryFree`, `TryAllocateFromAddress` and `TryAllocate` of a `VPAllocatorPage` answer, and what they
leave of its free set.
-/

namespace JeoKernel.VPAllocator

open List Function Intervals Loop

/-! ## Giving a region back -/

variable {p : Page} {addr size i : ℕ}

theorem tryFree_of_aligned (aligned : size % 4096 = 0) (nowrap : addr + size < 2 ^ 64) :
    p.tryFree addr size = p.tryFreeRounded addr size := by
  rw [Page.tryFree, roundUp, if_neg (by omega), Nat.add_zero, Nat.mod_eq_of_lt (by omega)]

/-- The shift at the end of the array does not bring the first record to another place. -/
theorem freeBelow_ranges (addr ending : ℕ) (room : p.num < numRecords) (first : 0 < i)
    (small : i < p.num) :
    ∃ j, 0 < j ∧ j < p.num ∧ (p.freeBelow addr ending).ranges i = p.ranges j := by
  have moved : ∀ n < p.num, ∀ k, 0 < k → k < p.num → ∃ j, 0 < j ∧ j < p.num ∧
      (range' 1 n).foldl (fun r i => update r (numRecords - i) (r (numRecords - i - 1))) p.ranges k =
        p.ranges j := by
    intro n
    induction n with
    | zero => exact fun _ k pos lt => ⟨k, pos, lt, rfl⟩
    | succ n ih =>
      intro le k pos lt
      rw [range'_1_concat, foldl_append, foldl_cons, foldl_nil]
      by_cases here : k = numRecords - (1 + n)
      · rw [here, update_self]
        exact ih (by omega) _ (by omega) (by omega)
      · rw [update_of_ne here]
        exact ih (by omega) k pos lt
  obtain ⟨j, pos, lt, eq⟩ := moved (p.num - 1) (by omega) i first small
  exact ⟨j, pos, lt, (update_of_ne (by omega) _ _).trans eq⟩

/-- A region below the first record, with a gap behind it, is written over that record. -/
theorem start_not_mem_freeBelow (h : Ordered p.records) (room : p.num < numRecords)
    (below : addr + size < (p.ranges 0).start) :
    (p.ranges 0).start ∉ cover (p.freeBelow addr (addr + size)).records := by
  rintro ⟨r, mem, inside⟩
  obtain ⟨k, ⟨-, small⟩, rfl⟩ := mem_slots mem
  by_cases first : k = 0
  · have region : (p.freeBelow addr (addr + size)).ranges 0 = ⟨addr, addr + size⟩ := by
      simp only [Page.freeBelow, update_self]
    rw [first, region] at inside
    exact absurd inside.2 (by dsimp only; omega)
  · obtain ⟨j, pos, lt, eq⟩ := freeBelow_ranges addr (addr + size) room (Nat.pos_of_ne_zero first) small
    rw [eq] at inside
    have := ending_le_start h pos lt
    have := start_lt_ending h (i := 0) (by omega)
    omega

theorem frees_iff (h : Spaced 1 p.records) (aligned : size % 4096 = 0)
    (nowrap : addr + size < 2 ^ 64) :
    Frees 1 p addr size (p.tryFree addr size) ↔
      (p.num = 0 → 0 < size) ∧
        (p.num = 0 ∨ size = 0 ∨ (p.ranges 0).start ≤ addr + size ∨ p.num = numRecords) := by
  have same := tryFree_of_aligned (p := p) aligned nowrap
  constructor
  · intro exactly
    have done := exactly.done
    rw [same] at done
    unfold Page.tryFreeRounded at done
    simp only [Nat.mod_eq_of_lt nowrap] at done
    refine ⟨fun empty => ?_, ?_⟩
    · rw [dif_pos empty] at done
      have nonempty := (done rfl).2.1.1 ⟨addr, addr + size⟩ (by simp [records_append])
      dsimp only at nonempty
      omega
    · by_contra gap
      push Not at gap
      obtain ⟨some, positive, below, room⟩ := gap
      have room := Nat.lt_of_le_of_ne p.num_le room
      rw [dif_neg some, if_neg (by omega), if_pos (by omega), if_pos (by omega), if_neg (by omega)] at done
      refine start_not_mem_freeBelow h.ordered room below ?_
      rw [(done rfl).2.2]
      have start := start_lt_ending h.ordered (i := 0) (by omega)
      exact .inl ⟨_, range_mem_records (by omega), le_rfl, start⟩
  · rintro ⟨positive, closed⟩
    rw [same]
    by_cases zero : size = 0
    · have some : p.num ≠ 0 := fun empty => by have := positive empty; omega
      rw [Page.tryFreeRounded, dif_neg some, if_pos (by omega)]
      exact ⟨fun _ => ⟨fun x _ => by omega, h, by simp [zero]⟩, fun _ => rfl, by simp, by simp⟩
    · exact tryFreeRounded_frees h le_rfl (by omega) nowrap
        (closed.imp_right fun rest => rest.resolve_left zero)

/-- A page whose only range is from 64 KiB to 128 KiB. -/
def oneRange : Page := Page.empty.append ⟨65536, 131072⟩ (by decide)

theorem spaced_oneRange (g : ℕ) : Spaced g oneRange.records :=
  ⟨forall_mem_singleton.mpr (by decide), pairwise_singleton ..⟩

theorem frees_behind : Spaced 1 oneRange.records ∧
    Frees 1 oneRange 131072 4096 (oneRange.tryFree 131072 4096) :=
  ⟨spaced_oneRange 1, (frees_iff (spaced_oneRange 1) (by decide) (by decide)).mpr
    ⟨by decide, .inr (.inr (.inl (by decide)))⟩⟩

/-- The page at address 0 is given back, and the range is lost. -/
theorem not_frees_below : Spaced 1 oneRange.records ∧
    (oneRange.tryFree 0 4096).1 = .done ∧ ¬Frees 1 oneRange 0 4096 (oneRange.tryFree 0 4096) := by
  refine ⟨spaced_oneRange 1, by decide, fun exactly => ?_⟩
  have eq := (exactly.done (by decide)).2.2
  have before : oneRange.records = [⟨65536, 131072⟩] := by decide
  have after : (oneRange.tryFree 0 4096).2.records = [⟨0, 4096⟩] := by decide
  have lost : 65536 ∈ cover [⟨0, 4096⟩] := by
    rw [← after, eq, before]
    simp
  simp at lost

/-! ## Taking a region -/

/-- The turn of `VPAllocatorPage::IsFree` at record `i`. -/
def Page.isFreeTurn (p : Page) (addr size i : ℕ) : Except Bool Unit :=
  let r := p.ranges i
  let ending := (addr + size) % 2 ^ 64
  if r.start = addr then .error (r.ending ≥ ending)
  else if r.start < addr ∧ r.ending > addr then .error (r.ending ≥ ending)
  else if r.start > addr then .error false
  else .ok ()

def Page.isFree (p : Page) (addr size : ℕ) : Bool :=
  match forRange 0 p.num (fun i _ => p.isFreeTurn addr size i) () with
  | .error answer => answer
  | .ok _ => false

def Page.Holds (p : Page) (addr size i : ℕ) : Prop :=
  (p.ranges i).start ≤ addr ∧ addr + size ≤ (p.ranges i).ending

/-- An end of the region meets an end of its record. -/
def Page.MeetsEnd (p : Page) (addr size : ℕ) : Prop :=
  ∃ i < p.num, p.Holds addr size i ∧ ((p.ranges i).start = addr ∨ (p.ranges i).ending = addr + size)

/-- The first record that is long enough. -/
def Page.FirstFit (p : Page) (size addr : ℕ) : Prop :=
  ∃ i < p.num, addr = (p.ranges i).start ∧ size ≤ (p.ranges i).ending - (p.ranges i).start ∧
    ∀ j < i, (p.ranges j).ending - (p.ranges j).start < size

structure Page.AllocatesExactly (p : Page) : Prop where
  done_iff : ∀ addr size, 0 < size → addr + size < 2 ^ 64 →
    ((p.tryAllocateFromAddress addr size).1 = .done ↔
      p.isFree addr size = true ∧ (p.MeetsEnd addr size ∨ p.num < numRecords))
  fromAddress : ∀ addr size, 0 < size → addr + size < 2 ^ 64 →
    FromAddress p addr size (p.tryAllocateFromAddress addr size)
  found : ∀ size answer, 0 < size → wholePages size < 2 ^ 64 → p.tryAllocate size = some answer →
    p.FirstFit (wholePages size) answer.1 ∧
      Took p.records answer.2.records (Set.Ico answer.1 (answer.1 + wholePages size))
  none : ∀ size, 0 < size → wholePages size < 2 ^ 64 → p.tryAllocate size = none →
    ∀ i < p.num, (p.ranges i).ending - (p.ranges i).start < wholePages size

section

variable (h : Ordered p.records) (positive : 0 < size)

include h positive

/-- The first record that ends above the address is the only one that can hold the region. -/
theorem exists_holds_iff {Q : ℕ → Prop} (before : ∀ j < i, (p.ranges j).ending ≤ addr)
    (small : i < p.num) (above : addr < (p.ranges i).ending) :
    (∃ j < p.num, p.Holds addr size j ∧ Q j) ↔ p.Holds addr size i ∧ Q i := by
  refine ⟨fun ⟨j, lt, holds, q⟩ => ?_, fun ⟨holds, q⟩ => ⟨i, small, holds, q⟩⟩
  rcases lt_trichotomy j i with earlier | rfl | later
  · have := before j earlier
    have := holds.2
    omega
  · exact ⟨holds, q⟩
  · have := ending_le_start h later lt
    have := holds.1
    omega

omit h in
theorem not_exists_holds {Q : ℕ → Prop} (before : ∀ j < p.num, (p.ranges j).ending ≤ addr) :
    ¬∃ j < p.num, p.Holds addr size j ∧ Q j := by
  rintro ⟨j, lt, holds, -⟩
  have := before j lt
  have := holds.2
  omega

variable (nowrap : addr + size < 2 ^ 64)

include nowrap

theorem isFreeTurn_post (small : i < p.num) (before : ∀ j < i, (p.ranges j).ending ≤ addr) :
    Post (fun _ => ∀ j < i + 1, (p.ranges j).ending ≤ addr)
      (fun answer => answer = true ↔ ∃ j < p.num, p.Holds addr size j ∧ True)
      (p.isFreeTurn addr size i) := by
  have nonempty := start_lt_ending h small
  unfold Page.isFreeTurn
  simp only [Nat.mod_eq_of_lt nowrap]
  split_ifs with atStart inside above
  · refine Iff.trans ?_ (exists_holds_iff h positive before small (by omega)).symm
    simp [Page.Holds, atStart]
  · refine Iff.trans ?_ (exists_holds_iff h positive before small inside.2).symm
    simp [Page.Holds, inside.1.le]
  · refine Iff.trans ?_ (exists_holds_iff h positive before small (by omega)).symm
    simp [Page.Holds, above]
  · exact Nat.forall_lt_succ_right.mpr ⟨before, by omega⟩

theorem isFree_iff : p.isFree addr size = true ↔ ∃ j < p.num, p.Holds addr size j ∧ True := by
  have post := forRange_post (s := ()) (I := fun i _ => ∀ j < i, (p.ranges j).ending ≤ addr)
    (Nat.zero_le p.num)
    (fun i _ _ small before => isFreeTurn_post h positive nowrap small before) (by simp)
  unfold Page.isFree
  split
  · next answer left => rwa [left] at post
  · next s left =>
    rw [left] at post
    exact iff_of_false (by simp) (not_exists_holds positive post)

theorem allocateFromAddressTurn_done (small : i < p.num)
    (before : ∀ j < i, (p.ranges j).ending ≤ addr) :
    Post (fun _ => ∀ j < i + 1, (p.ranges j).ending ≤ addr)
      (fun answer => answer.1 = .done ↔ ∃ j < p.num, p.Holds addr size j ∧
        ((p.ranges j).start = addr ∨ (p.ranges j).ending = addr + size ∨ p.num < numRecords))
      (p.allocateFromAddressTurn addr size i) := by
  have nonempty := start_lt_ending h small
  have decides := fun above => exists_holds_iff h positive before small above (Q := fun j =>
    (p.ranges j).start = addr ∨ (p.ranges j).ending = addr + size ∨ p.num < numRecords)
  unfold Page.allocateFromAddressTurn
  simp only [Nat.mod_eq_of_lt nowrap]
  split_ifs with atStart whole more inside upper split room past
  · exact iff_of_true rfl ((decides (by omega)).mpr ⟨⟨by omega, by omega⟩, .inl atStart⟩)
  · exact iff_of_true rfl ((decides (by omega)).mpr ⟨⟨by omega, by omega⟩, .inl atStart⟩)
  · refine iff_of_false (by simp) fun found => ?_
    have := ((decides (by omega)).mp found).1.2
    omega
  · exact iff_of_true rfl ((decides (by omega)).mpr ⟨⟨by omega, by omega⟩, .inr (.inl upper)⟩)
  · exact iff_of_true rfl ((decides (by omega)).mpr ⟨⟨by omega, by omega⟩, .inr (.inr room)⟩)
  · refine iff_of_false (by simp) fun found => ?_
    have := ((decides (by omega)).mp found).2
    omega
  · exact Nat.forall_lt_succ_right.mpr ⟨before, past⟩
  · refine iff_of_false (by simp) fun found => ?_
    have := ((decides (by omega)).mp found).1.2
    omega
  · refine iff_of_false (by simp) fun found => ?_
    have := ((decides (by omega)).mp found).1.1
    omega

theorem fromAddress_done_iff : (p.tryAllocateFromAddress addr size).1 = .done ↔
    ∃ j < p.num, p.Holds addr size j ∧
      ((p.ranges j).start = addr ∨ (p.ranges j).ending = addr + size ∨ p.num < numRecords) := by
  have post := forRange_post (s := ()) (I := fun i _ => ∀ j < i, (p.ranges j).ending ≤ addr)
    (Nat.zero_le p.num)
    (fun i _ _ small before => allocateFromAddressTurn_done h positive nowrap small before) (by simp)
  unfold Page.tryAllocateFromAddress
  split
  · next answer left => rwa [left] at post
  · next s left =>
    rw [left] at post
    exact iff_of_false (by simp) (not_exists_holds positive post)

end

section

variable (h : Ordered p.records) (words : ∀ i < p.num, (p.ranges i).ending < 2 ^ 64)

include h words

theorem allocateTurn_firstFit (small : i < p.num)
    (before : ∀ j < i, (p.ranges j).ending - (p.ranges j).start < size) :
    Post (fun _ => ∀ j < i + 1, (p.ranges j).ending - (p.ranges j).start < size)
      (fun answer => p.FirstFit size answer.1) (p.allocateTurn size i) := by
  have nonempty := start_lt_ending h small
  have bounded := words i small
  unfold Page.allocateTurn
  dsimp only
  split_ifs with whole more
  · exact ⟨i, small, rfl, by omega, before⟩
  · exact ⟨i, small, rfl, by omega, before⟩
  · exact Nat.forall_lt_succ_right.mpr ⟨before, by omega⟩

theorem tryAllocate_firstFit (size : ℕ) :
    (∀ answer, p.tryAllocate size = some answer → p.FirstFit (roundUp size) answer.1) ∧
      (p.tryAllocate size = none →
        ∀ i < p.num, (p.ranges i).ending - (p.ranges i).start < roundUp size) := by
  have post := forRange_post (s := ())
    (I := fun i _ => ∀ j < i, (p.ranges j).ending - (p.ranges j).start < roundUp size)
    (Nat.zero_le p.num) (fun i _ _ small before => allocateTurn_firstFit h words small before) (by simp)
  unfold Page.tryAllocate
  split
  · next answer left =>
    rw [left] at post
    refine ⟨fun answer same => ?_, by simp⟩
    cases same
    exact post
  · next s left =>
    rw [left] at post
    exact ⟨by simp, fun _ => post⟩

theorem allocatesExactly : p.AllocatesExactly where
  done_iff addr size positive nowrap := by
    rw [fromAddress_done_iff h positive nowrap, isFree_iff h positive nowrap]
    constructor
    · rintro ⟨j, lt, holds, meets⟩
      exact ⟨⟨j, lt, holds, trivial⟩, (or_assoc.mpr meets).imp_left fun meets => ⟨j, lt, holds, meets⟩⟩
    · rintro ⟨⟨j, lt, holds, -⟩, ⟨k, lt', holds', meets⟩ | room⟩
      · exact ⟨k, lt', holds', or_assoc.mp (.inl meets)⟩
      · exact ⟨j, lt, holds, .inr (.inr room)⟩
  fromAddress addr size _ nowrap := tryAllocateFromAddress_spec h nowrap
  found size answer _ small found := by
    have fit := (tryAllocate_firstFit h words size).1 answer found
    have took := tryAllocate_spec h (fun x mem => ?_) found
    · rw [roundUp_eq small] at fit took
      exact ⟨fit, took⟩
    · obtain ⟨r, mem, inside⟩ := mem
      obtain ⟨k, ⟨-, lt⟩, rfl⟩ := mem_slots mem
      have := words k lt
      omega
  none size _ small none := by
    have fit := (tryAllocate_firstFit h words size).2 none
    rwa [roundUp_eq small] at fit

end

theorem allocatesExactly_oneRange : Ordered oneRange.records ∧ oneRange.AllocatesExactly :=
  ⟨(spaced_oneRange 0).ordered, allocatesExactly (spaced_oneRange 0).ordered fun i small => by
    obtain rfl : i = 0 := by simpa [oneRange, Page.append, Page.empty] using small
    decide⟩

end JeoKernel.VPAllocator

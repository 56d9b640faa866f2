import JeoKernel.Lib.Intervals
import JeoKernel.Lib.Loop
import JeoKernel.Lib.Machine

/-!
# The virtual page allocator on ARM

`VPAllocator` keeps the free addresses as sorted ranges on a chain of pages of 254 records each.
A page that is full moves ranges to the next page of the chain, or to a new one.  Addresses and
sizes are 64-bit words; their sums wrap around.
-/

namespace JeoKernel.VPAllocator

open List Function Intervals Loop Machine

abbrev Range := Extent

/-- `VPAllocatorPage::num_records`: what fits into 4096 bytes beside the link and the counter. -/
def numRecords : ℕ := (4096 - 16 - 4) / 16

/-- `VPAllocatorPage`, without the link. -/
structure Page where
  ranges : ℕ → Range
  num : ℕ
  num_le : num ≤ numRecords

inductive Result where
  | done
  | noSpace
  | error
  deriving DecidableEq

def Page.empty : Page := ⟨fun _ => ⟨0, 0⟩, 0, Nat.zero_le _⟩

def Page.hasFree (p : Page) : Bool := 0 < p.num

def Page.getStart (p : Page) : Option ℕ := if 0 < p.num then some (p.ranges 0).start else none

def Page.getEnd (p : Page) : Option ℕ :=
  if 0 < p.num then some (p.ranges (p.num - 1)).ending else none

/-! ## The loops over the records of a page -/

/-- `for (j = i + 1; j < num; j++) ranges[j - 1] = ranges[j]` -/
def shiftDown (ranges : ℕ → Range) (i num : ℕ) : ℕ → Range :=
  (range' (i + 1) (num - (i + 1))).foldl (fun r j => update r (j - 1) (r j)) ranges

/-- `for (j = 0; j < num - i - 1; j++) ranges[num - j] = ranges[num - j - 1]` -/
def shiftUp (ranges : ℕ → Range) (i num : ℕ) : ℕ → Range :=
  (range (num - i - 1)).foldl (fun r j => update r (num - j) (r (num - j - 1))) ranges

def Page.put (p : Page) (i : ℕ) (r : Range) : Page :=
  { p with ranges := update p.ranges i r }

def Page.remove (p : Page) (i : ℕ) : Page where
  ranges := shiftDown p.ranges i p.num
  num := p.num - 1
  num_le := (Nat.sub_le _ _).trans p.num_le

/-- Make room behind record `i` and write `r` there. -/
def Page.insertBehind (p : Page) (i : ℕ) (r : Range) (room : p.num < numRecords) : Page where
  ranges := update (shiftUp p.ranges i p.num) (i + 1) r
  num := p.num + 1
  num_le := room

def Page.append (p : Page) (r : Range) (room : p.num < numRecords) : Page where
  ranges := update p.ranges p.num r
  num := p.num + 1
  num_le := room

/-! ## The operations of a page -/

/-- The turn of `VPAllocatorPage::TryAllocateFromAddress` at record `i`. -/
def Page.allocateFromAddressTurn (p : Page) (addr size i : ℕ) : Except (Result × Page) Unit :=
  let r := p.ranges i
  let ending := (addr + size) % 2 ^ 64
  if r.start = addr then
    if r.ending = ending then .error (.done, p.remove i)
    else if r.ending > ending then .error (.done, p.put i { r with start := ending })
    else .error (.error, p)
  else if r.start < addr then
    if r.ending = ending then .error (.done, p.put i { r with ending := addr })
    else if r.ending > ending then
      if room : p.num < numRecords then
        .error (.done, (p.insertBehind i ⟨ending, r.ending⟩ room).put i ⟨r.start, addr⟩)
      else .error (.noSpace, p)
    else if r.ending ≤ addr then .ok ()
    else .error (.error, p)
  else .error (.error, p)

def Page.tryAllocateFromAddress (p : Page) (addr size : ℕ) : Result × Page :=
  match forRange 0 p.num (fun i _ => p.allocateFromAddressTurn addr size i) () with
  | .error answer => answer
  | .ok _ => (.error, p)

def roundUp (size : ℕ) : ℕ :=
  (size + if size % 4096 > 0 then 4096 - size % 4096 else 0) % 2 ^ 64

/-- The turn of `VPAllocatorPage::TryAllocate` at record `i`. -/
def Page.allocateTurn (p : Page) (size i : ℕ) : Except (ℕ × Page) Unit :=
  let r := p.ranges i
  let avail := (r.ending + 2 ^ 64 - r.start) % 2 ^ 64
  if avail = size then .error (r.start, p.remove i)
  else if avail > size then .error (r.start, p.put i { r with start := (r.start + size) % 2 ^ 64 })
  else .ok ()

def Page.tryAllocate (p : Page) (size : ℕ) : Option (ℕ × Page) :=
  match forRange 0 p.num (fun i _ => p.allocateTurn (roundUp size) i) () with
  | .error answer => some answer
  | .ok _ => none

/-- The turn of `VPAllocatorPage::TryFree` between the records `i` and `i + 1`. -/
def Page.freeTurn (p : Page) (addr size i : ℕ) : Except (Result × Page) Unit :=
  let r := p.ranges i
  let next := p.ranges (i + 1)
  let ending := (addr + size) % 2 ^ 64
  if addr = r.ending then
    if next.start = ending then
      .error (.done, (p.put i { r with ending := next.ending }).remove (i + 1))
    else if next.start > ending then .error (.done, p.put i { r with ending := ending })
    else .error (.error, p)
  else if r.ending < addr ∧ next.start > addr then
    if ending = next.start then .error (.done, p.put (i + 1) { next with start := addr })
    else if ending < next.start then
      if room : p.num < numRecords then .error (.done, p.insertBehind i ⟨addr, ending⟩ room)
      else .error (.noSpace, p)
    else .error (.error, p)
  else .ok ()

/-- The branch of `TryFree` for a region below the first record with a gap behind it: the records
are shifted at the end of the array, the first one is overwritten, and `num` stays. -/
def Page.freeBelow (p : Page) (addr ending : ℕ) : Page :=
  { p with
    ranges := update
      ((range' 1 (p.num - 1)).foldl (fun r i =>
        update r (numRecords - i) (r (numRecords - i - 1))) p.ranges) 0 ⟨addr, ending⟩ }

/-- `VPAllocatorPage::TryFree` on a size that has been rounded up. -/
def Page.tryFreeRounded (p : Page) (addr size : ℕ) : Result × Page :=
  let ending := (addr + size) % 2 ^ 64
  let first := p.ranges 0
  let last := p.ranges (p.num - 1)
  if empty : p.num = 0 then (.done, p.append ⟨addr, ending⟩ (by rw [empty]; decide))
  else if size ≤ 0 then (.done, p)
  else if first.start > addr then
    if first.start - addr > size then
      if p.num ≥ numRecords then (.noSpace, p) else (.done, p.freeBelow addr ending)
    else if first.start - addr = size then (.done, p.put 0 { first with start := addr })
    else (.error, p)
  else if last.ending < addr then
    if room : p.num < numRecords then (.done, p.append ⟨addr, ending⟩ room) else (.noSpace, p)
  else if last.ending = addr then (.done, p.put (p.num - 1) { last with ending := ending })
  else
    match forRange 0 (p.num - 1) (fun i _ => p.freeTurn addr size i) () with
    | .error answer => answer
    | .ok _ => (.error, p)

def Page.tryFree (p : Page) (addr size : ℕ) : Result × Page := p.tryFreeRounded addr (roundUp size)

/-! ## The chain of pages -/

def moveOneUp (pages : Page × Page) : Page × Page :=
  let (page, next) := pages
  if stop : next.num ≥ numRecords ∨ page.num ≤ 0 then (page, next)
  else
    ({ page with num := page.num - 1, num_le := (Nat.sub_le _ _).trans page.num_le },
      next.append (page.ranges (page.num - 1)) (by omega))

/-- `MoreRoom` with the pages behind `page`; `grants` are the answers of the page allocator, of
which a new page takes one. -/
def moreRoom (page : Page) (rest : List Page) (grants : List Bool) :
    Page × List Page × List Bool :=
  let newPage :=
    match grants with
    | true :: grants =>
      let half := if page.num / 2 ≤ 0 ∧ page.num > 0 then 1 else page.num / 2
      let (page, next) := moveOneUp^[half] (page, .empty)
      (page, next :: rest, grants)
    | _ => (page, rest, grants.tail)
  match rest with
  | [] => newPage
  | next :: after =>
    if numRecords - next.num < 2 then newPage
    else
      let (page, next) := moveOneUp (moveOneUp (page, next))
      (page, next :: after, grants)

/-- An operation of a page, tried once more after `MoreRoom` if there was no space. -/
def attempt (op : Page → Result × Page) (page : Page) (rest : List Page) (grants : List Bool) :
    Result × Page × List Page × List Bool :=
  match op page with
  | (.noSpace, page) =>
    let (page, rest, grants) := moreRoom page rest grants
    let (result, page) := op page
    (result, page, rest, grants)
  | (result, page) => (result, page, rest, grants)

/-- `VPAllocator`: whether there is a page allocator, and the pages in link order. -/
structure Allocator where
  pageAllocator : Bool
  pages : List Page

/-- The loop of `VPAllocator::TryAllocateFromAddress` over the pages that remain. -/
def allocateFromAddressLoop (addr size : ℕ) :
    ℕ → List Bool → List Page → Option (Result × List Page)
  | 0, _, _ => none
  | _ + 1, _, [] => some (.error, [])
  | fuel + 1, grants, page :: rest =>
    match page.getStart, page.getEnd with
    | some start, some ending =>
      if start > addr then some (.error, page :: rest)
      else if ending < addr then
        (allocateFromAddressLoop addr size fuel grants rest).map fun (result, rest) =>
          (result, page :: rest)
      else
        let (result, page, rest, grants) :=
          attempt (·.tryAllocateFromAddress addr size) page rest grants
        if result = .done ∨ result = .noSpace then some (result, page :: rest)
        else
          (allocateFromAddressLoop addr size fuel grants rest).map fun (result, rest) =>
            (result, page :: rest)
    | _, _ =>
      (allocateFromAddressLoop addr size fuel grants rest).map fun (result, rest) =>
        (result, page :: rest)

/-- The turns of a loop over a chain that grows by at most one page at each of its pages. -/
def turns (pages : List Page) : ℕ := 2 * pages.length + 1

def Allocator.tryAllocateFromAddress (a : Allocator) (addr size : ℕ) (grants : List Bool) :
    Option (Result × Allocator) :=
  if a.pageAllocator then
    (allocateFromAddressLoop addr size (turns a.pages) grants a.pages).map fun (result, pages) =>
      (result, { a with pages })
  else some (.error, a)

/-- The loop of `VPAllocator::TryAllocate`. -/
def allocateLoop (size : ℕ) : List Page → Option (ℕ × List Page)
  | [] => none
  | page :: rest =>
    match if page.hasFree then page.tryAllocate size else none with
    | some (addr, page) => some (addr, page :: rest)
    | none => (allocateLoop size rest).map fun (addr, rest) => (addr, page :: rest)

def Allocator.tryAllocate (a : Allocator) (size : ℕ) : Option (ℕ × Allocator) :=
  if a.pageAllocator then
    (allocateLoop size a.pages).map fun (addr, pages) => (addr, { a with pages })
  else none

/-- The variables of the loop of `VPAllocator::TryFree`; the ending page is named by its place. -/
structure FreeLoop where
  passed : List Page
  grants : List Bool
  theEndingPage : Option ℕ
  ending : ℕ
  allEmpty : Bool

/-- The loop of `VPAllocator::TryFree`, left with an answer or at the end of the chain.  `end` is
assigned from an `optional`, which converts to a word through its `operator bool`. -/
def freeLoop (addr size : ℕ) :
    ℕ → FreeLoop → List Page → Option (Except (Result × List Page) FreeLoop)
  | 0, _, _ => none
  | _ + 1, s, [] => some (.ok s)
  | fuel + 1, s, page :: rest =>
    if page.hasFree ∨ ¬s.allEmpty then
      let s := if page.hasFree then
        { s with allEmpty := false
                 theEndingPage := some s.passed.length
                 ending := page.getEnd.isSome.toNat }
        else { s with allEmpty := false }
      if s.ending < addr ∧ rest ≠ [] then
        freeLoop addr size fuel { s with passed := s.passed ++ [page] } rest
      else
        let (result, page, rest, grants) := attempt (·.tryFree addr size) page rest s.grants
        if result = .done ∨ result = .noSpace then
          some (.error (result, s.passed ++ page :: rest))
        else freeLoop addr size fuel { s with passed := s.passed ++ [page], grants } rest
    else freeLoop addr size fuel { s with passed := s.passed ++ [page] } rest

/-- `VPAllocator::TryFree`; `fuel` bounds how often it calls itself. -/
def tryFreePages (addr size : ℕ) : ℕ → List Bool → List Page → Option (Result × List Page)
  | 0, _, _ => none
  | fuel + 1, grants, pages =>
    match freeLoop addr size (turns pages) ⟨[], grants, none, 0, true⟩ pages with
    | none => none
    | some (.error answer) => some answer
    | some (.ok s) =>
      match s.allEmpty, s.passed with
      | true, first :: rest =>
        let (result, first) := first.tryFree addr size
        some (result, first :: rest)
      | _, pages =>
        match s.theEndingPage.bind fun i => (pages.drop i).head?.map fun page => (i, page) with
        | none => some (.error, pages)
        | some (i, page) =>
          let (result, page) := page.tryFree addr size
          if result = .noSpace then
            let (page, rest, grants) := moreRoom page (pages.drop (i + 1)) s.grants
            tryFreePages addr size fuel grants (pages.take i ++ page :: rest)
          else some (result, pages.take i ++ page :: pages.drop (i + 1))

def Allocator.tryFree (a : Allocator) (addr size : ℕ) (grants : List Bool) :
    Option (Result × Allocator) :=
  if a.pageAllocator then
    (tryFreePages addr size (turns a.pages) grants a.pages).map fun (result, pages) =>
      (result, { a with pages })
  else some (.error, a)

/-! ## The records of a page as a list -/

def slots (ranges : ℕ → Range) (lo hi : ℕ) : List Range := (range' lo (hi - lo)).map ranges

def Page.records (p : Page) : List Range := slots p.ranges 0 p.num

section Slots

variable {ranges ranges' : ℕ → Range} {lo mid hi i num : ℕ}

theorem slots_append (low : lo ≤ mid) (high : mid ≤ hi) :
    slots ranges lo hi = slots ranges lo mid ++ slots ranges mid hi := by
  obtain ⟨m, rfl⟩ := Nat.exists_eq_add_of_le low
  obtain ⟨n, rfl⟩ := Nat.exists_eq_add_of_le high
  simp only [slots, ← map_append, range'_append_1, show lo + m + n - lo = m + n by omega,
    show lo + m - lo = m by omega, show lo + m + n - (lo + m) = n by omega]

theorem slots_self : slots ranges lo lo = [] := by
  simp [slots]

theorem slots_succ (h : lo < hi) : slots ranges lo hi = ranges lo :: slots ranges (lo + 1) hi := by
  obtain ⟨n, rfl⟩ := Nat.exists_eq_add_of_lt h
  simp only [slots, show lo + n + 1 - lo = n + 1 by omega,
    show lo + n + 1 - (lo + 1) = n by omega, range'_succ, map_cons]

theorem slots_congr (h : ∀ k, lo ≤ k → k < hi → ranges k = ranges' k) :
    slots ranges lo hi = slots ranges' lo hi := by
  refine map_congr_left fun k mem => ?_
  obtain ⟨low, high⟩ := mem_range'_1.mp mem
  exact h k low (by omega)

theorem slots_update_of_le (r : Range) (h : hi ≤ i) :
    slots (update ranges i r) lo hi = slots ranges lo hi :=
  slots_congr fun _ _ _ => update_of_ne (by omega) _ _

theorem slots_update_of_lt (r : Range) (h : i < lo) :
    slots (update ranges i r) lo hi = slots ranges lo hi :=
  slots_congr fun _ _ _ => update_of_ne (by omega) _ _

theorem slots_shift (h : ∀ k, lo ≤ k → k < hi → ranges k = ranges' (k + 1)) :
    slots ranges lo hi = slots ranges' (lo + 1) (hi + 1) := by
  have same : slots ranges lo hi = slots (fun k => ranges' (k + 1)) lo hi := slots_congr h
  rw [same]
  simp only [slots, Nat.add_sub_add_right, range'_succ_left, map_map]
  rfl

theorem shiftDown_apply (k : ℕ) : shiftDown ranges i num k =
    if i ≤ k ∧ k + 1 < num then ranges (k + 1) else ranges k := by
  unfold shiftDown
  induction n : num - (i + 1) generalizing i ranges with
  | zero =>
    rw [if_neg (by omega)]
    rfl
  | succ n ih =>
    rw [range'_succ, foldl_cons, ih (by omega)]
    simp only [Nat.add_sub_cancel]
    rcases lt_trichotomy k i with below | rfl | above
    · rw [if_neg (by omega), if_neg (by omega), update_of_ne below.ne]
    · rw [if_neg (by omega), if_pos (by omega), update_self]
    · rw [update_of_ne (by omega), update_of_ne above.ne']
      refine if_congr ?_ rfl rfl
      omega

theorem shiftUp_apply (h : i < num) (k : ℕ) : shiftUp ranges i num k =
    if i + 1 < k ∧ k ≤ num then ranges (k - 1) else ranges k := by
  -- After `m` turns the records above `num - m` have moved.
  have moved : ∀ m < num, (range m).foldl
      (fun r j => update r (num - j) (r (num - j - 1))) ranges k =
      if num - m < k ∧ k ≤ num then ranges (k - 1) else ranges k := by
    intro m small
    induction m generalizing k with
    | zero =>
      rw [if_neg (by omega)]
      rfl
    | succ m ih =>
      rw [range_succ, foldl_append, foldl_cons, foldl_nil]
      by_cases here : k = num - m
      · subst here
        rw [update_self, ih _ (by omega), if_neg (by omega), if_pos (by omega)]
      · rw [update_of_ne here, ih _ (by omega)]
        refine if_congr ?_ rfl rfl
        omega
  rw [shiftUp, moved _ (by omega)]
  refine if_congr ?_ rfl rfl
  omega

end Slots

section Records

variable {p : Page} {i : ℕ} {r : Range}

theorem records_at (h : i < p.num) : p.records =
    slots p.ranges 0 i ++ ([p.ranges i] ++ slots p.ranges (i + 1) p.num) := by
  rw [Page.records, slots_append (Nat.zero_le i) h.le, slots_succ h]
  rfl

theorem records_put (h : i < p.num) : (p.put i r).records =
    slots p.ranges 0 i ++ ([r] ++ slots p.ranges (i + 1) p.num) := by
  rw [records_at (p := p.put i r) h]
  simp only [Page.put, update_self, slots_update_of_le r le_rfl,
    slots_update_of_lt r i.lt_succ_self]

theorem records_remove (h : i < p.num) : (p.remove i).records =
    slots p.ranges 0 i ++ ([] ++ slots p.ranges (i + 1) p.num) := by
  have count : p.num - 1 + 1 = p.num := by omega
  have left : slots (p.remove i).ranges 0 i = slots p.ranges 0 i :=
    slots_congr fun k _ _ => (shiftDown_apply k).trans (if_neg (by omega))
  have right : slots (p.remove i).ranges i (p.num - 1) = slots p.ranges (i + 1) (p.num - 1 + 1) :=
    slots_shift fun k _ _ => (shiftDown_apply k).trans (if_pos (by omega))
  rw [count] at right
  change slots (p.remove i).ranges 0 (p.num - 1) = _
  rw [slots_append (Nat.zero_le i) (Nat.le_sub_one_of_lt h), left, right]
  rfl

section

variable (room : p.num < numRecords) (h : i < p.num)

include room h

theorem slots_insertBehind_below {hi : ℕ} (small : hi ≤ i + 1) :
    slots (p.insertBehind i r room).ranges 0 hi = slots p.ranges 0 hi :=
  (slots_update_of_le r small).trans
    (slots_congr fun k _ _ => (shiftUp_apply h k).trans (if_neg (by omega)))

theorem slots_insertBehind_above :
    slots (p.insertBehind i r room).ranges (i + 1) (p.num + 1) =
      r :: slots p.ranges (i + 1) p.num := by
  have shifted : slots p.ranges (i + 1) p.num =
      slots (shiftUp p.ranges i p.num) (i + 1 + 1) (p.num + 1) :=
    slots_shift fun k _ _ => ((shiftUp_apply h (k + 1)).trans (if_pos (by omega))).symm
  rw [slots_succ (by omega), shifted]
  simp only [Page.insertBehind, update_self, slots_update_of_lt r (i + 1).lt_succ_self]

theorem records_insertBehind :
    (p.insertBehind i r room).records =
      slots p.ranges 0 (i + 1) ++ ([r] ++ slots p.ranges (i + 1) p.num) := by
  change slots (p.insertBehind i r room).ranges 0 (p.num + 1) = _
  rw [slots_append (Nat.zero_le (i + 1)) (by omega), slots_insertBehind_below room h le_rfl,
    slots_insertBehind_above room h]
  rfl

theorem records_insertBehind_put (r' : Range) :
    ((p.insertBehind i r room).put i r').records =
      slots p.ranges 0 i ++ ([r', r] ++ slots p.ranges (i + 1) p.num) := by
  rw [records_put (p := p.insertBehind i r room) (Nat.lt_succ_of_lt h),
    slots_insertBehind_below room h i.le_succ]
  exact congrArg (fun l => _ ++ (r' :: l)) (slots_insertBehind_above room h)

end

theorem records_append (room : p.num < numRecords) :
    (p.append r room).records = p.records ++ [r] := by
  rw [records_at (p := p.append r room) (i := p.num) (Nat.lt_succ_self _)]
  simp only [Page.append, update_self, slots_update_of_le r le_rfl, slots_self]
  rfl

theorem records_merge (h : i + 1 < p.num) : ((p.put i r).remove (i + 1)).records =
    slots p.ranges 0 i ++ ([r] ++ slots p.ranges (i + 2) p.num) := by
  rw [records_remove (p := p.put i r) h, nil_append, slots_append (Nat.zero_le i) i.le_succ,
    slots_succ i.lt_succ_self, append_assoc]
  simp only [Page.put, update_self, slots_update_of_le r le_rfl,
    slots_update_of_lt r (show i < i + 1 + 1 by omega), slots_self, cons_append, nil_append]

theorem range_mem_records (h : i < p.num) : p.ranges i ∈ p.records := by
  rw [records_at h]
  simp

end Records

/-! ## What an operation of a page does -/

variable {k : ℕ}

section Operations

variable {p p' : Page} {addr size i : ℕ} {L R old new : List Range} {region : Set ℕ}

theorem start_lt_ending (h : Ordered p.records) (small : i < p.num) :
    (p.ranges i).start < (p.ranges i).ending :=
  h.1 _ (range_mem_records small)

theorem took_of_cut (h : Ordered p.records) (small : i < p.num)
    (after : p'.records = slots p.ranges 0 i ++ (new ++ slots p.ranges (i + 1) p.num))
    (ordered : Ordered new) (low : (p.ranges i).start ≤ addr)
    (high : addr + size ≤ (p.ranges i).ending)
    (left : ∀ x, x ∈ cover new ↔ ((p.ranges i).start ≤ x ∧ x < addr) ∨
      (addr + size ≤ x ∧ x < (p.ranges i).ending)) :
    Took p.records p'.records (Set.Ico addr (addr + size)) := by
  have took : Took [p.ranges i] new (Set.Ico addr (addr + size)) := by
    refine ⟨?_, ordered, ?_⟩
    · rintro x ⟨above, below⟩
      simp only [mem_cover_cons, mem_cover_nil, or_false]
      omega
    · ext x
      simp only [left, Set.mem_sdiff, mem_cover_cons, mem_cover_nil, or_false, Set.mem_Ico]
      omega
  rw [records_at small] at h ⊢
  rw [after]
  exact took.splice h

/-- What `TryAllocateFromAddress` answers: the region is taken, or nothing changes. -/
def FromAddress (p : Page) (addr size : ℕ) (answer : Result × Page) : Prop :=
  match answer.1 with
  | .done => Took p.records answer.2.records (Set.Ico addr (addr + size))
  | _ => answer.2 = p

theorem allocateFromAddressTurn_post (h : Ordered p.records) (small : i < p.num)
    (nowrap : addr + size < 2 ^ 64) :
    Post (fun _ => True) (FromAddress p addr size) (p.allocateFromAddressTurn addr size i) := by
  unfold Page.allocateFromAddressTurn
  simp only [Nat.mod_eq_of_lt nowrap]
  split_ifs with atStart whole more inside upper split room
  · refine took_of_cut h small (records_remove small) ordered_nil (by omega) (by omega)
      fun x => ?_
    simp only [mem_cover_nil, false_iff]
    omega
  · refine took_of_cut h small (records_put small) (ordered_singleton more) (by omega) (by omega)
      fun x => ?_
    simp only [mem_cover_cons, mem_cover_nil, or_false]
    omega
  · rfl
  · refine took_of_cut h small (records_put small) (ordered_singleton inside) (by omega) (by omega)
      fun x => ?_
    simp only [mem_cover_cons, mem_cover_nil, or_false]
    omega
  · refine took_of_cut h small (records_insertBehind_put room small _)
      (ordered_pair inside (Nat.le_add_right _ _) split) (by omega) (by omega) fun x => ?_
    simp only [mem_cover_cons, mem_cover_nil, or_false]
  · rfl
  · trivial
  · rfl
  · rfl

theorem tryAllocateFromAddress_spec (h : Ordered p.records) (nowrap : addr + size < 2 ^ 64) :
    FromAddress p addr size (p.tryAllocateFromAddress addr size) := by
  have post := forRange_post (s := ()) (I := fun _ _ => True) (Nat.zero_le p.num)
    (fun i _ _ small _ => allocateFromAddressTurn_post h small nowrap) trivial
  unfold Page.tryAllocateFromAddress
  split
  · next answer left => rwa [left] at post
  · rfl

theorem allocateTurn_post (size : ℕ) (h : Ordered p.records) (small : i < p.num)
    (bounded : (p.ranges i).ending < 2 ^ 64) :
    Post (fun _ => True) (fun answer => Took p.records answer.2.records (Set.Ico answer.1 (answer.1 + size)))
      (p.allocateTurn size i) := by
  have nonempty := start_lt_ending h small
  have avail : ((p.ranges i).ending + 2 ^ 64 - (p.ranges i).start) % 2 ^ 64 =
      (p.ranges i).ending - (p.ranges i).start := by omega
  unfold Page.allocateTurn
  simp only [avail]
  split_ifs with whole more
  · refine took_of_cut h small (records_remove small) ordered_nil le_rfl (by omega)
      fun x => ?_
    simp only [mem_cover_nil, false_iff]
    omega
  · have nowrap : (p.ranges i).start + size < 2 ^ 64 := by omega
    refine took_of_cut h small (records_put small) (ordered_singleton (by dsimp only; omega)) le_rfl
      (by omega) fun x => ?_
    simp only [mem_cover_cons, mem_cover_nil, or_false]
    omega
  · trivial

/-- The size of the region that a request for `size` bytes gets. -/
def wholePages (size : ℕ) : ℕ := (size + 4095) / 4096 * 4096

theorem roundUp_eq (small : wholePages size < 2 ^ 64) : roundUp size = wholePages size := by
  unfold roundUp wholePages at *
  split_ifs <;> omega

theorem tryAllocate_spec {answer : ℕ × Page} (h : Ordered p.records)
    (bounded : ∀ x ∈ cover p.records, x + 1 < 2 ^ 64) (found : p.tryAllocate size = some answer) :
    Took p.records answer.2.records (Set.Ico answer.1 (answer.1 + roundUp size)) := by
  have below : ∀ i < p.num, (p.ranges i).ending < 2 ^ 64 := fun i small => by
    have nonempty := start_lt_ending h small
    have := bounded ((p.ranges i).ending - 1) ⟨_, range_mem_records small, by omega, by omega⟩
    omega
  have post := forRange_post (s := ()) (I := fun _ _ => True) (Nat.zero_le p.num)
    (fun i _ _ small _ => allocateTurn_post (roundUp size) h small (below i small)) trivial
  unfold Page.tryAllocate at found
  split at found
  · next answer left =>
    cases found
    rwa [left] at post
  · cases found

/-- A page below which no gap opens: it is empty, or the region does not lie below its first record,
or it ends there. -/
def Page.InOrder (p : Page) (addr size : ℕ) : Prop :=
  p.num = 0 ∨ (p.ranges 0).start ≤ addr ∨ addr + size = (p.ranges 0).start

/-- What `TryFree` answers: the region is added, or the page is full and nothing changes. -/
def Freed (p : Page) (addr size : ℕ) (answer : Result × Page) : Prop :=
  (answer.1 = .done ∧ Gave p.records answer.2.records (Set.Ico addr (addr + size))) ∨
    (answer.1 = .noSpace ∧ answer.2 = p)

/-- The records in order, and a region in the gaps between them. -/
structure Freeable (p : Page) (addr size : ℕ) : Prop where
  ordered : Ordered p.records
  positive : 0 < size
  nowrap : addr + size < 2 ^ 64
  gap : ∀ x ∈ cover p.records, x < addr ∨ addr + size ≤ x

theorem records_two (small : i + 1 < p.num) : p.records = slots p.ranges 0 i ++
    ([p.ranges i, p.ranges (i + 1)] ++ slots p.ranges (i + 2) p.num) := by
  rw [records_at (i := i) (by omega), slots_succ small]
  rfl

variable {ranges : ℕ → Range}

theorem pairwise_ranges {R : Range → Range → Prop} (h : p.records.Pairwise R) (lt : k < i)
    (small : i < p.num) : R (p.ranges k) (p.ranges i) := by
  have pair := pairwise_iff_getElem.mp h k i (by simp [Page.records, slots]; omega)
    (by simpa [Page.records, slots] using small) lt
  simpa [Page.records, slots] using pair

theorem ending_le_start (h : Ordered p.records) (lt : k < i) (small : i < p.num) :
    (p.ranges k).ending ≤ (p.ranges i).start :=
  pairwise_ranges h.2 lt small

theorem start_le_start (h : Ordered p.records) (le : i ≤ k) (small : k < p.num) :
    (p.ranges i).start ≤ (p.ranges k).start := by
  rcases le.eq_or_lt with rfl | lt
  · exact le_rfl
  · exact (start_lt_ending h (lt.trans small)).le.trans (ending_le_start h lt small)

theorem ending_le_ending (h : Ordered p.records) (le : k ≤ i) (small : i < p.num) :
    (p.ranges k).ending ≤ (p.ranges i).ending := by
  rcases le.eq_or_lt with rfl | lt
  · exact le_rfl
  · exact (ending_le_start h lt small).trans (start_lt_ending h small).le

/-- What `TryFree` answers for any region: it is added, with `g` numbers between the records, or
nothing changes because the page is full or the region overlaps. -/
structure Frees (g : ℕ) (p : Page) (addr size : ℕ) (answer : Result × Page) : Prop where
  done : answer.1 = .done → (∀ x ∈ cover p.records, x < addr ∨ addr + size ≤ x) ∧
    Spaced g answer.2.records ∧
    cover answer.2.records = cover p.records ∪ Set.Ico addr (addr + size)
  kept : answer.1 ≠ .done → answer.2 = p
  full : answer.1 = .noSpace → p.num = numRecords
  overlap : answer.1 = .error → ∃ x ∈ cover p.records, addr ≤ x ∧ x < addr + size

section Frees

variable {g : ℕ}

theorem Frees.noSpace (full : ¬p.num < numRecords) : Frees g p addr size (.noSpace, p) :=
  ⟨by simp, fun _ => rfl, fun _ => by have := p.num_le; omega, by simp⟩

theorem Frees.error (small : i < p.num) {x : ℕ}
    (inside : (p.ranges i).start ≤ x ∧ x < (p.ranges i).ending)
    (region : addr ≤ x ∧ x < addr + size) : Frees g p addr size (.error, p) :=
  ⟨by simp, fun _ => rfl, by simp, fun _ => ⟨x, ⟨_, range_mem_records small, inside⟩, region⟩⟩

theorem mem_slots {ranges : ℕ → Range} {lo hi : ℕ} {r : Range} (mem : r ∈ slots ranges lo hi) :
    ∃ k, (lo ≤ k ∧ k < hi) ∧ ranges k = r := by
  obtain ⟨k, range, eq⟩ := mem_map.mp mem
  obtain ⟨low, high⟩ := mem_range'_1.mp range
  exact ⟨k, ⟨low, by omega⟩, eq⟩

/-- The records `old` become one that also covers the region. -/
theorem frees_of_cover {a b : ℕ} {r : Range} (h : Spaced g p.records)
    (before : p.records = slots p.ranges 0 a ++ (old ++ slots p.ranges b p.num))
    (after : p'.records = slots p.ranges 0 a ++ ([r] ++ slots p.ranges b p.num))
    (positive : 0 < size) (low : ∀ k < a, (p.ranges k).ending + g ≤ r.start)
    (high : ∀ k, b ≤ k → k < p.num → r.ending + g ≤ (p.ranges k).start)
    (eq : ∀ x, r.start ≤ x ∧ x < r.ending ↔ x ∈ cover old ∨ (addr ≤ x ∧ x < addr + size))
    (apart : ∀ x ∈ cover old, x < addr ∨ addr + size ≤ x) :
    Frees g p addr size (.done, p') := by
  have first := (eq addr).mpr (.inr ⟨le_rfl, by omega⟩)
  have last := (eq (addr + size - 1)).mpr (.inr ⟨by omega, by omega⟩)
  refine ⟨fun _ => ⟨fun x mem => ?_, ?_, ?_⟩, fun other => absurd rfl other, by simp, by simp⟩
  · rw [before, cover_append, cover_append] at mem
    rcases mem with ⟨s, mem, inside⟩ | mem | ⟨s, mem, inside⟩
    · obtain ⟨k, ⟨-, lt⟩, rfl⟩ := mem_slots mem
      have := low k lt
      omega
    · exact apart x mem
    · obtain ⟨k, ⟨ge, lt⟩, rfl⟩ := mem_slots mem
      have := high k ge lt
      omega
  · rw [before] at h
    rw [after]
    refine h.splice (by omega) (fun s mem => ?_) fun s mem => ?_
    · obtain ⟨k, ⟨-, lt⟩, rfl⟩ := mem_slots mem
      exact low k lt
    · obtain ⟨k, ⟨ge, lt⟩, rfl⟩ := mem_slots mem
      exact high k ge lt
  · rw [before, after]
    ext x
    simp only [cover_append, mem_cover_cons, mem_cover_nil, or_false, Set.mem_union, Set.mem_Ico, eq]
    tauto

variable (h : Spaced g p.records) (few : g ≤ 1) (positive : 0 < size) (nowrap : addr + size < 2 ^ 64)

include h few positive nowrap

/-- A turn is entered with a record that starts at or below the region, unless the region starts in a
record. -/
theorem freeTurn_post (small : i + 1 < p.num)
    (low : (p.ranges i).start ≤ addr ∨ ∃ k < i, (p.ranges k).start ≤ addr ∧ addr < (p.ranges k).ending) :
    Post (fun _ => (p.ranges (i + 1)).start ≤ addr ∨
        ∃ k < i + 1, (p.ranges k).start ≤ addr ∧ addr < (p.ranges k).ending)
      (Frees g p addr size) (p.freeTurn addr size i) := by
  have nonempty := start_lt_ending h.ordered (i := i) (by omega)
  have nonempty' := start_lt_ending h.ordered small
  have gap : (p.ranges i).ending + g ≤ (p.ranges (i + 1)).start :=
    pairwise_ranges h.2 i.lt_succ_self small
  have left : ∀ k < i, (p.ranges k).ending + g ≤ (p.ranges i).start := fun k lt =>
    pairwise_ranges h.2 lt (by omega)
  have left' : ∀ k < i + 1, (p.ranges k).ending ≤ (p.ranges i).ending := fun k lt =>
    ending_le_ending h.ordered (Nat.le_of_lt_succ lt) (by omega)
  have right : ∀ k, i + 1 ≤ k → k < p.num → (p.ranges (i + 1)).start ≤ (p.ranges k).start :=
    fun k le lt => start_le_start h.ordered le lt
  have right' : ∀ k, i + 2 ≤ k → k < p.num → (p.ranges (i + 1)).ending + g ≤ (p.ranges k).start :=
    fun k le lt => pairwise_ranges h.2 le lt
  unfold Page.freeTurn
  simp only [Nat.mod_eq_of_lt nowrap]
  split_ifs with atEnd joins before between joins before room
  · refine frees_of_cover h (records_two small) (records_merge small) positive left right'
      (fun x => ?_) fun x => ?_ <;> simp only [mem_cover_cons, mem_cover_nil, or_false] <;> omega
  · refine frees_of_cover h (records_at (by omega)) (records_put (by omega)) positive left
      (fun k le lt => by have := right k le lt; dsimp only; omega) (fun x => ?_) fun x => ?_ <;>
        simp only [mem_cover_cons, mem_cover_nil, or_false] <;> omega
  · exact .error small ⟨le_rfl, nonempty'⟩ (by omega)
  · refine frees_of_cover h (records_at small) (records_put small) positive
      (fun k lt => by have := left' k lt; dsimp only; omega) right' (fun x => ?_) fun x => ?_ <;>
        simp only [mem_cover_cons, mem_cover_nil, or_false] <;> omega
  · have split : p.records = slots p.ranges 0 (i + 1) ++ ([] ++ slots p.ranges (i + 1) p.num) :=
      slots_append (Nat.zero_le _) small.le
    refine frees_of_cover h split (records_insertBehind room (by omega)) positive
      (fun k lt => by have := left' k lt; dsimp only; omega)
      (fun k le lt => by have := right k le lt; dsimp only; omega) (fun x => ?_) fun x => ?_ <;>
        simp only [mem_cover_nil, false_or, false_imp_iff]
  · exact .noSpace room
  · exact .error small ⟨le_rfl, nonempty'⟩ (by omega)
  · rcases low with low | reached
    · by_cases inside : addr < (p.ranges i).ending
      · exact .inr ⟨i, i.lt_succ_self, low, inside⟩
      · exact .inl (by omega)
    · obtain ⟨k, lt, inside⟩ := reached
      exact .inr ⟨k, Nat.lt_succ_of_lt lt, inside⟩

/-- `TryFree`, unless it opens a gap below the first record. -/
theorem tryFreeRounded_frees
    (closed : p.num = 0 ∨ (p.ranges 0).start ≤ addr + size ∨ p.num = numRecords) :
    Frees g p addr size (p.tryFreeRounded addr size) := by
  unfold Page.tryFreeRounded
  simp only [Nat.mod_eq_of_lt nowrap]
  split_ifs with empty zero below more full joins behind room touches
  · have none : p.records = [] := by rw [Page.records, empty, slots_self]
    have split : p.records = slots p.ranges 0 0 ++ ([] ++ slots p.ranges p.num p.num) := by
      simp [none, slots_self]
    refine frees_of_cover (r := ⟨addr, addr + size⟩) h split ?_ positive (by simp) (by omega)
      (fun x => ?_) (by simp)
    · rw [records_append, none, slots_self, slots_self]
      rfl
    · simp only [mem_cover_nil, false_or]
  · omega
  · exact .noSpace (by omega)
  · rcases closed with none | above | full <;> omega
  · have start := start_lt_ending h.ordered (i := 0) (by omega)
    refine frees_of_cover h (records_at (i := 0) (by omega)) (records_put (by omega)) positive
      (by simp) (fun k le lt => pairwise_ranges h.2 le lt) (fun x => ?_) fun x => ?_ <;>
        simp only [mem_cover_cons, mem_cover_nil, or_false] <;> omega
  · have start := start_lt_ending h.ordered (i := 0) (by omega)
    exact .error (i := 0) (by omega) ⟨le_rfl, start⟩ (by omega)
  · have behind' : ∀ k < p.num, (p.ranges k).ending ≤ (p.ranges (p.num - 1)).ending := fun k lt =>
      ending_le_ending h.ordered (Nat.le_sub_one_of_lt lt) (by omega)
    have split : p.records = slots p.ranges 0 p.num ++ ([] ++ slots p.ranges p.num p.num) := by
      simp [slots_self, Page.records]
    refine frees_of_cover h split (by simpa [slots_self, Page.records] using records_append room) positive
      (fun k lt => by have := behind' k lt; dsimp only; omega) (by omega) (fun x => ?_) (by simp)
    simp only [mem_cover_nil, false_or]
  · exact .noSpace room
  · have start := start_lt_ending h.ordered (i := p.num - 1) (by omega)
    refine frees_of_cover h (records_at (i := p.num - 1) (by omega)) (records_put (by omega)) positive
      (fun k lt => pairwise_ranges h.2 lt (by omega)) (by omega) (fun x => ?_) fun x => ?_ <;>
        simp only [mem_cover_cons, mem_cover_nil, or_false] <;> omega
  · -- The region starts between the first and the last record, so a turn finds its place or it overlaps.
    have post := forRange_post (s := ()) (E := Frees g p addr size) (I := fun i _ =>
        (p.ranges i).start ≤ addr ∨ ∃ k < i, (p.ranges k).start ≤ addr ∧ addr < (p.ranges k).ending)
      (Nat.zero_le (p.num - 1))
      (fun i _ _ small low => freeTurn_post h few positive nowrap (by omega) low) (.inl (by omega))
    split
    · next answer left => rwa [left] at post
    · next s left =>
      rw [left] at post
      rcases post with low | ⟨k, lt, inside⟩
      · exact .error (i := p.num - 1) (by omega) ⟨low, by omega⟩ ⟨le_rfl, by omega⟩
      · exact .error (i := k) (by omega) inside ⟨le_rfl, by omega⟩

end Frees

theorem tryFreeRounded_spec (h : Freeable p addr size) (inOrder : p.InOrder addr size) :
    Freed p addr size (p.tryFreeRounded addr size) := by
  have frees := tryFreeRounded_frees (g := 0) h.ordered (Nat.zero_le 1) h.positive h.nowrap
    (inOrder.imp_right fun order => .inl (by omega))
  cases result : (p.tryFreeRounded addr size).1 with
  | done =>
    obtain ⟨-, ordered, cover⟩ := frees.done result
    exact .inl ⟨result, ordered, cover⟩
  | noSpace => exact .inr ⟨result, frees.kept (by simp [result])⟩
  | error =>
    obtain ⟨x, mem, inside⟩ := frees.overlap result
    have := h.gap x mem
    omega

theorem tryFreeRounded_noSpace (h : (p.tryFreeRounded addr size).1 = .noSpace) :
    (p.tryFreeRounded addr size).2 = p := by
  have loop : Post (fun _ : Unit => True) (fun answer => answer.1 = .noSpace → answer.2 = p)
      (forRange 0 (p.num - 1) (fun i _ => p.freeTurn addr size i) ()) := by
    refine forRange_post (I := fun _ _ => True) (Nat.zero_le _) (fun i _ _ _ _ => ?_) trivial
    unfold Page.freeTurn
    dsimp only
    split_ifs <;> simp [Post]
  unfold Page.tryFreeRounded at h ⊢
  dsimp only at h ⊢
  split_ifs at h ⊢ <;> try (first | rfl | cases h)
  split at h
  · next answer left =>
    rw [left] at loop
    exact loop h
  · cases h

end Operations

end JeoKernel.VPAllocator

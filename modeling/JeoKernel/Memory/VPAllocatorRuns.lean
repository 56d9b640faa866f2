import Mathlib.Data.List.TakeWhile
import Mathlib.Data.Set.Lattice
import Mathlib.Order.CompletePartialOrder
import JeoKernel.Memory.VPAllocator

/-!
# Runs of the ARM page allocator

The chain as a set of free addresses.  `MoreRoom` appends the ranges it moves behind those of the
next page, `TryFree` brings almost every region to the last page, and a page loses ranges when a
region is freed below its first one; the runs below are those that do none of this.
-/

namespace JeoKernel.VPAllocator

open List Intervals Machine Set Prod

/-- The ranges of all pages in link order. -/
def chainRanges (pages : List Page) : List Range := pages.flatMap Page.records

/-- The allocator, and the addresses that were freed and not allocated since. -/
structure State where
  allocator : Allocator
  free : Set ℕ

/-- The calls, with the answers the page allocator gives during them. -/
inductive Action where
  | tryFree (addr size : UInt64) (grants : List Bool)
  | tryAllocate (size : UInt64)
  | tryAllocateFromAddress (addr size : UInt64) (grants : List Bool)

def region (addr size : ℕ) : Set ℕ := Set.Ico addr (addr + size)

def exec (s : State) : Action → Option State
  | .tryFree addr size grants =>
    (s.allocator.tryFree addr.toNat size.toNat grants).map fun (result, allocator) =>
      ⟨allocator, if result = .done then s.free ∪ region addr.toNat size.toNat else s.free⟩
  | .tryAllocate size =>
    some (match s.allocator.tryAllocate size.toNat with
      | some (addr, allocator) => ⟨allocator, s.free \ region addr (wholePages size.toNat)⟩
      | none => s)
  | .tryAllocateFromAddress addr size grants =>
    (s.allocator.tryAllocateFromAddress addr.toNat size.toNat grants).map fun (result, allocator) =>
      ⟨allocator, if result = .done then s.free \ region addr.toNat size.toNat else s.free⟩

/-- Only page-aligned regions are freed, and none that is free. -/
def Legal (s : State) : Action → Prop
  | .tryFree addr size _ =>
    4096 ∣ addr.toNat ∧ 4096 ∣ size.toNat ∧ Disjoint (region addr.toNat size.toNat) s.free
  | _ => True

/-! ## Steps that keep the chain in order -/

/-- `MoreRoom` moves nothing: there is no new page, and the next one has no room for two. -/
def NoRoom (rest : List Page) (grants : List Bool) : Prop :=
  grants.head? ≠ some true ∧ ∀ next ∈ rest.head?, numRecords - next.num < 2

/-- The pages before the one that `TryFree` tries, and that page with those behind it: the last
page, except for the region at address 0 and while all pages are empty. -/
def target (addr : ℕ) (pages : List Page) : List Page × List Page :=
  if pages.all (·.num = 0) then ([], pages)
  else if addr = 0 then (pages.takeWhile (·.num = 0), pages.dropWhile (·.num = 0))
  else (pages.dropLast, pages.getLast?.toList)

/-- The page that `TryFree` tries is the place of the region, or is full and stays so. -/
def FreeFits (pages : List Page) (addr size : ℕ) (grants : List Bool) : Prop :=
  ∀ before page behind, target addr pages = (before, page :: behind) →
    if (page.tryFree addr size).1 = .noSpace then NoRoom behind grants
    else page.InOrder addr size ∧ (∀ r ∈ chainRanges before, r.ending ≤ addr) ∧
      ∀ r ∈ chainRanges behind, addr + size ≤ r.start

/-- The condition on a step: no sum wraps around, no range moves to another page, and a region is
freed where it belongs. -/
def Fits (s : State) : Action → Prop
  | .tryFree addr size grants =>
    0 < size.toNat ∧ addr.toNat + size.toNat < 2 ^ 64 ∧
      FreeFits s.allocator.pages addr.toNat size.toNat grants
  | .tryAllocate size => wholePages size.toNat < 2 ^ 64
  | .tryAllocateFromAddress addr size grants =>
    addr.toNat + size.toNat < 2 ^ 64 ∧ ∀ before page behind,
      s.allocator.pages = before ++ page :: behind →
      (page.tryAllocateFromAddress addr.toNat size.toNat).1 = .noSpace → NoRoom behind grants

/-- The chain is the set of free addresses, every call returns, and an allocation takes what was
free. -/
structure Safe (s : State) : Prop where
  ordered : Ordered (chainRanges s.allocator.pages)
  cover_eq : cover (chainRanges s.allocator.pages) = s.free
  returns : ∀ a, Legal s a → Fits s a → (exec s a).isSome
  tryAllocate : ∀ size addr allocator, Fits s (.tryAllocate size) →
    s.allocator.tryAllocate size.toNat = some (addr, allocator) →
    region addr (wholePages size.toNat) ⊆ s.free
  tryAllocateFromAddress : ∀ addr size grants allocator,
    Fits s (.tryAllocateFromAddress addr size grants) →
    s.allocator.tryAllocateFromAddress addr.toNat size.toNat grants = some (.done, allocator) →
    region addr.toNat size.toNat ⊆ s.free

/-! ## The calls on the chain -/

variable {pages pages' rest before behind : List Page} {page page' : Page} {grants : List Bool}
  {addr size fuel : ℕ}

@[simp] theorem chainRanges_append (pages pages' : List Page) :
    chainRanges (pages ++ pages') = chainRanges pages ++ chainRanges pages' :=
  flatMap_append

@[simp] theorem chainRanges_cons (page : Page) (pages : List Page) :
    chainRanges (page :: pages) = page.records ++ chainRanges pages :=
  flatMap_cons

theorem moreRoom_eq (page : Page) (h : NoRoom rest grants) :
    moreRoom page rest grants = (page, rest, grants.tail) := by
  obtain ⟨refused, full⟩ := h
  have answers : grants = [] ∨ ∃ later, grants = false :: later := by
    rcases grants with _ | ⟨_ | _, later⟩
    · exact .inl rfl
    · exact .inr ⟨later, rfl⟩
    · exact absurd rfl refused
  cases rest with
  | nil => rcases answers with rfl | ⟨later, rfl⟩ <;> rfl
  | cons next after =>
    have nearlyFull := full next rfl
    rcases answers with rfl | ⟨later, rfl⟩ <;> simp only [moreRoom, if_pos nearlyFull]

theorem attempt_eq (op : Page → Result × Page)
    (unchanged : (op page).1 = .noSpace → (op page).2 = page ∧ NoRoom rest grants) :
    attempt op page rest grants = ((op page).1, (op page).2, rest,
      if (op page).1 = .noSpace then grants.tail else grants) := by
  unfold attempt
  split
  · next page' answer =>
    obtain ⟨same, noRoom⟩ := unchanged (by rw [answer])
    rw [answer] at same
    subst same
    rw [moreRoom_eq _ noRoom]
    simp only [answer, if_true]
  · next result page' other answer =>
    rw [answer, if_neg other]

/-- What `TryAllocateFromAddress` answers for the chain. -/
def ChainFromAddress (pages : List Page) (addr size : ℕ) (answer : Result × List Page) : Prop :=
  match answer.1 with
  | .done => Took (chainRanges pages) (chainRanges answer.2) (region addr size)
  | _ => answer.2 = pages

theorem ChainFromAddress.cons {answer : Result × List Page}
    (h : Ordered (chainRanges (page :: rest))) (later : ChainFromAddress rest addr size answer) :
    ChainFromAddress (page :: rest) addr size (answer.1, page :: answer.2) := by
  obtain ⟨result, pages⟩ := answer
  cases result with
  | done =>
    have took : Took (chainRanges rest) (chainRanges pages) (region addr size) := later
    simpa [ChainFromAddress] using
      took.splice (L := page.records) (R := []) (by simpa using h)
  | noSpace | error => exact congrArg _ later

theorem allocateFromAddressLoop_spec (nowrap : addr + size < 2 ^ 64)
    (h : Ordered (chainRanges pages))
    (full : ∀ before page behind, pages = before ++ page :: behind →
      (page.tryAllocateFromAddress addr size).1 = .noSpace → NoRoom behind grants)
    (enough : pages.length < fuel) :
    ∃ answer, allocateFromAddressLoop addr size fuel grants pages = some answer ∧
      ChainFromAddress pages addr size answer := by
  induction fuel generalizing pages with
  | zero => omega
  | succ fuel ih =>
    cases pages with
    | nil => exact ⟨_, rfl, rfl⟩
    | cons page rest =>
      have split := h
      obtain ⟨here, later, -⟩ := ordered_append.mp split
      obtain ⟨answer, rest_eq, spec⟩ := ih later (fun before page behind eq =>
        full (_ :: before) page behind (congrArg _ eq)) (Nat.lt_of_succ_lt_succ enough)
      -- The loop goes on with the pages behind this one.
      have goesOn : ∃ answer', ((allocateFromAddressLoop addr size fuel grants rest).map
          fun answer => (answer.1, page :: answer.2)) = some answer' ∧
          ChainFromAddress (page :: rest) addr size answer' :=
        ⟨_, by rw [rest_eq]; rfl, spec.cons h⟩
      have spec := tryAllocateFromAddress_spec here nowrap
      have same : (page.tryAllocateFromAddress addr size).1 ≠ .done →
          (page.tryAllocateFromAddress addr size).2 = page := by
        intro other
        unfold FromAddress at spec
        split at spec
        · next done => exact absurd done other
        · exact spec
      unfold allocateFromAddressLoop
      split
      · split_ifs with above below
        · exact ⟨_, rfl, rfl⟩
        · exact goesOn
        · rw [attempt_eq (·.tryAllocateFromAddress addr size) fun noSpace =>
            ⟨same (by simp [noSpace]), full [] page rest rfl noSpace⟩]
          cases result : (page.tryAllocateFromAddress addr size).1 with
          | done =>
            rw [FromAddress, result] at spec
            simpa [ChainFromAddress, region] using
              spec.splice (L := []) (R := chainRanges rest) split
          | noSpace =>
            refine ⟨_, if_pos (.inr rfl), ?_⟩
            rw [same (by simp [result])]
            rfl
          | error =>
            rw [same (by simp [result])]
            exact goesOn
      · exact goesOn

theorem allocateLoop_spec {answer : ℕ × List Page} (h : Ordered (chainRanges pages))
    (bounded : ∀ x ∈ cover (chainRanges pages), x + 1 < 2 ^ 64)
    (found : allocateLoop size pages = some answer) :
    Took (chainRanges pages) (chainRanges answer.2) (region answer.1 (roundUp size)) := by
  induction pages generalizing answer with
  | nil => cases found
  | cons page rest ih =>
    rw [chainRanges_cons] at h bounded
    rw [cover_append] at bounded
    obtain ⟨here, later, -⟩ := ordered_append.mp h
    unfold allocateLoop at found
    split at found
    · next addr page' taken =>
      cases found
      have found : page.tryAllocate size = some (addr, page') := by
        split_ifs at taken
        exact taken
      have took := tryAllocate_spec here (fun x mem => bounded x (.inl mem)) found
      simpa [region] using took.splice (L := []) (R := chainRanges rest) h
    · obtain ⟨⟨addr, rest'⟩, foundLater, rfl⟩ := Option.map_eq_some_iff.mp found
      have took := ih later (fun x mem => bounded x (.inr mem)) foundLater
      simpa using took.splice (L := page.records) (R := []) (by simpa using h)

/-! ## Which page takes a freed region -/

theorem hasFree_eq_false {page : Page} : page.hasFree = false ↔ page.num = 0 := by
  simp [Page.hasFree]

theorem hasFree_eq_true {page : Page} : page.hasFree = true ↔ page.num ≠ 0 := by
  simp [Page.hasFree, Nat.pos_iff_ne_zero]

theorem freeLoop_empty {s : FreeLoop} (empty : ∀ page ∈ before, page.num = 0)
    (allEmpty : s.allEmpty = true) (enough : before.length ≤ fuel) :
    freeLoop addr size fuel s (before ++ rest) =
      freeLoop addr size (fuel - before.length) { s with passed := s.passed ++ before } rest := by
  induction before generalizing s fuel with
  | nil => simp
  | cons page before ih =>
    obtain ⟨fuel, rfl⟩ := Nat.exists_eq_add_one.mpr (Nat.zero_lt_of_lt enough)
    have none : page.hasFree = false := hasFree_eq_false.mpr (empty page mem_cons_self)
    have later := ih (s := { s with passed := s.passed ++ [page] })
      (fun page mem => empty page (mem_cons_of_mem _ mem)) allEmpty (Nat.le_of_succ_le_succ enough)
    rw [length_cons, Nat.add_sub_add_right, cons_append, freeLoop,
      if_neg (by simp [none, allEmpty]), later]
    simp

/-- Above the first page every page but the last one is passed: the word made from the end of a
page is 1. -/
theorem freeLoop_pass (far : 1 < addr) (last : Page) {s : FreeLoop}
    (passing : s.allEmpty = true ∨ s.ending < addr) (enough : before.length ≤ fuel) :
    ∃ s' : FreeLoop, s'.passed = s.passed ++ before ∧ s'.grants = s.grants ∧
      s'.allEmpty = (s.allEmpty && before.all (·.num = 0)) ∧
      freeLoop addr size fuel s (before ++ [last]) =
        freeLoop addr size (fuel - before.length) s' [last] := by
  induction before generalizing s fuel with
  | nil => exact ⟨s, by simp, rfl, by simp, rfl⟩
  | cons page before ih =>
    obtain ⟨fuel, rfl⟩ := Nat.exists_eq_add_one.mpr (Nat.zero_lt_of_lt enough)
    have enough := Nat.le_of_succ_le_succ enough
    have more : before ++ [last] ≠ [] := by simp
    rw [length_cons, Nat.add_sub_add_right, cons_append, freeLoop]
    cases free : page.hasFree with
    | true =>
      have ending : page.getEnd.isSome.toNat < addr := (Bool.toNat_le _).trans_lt far
      rw [if_pos (.inl rfl)]
      rw [if_pos ⟨ending, more⟩]
      obtain ⟨s', passed, grants, allEmpty, eq⟩ := ih (s := { s with
        allEmpty := false
        theEndingPage := some s.passed.length
        ending := page.getEnd.isSome.toNat
        passed := s.passed ++ [page] }) (.inr ending) enough
      refine ⟨s', by simpa using passed, grants, ?_, eq⟩
      rw [allEmpty, all_cons, decide_eq_false (hasFree_eq_true.mp free)]
      simp
    | false =>
      cases seen : s.allEmpty with
      | true =>
        obtain ⟨s', passed, grants, allEmpty, eq⟩ := ih (s := { s with
          allEmpty := true
          passed := s.passed ++ [page] }) (.inl rfl) enough
        refine ⟨s', by simpa using passed, grants, ?_, eq⟩
        simp [allEmpty, hasFree_eq_false.mp free]
      | false =>
        have ending : s.ending < addr := passing.resolve_left (by simp [seen])
        rw [if_pos (.inr (by simp))]
        rw [if_pos ⟨ending, more⟩]
        obtain ⟨s', passed, grants, allEmpty, eq⟩ := ih (s := { s with
          allEmpty := false
          passed := s.passed ++ [page] }) (.inr ending) enough
        exact ⟨s', by simpa using passed, grants, by simpa using allEmpty, eq⟩

theorem freeLoop_try {s : FreeLoop} (reached : page.num ≠ 0 ∨ s.allEmpty = false)
    (tried : addr = 0 ∨ rest = [])
    (unchanged : (page.tryFree addr size).1 = .noSpace →
      (page.tryFree addr size).2 = page ∧ NoRoom rest s.grants)
    (answered : (page.tryFree addr size).1 ≠ .error) (enough : 0 < fuel) :
    let r := page.tryFree addr size
    freeLoop addr size fuel s (page :: rest) = some (.error (r.1, s.passed ++ r.2 :: rest)) := by
  have taken : page.hasFree = true ∨ ¬s.allEmpty = true :=
    reached.imp hasFree_eq_true.mpr (by simp)
  have result : (page.tryFree addr size).1 = .done ∨ (page.tryFree addr size).1 = .noSpace := by
    cases h : (page.tryFree addr size).1 <;> simp_all
  have stays : ∀ ending : ℕ, ¬(ending < addr ∧ rest ≠ []) := by
    rintro ending ⟨lt, more⟩
    rcases tried with rfl | rfl
    · omega
    · exact more rfl
  obtain ⟨fuel, rfl⟩ := Nat.exists_eq_add_one.mpr enough
  rw [freeLoop, if_pos taken]
  by_cases free : page.hasFree = true
  · simp only [if_pos free]
    rw [if_neg (stays _), attempt_eq (·.tryFree addr size) unchanged]
    exact if_pos result
  · simp only [if_neg free]
    rw [if_neg (stays _), attempt_eq (·.tryFree addr size) unchanged]
    exact if_pos result

theorem tryFreePages_eq (place : addr = 0 ∨ 1 < addr)
    (here : target addr pages = (before, page :: behind))
    (unchanged : (page.tryFree addr size).1 = .noSpace →
      (page.tryFree addr size).2 = page ∧ NoRoom behind grants)
    (answered : (page.tryFree addr size).1 ≠ .error) :
    let r := page.tryFree addr size
    tryFreePages addr size (fuel + 1) grants pages = some (r.1, before ++ r.2 :: behind) := by
  unfold tryFreePages
  unfold target at here
  split_ifs at here with empty first
  · obtain ⟨rfl, rfl⟩ := mk.inj here
    have loop : freeLoop addr size (turns (page :: behind)) ⟨[], grants, none, 0, true⟩
        (page :: behind ++ []) = some (.ok ⟨page :: behind, grants, none, 0, true⟩) := by
      rw [freeLoop_empty (by simpa using empty) rfl (by simp only [turns]; omega)]
      rw [turns, show 2 * (page :: behind).length + 1 - (page :: behind).length =
        (page :: behind).length + 1 by omega]
      rfl
    rw [append_nil] at loop
    rw [loop]
    rfl
  · obtain ⟨rfl, rest⟩ := mk.inj here
    have nonempty : page.num ≠ 0 := by
      have head := head?_dropWhile_not (fun p : Page => decide (p.num = 0)) pages
      rw [rest] at head
      simpa using head
    have chain : pages.takeWhile (·.num = 0) ++ page :: behind = pages := by
      rw [← rest]
      exact takeWhile_append_dropWhile
    have fewer : (pages.takeWhile (·.num = 0)).length ≤ pages.length :=
      (takeWhile_sublist _).length_le
    have loop : freeLoop addr size (turns pages) ⟨[], grants, none, 0, true⟩
        (pages.takeWhile (·.num = 0) ++ page :: behind) = _ :=
      freeLoop_empty (fun p mem => by simpa using mem_takeWhile_imp mem) rfl
        (by simp only [turns]; omega)
    rw [freeLoop_try (.inl nonempty) (.inl first) unchanged answered
      (by simp only [turns]; omega), chain] at loop
    rw [loop]
    rfl
  · obtain ⟨rfl, rest⟩ := mk.inj here
    obtain ⟨isLast, rfl⟩ : pages.getLast? = some page ∧ behind = [] := by
      cases last : pages.getLast? with
      | none => simp [last] at rest
      | some p => simpa [last] using rest
    have chain : pages.dropLast ++ [page] = pages :=
      dropLast_append_getLast? page isLast
    have length : pages.dropLast.length = pages.length - 1 := length_dropLast
    obtain ⟨s, passed, granted, allEmpty, loop⟩ := freeLoop_pass (place.resolve_left first) page
      (s := ⟨[], grants, none, 0, true⟩) (.inl rfl)
      (show pages.dropLast.length ≤ turns pages by simp only [turns]; omega)
    have reached : page.num ≠ 0 ∨ s.allEmpty = false := by
      cases all : s.allEmpty with
      | false => exact .inr rfl
      | true =>
        refine .inl fun none => empty ?_
        rw [all] at allEmpty
        rw [← chain, all_append, ← Bool.true_and (List.all _ _), ← allEmpty]
        simp [none]
    rw [freeLoop_try reached (.inr rfl) (by rwa [granted]) answered (by simp only [turns]; omega),
      chain] at loop
    rw [loop]
    simp [passed]

theorem target_append (h : target addr pages = (before, behind)) : pages = before ++ behind := by
  unfold target at h
  split_ifs at h with empty first
  · obtain ⟨rfl, rfl⟩ := mk.inj h
    rfl
  · obtain ⟨rfl, rfl⟩ := mk.inj h
    exact takeWhile_append_dropWhile.symm
  · obtain ⟨rfl, rfl⟩ := mk.inj h
    cases last : pages.getLast? with
    | none =>
      obtain rfl := getLast?_eq_none_iff.mp last
      rfl
    | some page => exact (dropLast_append_getLast? page last).symm

theorem target_nonempty (addr : ℕ) (nonempty : pages ≠ []) : (target addr pages).2 ≠ [] := by
  unfold target
  split_ifs with empty first
  · exact nonempty
  · intro none
    rw [dropWhile_eq_nil_iff] at none
    exact empty (all_eq_true.mpr none)
  · intro none
    cases last : pages.getLast? with
    | none => exact nonempty (getLast?_eq_none_iff.mp last)
    | some page => simp [last] at none

theorem roundUp_of_dvd (aligned : 4096 ∣ size) (small : size < 2 ^ 64) : roundUp size = size := by
  unfold roundUp
  rw [Nat.mod_eq_zero_of_dvd aligned]
  simpa using small

/-- What `TryFree` answers for the chain: the region is added, or nothing changes. -/
def ChainFreed (pages : List Page) (addr size : ℕ) (answer : Result × List Page) : Prop :=
  (answer.1 = .done ∧ Gave (chainRanges pages) (chainRanges answer.2) (region addr size)) ∨
    (answer.1 ≠ .done ∧ answer.2 = pages)

theorem tryFreePages_spec (h : Ordered (chainRanges pages)) (positive : 0 < size)
    (nowrap : addr + size < 2 ^ 64) (aligned : 4096 ∣ addr) (alignedSize : 4096 ∣ size)
    (gap : ∀ x ∈ cover (chainRanges pages), x < addr ∨ addr + size ≤ x)
    (fits : FreeFits pages addr size grants) :
    ∃ answer, tryFreePages addr size (fuel + 1) grants pages = some answer ∧
      ChainFreed pages addr size answer := by
  rcases eq_or_ne pages [] with rfl | nonempty
  · exact ⟨(.error, []), rfl, .inr ⟨Result.noConfusion, rfl⟩⟩
  have place : addr = 0 ∨ 1 < addr := by
    omega
  have rounded : roundUp size = size := roundUp_of_dvd alignedSize (by omega)
  obtain ⟨page, behind, tried⟩ := exists_cons_of_ne_nil (target_nonempty addr nonempty)
  have here : target addr pages = ((target addr pages).1, page :: behind) := Prod.ext rfl tried
  generalize (target addr pages).1 = before at here
  have chain := target_append here
  have fits := fits before page behind here
  rw [chain, chainRanges_append, chainRanges_cons] at h gap
  obtain ⟨-, ordered, -⟩ := h.parts
  simp only [cover_append] at gap
  have unchanged : (page.tryFree addr size).1 = .noSpace → (page.tryFree addr size).2 = page :=
    tryFreeRounded_noSpace
  split_ifs at fits with full
  · refine ⟨_, tryFreePages_eq place here (fun _ => ⟨unchanged full, fits⟩) (by simp [full]), .inr ?_⟩
    rw [full, unchanged full]
    exact ⟨Result.noConfusion, chain.symm⟩
  · obtain ⟨inOrder, above, below⟩ := fits
    have freeable : Freeable page addr size :=
      ⟨ordered, positive, nowrap, fun x mem => gap x (.inr (.inl mem))⟩
    have spec : Freed page addr size (page.tryFree addr size) := by
      rw [Page.tryFree, rounded]
      exact tryFreeRounded_spec freeable inOrder
    rcases spec with ⟨done, gave⟩ | ⟨noSpace, -⟩
    · refine ⟨_, tryFreePages_eq place here (fun noSpace => absurd noSpace full) (by simp [done]),
        .inl ⟨done, ?_⟩⟩
      have left : Before (cover (chainRanges before)) (region addr size) := by
        rintro x ⟨r, mem, -, lt⟩ y ⟨ge, -⟩
        exact lt.trans_le ((above r mem).trans ge)
      have right : Before (region addr size) (cover (chainRanges behind)) := by
        rintro x ⟨-, lt⟩ y ⟨r, mem, ge, -⟩
        exact lt.trans_le ((below r mem).trans ge)
      simp only [chain, chainRanges_append, chainRanges_cons]
      exact gave.splice h left right
    · exact absurd noSpace full

/-! ## The invariant -/

/-- The chain is in order, is the set of free addresses, and all of it lies below the last
address. -/
structure Valid (s : State) : Prop where
  ordered : Ordered (chainRanges s.allocator.pages)
  cover_eq : cover (chainRanges s.allocator.pages) = s.free
  bounded : ∀ x ∈ s.free, x + 1 < 2 ^ 64

variable {s s' : State}

variable {allocator : Allocator}

section

variable (valid : Valid s)

include valid

theorem Valid.of_pages (same : allocator.pages = s.allocator.pages) : Valid ⟨allocator, s.free⟩ :=
  ⟨same ▸ valid.ordered, same ▸ valid.cover_eq, valid.bounded⟩

variable {addr size : UInt64}

theorem Valid.tryFree (legal : Legal s (.tryFree addr size grants))
    (fits : Fits s (.tryFree addr size grants)) :
    ∃ s', exec s (.tryFree addr size grants) = some s' ∧ Valid s' := by
  obtain ⟨aligned, alignedSize, apart⟩ := legal
  obtain ⟨positive, nowrap, fits⟩ := fits
  simp only [exec, Allocator.tryFree]
  split_ifs with present
  · have gap : ∀ x ∈ cover (chainRanges s.allocator.pages),
        x < addr.toNat ∨ addr.toNat + size.toNat ≤ x := by
      intro x mem
      rw [valid.cover_eq] at mem
      by_contra inside
      exact disjoint_left.mp apart ⟨by omega, by omega⟩ mem
    obtain ⟨⟨result, pages⟩, eq, freed⟩ : ∃ answer, tryFreePages addr.toNat size.toNat
        (turns s.allocator.pages) grants s.allocator.pages = some answer ∧
        ChainFreed s.allocator.pages addr.toNat size.toNat answer :=
      tryFreePages_spec valid.ordered positive nowrap aligned alignedSize gap fits
    rw [eq]
    refine ⟨_, rfl, ?_⟩
    rcases freed with ⟨rfl, gave⟩ | ⟨other, rfl⟩
    · refine ⟨gave.ordered, ?_, ?_⟩
      · simp [gave.cover_eq, valid.cover_eq]
      · simp only [if_true]
        rintro x (old | ⟨-, below⟩)
        · exact valid.bounded x old
        · omega
    · have other : result ≠ .done := other
      simp only [if_neg other]
      exact valid.of_pages rfl
  · exact ⟨_, rfl, valid.of_pages rfl⟩

theorem Valid.fromAddress (fits : Fits s (.tryAllocateFromAddress addr size grants)) :
    ∃ result allocator,
      s.allocator.tryAllocateFromAddress addr.toNat size.toNat grants = some (result, allocator) ∧
      ChainFromAddress s.allocator.pages addr.toNat size.toNat (result, allocator.pages) := by
  obtain ⟨nowrap, full⟩ := fits
  simp only [Allocator.tryAllocateFromAddress]
  split_ifs with present
  · obtain ⟨⟨result, pages⟩, eq, spec⟩ := allocateFromAddressLoop_spec nowrap valid.ordered full
      (show s.allocator.pages.length < turns s.allocator.pages by simp only [turns]; omega)
    rw [eq]
    exact ⟨_, _, rfl, spec⟩
  · exact ⟨_, _, rfl, rfl⟩

theorem Valid.took {area : Set ℕ}
    (took : Took (chainRanges s.allocator.pages) (chainRanges allocator.pages) area) :
    area ⊆ s.free ∧ Valid ⟨allocator, s.free \ area⟩ := by
  refine ⟨valid.cover_eq ▸ took.inside, took.ordered, ?_, fun x mem => valid.bounded x mem.1⟩
  rw [took.cover_eq, valid.cover_eq]

theorem Valid.tryAllocateFromAddress (fits : Fits s (.tryAllocateFromAddress addr size grants)) :
    ∃ s', exec s (.tryAllocateFromAddress addr size grants) = some s' ∧ Valid s' := by
  obtain ⟨result, allocator, eq, spec⟩ := valid.fromAddress fits
  simp only [exec, eq]
  refine ⟨_, rfl, ?_⟩
  cases result with
  | done => exact (valid.took spec).2
  | noSpace | error => exact valid.of_pages spec

theorem Valid.tryAllocate_took {size : UInt64} {addr : ℕ} (fits : Fits s (.tryAllocate size))
    (found : s.allocator.tryAllocate size.toNat = some (addr, allocator)) :
    Took (chainRanges s.allocator.pages) (chainRanges allocator.pages)
      (region addr (wholePages size.toNat)) := by
  unfold Allocator.tryAllocate at found
  split_ifs at found
  obtain ⟨⟨addr, pages⟩, eq, same⟩ := Option.map_eq_some_iff.mp found
  obtain ⟨rfl, rfl⟩ := same
  have bounded : ∀ x ∈ cover (chainRanges s.allocator.pages), x + 1 < 2 ^ 64 :=
    valid.cover_eq ▸ valid.bounded
  rw [← roundUp_eq fits]
  exact allocateLoop_spec valid.ordered bounded eq

theorem Valid.exec {a : Action} (legal : Legal s a) (fits : Fits s a) :
    ∃ s', exec s a = some s' ∧ Valid s' := by
  cases a with
  | tryFree addr size grants => exact valid.tryFree legal fits
  | tryAllocateFromAddress addr size grants => exact valid.tryAllocateFromAddress fits
  | tryAllocate size =>
    refine ⟨_, rfl, ?_⟩
    split
    · next addr allocator found => exact (valid.took (valid.tryAllocate_took fits found)).2
    · exact valid

theorem Valid.safe : Safe s where
  __ := valid
  returns a legal fits := by
    obtain ⟨s', eq, -⟩ := valid.exec legal fits
    simp [eq]
  tryAllocate size addr allocator fits found :=
    (valid.took (valid.tryAllocate_took fits found)).1
  tryAllocateFromAddress addr size grants allocator fits found := by
    obtain ⟨result, allocator', eq, spec⟩ := valid.fromAddress fits
    rw [found] at eq
    obtain ⟨rfl, rfl⟩ := eq
    exact (valid.took spec).1

end

/-- Started on a chain of empty pages, a run whose steps all fit keeps the chain in order, covers
exactly what was freed and not allocated, and allocates only what is free. -/
theorem safe_of_fits {allocator : Allocator} {actions : List Action} {s : State}
    (empty : ∀ page ∈ allocator.pages, page.num = 0)
    (run : RunWhen (fun s a => Legal s a ∧ Fits s a) exec ⟨allocator, ∅⟩ actions s) : Safe s := by
  have none : chainRanges allocator.pages = [] := by
    refine flatMap_eq_nil_iff.mpr fun page mem => ?_
    rw [Page.records, empty page mem, slots_self]
  have start : Valid ⟨allocator, ∅⟩ := by
    refine ⟨?_, ?_, fun x mem => mem.elim⟩
    · rw [none]
      exact ordered_nil
    · rw [none]
      ext x
      simp
  refine (run.invariant (fun s a t valid ok taken => ?_) start).safe
  obtain ⟨t', eq, kept⟩ := valid.exec ok.1 ok.2
  rw [taken] at eq
  cases eq
  exact kept

def emptyAllocator : Allocator := ⟨true, [.empty]⟩

/-- Two pages are freed, the lower one is allocated and freed again. -/
theorem safe_freed_again : ∃ s, s.free = Set.Ico 4096 12288 ∧ Safe s := by
  have outside : ∀ P : Range → Prop, ∀ r ∈ chainRanges [], P r :=
    fun P r mem => absurd mem (by simp [chainRanges])
  obtain ⟨s, run, free⟩ : ∃ s, RunWhen (fun s a => Legal s a ∧ Fits s a) exec ⟨emptyAllocator, ∅⟩
      [.tryFree 4096 8192 [], .tryAllocate 4096, .tryFree 4096 4096 []] s ∧
      s.free = Set.Ico 4096 12288 := by
    refine ⟨_, .cons ⟨⟨?_, ?_, ?_⟩, ?_, ?_, ?_⟩ rfl (.cons ⟨trivial, ?_⟩ rfl
      (.cons ⟨⟨?_, ?_, ?_⟩, ?_, ?_, ?_⟩ rfl (.nil _))), ?_⟩
    · decide
    · decide
    · exact disjoint_empty _
    · decide
    · decide
    · rintro before page behind ⟨⟩
      exact ⟨.inl rfl, outside _, outside _⟩
    · show wholePages 4096 < 2 ^ 64
      decide
    · decide
    · decide
    · refine disjoint_left.mpr ?_
      rintro x ⟨low, high⟩ ⟨-, out⟩
      exact out ⟨low, high⟩
    · decide
    · decide
    · rintro before page behind ⟨⟩
      exact ⟨.inr (.inr rfl), outside _, outside _⟩
    · show ((∅ ∪ Set.Ico 4096 12288) \ Set.Ico 4096 8192) ∪ Set.Ico 4096 8192 = Set.Ico 4096 12288
      ext x
      simp only [mem_union, mem_sdiff, mem_Ico, mem_empty_iff_false, false_or]
      omega
  exact ⟨s, free, safe_of_fits (by simp [emptyAllocator, Page.empty]) run⟩

/-- A page freed below the first range takes the place of that range. -/
theorem not_safe_freed_below : ∃ s, RunWhen Legal exec ⟨emptyAllocator, ∅⟩
    [.tryFree 8192 4096 [], .tryFree 0 4096 []] s ∧
    chainRanges s.allocator.pages = [⟨0, 4096⟩] ∧ 8192 ∈ s.free ∧
    8192 ∉ cover (chainRanges s.allocator.pages) := by
  have lost : 8192 ∉ cover [⟨0, 4096⟩] := by simp
  refine ⟨_, .cons ⟨?_, ?_, ?_⟩ rfl (.cons ⟨?_, ?_, ?_⟩ rfl (.nil _)), rfl, ?_, lost⟩
  · decide
  · decide
  · exact disjoint_empty _
  · decide
  · decide
  · refine disjoint_left.mpr ?_
    rintro x ⟨-, high⟩ (none | ⟨low, -⟩)
    · exact none
    · exact absurd (low.trans_lt high) (by decide)
  · exact .inl (.inr ⟨by decide, by decide⟩)

end JeoKernel.VPAllocator

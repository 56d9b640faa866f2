import JeoKernel.Lib.Loop
import JeoKernel.Lib.Machine

/-!
# The kernel's virtual page allocator on x86-64

`vpagealloc` scans four levels of page tables for a run of available pages, takes them and marks
the first one with a start bit.  The size of a region is stored nowhere: `vpagefree` and `vpagesize`
walk from its first page until they meet an available page, a start bit or a missing table.

Tables are indexed by the page-number prefix they cover: `pml4t` by `i`, `pdpt` by `512 * i + j`,
`pdt` by `512 * (512 * i + j) + k`, and the entries by the page number itself.  Addresses are page
numbers; the functions of the kernel take and return them shifted by 12.
-/

namespace JeoKernel.VPage

open List Option Loop Machine

/-- The bits of `pageentr` that the allocator uses. -/
structure PageEntry where
  present : Bool
  osVirtAvail : Bool
  osVirtStart : Bool
  deriving DecidableEq

/-- Which entries of the upper tables are present, and the entries of the lowest ones. -/
structure PageTables where
  pml4t : ℕ → Bool
  pdpt : ℕ → Bool
  pdt : ℕ → Bool
  entry : ℕ → PageEntry

/-- All three tables above the entry of a page are there. -/
def PageTables.mapped (t : PageTables) (page : ℕ) : Bool :=
  t.pml4t (page / 512 / 512 / 512) && t.pdpt (page / 512 / 512) && t.pdt (page / 512)

/-! ## Allocation -/

/-- The number of pages `vpagealloc` looks for, in 64-bit arithmetic. -/
def pageCount (vsize : ℕ) : ℕ :=
  (if vsize % 4096 ≠ 0 then (vsize + 4096) % 2 ^ 64 else vsize) / 4096

/-- The variables of the scan: `count` available pages in a row, from `start` on.  The source
declares `starting_addr` inside the loop; it keeps its value from one turn to the next. -/
structure Scan where
  count : ℕ
  start : ℕ

/-- The innermost turn; the scan is left with the first page of the run and the page behind it. -/
def acquire (t : PageTables) (size page : ℕ) (s : Scan) : Except (ℕ × ℕ) Scan :=
  if (t.entry page).osVirtAvail then
    let start := if s.count = 0 then page else s.start
    if s.count + 1 = size then .error (start, page + 1) else .ok ⟨s.count + 1, start⟩
  else .ok { s with count := 0 }

def scanPt (t : PageTables) (size pt : ℕ) : Scan → Except (ℕ × ℕ) Scan :=
  forRange 0 512 fun l => acquire t size (512 * pt + l)

def scanPdt (t : PageTables) (size pd lo : ℕ) : Scan → Except (ℕ × ℕ) Scan :=
  forRange lo 512 fun k s =>
    if t.pdt (512 * pd + k) then scanPt t size (512 * pd + k) s else .ok { s with count := 0 }

def scanPdpt (t : PageTables) (size i lo hi : ℕ) : Scan → Except (ℕ × ℕ) Scan :=
  forRange lo hi fun j s =>
    if t.pdpt (512 * i + j) then
      scanPdt t size (512 * i + j) (if i ≠ 0 ∨ j ≠ 3 then 0 else 1) s
    else .ok { s with count := 0 }

/-- The scan of `vpagealloc`: everything above 4 GB and below the user space. -/
def scanHigh (t : PageTables) (size : ℕ) : Scan → Except (ℕ × ℕ) Scan :=
  forRange 0 16 fun i s =>
    if t.pml4t i then scanPdpt t size i (if i ≠ 0 then 0 else 4) 512 s
    else .ok { s with count := 0 }

/-- The scan of `vpagealloc32`: the fourth gigabyte, without its first two megabytes. -/
def scanLow (t : PageTables) (size : ℕ) (s : Scan) : Except (ℕ × ℕ) Scan :=
  if t.pml4t 0 then scanPdpt t size 0 3 4 s else .ok { s with count := 0 }

/-- The loop that takes the pages from `start` up to `ending`. -/
def PageTables.grab (t : PageTables) (start ending : ℕ) : PageTables :=
  { t with
    entry := fun page =>
      if start ≤ page ∧ page < ending then
        { present := false
          osVirtAvail := false
          osVirtStart := if page = start then true else (t.entry page).osVirtStart }
      else t.entry page }

structure Kernel where
  tables : PageTables
  allocatedVpages : UInt64

/-- The end of both functions: take the run that was found, or answer 0. -/
def Kernel.take (kernel : Kernel) (size : ℕ) : Except (ℕ × ℕ) Scan → Option (Kernel × ℕ)
  | .error (start, ending) =>
    some (⟨kernel.tables.grab start ending, kernel.allocatedVpages + .ofNat size⟩, start)
  | .ok _ => none

/-- `vpagealloc32`; `none` is the result 0. -/
def vpagealloc32 (kernel : Kernel) (vsize : ℕ) : Option (Kernel × ℕ) :=
  kernel.take (pageCount vsize) (scanLow kernel.tables (pageCount vsize) ⟨0, 0⟩)

/-- `vpagealloc`; `none` is the result 0. -/
def vpagealloc (kernel : Kernel) (vsize : ℕ) : Option (Kernel × ℕ) :=
  (kernel.take (pageCount vsize) (scanHigh kernel.tables (pageCount vsize) ⟨0, 0⟩)).or
    (vpagealloc32 kernel vsize)

/-! ## Release -/

/-- Where the walk of `vpagefree` and `vpagesize` that began at `first` stops. -/
def PageTables.stops (t : PageTables) (first page : ℕ) : Bool :=
  !t.mapped (page % 2 ^ 36) || (t.entry (page % 2 ^ 36)).osVirtAvail ||
    (first != page && (t.entry (page % 2 ^ 36)).osVirtStart)

def PageTables.release (t : PageTables) (page : ℕ) : PageTables :=
  { t with
    entry := fun p =>
      if p = page % 2 ^ 36 then { present := false, osVirtAvail := true, osVirtStart := false }
      else t.entry p }

/-- The loop of `vpagefree`, with the pages it has released so far. -/
def freeWalk (first : ℕ) : ℕ → PageTables → ℕ → ℕ → Option (PageTables × ℕ)
  | 0, _, _, _ => none
  | fuel + 1, t, page, size =>
    if t.stops first page then some (t, size)
    else freeWalk first fuel (t.release page) (page + 1) (size + 1)

def sizeWalk (t : PageTables) (first : ℕ) : ℕ → ℕ → ℕ → Option ℕ
  | 0, _, _ => none
  | fuel + 1, page, size =>
    if t.stops first page then some size else sizeWalk t first fuel (page + 1) (size + 1)

/-- `vpagefree`, in pages; `none` is a walk that does not end. -/
def vpagefree (kernel : Kernel) (page : ℕ) : Option (Kernel × ℕ) :=
  (freeWalk page (2 ^ 36 + 1) kernel.tables page 0).map fun (tables, size) =>
    (⟨tables, kernel.allocatedVpages - .ofNat size⟩, size)

def vpagesize (kernel : Kernel) (page : ℕ) : Option ℕ :=
  sizeWalk kernel.tables page (2 ^ 36 + 1) page 0

/-! ## What a scan finds -/

/-- Before `page` is looked at: the pages counted so far are available and end at `page`. -/
def Counting (t : PageTables) (lower page : ℕ) (s : Scan) : Prop :=
  s.count ≠ 0 → s.start + s.count = page ∧ lower ≤ s.start ∧
    ∀ q, s.start ≤ q → q < page → t.mapped q ∧ (t.entry q).osVirtAvail

structure Found (t : PageTables) (lower upper size : ℕ) (r : ℕ × ℕ) : Prop where
  ending : r.2 = r.1 + size
  positive : 0 < size
  lower : lower ≤ r.1
  upper : r.2 ≤ upper
  available : ∀ q, r.1 ≤ q → q < r.2 → t.mapped q ∧ (t.entry q).osVirtAvail

variable {t : PageTables} {lower upper size : ℕ}

theorem counting_zero (page start : ℕ) : Counting t lower page ⟨0, start⟩ :=
  fun h => absurd rfl h

variable {page : ℕ} {s : Scan}

theorem Counting.extend (counting : Counting t lower page s) (mapped : t.mapped page)
    (avail : (t.entry page).osVirtAvail) (above : lower ≤ page) :
    let start := if s.count = 0 then page else s.start
    start + (s.count + 1) = page + 1 ∧ lower ≤ start ∧
      ∀ q, start ≤ q → q < page + 1 → t.mapped q ∧ (t.entry q).osVirtAvail := by
  by_cases fresh : s.count = 0
  · simp only [if_pos fresh]
    refine ⟨by omega, above, fun q h₁ h₂ => ?_⟩
    obtain rfl : q = page := by omega
    exact ⟨mapped, avail⟩
  · obtain ⟨run, low, pages⟩ := counting fresh
    simp only [if_neg fresh]
    refine ⟨by omega, low, fun q h₁ h₂ => ?_⟩
    rcases Nat.lt_succ_iff_lt_or_eq.mp h₂ with before | rfl
    · exact pages q h₁ before
    · exact ⟨mapped, avail⟩

theorem acquire_post (mapped : t.mapped page) (above : lower ≤ page) (below : page < upper)
    (counting : Counting t lower page s) :
    Post (Counting t lower (page + 1)) (Found t lower upper size) (acquire t size page s) := by
  unfold acquire
  by_cases avail : (t.entry page).osVirtAvail
  · obtain ⟨run, low, pages⟩ := counting.extend mapped avail above
    rw [if_pos avail]
    by_cases full : s.count + 1 = size
    · simp only [if_pos full]
      exact ⟨by rw [← full, run], by omega, low, below, pages⟩
    · simp only [if_neg full]
      exact fun _ => ⟨run, low, pages⟩
  · rw [if_neg avail]
    exact counting_zero _ _

open PageTables

theorem scanPt_post {pt : ℕ} (top : t.pml4t (pt / 512 / 512)) (mid : t.pdpt (pt / 512))
    (low : t.pdt pt) (above : lower ≤ 512 * pt) (below : 512 * pt + 512 ≤ upper)
    (counting : Counting t lower (512 * pt) s) :
    Post (Counting t lower (512 * pt + 512)) (Found t lower upper size) (scanPt t size pt s) := by
  refine forRange_post (I := fun l => Counting t lower (512 * pt + l)) (Nat.zero_le _) ?_ counting
  intro l s _ small counting
  have here : (512 * pt + l) / 512 = pt := by omega
  show Post (Counting t lower (512 * pt + l + 1)) _ _
  refine acquire_post ?_ (by omega) (by omega) counting
  rw [mapped, here, top, mid, low]
  rfl

theorem scanPdt_post {pd lo : ℕ} (top : t.pml4t (pd / 512)) (mid : t.pdpt pd) (small : lo ≤ 512)
    (above : lower ≤ 512 * (512 * pd + lo)) (below : 512 * (512 * pd + 512) ≤ upper)
    (counting : Counting t lower (512 * (512 * pd + lo)) s) :
    Post (Counting t lower (512 * (512 * pd + 512))) (Found t lower upper size)
      (scanPdt t size pd lo s) := by
  refine forRange_post (I := fun k => Counting t lower (512 * (512 * pd + k))) small ?_ counting
  intro k s first last counting
  have here : (512 * pd + k) / 512 = pd := by omega
  have next : 512 * (512 * pd + (k + 1)) = 512 * (512 * pd + k) + 512 := by omega
  split_ifs with present
  · simp only [next]
    exact scanPt_post (by rwa [here]) (by rwa [here]) present (by omega) (by omega) counting
  · exact counting_zero _ _

/-- The fourth gigabyte is entered behind its first two megabytes, with nothing counted yet. -/
theorem scanPdpt_post {i lo hi : ℕ} (top : t.pml4t i) (small : lo ≤ hi) (fits : hi ≤ 512)
    (above : lower ≤ 512 * (512 * (512 * i + lo))) (below : 512 * (512 * (512 * i + hi)) ≤ upper)
    (low : i = 0 → 3 ≤ lo) (fresh : i = 0 → lo = 3 → s.count = 0)
    (counting : Counting t lower (512 * (512 * (512 * i + lo))) s) :
    Post (Counting t lower (512 * (512 * (512 * i + hi)))) (Found t lower upper size)
      (scanPdpt t size i lo hi s) := by
  refine Post.mono (P := fun s => Counting t lower (512 * (512 * (512 * i + hi))) s ∧
    (i = 0 → hi = 3 → s.count = 0)) ?_ fun _ h => h.1
  refine forRange_post (I := fun j s => Counting t lower (512 * (512 * (512 * i + j))) s ∧
    (i = 0 → j = 3 → s.count = 0)) small ?_ ⟨counting, fresh⟩
  rintro j s first last ⟨counting, fresh⟩
  have here : (512 * i + j) / 512 = i := by omega
  have next : 512 * (512 * (512 * i + (j + 1))) = 512 * (512 * (512 * i + j) + 512) := by omega
  refine Post.mono (P := Counting t lower (512 * (512 * (512 * i + j) + 512))) ?_
    fun _ h => ⟨by rwa [next], by omega⟩
  split_ifs with present skip
  · exact scanPdt_post (by rwa [here]) present (by omega) (by omega) (by omega) counting
  · refine scanPdt_post (by rwa [here]) present (by omega) (by omega) (by omega) ?_
    exact fun h => absurd (fresh (by omega) (by omega)) h
  · exact counting_zero _ _

theorem scanHigh_post : Post (fun _ => True) (Found t (2 ^ 20) (2 ^ 31) size)
    (scanHigh t size ⟨0, 0⟩) := by
  refine Post.mono (P := fun s => Counting t (2 ^ 20) (512 * (512 * (512 * 16))) s ∧
    (16 = 0 → s.count = 0)) ?_ fun _ _ => trivial
  refine forRange_post (I := fun i s => Counting t (2 ^ 20) (512 * (512 * (512 * i))) s ∧
    (i = 0 → s.count = 0)) (Nat.zero_le _) ?_ ⟨counting_zero _ _, fun _ => rfl⟩
  rintro i s - last ⟨counting, fresh⟩
  refine Post.mono (P := Counting t (2 ^ 20) (512 * (512 * (512 * i + 512)))) ?_
    fun _ h => ⟨by rwa [Nat.mul_succ], by omega⟩
  split_ifs with top other
  · exact scanPdpt_post top (by omega) (by omega) (by omega) (by omega) (by omega) (by omega) counting
  · refine scanPdpt_post top (by omega) (by omega) (by omega) (by omega) (by omega) (by omega) ?_
    exact fun h => absurd (fresh (by omega)) h
  · exact counting_zero _ _

theorem scanLow_post : Post (fun _ => True) (Found t (3 * 2 ^ 18) (2 ^ 20) size)
    (scanLow t size ⟨0, 0⟩) := by
  unfold scanLow
  split_ifs with top
  · refine Post.mono (scanPdpt_post top (by omega) (by omega) (by omega) (by omega) (by omega)
      (fun _ _ => rfl) (counting_zero _ _)) fun _ _ => trivial
  · trivial

/-! ## Outstanding regions -/

/-- A region handed out for a request of `vsize` bytes. -/
structure Region where
  page : ℕ
  vsize : UInt64
  deriving DecidableEq

/-- The pages a request of `vsize` bytes has to get. -/
def Region.pages (r : Region) : ℕ := (r.vsize.toNat + 4095) / 4096

def Region.Contains (r : Region) (page : ℕ) : Prop := r.page ≤ page ∧ page < r.page + r.pages

instance (r : Region) (page : ℕ) : Decidable (r.Contains page) :=
  inferInstanceAs (Decidable (_ ∧ _))

def Region.Disjoint (r r' : Region) : Prop := ∀ page, r.Contains page → ¬r'.Contains page

structure State where
  kernel : Kernel
  regions : List Region

inductive Action where
  | vpagealloc (vsize : UInt64)
  | vpagealloc32 (vsize : UInt64)
  | vpagefree (page : ℕ)

/-- A region is added when the allocation succeeds. -/
def State.allocated (s : State) (vsize : UInt64) : Option (Kernel × ℕ) → State
  | some (kernel, page) => ⟨kernel, s.regions ++ [⟨page, vsize⟩]⟩
  | none => s

def exec (s : State) : Action → Option State
  | .vpagealloc vsize => some (s.allocated vsize (vpagealloc s.kernel vsize.toNat))
  | .vpagealloc32 vsize => some (s.allocated vsize (vpagealloc32 s.kernel vsize.toNat))
  | .vpagefree page => do
    -- Only the start of an outstanding region is freed.
    let region ← s.regions.find? (·.page == page)
    let (kernel, _) ← vpagefree s.kernel page
    return ⟨kernel, s.regions.erase region⟩

/-- What an allocation may take: a run of pages of its size that were available, and nothing that
is outstanding. -/
def AllocatesFresh (s : State) (vsize : UInt64) (result : Option (Kernel × ℕ)) : Prop :=
  ∀ kernel page, result = some (kernel, page) →
    0 < Region.pages ⟨page, vsize⟩ ∧ ∀ q, Region.Contains ⟨page, vsize⟩ q →
      s.kernel.tables.mapped q ∧ (s.kernel.tables.entry q).osVirtAvail ∧
      ∀ r ∈ s.regions, ¬r.Contains q

/-- Both report the size of the region, and `vpagefree` makes its pages available and touches no
other entry. -/
def FreesExactly (kernel : Kernel) (r : Region) : Prop :=
  vpagesize kernel r.page = some r.pages ∧ ∃ kernel', vpagefree kernel r.page =
    some (kernel', r.pages) ∧ ∀ p, kernel'.tables.entry p = if r.Contains p then
      { present := false, osVirtAvail := true, osVirtStart := false } else kernel.tables.entry p

/-- The page behind a region is one that ends the walk. -/
def Bounded (t : PageTables) (r : Region) : Prop :=
  t.mapped (r.page + r.pages) → (t.entry (r.page + r.pages)).osVirtAvail ∨
    (t.entry (r.page + r.pages)).osVirtStart

structure AllocatorSafe (s : State) : Prop where
  disjoint : s.regions.Pairwise Region.Disjoint
  vpagealloc : ∀ vsize, AllocatesFresh s vsize (vpagealloc s.kernel vsize.toNat)
  vpagealloc32 : ∀ vsize, AllocatesFresh s vsize (vpagealloc32 s.kernel vsize.toNat)
  vpagefree : ∀ r ∈ s.regions, FreesExactly s.kernel r ↔ Bounded s.kernel.tables r

/-! ## Walking over a region -/

def PageTables.releaseRun (t : PageTables) (page n : ℕ) : PageTables :=
  { t with
    entry := fun p =>
      if page ≤ p ∧ p < page + n then { present := false, osVirtAvail := true, osVirtStart := false }
      else t.entry p }

theorem releaseRun_zero (t : PageTables) (page : ℕ) : t.releaseRun page 0 = t := by
  unfold releaseRun
  congr 1
  funext p
  rw [if_neg (by omega)]

theorem releaseRun_succ (t : PageTables) (n : ℕ) (small : page < 2 ^ 36) :
    (t.release page).releaseRun (page + 1) n = t.releaseRun page (n + 1) := by
  unfold releaseRun release
  simp only [Nat.mod_eq_of_lt small]
  congr 1
  funext p
  split_ifs <;> first | rfl | omega

variable {first : ℕ}

theorem stops_release {page other : ℕ} (small : page < 2 ^ 36) (small' : other < 2 ^ 36)
    (apart : other ≠ page) : (t.release page).stops first other = t.stops first other := by
  have entry : (t.release page).entry other = t.entry other := by
    simp only [release, Nat.mod_eq_of_lt small, if_neg apart]
  simp only [stops, Nat.mod_eq_of_lt small', entry]
  rfl

variable {n : ℕ}

theorem freeWalk_skip (fuel size : ℕ) (small : page + n ≤ 2 ^ 36)
    (inside : ∀ i < n, t.stops first (page + i) = false) :
    freeWalk first (fuel + n) t page size =
      freeWalk first fuel (t.releaseRun page n) (page + n) (size + n) := by
  induction n generalizing t page size with
  | zero => rw [releaseRun_zero]; rfl
  | succ n ih =>
    have here := inside 0 (by omega)
    rw [← Nat.add_assoc, freeWalk, if_neg (by simpa using here), ih _ (by omega)]
    · rw [releaseRun_succ t n (by omega), Nat.add_right_comm page, Nat.add_right_comm size]
      rfl
    · intro i hi
      rw [stops_release (by omega) (by omega) (by omega), Nat.add_right_comm]
      exact inside (i + 1) (by omega)

theorem sizeWalk_skip (fuel size : ℕ) (inside : ∀ i < n, t.stops first (page + i) = false) :
    sizeWalk t first (fuel + n) page size = sizeWalk t first fuel (page + n) (size + n) := by
  induction n generalizing page size with
  | zero => rfl
  | succ n ih =>
    have here := inside 0 (by omega)
    rw [← Nat.add_assoc, sizeWalk, if_neg (by simpa using here), ih]
    · rw [Nat.add_right_comm page, Nat.add_right_comm size]
      rfl
    · intro i hi
      rw [Nat.add_right_comm]
      exact inside (i + 1) (by omega)

variable {fuel : ℕ}

theorem le_of_sizeWalk {page size result : ℕ} (h : sizeWalk t first fuel page size = some result) :
    size ≤ result := by
  induction fuel generalizing page size with
  | zero => simp [sizeWalk] at h
  | succ fuel ih =>
    rw [sizeWalk] at h
    split_ifs at h
    · exact (some.inj h).le
    · exact Nat.le_of_succ_le (ih h)

/-! ## A region that is outstanding -/

/-- The pages of an outstanding region are taken, and only the first one has the start bit. -/
structure Taken (t : PageTables) (r : Region) : Prop where
  positive : 0 < r.pages
  below : r.page + r.pages ≤ 2 ^ 31
  entries : ∀ p, r.Contains p → t.mapped p ∧ (t.entry p).osVirtAvail = false ∧
    (t.entry p).osVirtStart = decide (p = r.page)

variable {r r' : Region} {kernel kernel' : Kernel}

theorem Taken.stops_inside (taken : Taken t r) {i : ℕ} (inside : i < r.pages) :
    t.stops r.page (r.page + i) = false := by
  have below := taken.below
  obtain ⟨mapped, avail, start⟩ := taken.entries (r.page + i) ⟨by omega, by omega⟩
  simp only [stops, Nat.mod_eq_of_lt (show r.page + i < 2 ^ 36 by omega), mapped, avail, start]
  simp

theorem Taken.stops_behind (taken : Taken t r) :
    t.stops r.page (r.page + r.pages) = true ↔ Bounded t r := by
  have below := taken.below
  have positive := taken.positive
  simp only [stops, Nat.mod_eq_of_lt (show r.page + r.pages < 2 ^ 36 by omega), Bounded]
  have apart : (r.page != r.page + r.pages) = true := by simp; omega
  rw [apart]
  cases t.mapped (r.page + r.pages) <;> simp

theorem stops_releaseRun (small : page + n < 2 ^ 36) :
    (t.releaseRun page n).stops first (page + n) = t.stops first (page + n) := by
  have entry : (t.releaseRun page n).entry (page + n) = t.entry (page + n) := by
    simp only [releaseRun]
    rw [if_neg (by omega)]
  simp only [stops, Nat.mod_eq_of_lt small, entry]
  rfl

/-- The walk of `vpagesize` leaves the region if the page behind it does not stop it. -/
theorem vpagesize_eq (taken : Taken kernel.tables r) :
    vpagesize kernel r.page = some r.pages ↔ Bounded kernel.tables r := by
  have below := taken.below
  obtain ⟨rest, fuel⟩ : ∃ rest, 2 ^ 36 + 1 = rest + 1 + r.pages := ⟨2 ^ 36 - r.pages, by omega⟩
  rw [vpagesize, fuel, sizeWalk_skip _ _ fun i => taken.stops_inside, sizeWalk, ← taken.stops_behind]
  split_ifs with stops
  · simp [stops]
  · refine iff_of_false (fun h => ?_) stops
    have := le_of_sizeWalk h
    omega

theorem vpagefree_eq (taken : Taken kernel.tables r) (bounded : Bounded kernel.tables r) :
    vpagefree kernel r.page = some (⟨kernel.tables.releaseRun r.page r.pages,
      kernel.allocatedVpages - .ofNat r.pages⟩, r.pages) := by
  have below := taken.below
  obtain ⟨rest, fuel⟩ : ∃ rest, 2 ^ 36 + 1 = rest + 1 + r.pages := ⟨2 ^ 36 - r.pages, by omega⟩
  rw [vpagefree, fuel, freeWalk_skip _ _ (by omega) fun i => taken.stops_inside, freeWalk,
    stops_releaseRun (by omega), if_pos (taken.stops_behind.mpr bounded), zero_add]
  rfl

theorem freesExactly_iff (taken : Taken kernel.tables r) :
    FreesExactly kernel r ↔ Bounded kernel.tables r := by
  refine ⟨fun h => (vpagesize_eq taken).mp h.1, fun bounded => ?_⟩
  exact ⟨(vpagesize_eq taken).mpr bounded, _, vpagefree_eq taken bounded, fun p => rfl⟩

/-! ## What an allocation does -/

/-- The request was answered with a run of available pages, and these were taken. -/
structure Grabbed (kernel : Kernel) (size : ℕ) (kernel' : Kernel) (page : ℕ) : Prop where
  found : Found kernel.tables (3 * 2 ^ 18) (2 ^ 31) size (page, page + size)
  tables : kernel'.tables = kernel.tables.grab page (page + size)

theorem take_grabbed {result : Except (ℕ × ℕ) Scan}
    (post : Post (fun _ => True) (Found kernel.tables lower upper size) result)
    (low : 3 * 2 ^ 18 ≤ lower) (high : upper ≤ 2 ^ 31)
    (h : kernel.take size result = some (kernel', page)) : Grabbed kernel size kernel' page := by
  cases result with
  | ok s => exact absurd h (by simp [Kernel.take])
  | error found =>
    obtain ⟨start, ending⟩ := found
    obtain ⟨end_eq, positive, above, below, available⟩ := post
    dsimp only at end_eq above below available
    obtain ⟨rfl, rfl⟩ := h
    subst end_eq
    exact ⟨⟨rfl, positive, low.trans above, below.trans high, available⟩, rfl⟩

variable {vsize page : ℕ}

theorem vpagealloc32_grabbed (h : vpagealloc32 kernel vsize = some (kernel', page)) :
    Grabbed kernel (pageCount vsize) kernel' page :=
  take_grabbed scanLow_post le_rfl (by omega) h

theorem vpagealloc_grabbed (h : vpagealloc kernel vsize = some (kernel', page)) :
    Grabbed kernel (pageCount vsize) kernel' page := by
  rcases or_eq_some_iff.mp h with high | ⟨-, low⟩
  · exact take_grabbed scanHigh_post (by omega) le_rfl high
  · exact vpagealloc32_grabbed low

/-- A request whose size wraps around is one for no pages, which no scan finds. -/
theorem pageCount_eq (page : ℕ) {vsize : UInt64} (positive : 0 < pageCount vsize.toNat) :
    pageCount vsize.toNat = Region.pages ⟨page, vsize⟩ := by
  have small := vsize.toNat_lt
  unfold pageCount at *
  simp only [Region.pages]
  split_ifs at * <;> omega

variable {q : ℕ}

section Grabbed

variable {vsize : UInt64} {page : ℕ} (grabbed : Grabbed kernel (pageCount vsize.toNat) kernel' page)
include grabbed

theorem Grabbed.available (inside : Region.Contains ⟨page, vsize⟩ q) :
    kernel.tables.mapped q ∧ (kernel.tables.entry q).osVirtAvail := by
  have count := pageCount_eq page grabbed.found.positive
  refine grabbed.found.available q inside.1 ?_
  rw [count]
  exact inside.2

theorem Grabbed.entry_inside (inside : Region.Contains ⟨page, vsize⟩ q) :
    kernel'.tables.entry q = { present := false
                               osVirtAvail := false
                               osVirtStart := if q = page then true
                                 else (kernel.tables.entry q).osVirtStart } := by
  have count := pageCount_eq page grabbed.found.positive
  rw [grabbed.tables, grab, count]
  exact if_pos inside

theorem Grabbed.entry_outside (outside : ¬Region.Contains ⟨page, vsize⟩ q) :
    kernel'.tables.entry q = kernel.tables.entry q := by
  have count := pageCount_eq page grabbed.found.positive
  rw [grabbed.tables, grab, count]
  exact if_neg outside

theorem Grabbed.mapped (q : ℕ) : kernel'.tables.mapped q = kernel.tables.mapped q := by
  rw [grabbed.tables]
  rfl

theorem Grabbed.taken
    (clean : ∀ p, (kernel.tables.entry p).osVirtAvail → (kernel.tables.entry p).osVirtStart = false) :
    Taken kernel'.tables ⟨page, vsize⟩ := by
  have count := pageCount_eq page grabbed.found.positive
  refine ⟨count ▸ grabbed.found.positive, count ▸ grabbed.found.upper, fun q inside => ?_⟩
  obtain ⟨mapped, avail⟩ := grabbed.available inside
  rw [grabbed.mapped, grabbed.entry_inside inside]
  refine ⟨mapped, rfl, ?_⟩
  by_cases first : q = page
  · simp [first]
  · simp [first, clean q avail]

end Grabbed

/-! ## The invariant -/

structure Valid (s : State) : Prop where
  clean : ∀ p, (s.kernel.tables.entry p).osVirtAvail → (s.kernel.tables.entry p).osVirtStart = false
  taken : ∀ r ∈ s.regions, Taken s.kernel.tables r
  disjoint : s.regions.Pairwise Region.Disjoint

variable {s s' : State}

instance : Std.Symm Region.Disjoint :=
  ⟨fun _ _ apart page inside' inside => apart page inside inside'⟩

theorem Valid.fresh (valid : Valid s) {vsize : UInt64}
    (grabbed : Grabbed s.kernel (pageCount vsize.toNat) kernel' page) (mem : r ∈ s.regions) :
    r.Disjoint ⟨page, vsize⟩ := by
  intro q inside inside'
  have taken := ((valid.taken r mem).entries q inside).2.1
  rw [(grabbed.available inside').2] at taken
  exact absurd taken (by decide)

section

variable (valid : Valid s) {vsize : UInt64} {result : Option (Kernel × ℕ)}
  (grabs : ∀ kernel' page, result = some (kernel', page) →
    Grabbed s.kernel (pageCount vsize.toNat) kernel' page)
include valid grabs

theorem Valid.allocatesFresh : AllocatesFresh s vsize result := by
  intro kernel' page h
  have grabbed := grabs kernel' page h
  refine ⟨(grabbed.taken valid.clean).positive, fun q inside => ?_⟩
  obtain ⟨mapped, avail⟩ := grabbed.available inside
  exact ⟨mapped, avail, fun r mem contains => valid.fresh grabbed mem q contains inside⟩

theorem Valid.allocated : Valid (s.allocated vsize result) := by
  match result with
  | none => exact valid
  | some (kernel', page) =>
    have grabbed := grabs kernel' page rfl
    refine ⟨fun p avail => ?_, fun r mem => ?_, ?_⟩
    · change (kernel'.tables.entry p).osVirtAvail at avail
      by_cases inside : Region.Contains ⟨page, vsize⟩ p
      · rw [grabbed.entry_inside inside] at avail
        cases avail
      · change (kernel'.tables.entry p).osVirtStart = false
        rw [grabbed.entry_outside inside] at avail ⊢
        exact valid.clean p avail
    · rcases mem_append.mp mem with old | new
      · obtain ⟨positive, below, entries⟩ := valid.taken r old
        refine ⟨positive, below, fun p inside => ?_⟩
        change kernel'.tables.mapped p ∧ (kernel'.tables.entry p).osVirtAvail = false ∧
          (kernel'.tables.entry p).osVirtStart = _
        rw [grabbed.mapped, grabbed.entry_outside (valid.fresh grabbed old p inside)]
        exact entries p inside
      · obtain rfl := mem_singleton.mp new
        exact grabbed.taken valid.clean
    · refine pairwise_append.mpr ⟨valid.disjoint, pairwise_singleton _ _, ?_⟩
      intro r mem r' mem'
      obtain rfl := mem_singleton.mp mem'
      exact valid.fresh grabbed mem

end

theorem Valid.nodup (valid : Valid s) : s.regions.Nodup := by
  refine valid.disjoint.imp_of_mem fun {r r'} mem _ apart same => ?_
  have positive := (valid.taken r mem).positive
  exact apart r.page ⟨le_rfl, by omega⟩ (same ▸ ⟨le_rfl, by omega⟩)

theorem Valid.apart (valid : Valid s) (mem : r ∈ s.regions) (mem' : r' ∈ s.regions)
    (ne : r ≠ r') : r.Disjoint r' :=
  valid.disjoint.forall mem mem' ne

variable {result : PageTables × ℕ}

/-- A walk meets another region at its first page, whose start bit stops it. -/
theorem freeWalk_taken {page size : ℕ} (taken : Taken t r) (le : first ≤ page)
    (entering : ∀ q, r.Contains q → q = page % 2 ^ 36 → q = r.page ∧ first ≠ page)
    (h : freeWalk first fuel t page size = some result) : Taken result.1 r := by
  fun_induction freeWalk first fuel t page size with
  | case1 => cases h
  | case2 =>
    cases h
    exact taken
  | case3 fuel t page size stops ih =>
    have outside : ¬r.Contains (page % 2 ^ 36) := by
      intro inside
      obtain ⟨start, ne⟩ := entering _ inside rfl
      have bit : (t.entry (page % 2 ^ 36)).osVirtStart = true := by
        rw [(taken.entries _ inside).2.2, start, decide_eq_true rfl]
      refine stops ?_
      rw [PageTables.stops, bit, bne_iff_ne.mpr ne, Bool.and_self, Bool.or_true]
    refine ih ?_ (by omega) ?_ h
    · refine ⟨taken.positive, taken.below, fun p inside => ?_⟩
      have entry : (t.release page).entry p = t.entry p := by
        refine if_neg ?_
        rintro rfl
        exact outside inside
      rw [entry]
      exact taken.entries p inside
    · intro q inside next
      by_contra later
      obtain ⟨low, high⟩ := inside
      exact outside ⟨by omega, by omega⟩

theorem freeWalk_clean {page size : ℕ}
    (clean : ∀ p, (t.entry p).osVirtAvail → (t.entry p).osVirtStart = false)
    (h : freeWalk first fuel t page size = some result) :
    ∀ p, (result.1.entry p).osVirtAvail → (result.1.entry p).osVirtStart = false := by
  fun_induction freeWalk first fuel t page size with
  | case1 => cases h
  | case2 =>
    cases h
    exact clean
  | case3 _ _ _ _ _ ih =>
    refine ih (fun p => ?_) h
    simp only [release]
    split_ifs with here
    · exact fun _ => rfl
    · exact clean p

theorem Valid.freed (valid : Valid s) (mem : r ∈ s.regions) {size : ℕ}
    (h : vpagefree s.kernel r.page = some (kernel', size)) : Valid ⟨kernel', s.regions.erase r⟩ := by
  obtain ⟨result, walk, same⟩ := map_eq_some_iff.mp h
  obtain ⟨rfl, rfl⟩ := same
  refine ⟨freeWalk_clean valid.clean walk, fun r' mem' => ?_, valid.disjoint.sublist erase_sublist⟩
  obtain ⟨ne, old⟩ := valid.nodup.mem_erase_iff.mp mem'
  have taken := valid.taken r mem
  refine freeWalk_taken (valid.taken r' old) le_rfl (fun q inside here => ?_) walk
  have below := taken.below
  have positive := taken.positive
  rw [Nat.mod_eq_of_lt (by omega)] at here
  exact absurd ⟨here.ge, by omega⟩ (valid.apart old mem ne q inside)

theorem Valid.exec (valid : Valid s) {a : Action} (h : exec s a = some s') : Valid s' := by
  cases a with
  | vpagealloc vsize =>
    simp only [VPage.exec, some.injEq] at h
    subst h
    exact valid.allocated fun _ _ => vpagealloc_grabbed
  | vpagealloc32 vsize =>
    simp only [VPage.exec, some.injEq] at h
    subst h
    exact valid.allocated fun _ _ => vpagealloc32_grabbed
  | vpagefree page =>
    obtain ⟨r, found, h⟩ := Option.bind_eq_some_iff.mp h
    have mem := mem_of_find?_eq_some found
    obtain rfl : r.page = page := by simpa using find?_some found
    obtain ⟨⟨kernel, size⟩, freed, h⟩ := Option.bind_eq_some_iff.mp h
    simp only [Option.pure_def, some.injEq] at h
    subst h
    exact valid.freed mem freed

theorem Valid.allocatorSafe (valid : Valid s) : AllocatorSafe s where
  disjoint := valid.disjoint
  vpagealloc _ := valid.allocatesFresh fun _ _ => vpagealloc_grabbed
  vpagealloc32 _ := valid.allocatesFresh fun _ _ => vpagealloc32_grabbed
  vpagefree r mem := freesExactly_iff (valid.taken r mem)

/-- In every reachable state the allocations are fresh and disjoint, and a region is freed exactly
if and only if the page behind it ends the walk. -/
theorem allocatorSafe_of_run {kernel : Kernel} {actions : List Action} {s : State}
    (boot : ∀ p, (kernel.tables.entry p).osVirtAvail → (kernel.tables.entry p).osVirtStart = false)
    (run : Run exec ⟨kernel, []⟩ actions s) : AllocatorSafe s := by
  have start : Valid ⟨kernel, []⟩ := ⟨boot, by simp, .nil⟩
  exact (run.invariant (fun _ _ _ valid _ => valid.exec) start).allocatorSafe

/-- One page table at 4 GB; a page is available as `avail` says. -/
def bootKernel (avail : ℕ → Bool) : Kernel where
  tables :=
    { pml4t := fun i => i == 0
      pdpt := fun j => j == 4
      pdt := fun k => k == 4 * 512
      entry := fun page => { present := false, osVirtAvail := avail page, osVirtStart := false } }
  allocatedVpages := 0

/-- The start bit of the second region ends the first one. -/
theorem allocatorSafe_next_region :
    ∃ s, s.regions = [⟨2 ^ 20 + 2, 4096⟩] ∧ AllocatorSafe s := by
  have regions : (List.foldlM (fun s a => if True then exec s a else none)
      ⟨bootKernel fun _ => true, []⟩ [.vpagealloc 5000, .vpagealloc 4096, .vpagefree (2 ^ 20)]).map
      State.regions = some [⟨2 ^ 20 + 2, 4096⟩] := by
    decide +kernel
  obtain ⟨s, run, left⟩ := map_eq_some_iff.mp regions
  exact ⟨s, left, allocatorSafe_of_run (fun _ _ => rfl) (RunWhen.of_foldlM run)⟩

/-- A page that the boot code reserved right behind a region of one page counts as its second page,
and is given away by `vpagefree`. -/
theorem not_freesExactly_reserved_page :
    ∃ s, Run exec ⟨bootKernel (· != 2 ^ 20 + 1), []⟩ [.vpagealloc 4096] s ∧
      s.regions = [⟨2 ^ 20, 4096⟩] ∧ vpagesize s.kernel (2 ^ 20) = some 2 ∧
      (vpagefree s.kernel (2 ^ 20)).map (fun freed =>
        (freed.1.tables.entry (2 ^ 20 + 1)).osVirtAvail) = some true ∧
      ¬FreesExactly s.kernel ⟨2 ^ 20, 4096⟩ := by
  have outcome : (exec ⟨bootKernel (· != 2 ^ 20 + 1), []⟩ (.vpagealloc 4096)).map (fun s =>
      (s.regions, vpagesize s.kernel (2 ^ 20), (vpagefree s.kernel (2 ^ 20)).map fun freed =>
        (freed.1.tables.entry (2 ^ 20 + 1)).osVirtAvail)) =
      some ([⟨2 ^ 20, 4096⟩], some 2, some true) := by
    decide +kernel
  obtain ⟨s, taken, seen⟩ := map_eq_some_iff.mp outcome
  simp only [Prod.mk.injEq] at seen
  obtain ⟨regions, size, freed⟩ := seen
  refine ⟨s, .cons trivial taken (.nil s), regions, size, freed, fun h => ?_⟩
  have := size.symm.trans h.1
  exact absurd this (by decide)

end JeoKernel.VPage

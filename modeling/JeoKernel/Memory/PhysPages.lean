import Mathlib.Algebra.Ring.Int.Defs
import JeoKernel.Lib.FirstFit
import JeoKernel.Lib.Machine
import JeoKernel.Lib.WordBits

/-!
# Physical pages

A bitmap says which physical pages are claimed.  `ppagealloc` and `ppagealloc32` look for the first
run of unclaimed pages; the address 0 stands both for "no run open" in the loop and for "no run found"
in the result.  `ppagefree` releases the pages of a region.
-/

namespace JeoKernel.PhysPages

open List Region

/-! ## The map -/

/-- A `physpagemap_managed`: one bit for each of `size` pages from `base` on. -/
structure PhysMap where
  words : List (BitVec 32)
  base : ℕ
  size : ℕ
  covered : size ≤ 32 * words.length
  small : base + size < 2 ^ 32

namespace PhysMap

def max (m : PhysMap) : ℕ := m.base + m.size

/-- A page that is not in the map is claimed. -/
def claimed (m : PhysMap) (page : ℕ) : Bool :=
  if m.max ≤ page ∨ page < m.base then true else WordBits.bit m.words (page - m.base)

def setBit (m : PhysMap) (page : ℕ) (value : Bool) : PhysMap :=
  { m with
    words := WordBits.setBit m.words (page - m.base) value
    covered := by rw [WordBits.length_setBit]; exact m.covered }

def claim (m : PhysMap) (page : ℕ) : PhysMap :=
  if m.max ≤ page ∨ page < m.base then m else m.setBit page true

def release (m : PhysMap) (page : ℕ) : PhysMap :=
  if m.max ≤ page ∨ page < m.base then m else m.setBit page false

end PhysMap

/-! ## The calls -/

structure PhysState where
  map : PhysMap
  allocated : ℤ

/-- The number of pages for `size` bytes, in words of `width` bits. -/
def pageCount (width size : ℕ) : ℕ :=
  (if size % 4096 ≠ 0 then (size + 4096) % 2 ^ width else size) / 4096

/-- The loop over the pages: `turns` more of them, the next one `page`; it finds the address of a run
of `size` pages. -/
def scan (claimed : ℕ → Bool) (size : ℕ) : ℕ → ℕ → ℕ → ℕ → Option ℕ
  | 0, _, _, _ => none
  | turns + 1, page, startingAddr, count =>
    if claimed page = false then
      if startingAddr ≠ 0 then
        if count + 1 = size then some startingAddr
        else scan claimed size turns (page + 1) startingAddr (count + 1)
      else if size = 1 then some (4096 * page)
      else scan claimed size turns (page + 1) (4096 * page) 1
    else scan claimed size turns (page + 1) 0 count

/-- Claiming the pages of the addresses from `startingAddr` to `endingAddr`, and counting `size`. -/
def PhysState.grab (s : PhysState) (startingAddr endingAddr size : ℕ) : PhysState where
  map := (range' (startingAddr / 4096) ((endingAddr - startingAddr + 4095) / 4096)).foldl
    PhysMap.claim s.map
  allocated := s.allocated + size

/-- The pages of the run that was found are claimed; the address is 0 if there is no run. -/
def PhysState.finish (s : PhysState) (size : ℕ) (endingAddr : ℕ → ℕ) : Option ℕ → PhysState × ℕ
  | some startingAddr => (s.grab startingAddr (endingAddr startingAddr) size, startingAddr)
  | none => (s, 0)

def PhysState.ppagealloc (s : PhysState) (size : ℕ) : PhysState × ℕ :=
  let size := pageCount 64 size
  s.finish size (fun startingAddr => startingAddr + size * 4096)
    (scan s.map.claimed size (s.map.max - s.map.base) s.map.base 0 0)

/-- `ppagealloc32`; `ending_addr` has 32 bits, and a single page is claimed without it. -/
def PhysState.ppagealloc32 (s : PhysState) (size : ℕ) : PhysState × ℕ :=
  let size := pageCount 32 size
  let max := min (2 ^ 20) s.map.max
  s.finish size
    (fun startingAddr =>
      if size = 1 then startingAddr + 4096 else (startingAddr + size * 4096) % 2 ^ 32)
    (scan s.map.claimed size (max - 256) 256 0 0)

/-- The loop of `ppagefree`, which panics at a page that is not claimed. -/
def freeLoop : ℕ → ℕ → PhysState → Option PhysState
  | 0, _, s => some s
  | turns + 1, addr, s =>
    if s.map.claimed (addr % 2 ^ 32) = false ∨ s.map.max ≤ addr then none
    else freeLoop turns (addr + 1) ⟨s.map.release (addr % 2 ^ 32), s.allocated - 1⟩

def PhysState.ppagefree (s : PhysState) (addr size : ℕ) : Option PhysState :=
  freeLoop (pageCount 64 size) (addr / 4096) s

/-! ## Runs -/

/-- A region that was handed out; `low` for one of `ppagealloc32`. -/
structure Held where
  addr : ℕ
  size : UInt64
  low : Bool

def pagesFor (size : ℕ) : ℕ := (size + 4095) / 4096

def Held.region (h : Held) : Region := ⟨h.addr / 4096, pagesFor h.size.toNat⟩

structure PagesState where
  phys : PhysState
  held : List Held

inductive PagesAction where
  | alloc (size : UInt64)
  | alloc32 (size : UInt32)
  | free (i : ℕ)

/-- A region is handed out unless the address is 0. -/
def PagesState.handOut (s : PagesState) (result : PhysState × ℕ) (size : UInt64) (low : Bool) :
    PagesState :=
  ⟨result.1, if result.2 = 0 then s.held else ⟨result.2, size, low⟩ :: s.held⟩

def pagesExec (s : PagesState) : PagesAction → Option PagesState
  | .alloc size => some (s.handOut (s.phys.ppagealloc size.toNat) size false)
  | .alloc32 size => some (s.handOut (s.phys.ppagealloc32 size.toNat) size.toUInt64 true)
  | .free i =>
    match s.held[i]? with
    | none => none
    | some h => (s.phys.ppagefree h.addr h.size.toNat).map fun phys => ⟨phys, s.held.eraseIdx i⟩

def PhysState.Free (s : PhysState) (page : ℕ) : Prop := s.map.claimed page = false

instance (s : PhysState) (page : ℕ) : Decidable (s.Free page) := inferInstanceAs (Decidable (_ = _))

/-- A call for `size` pages between `lo` and `hi`: there is no run and nothing happens, or the pages of
a run are claimed and counted. -/
inductive Served (lo hi size : ℕ) (s : PhysState) : PhysState × ℕ → Prop
  | refused : (∀ start, 0 < size → ¬Region.Fits s.Free lo hi ⟨start, size⟩) → Served lo hi size s (s, 0)
  | granted {t page} : 0 < page → 0 < size →
      Region.Fits s.Free lo hi ⟨page, size⟩ → t.map.base = s.map.base → t.map.max = s.map.max →
      (∀ x, t.map.claimed x = true ↔ s.map.claimed x = true ∨ x ∈ (⟨page, size⟩ : Region)) →
      t.allocated = s.allocated + size → Served lo hi size s (t, 4096 * page)

/-- The regions that are handed out, and the pages that were claimed at the start. -/
structure PagesState.Sound (start : PhysState) (s : PagesState) : Prop where
  regions : Regions (fun page => start.map.claimed page = true) (fun page => s.phys.map.claimed page = true)
    (s.held.map Held.region)
  aligned : ∀ h ∈ s.held, h.addr % 4096 = 0
  low : ∀ h ∈ s.held, h.low = true → h.region.start + h.region.length ≤ 2 ^ 20
  allocated : s.phys.allocated = start.allocated + ((s.held.map Held.region).map Region.length).sum

/-- Page 0 is not handed out; a run of several pages does not end at 4 GiB if `ppagealloc32` comes to
it. -/
def PagesState.Spares (s : PagesState) : PagesAction → Prop
  | .alloc size =>
    s.phys.Free 0 → pagesFor size.toNat ≠ 1 ∧
      (Region.Fits s.phys.Free 0 s.phys.map.max ⟨0, pagesFor size.toNat⟩ →
        ∃ start, Region.Fits s.phys.Free 1 s.phys.map.max ⟨start, pagesFor size.toNat⟩)
  | .alloc32 size =>
    2 ≤ pagesFor size.toNat →
      Region.Fits s.phys.Free 256 (min (2 ^ 20) s.phys.map.max)
        ⟨2 ^ 20 - pagesFor size.toNat, pagesFor size.toNat⟩ →
      ∃ start, start + pagesFor size.toNat < 2 ^ 20 ∧
        Region.Fits s.phys.Free 256 (min (2 ^ 20) s.phys.map.max) ⟨start, pagesFor size.toNat⟩
  | .free _ => True

/-! ## Claiming and releasing -/

namespace PhysMap

variable (m : PhysMap)

variable {page : ℕ}

theorem claimed_of_outside (outside : m.max ≤ page ∨ page < m.base) :
    m.claimed page = true := if_pos outside

theorem claimed_setBit (inside : ¬(m.max ≤ page ∨ page < m.base)) (value : Bool) (x : ℕ) :
    (m.setBit page value).claimed x = if x = page then value else m.claimed x := by
  have covered := m.covered
  unfold max at inside
  unfold claimed setBit max
  dsimp only
  by_cases outside : m.base + m.size ≤ x ∨ x < m.base
  · rw [if_pos outside, if_pos outside, if_neg (by omega)]
  · rw [if_neg outside, if_neg outside, WordBits.bit_setBit value (by omega) (by decide)]
    exact if_congr (by omega) rfl rfl

theorem claimed_claim (page x : ℕ) :
    (m.claim page).claimed x = true ↔ m.claimed x = true ∨ x = page := by
  unfold claim
  split_ifs with outside
  · refine ⟨.inl, ?_⟩
    rintro (claimed | rfl)
    · exact claimed
    · exact m.claimed_of_outside outside
  · rw [m.claimed_setBit outside]
    by_cases same : x = page
    · simp [same]
    · simp [same]

theorem claimed_release (lower : m.base ≤ page) (upper : page < m.max) (x : ℕ) :
    (m.release page).claimed x = true ↔ m.claimed x = true ∧ x ≠ page := by
  have inside : ¬(m.max ≤ page ∨ page < m.base) := by omega
  rw [release, if_neg inside, m.claimed_setBit inside]
  by_cases same : x = page
  · simp [same]
  · simp [same]

theorem bounds_claim (page : ℕ) : (m.claim page).base = m.base ∧ (m.claim page).max = m.max := by
  unfold claim
  split_ifs <;> exact ⟨rfl, rfl⟩

theorem bounds_release (page : ℕ) :
    (m.release page).base = m.base ∧ (m.release page).max = m.max := by
  unfold release
  split_ifs <;> exact ⟨rfl, rfl⟩

theorem claimed_foldl_claim (first count : ℕ) :
    let m' := (range' first count).foldl claim m
    m'.base = m.base ∧ m'.max = m.max ∧
      ∀ x, m'.claimed x = true ↔ m.claimed x = true ∨ x ∈ (⟨first, count⟩ : Region) := by
  induction count generalizing m first with
  | zero =>
    refine ⟨rfl, rfl, fun x => ⟨.inl, ?_⟩⟩
    rintro (claimed | mem)
    · exact claimed
    · rw [mem_def] at mem
      dsimp only at mem
      omega
  | succ count ih =>
    obtain ⟨base, max, claimed⟩ := ih (m.claim first) (first + 1)
    obtain ⟨base', max'⟩ := m.bounds_claim first
    rw [range'_succ, foldl_cons]
    refine ⟨base.trans base', max.trans max', fun x => ?_⟩
    rw [claimed, m.claimed_claim, or_assoc]
    refine or_congr_right ?_
    simp only [mem_def]
    omega

end PhysMap

variable {s : PhysState}

theorem freeLoop_spec {addr turns : ℕ} (lower : s.map.base ≤ addr)
    (upper : addr + turns ≤ s.map.max)
    (claimed : ∀ x ∈ (⟨addr, turns⟩ : Region), s.map.claimed x = true) :
    ∃ t, freeLoop turns addr s = some t ∧ t.map.base = s.map.base ∧ t.map.max = s.map.max ∧
      (∀ x, t.map.claimed x = true ↔ s.map.claimed x = true ∧ x ∉ (⟨addr, turns⟩ : Region)) ∧
      t.allocated = s.allocated - turns := by
  induction turns generalizing s addr with
  | zero =>
    refine ⟨s, rfl, rfl, rfl, fun x => ?_, by simp⟩
    simp only [mem_def]
    constructor
    · exact fun h => ⟨h, by omega⟩
    · exact fun h => h.1
  | succ turns ih =>
    have small := s.map.small
    have word : addr % 2 ^ 32 = addr := Nat.mod_eq_of_lt (by unfold PhysMap.max at upper; omega)
    have here : s.map.claimed addr = true := claimed addr (by rw [mem_def]; dsimp only; omega)
    obtain ⟨base, max⟩ := s.map.bounds_release addr
    have released := s.map.claimed_release lower (by omega)
    have rest : ∀ x ∈ (⟨addr + 1, turns⟩ : Region), (s.map.release addr).claimed x = true := by
      intro x mem
      rw [mem_def] at mem
      dsimp only at mem
      rw [released]
      exact ⟨claimed x (by rw [mem_def]; dsimp only; omega), by omega⟩
    obtain ⟨t, freed, base', max', claimed', allocated⟩ :=
      @ih ⟨s.map.release addr, s.allocated - 1⟩ (addr + 1) (by dsimp only; omega)
        (by dsimp only; omega) rest
    refine ⟨t, ?_, base'.trans base, max'.trans max, fun x => ?_, ?_⟩
    · rw [freeLoop, word, if_neg (by rw [here]; simp; omega)]
      exact freed
    · rw [claimed', released, and_assoc]
      refine and_congr_right fun _ => ?_
      simp only [mem_def]
      omega
    · rw [allocated]
      push_cast
      omega

/-! ## The loop over the pages -/

variable {hi : ℕ}

section Scan

variable {claimed : ℕ → Bool} {size lo : ℕ}

/-- What the loop knows: no run is open, or one that is open starts at `startingAddr`. -/
def Scanning (claimed : ℕ → Bool) (size lo page startingAddr count : ℕ) : Prop :=
  (startingAddr = 0 ∧ Counting (claimed · = false) size lo page 0) ∨
  (startingAddr ≠ 0 ∧ startingAddr = 4096 * (page - count) ∧
    Counting (claimed · = false) size lo page count)

/-- The first run of free pages up to `hi`, or none if there is no run. -/
inductive FirstRun (free : ℕ → Prop) (lo hi size : ℕ) : Option ℕ → Prop
  | none : (∀ start, ¬Region.Fits free lo hi ⟨start, size⟩) → FirstRun free lo hi size none
  | some {page} : Region.Fits free lo hi ⟨page, size⟩ →
      (∀ start < page, ¬Region.Fits free lo hi ⟨start, size⟩) →
      FirstRun free lo hi size (some (4096 * page))

theorem FirstRun.extend {free : ℕ → Prop} {pos count : ℕ} (h : Counting free size lo pos count)
    (here : free pos) (enough : count + 1 = size) (le : pos + 1 ≤ hi) :
    FirstRun free lo hi size (Option.some (4096 * (pos - count))) := by
  obtain ⟨fits, first⟩ := h.found here enough
  refine .some ⟨fits.lower, fits.upper.trans le, fits.free⟩ fun start before fits' => ?_
  exact first start before ⟨fits'.lower, by dsimp only; omega, fits'.free⟩

theorem scan_firstRun (positive : 0 < lo) (turns : ℕ) {startingAddr count : ℕ}
    (scanning : Scanning claimed size lo page startingAddr count) :
    FirstRun (claimed · = false) lo (page + turns) size
      (scan claimed size turns page startingAddr count) := by
  induction turns generalizing page startingAddr count with
  | zero =>
    rcases scanning with ⟨-, h⟩ | ⟨-, -, h⟩ <;> exact .none h.none_yet
  | succ turns ih =>
    rw [scan, show page + (turns + 1) = page + 1 + turns by omega]
    rcases scanning with ⟨rfl, h⟩ | ⟨opened, start, h⟩
    · have room := h.room
      rw [if_neg (not_not_intro (Eq.refl 0))]
      split_ifs with free one
      · exact FirstRun.extend h free one.symm (by omega)
      · exact ih (.inr ⟨by omega, by omega, h.succ free (by omega)⟩)
      · exact ih (.inl ⟨rfl, h.used free⟩)
    · split_ifs with free enough
      · exact start ▸ FirstRun.extend h free enough (by omega)
      · exact ih (.inr ⟨opened, by omega, h.succ free enough⟩)
      · exact ih (.inl ⟨rfl, h.used free⟩)

theorem scan_page_zero (turns : ℕ) (skipped : claimed 0 = false → size ≠ 1) :
    ∃ count, scan claimed size (turns + 1) 0 0 0 = scan claimed size turns 1 0 count := by
  rw [scan]
  by_cases free : claimed 0 = false
  · rw [if_pos free, if_neg (by simp), if_neg (skipped free)]
    exact ⟨1, rfl⟩
  · rw [if_neg free]
    exact ⟨0, rfl⟩

theorem scan_zero (turns page startingAddr count : ℕ) :
    scan claimed 0 turns page startingAddr count = none := by
  induction turns generalizing page startingAddr count with
  | zero => rfl
  | succ turns ih =>
    rw [scan]
    split_ifs with free opened enough
    · omega
    · exact ih _ _ _
    · omega
    · exact ih _ _ _
    · exact ih _ _ _

end Scan

/-! ## The calls -/

theorem pageCount_cases (width : ℕ) {size : ℕ} (large : 12 ≤ width) (word : size < 2 ^ width) :
    pageCount width size = pagesFor size ∨
      pageCount width size = 0 ∧ pagesFor size = 2 ^ (width - 12) := by
  obtain ⟨k, rfl⟩ := Nat.exists_eq_add_of_le large
  rw [Nat.pow_add] at word
  unfold pageCount pagesFor
  rw [Nat.pow_add, Nat.add_sub_cancel_left]
  generalize 2 ^ k = n at *
  split_ifs
  · by_cases wraps : size + 4096 < 2 ^ 12 * n
    · rw [Nat.mod_eq_of_lt wraps]
      omega
    · rw [Nat.mod_eq_sub_mod (by omega), Nat.mod_eq_of_lt (by omega)]
      omega
  · omega

open PhysState

theorem PhysState.served_grab {lo size : ℕ} (positive : 0 < page) (some_pages : 0 < size)
    (fits : Region.Fits s.Free lo hi ⟨page, size⟩) :
    Served lo hi size s (s.grab (4096 * page) (4096 * page + size * 4096) size, 4096 * page) := by
  have first : 4096 * page / 4096 = page := by omega
  have count : (4096 * page + size * 4096 - 4096 * page + 4095) / 4096 = size := by omega
  obtain ⟨base, max, claimed⟩ := s.map.claimed_foldl_claim page size
  rw [grab, first, count]
  exact .granted positive some_pages fits base max claimed rfl

theorem FirstRun.served {lo lo' size : ℕ} {found : Option ℕ} {endingAddr : ℕ → ℕ}
    (first : FirstRun s.Free lo hi size found) (positive : 0 < lo) (some_pages : 0 < size)
    (lower : lo' ≤ lo)
    (no_more : ∀ start, Region.Fits s.Free lo' hi ⟨start, size⟩ →
      ∃ start', Region.Fits s.Free lo hi ⟨start', size⟩)
    (ending : ∀ page, found = Option.some (4096 * page) →
      endingAddr (4096 * page) = 4096 * page + size * 4096) :
    Served lo' hi size s (s.finish size endingAddr found) := by
  cases first with
  | none unfit =>
    refine .refused fun start _ fits => ?_
    obtain ⟨start', fits'⟩ := no_more start fits
    exact unfit start' fits'
  | some fits _ =>
    have := fits.lower
    dsimp only at this
    rw [finish, ending _ rfl]
    exact served_grab (by omega) some_pages ⟨lower.trans fits.lower, fits.upper, fits.free⟩

theorem PhysState.served_finish_zero {lo size : ℕ} (endingAddr : ℕ → ℕ) (turns page : ℕ)
    (unfit : ∀ start, 0 < size → ¬Region.Fits s.Free lo hi ⟨start, size⟩) :
    Served lo hi size s (s.finish 0 endingAddr (scan s.map.claimed 0 turns page 0 0)) := by
  rw [scan_zero]
  exact .refused unfit

theorem PagesState.Spares.served_alloc {s : PagesState} {size : UInt64}
    (spares : s.Spares (.alloc size)) :
    Served s.phys.map.base s.phys.map.max (pagesFor size.toNat) s.phys
      (s.phys.ppagealloc size.toNat) := by
  have small := s.phys.map.small
  have bounds : s.phys.map.max = s.phys.map.base + s.phys.map.size := rfl
  unfold ppagealloc
  rcases pageCount_cases 64 (by decide) size.toNat_lt with asked | ⟨zero, many⟩
  · dsimp only
    rw [asked]
    obtain none_asked | some_pages := Nat.eq_zero_or_pos (pagesFor size.toNat)
    · rw [none_asked]
      exact served_finish_zero _ _ _ (by omega)
    obtain zero | positive := Nat.eq_zero_or_pos s.phys.map.base
    · cases pages : s.phys.map.max with
      | zero =>
        rw [zero]
        refine .refused fun start _ fits => ?_
        have := fits.upper
        dsimp only at this
        omega
      | succ turns =>
        rw [zero, Nat.sub_zero]
        obtain ⟨count, same⟩ := scan_page_zero turns fun free => (spares free).1
        have scanning : Scanning s.phys.map.claimed _ 1 1 0 count := .inl ⟨rfl, .start _ 1 some_pages⟩
        have first := scan_firstRun one_pos turns scanning
        rw [add_comm] at first
        rw [same]
        refine first.served one_pos some_pages (Nat.zero_le _) (fun start fits => ?_)
          fun _ _ => rfl
        obtain rfl | later := Nat.eq_zero_or_pos start
        · have free : s.phys.Free 0 := fits.free 0 ⟨le_rfl, by dsimp only; omega⟩
          rw [← pages] at fits ⊢
          exact (spares free).2 fits
        · exact ⟨start, later, fits.upper, fits.free⟩
    · have scanning : Scanning s.phys.map.claimed _ s.phys.map.base s.phys.map.base 0 0 :=
        .inl ⟨rfl, .start _ _ some_pages⟩
      have first := scan_firstRun positive (s.phys.map.max - s.phys.map.base) scanning
      rw [show s.phys.map.base + (s.phys.map.max - s.phys.map.base) = s.phys.map.max by omega] at first
      exact first.served positive some_pages le_rfl (fun start fits => ⟨start, fits⟩) fun _ _ => rfl
  · rw [zero]
    refine served_finish_zero _ _ _ fun start _ fits => ?_
    have := fits.upper
    dsimp only at this
    omega

theorem PagesState.Spares.served_alloc32 {s : PagesState} {size : UInt32}
    (spares : s.Spares (.alloc32 size)) :
    Served 256 (min (2 ^ 20) s.phys.map.max) (pagesFor size.toNat) s.phys
      (s.phys.ppagealloc32 size.toNat) := by
  unfold ppagealloc32
  dsimp only [PagesState.Spares] at spares
  generalize upper_eq : min (2 ^ 20) s.phys.map.max = hi at *
  rcases pageCount_cases 32 (by decide) size.toNat_lt with asked | ⟨zero, many⟩
  · dsimp only
    rw [asked]
    generalize pagesFor size.toNat = n at *
    obtain rfl | some_pages := Nat.eq_zero_or_pos n
    · exact served_finish_zero _ _ _ (by omega)
    have scanning : Scanning s.phys.map.claimed n 256 256 0 0 := .inl ⟨rfl, .start _ _ some_pages⟩
    have first := scan_firstRun (by decide) (hi - 256) scanning
    by_cases low : 256 ≤ hi
    · rw [Nat.add_sub_of_le low] at first
      refine first.served (by decide) some_pages le_rfl (fun start fits => ⟨start, fits⟩) ?_
      intro page found
      split_ifs with one
      · rw [one, Nat.one_mul]
      · generalize scan s.phys.map.claimed n (hi - 256) 256 0 0 = result at first found
        -- a run that ends at 4 GiB would be the first one
        cases first with
        | none unfit => cases found
        | @some first_page fits earliest =>
          obtain rfl : first_page = page := by simpa using found
          have upper := fits.upper
          dsimp only at upper
          by_contra wraps
          obtain ⟨start, earlier, fits'⟩ := spares (by omega) (by
            rw [show 2 ^ 20 - n = first_page by omega]
            exact fits)
          exact earliest start (by omega) fits'
    · rw [Nat.sub_eq_zero_of_le (by omega)]
      refine .refused fun start _ fits => ?_
      have := fits.lower
      have := fits.upper
      omega
  · rw [zero]
    refine served_finish_zero _ _ _ fun start _ fits => ?_
    have := fits.lower
    have := fits.upper
    dsimp only at *
    omega

/-! ## What a run keeps -/

/-- The map keeps its bounds. -/
structure PagesInv (start : PhysState) (s : PagesState) : Prop extends s.Sound start where
  base : s.phys.map.base = start.map.base
  max : s.phys.map.max = start.map.max

section Steps

variable {start : PhysState} {s : PagesState}

section

variable (h : PagesInv start s)

include h

theorem PagesInv.handOut {lo : ℕ} {result : PhysState × ℕ} {size : UInt64} {low : Bool}
    (served : Served lo hi (pagesFor size.toNat) s.phys result) (limit : low = true → hi ≤ 2 ^ 20) :
    PagesInv start (s.handOut result size low) := by
  cases served with
  | refused _ => exact h
  | @granted t page positive some_pages fits base max claimed allocated =>
    have region : (⟨4096 * page, size, low⟩ : Held).region = ⟨page, pagesFor size.toNat⟩ := by
      rw [Held.region, Nat.mul_div_cancel_left _ (by decide)]
    have address : 4096 * page ≠ 0 := by omega
    refine ⟨⟨?_, ?_, ?_, ?_⟩, base.trans h.base, max.trans h.max⟩
    · rw [PagesState.handOut, if_neg address, map_cons, region]
      refine h.regions.take some_pages (fun x mem claimed => ?_) claimed
      exact absurd claimed (by rw [show s.phys.map.claimed x = false from fits.free x mem]; simp)
    · rw [PagesState.handOut, if_neg address]
      exact forall_mem_cons.mpr ⟨by dsimp only; omega, h.aligned⟩
    · rw [PagesState.handOut, if_neg address]
      refine forall_mem_cons.mpr ⟨fun is_low => ?_, h.low⟩
      rw [region]
      exact fits.upper.trans (limit is_low)
    · rw [PagesState.handOut, if_neg address, map_cons, map_cons, sum_cons, region,
        allocated, h.allocated]
      push_cast
      omega

/-- A region that is held lies in the map, and all of its pages are claimed. -/
theorem PagesInv.region_inside {r : Region} (listed : r ∈ s.held.map Held.region) :
    s.phys.map.base ≤ r.start ∧
      r.start + r.length ≤ s.phys.map.max ∧ ∀ x ∈ r, s.phys.map.claimed x = true := by
  have nonempty := h.regions.nonempty r listed
  have inside (x : ℕ) (mem : x ∈ r) : start.map.base ≤ x ∧ x < start.map.max := by
    have unclaimed := h.regions.unreserved r listed x mem
    by_contra outside
    exact unclaimed (start.map.claimed_of_outside (by omega))
  have first := inside r.start ⟨le_rfl, by omega⟩
  have last := inside (r.start + r.length - 1) ⟨by omega, by omega⟩
  rw [h.base, h.max]
  exact ⟨first.1, by omega, fun x mem => (h.regions.used x).mpr (.inr ⟨r, listed, mem⟩)⟩

/-- A region that is held can be freed, and its pages are then not claimed. -/
theorem PagesInv.free {i : ℕ} {held : Held} (at_i : s.held[i]? = some held) :
    ∃ phys, s.phys.ppagefree held.addr held.size.toNat = some phys ∧
      PagesInv start ⟨phys, s.held.eraseIdx i⟩ := by
  have small := s.phys.map.small
  have bounds : s.phys.map.max = s.phys.map.base + s.phys.map.size := rfl
  obtain ⟨bound, rfl⟩ := List.getElem?_eq_some_iff.mp at_i
  have same := List.getElem_cons_eraseIdx_perm bound
  have listed : s.held[i].region ∈ s.held.map Held.region :=
    mem_map_of_mem (getElem_mem bound)
  obtain ⟨lower, upper, claimed⟩ := h.region_inside listed
  have count : pageCount 64 s.held[i].size.toNat = s.held[i].region.length := by
    rcases pageCount_cases 64 (by decide) s.held[i].size.toNat_lt with count | ⟨-, many⟩
    · exact count
    · have : s.held[i].region.length = 2 ^ 52 := many
      omega
  obtain ⟨phys, freed, base, max, released, allocated⟩ := freeLoop_spec lower upper claimed
  refine ⟨phys, ?_, ⟨⟨?_, ?_, ?_, ?_⟩, base.trans h.base, max.trans h.max⟩⟩
  · rw [ppagefree, count]
    exact freed
  · have regions := h.regions.perm (same.symm.map Held.region)
    exact regions.put released
  · exact fun held mem => h.aligned held (mem_of_mem_eraseIdx mem)
  · exact fun held mem => h.low held (mem_of_mem_eraseIdx mem)
  · have total := ((same.map Held.region).map Region.length).sum_eq
    rw [map_cons, map_cons, sum_cons] at total
    rw [allocated, h.allocated, ← total]
    push_cast
    omega

theorem PagesInv.step {x : PagesAction} {t : PagesState} (spares : s.Spares x)
    (taken : pagesExec s x = some t) : PagesInv start t := by
  cases x with
  | alloc size =>
    cases taken
    exact h.handOut spares.served_alloc (by simp)
  | alloc32 size =>
    obtain rfl := Option.some.inj taken
    have served := spares.served_alloc32
    exact h.handOut served fun _ => Nat.min_le_left _ _
  | free i =>
    rw [pagesExec] at taken
    cases at_i : s.held[i]? with
    | none =>
      rw [at_i] at taken
      cases taken
    | some held =>
      obtain ⟨phys, freed, inv⟩ := h.free at_i
      rw [at_i] at taken
      simp only [freed, Option.map_some, Option.some.injEq] at taken
      rwa [← taken]

end

end Steps

/-- In every run that spares page 0 and the end of the first 4 GiB, the regions are disjoint and the
claimed pages are those of the regions and those claimed at the start; each call finds a run if there
is one, and each region can be freed. -/
theorem sound_of_spares {start : PhysState} {s : PagesState} {xs : List PagesAction}
    (run : Machine.RunWhen PagesState.Spares pagesExec ⟨start, []⟩ xs s) :
    s.Sound start ∧
    (∀ size, s.Spares (.alloc size) → Served s.phys.map.base s.phys.map.max (pagesFor size.toNat) s.phys
      (s.phys.ppagealloc size.toNat)) ∧
    (∀ size, s.Spares (.alloc32 size) → Served 256 (min (2 ^ 20) s.phys.map.max) (pagesFor size.toNat)
      s.phys (s.phys.ppagealloc32 size.toNat)) ∧
    ∀ (i : ℕ) (held : Held), s.held[i]? = some held →
      (s.phys.ppagefree held.addr held.size.toNat).isSome = true := by
  have inv₀ : PagesInv start ⟨start, []⟩ :=
    ⟨⟨.nil _, by simp, by simp, by simp⟩, rfl, rfl⟩
  have inv := run.invariant (fun _ _ _ h spares taken => PagesInv.step h spares taken) inv₀
  refine ⟨inv.toSound, fun size spares => spares.served_alloc, fun size spares => spares.served_alloc32,
    fun i held at_i => ?_⟩
  obtain ⟨phys, freed, -⟩ := inv.free at_i
  rw [freed]
  rfl

def fourPages (bits : BitVec 32) : PhysState := ⟨⟨[bits], 0, 4, by simp, by decide⟩, 0⟩

/-- Page 0 is claimed; two pages are allocated, freed, and one of them is allocated again. -/
theorem sound_reuse : ∃ s, Machine.RunWhen PagesState.Spares pagesExec ⟨fourPages 1, []⟩
    [.alloc 8192, .free 0, .alloc 100] s ∧ s.held.map Held.addr = [4096] ∧ s.Sound (fourPages 1) := by
  refine Machine.RunWhen.reaches (.cons (fun free => ?_) rfl (.cons trivial rfl
    (.cons (fun free => ?_) rfl (.nil _)))) fun run => ⟨by decide, (sound_of_spares run).1⟩
  · exact absurd free (by decide)
  · exact absurd free (by decide)

/-- Page 0 is not claimed: a call for one page claims and counts it, and returns 0. -/
theorem not_sound_page_zero : ∃ s, Machine.Run pagesExec ⟨fourPages 0, []⟩ [.alloc 4096] s ∧
    s.held.map Held.addr = [] ∧ s.phys.allocated = 1 ∧ ¬s.Sound (fourPages 0) := by
  refine ⟨_, .cons trivial rfl (.nil _), by decide, by decide, fun sound => ?_⟩
  have allocated := sound.allocated
  exact absurd allocated (by decide)

end JeoKernel.PhysPages

import Mathlib.Order.Interval.Finset.Nat

/-!
# The descriptor sets of `pselect6`

An `fdset` is an array of 32-bit words with one bit for each descriptor.  `ForEach` and `AnySet` go
through the words and, in a word that is not 0, through its descriptors; for a descriptor they test
the bit `bit % 32` of the set and with it always a bit of the first word.  Where no bit is set
outside of the first word (`FdSet.Low`) they do what their names say.
-/

namespace JeoKernel.Pselect

open List Function BitVec

/-! ## The code -/

/-- `fdset::data` -/
abbrev FdSet := ℕ → BitVec 32

namespace FdSet

def mask (n : ℕ) : BitVec 32 := 1#32 <<< (n % 32)

def isSet (s : FdSet) (n : ℕ) : Bool := s (n / 32) &&& mask n != 0#32

def set (s : FdSet) (n : ℕ) : FdSet := update s (n / 32) (s (n / 32) ||| mask n)

def unset (s : FdSet) (n : ℕ) : FdSet := update s (n / 32) (s (n / 32) &&& ~~~mask n)

def zero : FdSet := fun _ => 0#32

def maxPos (n : ℕ) : ℕ := if n % 32 ≠ 0 then n / 32 + 1 else n / 32

/-- The product is computed as `size_t` and returned as `int`. -/
def startOfPos (pos : ℕ) : ℤ := (BitVec.ofNat 32 (pos * 4 * 8)).toInt

/-- The values of `bit` in the inner loop over the word `i`. -/
def bits (n i : ℕ) : List ℕ :=
  (range' (startOfPos i).toNat 32).takeWhile
    fun bit => decide (bit < n) && decide ((bit : ℤ) < startOfPos (i + 1))

def forEach (s : FdSet) (n : ℕ) : List ℕ :=
  (range (maxPos n)).flatMap fun i =>
    if s i ≠ 0#32 then (bits n i).filter fun bit => s.isSet (bit % 32) else []

def anySet (s : FdSet) (n : ℕ) : Bool :=
  (range (maxPos n)).any fun i =>
    s i != 0#32 && (decide (i < maxPos n - 1) || (bits n i).any fun bit => s.isSet (bit % 32))

def sizeOfFdSet (n : ℕ) : ℕ :=
  let sizeofBitm := if n % 8 ≠ 0 then n / 8 + 1 else n / 8
  if sizeofBitm % 4 ≠ 0 then sizeofBitm + (4 - sizeofBitm % 4) else sizeofBitm

def overwrite (size : ℕ) (new old : FdSet) : FdSet := fun i => if 4 * i < size then new i else old i

/-- The number of bits set in the memory of a set for `n` descriptors. -/
def count (s : FdSet) (n : ℕ) : ℕ := ((Finset.range (32 * maxPos n)).filter fun fd => s.isSet fd).card

/-! ## Single bits -/

theorem isSet_eq_getLsbD (s : FdSet) (n : ℕ) : s.isSet n = (s (n / 32)).getLsbD (n % 32) := by
  have bound : n % 32 < 32 := Nat.mod_lt _ (by decide)
  have one : mask n = twoPow 32 (n % 32) := by
    simp [mask, twoPow]
  unfold isSet
  rw [one, and_twoPow]
  cases (s (n / 32)).getLsbD (n % 32) with
  | false => simp
  | true =>
    have nonzero : twoPow 32 (n % 32) ≠ 0#32 := by
      intro zero
      have bit := congrArg (fun v => getLsbD v (n % 32)) zero
      simp [bound] at bit
    simpa using nonzero

theorem getLsbD_mask (n : ℕ) {b : ℕ} (bound : b < 32) :
    (mask n).getLsbD b = decide (b = n % 32) := by
  have one : mask n = twoPow 32 (n % 32) := by
    simp [mask, twoPow]
  rw [one, getLsbD_twoPow]
  by_cases same : b = n % 32
  · subst same
    simp [bound]
  · simp [same, Ne.symm same]

theorem isSet_set (s : FdSet) (n m : ℕ) : (s.set n).isSet m = (decide (m = n) || s.isSet m) := by
  have bound : m % 32 < 32 := Nat.mod_lt _ (by decide)
  rw [isSet_eq_getLsbD, isSet_eq_getLsbD, set]
  by_cases word : m / 32 = n / 32
  · rw [word, update_self, getLsbD_or, getLsbD_mask n bound, Bool.or_comm]
    have same : m % 32 = n % 32 ↔ m = n := by omega
    simp only [same]
  · have other : m ≠ n := fun same => word (same ▸ rfl)
    rw [update_of_ne word]
    simp [other]

theorem isSet_zero (n : ℕ) : zero.isSet n = false := by simp [isSet, zero]

theorem isSet_foldl_set (l : List ℕ) (s : FdSet) (m : ℕ) :
    (l.foldl set s).isSet m = (decide (m ∈ l) || s.isSet m) := by
  induction l generalizing s with
  | nil => simp
  | cons n l ih =>
    rw [foldl_cons, ih, isSet_set]
    by_cases first : m = n <;> simp [first]

/-! ## Sizes -/

theorem sizeOfFdSet_eq (n : ℕ) : sizeOfFdSet n = 4 * maxPos n := by
  simp only [sizeOfFdSet, maxPos]
  split_ifs <;> omega

theorem lt_maxPos_iff {n i : ℕ} : i < maxPos n ↔ 32 * i < n := by
  unfold maxPos
  split_ifs <;> omega

theorem lt_of_lt {n fd : ℕ} (below : fd < n) : fd < 32 * maxPos n := by
  unfold maxPos
  split_ifs <;> omega

/-! ## Walks -/

theorem takeWhile_range' (a k m : ℕ) :
    (range' a k).takeWhile (fun b => decide (b < m)) = range' a (min k (m - a)) := by
  induction k generalizing a with
  | zero => simp
  | succ k ih =>
    rw [range'_succ, takeWhile_cons]
    by_cases below : a < m
    · obtain ⟨d, rfl⟩ : ∃ d, m = a + 1 + d := ⟨m - (a + 1), by omega⟩
      rw [if_pos (by simpa using below), ih,
        show min (k + 1) (a + 1 + d - a) = min k (a + 1 + d - (a + 1)) + 1 by omega,
        range'_succ]
    · rw [if_neg (by simpa using below), show min (k + 1) (m - a) = 0 by omega]
      rfl

/-- In the first word the inner loop goes through the descriptors of the word. -/
theorem mem_bits_zero {n bit : ℕ} : bit ∈ bits n 0 ↔ bit < n ∧ bit < 32 := by
  have bound : (fun bit : ℕ => decide (bit < n) && decide ((bit : ℤ) < startOfPos (0 + 1))) =
      fun bit => decide (bit < min n 32) := by
    funext bit
    have last : startOfPos (0 + 1) = 32 := by decide
    rw [last, ← Bool.decide_and, decide_eq_decide]
    omega
  have first : (startOfPos 0).toNat = 0 := by decide
  rw [bits, bound, first, takeWhile_range', mem_range']
  constructor
  · omega
  · intro below
    exact ⟨bit, by omega, by omega⟩

/-- No bit outside of the first word is set in the memory of the set. -/
def Low (s : FdSet) (n : ℕ) : Prop := ∀ fd, 32 ≤ fd → fd < 32 * maxPos n → s.isSet fd = false

variable {s : FdSet} {n fd : ℕ}

theorem Low.word (low : s.Low n) {i : ℕ} (pos : 0 < i) (below : i < maxPos n) : s i = 0#32 := by
  apply eq_of_getLsbD_eq
  intro b bound
  have clear := low (32 * i + b) (by omega) (by omega)
  rw [isSet_eq_getLsbD, show (32 * i + b) / 32 = i by omega, show (32 * i + b) % 32 = b by omega]
    at clear
  simpa using clear

theorem Low.lt (low : s.Low n) (below : fd < n) (given : s.isSet fd) : fd < 32 := by
  by_contra high
  have clear := low fd (by omega) (lt_of_lt below)
  simp [given] at clear

theorem word_ne_zero (given : s.isSet fd) : s (fd / 32) ≠ 0#32 := by
  intro zero
  simp [isSet, zero] at given

theorem Low.mem_forEach (low : s.Low n) : fd ∈ s.forEach n ↔ fd < n ∧ s.isSet fd := by
  unfold forEach
  rw [mem_flatMap]
  constructor
  · rintro ⟨i, below, listed⟩
    by_cases zero : s i = 0#32
    · simp [zero] at listed
    · obtain rfl : i = 0 := by
        by_contra pos
        exact zero (low.word (Nat.pos_of_ne_zero pos) (mem_range.mp below))
      rw [if_pos zero, mem_filter, mem_bits_zero] at listed
      obtain ⟨⟨inside, first⟩, given⟩ := listed
      exact ⟨inside, by rwa [Nat.mod_eq_of_lt first] at given⟩
  · rintro ⟨below, given⟩
    have first := low.lt below given
    have word : s 0 ≠ 0#32 := by
      have nonzero := word_ne_zero given
      rwa [Nat.div_eq_of_lt first] at nonzero
    refine ⟨0, mem_range.mpr (lt_maxPos_iff.mpr (by omega)), ?_⟩
    rw [if_pos word, mem_filter, mem_bits_zero]
    exact ⟨⟨below, first⟩, by rwa [Nat.mod_eq_of_lt first]⟩

theorem Low.anySet (low : s.Low n) (below : fd < n) (given : s.isSet fd) : s.anySet n = true := by
  have first := low.lt below given
  have word : s 0 ≠ 0#32 := by
    have nonzero := word_ne_zero given
    rwa [Nat.div_eq_of_lt first] at nonzero
  refine any_eq_true.mpr ⟨0, mem_range.mpr (lt_maxPos_iff.mpr (by omega)), ?_⟩
  have found : (bits n 0).any (fun bit => s.isSet (bit % 32)) = true :=
    any_eq_true.mpr ⟨fd, mem_bits_zero.mpr ⟨below, first⟩, by rwa [Nat.mod_eq_of_lt first]⟩
  simp [word, found]

theorem low_foldl_set {l : List ℕ} (low : ∀ fd ∈ l, fd < 32) (n : ℕ) : (l.foldl set zero).Low n := by
  intro fd high _
  have absent : fd ∉ l := fun listed => absurd (low fd listed) (by omega)
  simp [isSet_foldl_set, isSet_zero, absent]

/-! ## Counting -/

theorem count_eq_zero (clear : ∀ fd, s.isSet fd = false) : s.count n = 0 := by simp [count, clear]

theorem count_set (below : fd < n) (clear : s.isSet fd = false) :
    (s.set fd).count n = s.count n + 1 := by
  have grown : ((Finset.range (32 * maxPos n)).filter fun m => (s.set fd).isSet m) =
      insert fd ((Finset.range (32 * maxPos n)).filter fun m => s.isSet m) := by
    ext m
    simp only [Finset.mem_filter, Finset.mem_range, Finset.mem_insert, isSet_set, Bool.or_eq_true,
      decide_eq_true_eq]
    constructor
    · rintro ⟨inside, rfl | given⟩
      · exact .inl rfl
      · exact .inr ⟨inside, given⟩
    · rintro (rfl | ⟨inside, given⟩)
      · exact ⟨lt_of_lt below, .inl rfl⟩
      · exact ⟨inside, .inr given⟩
  unfold count
  rw [grown, Finset.card_insert_of_notMem (by simp [clear])]

theorem isSet_overwrite {new old : FdSet} (inside : fd < 32 * maxPos n) :
    (overwrite (sizeOfFdSet n) new old).isSet fd = new.isSet fd := by
  have word : 4 * (fd / 32) < sizeOfFdSet n := by
    rw [sizeOfFdSet_eq]
    omega
  rw [isSet, isSet, overwrite, if_pos word]

theorem count_overwrite (new old : FdSet) (n : ℕ) :
    (overwrite (sizeOfFdSet n) new old).count n = new.count n := by
  refine congrArg Finset.card (Finset.filter_congr fun fd inside => ?_)
  rw [isSet_overwrite (Finset.mem_range.mp inside)]

end FdSet

end JeoKernel.Pselect

import Mathlib.Tactic.Linarith

/-!
# The nanosecond clock

`get_nanotime_ref` divides the counter steps since `tsc_offset` by the frequency, in two parts of 32 bits
each; `set_nanotime_ref` computes the frequency and the offset from two readings of the counter.
-/

namespace JeoKernel.Nanotime

/-! ## The code -/

def word (n : ℕ) : ℕ := n % 2 ^ 64

structure Clock where
  tscOffset : ℕ
  tscFrequency : ℕ
  storedRef : ℕ
  storedTsc : ℕ

def Clock.boot : Clock := ⟨0, 0, 0, 0⟩

def Clock.getNanotimeRef (c : Clock) (tsc : ℕ) : ℕ :=
  let frequency := c.tscFrequency / 10
  if tsc < c.tscOffset ∨ frequency = 0 then 0
  else
    let tsc := tsc - c.tscOffset
    let timeHigh := word (tsc / 2 ^ 32 * 10 ^ 8)
    let timeLow := word (word (tsc % 2 ^ 32 * 10 ^ 8) + word (timeHigh % frequency * 2 ^ 32))
    word (word (timeHigh / frequency * 2 ^ 32) + timeLow / frequency)

def Clock.setNanotimeRef (c : Clock) (tsc ref : ℕ) : Clock :=
  if 0 < c.storedTsc ∧ c.storedRef < ref ∧ c.storedTsc < tsc then
    let tscFrequency := word ((tsc - c.storedTsc) * 10 ^ 9) / (ref - c.storedRef)
    ⟨word (tsc + (2 ^ 64 - word (ref * tscFrequency) / 10 ^ 9)), tscFrequency, ref, tsc⟩
  else { c with storedRef := ref, storedTsc := tsc }

/-- The clock after its first two references. -/
def Clock.calibrated (t0 r0 t1 r1 : ℕ) : Clock := (boot.setNanotimeRef t0 r0).setNanotimeRef t1 r1

/-! ## What the clock promises -/

section Promise

variable (c : Clock) (tsc : ℕ)

def Clock.high : ℕ := (tsc - c.tscOffset) / 2 ^ 32 * 10 ^ 8

def Clock.low : ℕ :=
  (tsc - c.tscOffset) % 2 ^ 32 * 10 ^ 8 + c.high tsc % (c.tscFrequency / 10) * 2 ^ 32

def Clock.nanos : ℕ := (tsc - c.tscOffset) * 10 ^ 8 / (c.tscFrequency / 10)

/-- The numbers that the code computes fit in their words. -/
structure Clock.Exact : Prop where
  value : c.getNanotimeRef tsc = c.nanos tsc
  high : c.high tsc < 2 ^ 64
  low : c.low tsc < 2 ^ 64
  shifted : c.high tsc / (c.tscFrequency / 10) * 2 ^ 32 < 2 ^ 64
  mono : ∀ tsc' ≤ tsc, c.getNanotimeRef tsc' ≤ c.getNanotimeRef tsc

/-- The clock shows `ref` up to what the truncated frequency makes of it. -/
def Clock.Shows (ref : ℕ) : Prop :=
  let frequency := c.tscFrequency / 10
  frequency ≠ 0 ∧ ref ≤ c.getNanotimeRef tsc + 10 ^ 8 / frequency + 1 ∧
    c.getNanotimeRef tsc ≤ ref + ref / frequency

/-- The counter runs, and the product and the offset that come from the frequency `F` do not wrap. -/
structure Calibrates (ref t0 t1 F : ℕ) : Prop where
  stored : 0 < t0
  later : t0 < t1
  fast : 10 ≤ F
  product : ref * F < 2 ^ 64
  offset : ref * F / 10 ^ 9 ≤ t1

end Promise

/-! ## Reading the clock -/

variable {c : Clock} {tsc tsc' F r0 r1 t0 t1 : ℕ}

theorem word_eq {n : ℕ} (small : n < 2 ^ 64) : word n = n := Nat.mod_eq_of_lt small

theorem nanos_eq (positive : 0 < c.tscFrequency / 10) :
    c.nanos tsc = c.high tsc / (c.tscFrequency / 10) * 2 ^ 32 + c.low tsc / (c.tscFrequency / 10) := by
  have parts := Nat.div_add_mod' (tsc - c.tscOffset) (2 ^ 32)
  have halves := Nat.div_add_mod (c.high tsc) (c.tscFrequency / 10)
  have high : c.high tsc = (tsc - c.tscOffset) / 2 ^ 32 * 10 ^ 8 := rfl
  have total : (tsc - c.tscOffset) * 10 ^ 8 =
      c.tscFrequency / 10 * (c.high tsc / (c.tscFrequency / 10) * 2 ^ 32) + c.low tsc := by
    unfold Clock.low
    linarith
  rw [Clock.nanos, total, Nat.mul_add_div positive]

/-- As long as the two halves fit, only the sum is cut to 64 bits. -/
theorem getNanotimeRef_eq (positive : 0 < c.tscFrequency / 10) (high : c.high tsc < 2 ^ 64)
    (low : c.low tsc < 2 ^ 64) : c.getNanotimeRef tsc = word (c.nanos tsc) := by
  unfold Clock.getNanotimeRef
  dsimp only
  split_ifs with none
  · have before := none.resolve_right positive.ne'
    rw [Clock.nanos, Nat.sub_eq_zero_of_le before.le, zero_mul, Nat.zero_div]
    rfl
  · have first : word ((tsc - c.tscOffset) / 2 ^ 32 * 10 ^ 8) = c.high tsc := word_eq high
    have sum : word (word ((tsc - c.tscOffset) % 2 ^ 32 * 10 ^ 8) +
        word (c.high tsc % (c.tscFrequency / 10) * 2 ^ 32)) = c.low tsc := by
      unfold Clock.low at low ⊢
      unfold word
      omega
    rw [first, sum, nanos_eq positive]
    exact Nat.mod_add_mod _ _ _

theorem exact_iff (slow : 10 ^ 6 ≤ c.tscFrequency) (fast : c.tscFrequency ≤ 10 ^ 10)
    (near : tsc - c.tscOffset < 2 ^ 63) : c.Exact tsc ↔ c.nanos tsc < 2 ^ 64 := by
  have positive : 0 < c.tscFrequency / 10 := by omega
  have halves : ∀ t ≤ tsc, c.high t < 2 ^ 64 ∧ c.low t < 2 ^ 64 := by
    intro t le
    have rest := Nat.mod_lt (c.high t) positive
    unfold Clock.low Clock.high at *
    omega
  have value : ∀ t ≤ tsc, c.getNanotimeRef t = word (c.nanos t) := fun t le =>
    getNanotimeRef_eq positive (halves t le).1 (halves t le).2
  constructor
  · intro exact
    rw [← exact.value, value tsc le_rfl]
    exact Nat.mod_lt _ (by decide)
  · intro small
    obtain ⟨high, low⟩ := halves tsc le_rfl
    have upper : c.high tsc / (c.tscFrequency / 10) * 2 ^ 32 ≤ c.nanos tsc := by
      rw [nanos_eq positive]
      exact Nat.le_add_right _ _
    refine ⟨(value tsc le_rfl).trans (word_eq small), high, low, upper.trans_lt small, fun t le => ?_⟩
    have less : c.nanos t ≤ c.nanos tsc :=
      Nat.div_le_div_right (Nat.mul_le_mul_right _ (Nat.sub_le_sub_right le _))
    rwa [value t le, value tsc le_rfl, word_eq small, word_eq (less.trans_lt small)]

/-! ## Calibrating the clock -/

theorem getNanotimeRef_at {ticks : ℕ} (few : ticks < 2 * 10 ^ 10) (range : t1 < 2 ^ 64)
    (fast : 10 ≤ F) : Clock.getNanotimeRef ⟨word (t1 + (2 ^ 64 - ticks)), F, r1, t1⟩ t1 =
      if ticks ≤ t1 then ticks * 10 ^ 8 / (F / 10) else 0 := by
  split_ifs with inside
  · have offset : word (t1 + (2 ^ 64 - ticks)) = t1 - ticks := by
      unfold word
      omega
    have high : Clock.high ⟨t1 - ticks, F, r1, t1⟩ t1 ≤ 4 * 10 ^ 8 := by
      simp only [Clock.high]
      omega
    have rest := Nat.mod_le (Clock.high ⟨t1 - ticks, F, r1, t1⟩ t1) (F / 10)
    have low : Clock.low ⟨t1 - ticks, F, r1, t1⟩ t1 < 2 ^ 64 := by
      simp only [Clock.low]
      omega
    rw [offset, getNanotimeRef_eq (show 0 < F / 10 by omega) (by omega) low, Clock.nanos,
      Nat.sub_sub_self inside]
    exact word_eq ((Nat.div_le_self _ _).trans_lt (by omega))
  · have offset : t1 < word (t1 + (2 ^ 64 - ticks)) := by
      unfold word
      omega
    exact if_pos (.inl offset)

theorem shown_of_product (fast : 10 ≤ F) :
    r1 ≤ r1 * F / 10 ^ 9 * 10 ^ 8 / (F / 10) + 10 ^ 8 / (F / 10) + 1 ∧
      r1 * F / 10 ^ 9 * 10 ^ 8 / (F / 10) ≤ r1 + r1 / (F / 10) := by
  set f := F / 10 with hf
  set ticks := r1 * F / 10 ^ 9
  have positive : 0 < f := by omega
  have above : r1 * F < 10 ^ 9 * (ticks + 1) := Nat.lt_mul_div_succ _ (by decide)
  have below : ticks * 10 ^ 9 ≤ r1 * F := Nat.div_mul_le_self _ _
  have least : r1 * (10 * f) ≤ r1 * F := Nat.mul_le_mul_left _ (by omega)
  have most : r1 * F ≤ r1 * (10 * f + 9) := Nat.mul_le_mul_left _ (by omega)
  constructor
  · have first := Nat.lt_mul_div_succ (ticks * 10 ^ 8) positive
    have second := Nat.lt_mul_div_succ (10 ^ 8) positive
    have product : f * r1 < f * (ticks * 10 ^ 8 / f + 10 ^ 8 / f + 2) := by linarith
    exact Nat.le_of_lt_succ (Nat.lt_of_mul_lt_mul_left product)
  · calc ticks * 10 ^ 8 / f ≤ (f * r1 + r1) / f := Nat.div_le_div_right (by linarith)
      _ = r1 + r1 / f := Nat.mul_add_div positive _ _

/-- A clock that shows too little has lost a part of the product. -/
theorem product_le {x : ℕ} (ref : r1 ≤ 10 ^ 9) (least : r1 ≤ x + 10 ^ 8 / (F / 10) + 1) :
    r1 * F ≤ 10 * (x * (F / 10)) + 10 ^ 10 + F := by
  have share := Nat.div_mul_le_self (10 ^ 8) (F / 10)
  have scaled : r1 * (F / 10) ≤ (x + 10 ^ 8 / (F / 10) + 1) * (F / 10) := Nat.mul_le_mul_right _ least
  have most : r1 * F ≤ r1 * (10 * (F / 10) + 9) := Nat.mul_le_mul_left _ (by omega)
  have tenth : 10 * (F / 10) ≤ F := Nat.mul_div_le F 10
  linarith

/-- A clock that shows nothing comes from a reference of at most two steps, or from its first one. -/
theorem ticks_le (order : r0 < r1) (later : t0 < t1) (stored : 0 < t0)
    (frequency : F = (t1 - t0) * 10 ^ 9 / (r1 - r0)) (fast : 10 ≤ F)
    (least : r1 ≤ 10 ^ 8 / (F / 10) + 1) : r1 * F / 10 ^ 9 ≤ t1 := by
  obtain ⟨r, rfl⟩ := Nat.exists_eq_add_of_lt order
  rcases Nat.eq_zero_or_pos (r0 + r) with none | more
  · obtain ⟨rfl, rfl⟩ : r0 = 0 ∧ r = 0 := by omega
    omega
  set f := F / 10 with hf
  have share : (r0 + r) * f ≤ 10 ^ 8 :=
    (Nat.mul_le_mul_right f (Nat.le_of_succ_le_succ least)).trans (Nat.div_mul_le_self _ _)
  have left : r0 + r ≤ (r0 + r) * f := Nat.le_mul_of_pos_right _ (by omega)
  have right : f ≤ (r0 + r) * f := Nat.le_mul_of_pos_left f more
  have most : (r0 + r + 1) * F ≤ (r0 + r + 1) * (10 * f + 9) := Nat.mul_le_mul_left _ (by omega)
  have few : (r0 + r + 1) * F / 10 ^ 9 < 3 := Nat.div_lt_of_lt_mul (by linarith)
  omega

theorem shows_iff (order : r0 < r1) (ref : r1 ≤ 10 ^ 9) (close : t1 - t0 ≤ 10 ^ 10)
    (range : t1 < 2 ^ 64) : (Clock.calibrated t0 r0 t1 r1).Shows t1 r1 ↔
      Calibrates r1 t0 t1 ((t1 - t0) * 10 ^ 9 / (r1 - r0)) := by
  have first : Clock.boot.setNanotimeRef t0 r0 = ⟨0, 0, r0, t0⟩ := rfl
  have steps : word ((t1 - t0) * 10 ^ 9) = (t1 - t0) * 10 ^ 9 := word_eq (by omega)
  rw [Clock.calibrated, first, Clock.setNanotimeRef]
  rw [steps]
  have large : (t1 - t0) * 10 ^ 9 / (r1 - r0) ≤ 10 ^ 19 := (Nat.div_le_self _ _).trans (by omega)
  generalize frequency : (t1 - t0) * 10 ^ 9 / (r1 - r0) = F at large ⊢
  split_ifs with known
  swap
  · exact iff_of_false (fun shows => shows.1 (Nat.zero_div 10)) fun h => known ⟨h.stored, order, h.later⟩
  have few : word (r1 * F) / 10 ^ 9 < 2 * 10 ^ 10 := by
    unfold word
    omega
  by_cases fast : 10 ≤ F
  swap
  · exact iff_of_false (fun shows => shows.1 (Nat.div_eq_of_lt (by simpa using fast))) fun h => fast h.fast
  unfold Clock.Shows
  rw [getNanotimeRef_at few range fast]
  dsimp only
  constructor
  · rintro ⟨-, least, -⟩
    have product : r1 * F < 2 ^ 64 := by
      have kept := product_le ref least
      have shown : (if word (r1 * F) / 10 ^ 9 ≤ t1 then word (r1 * F) / 10 ^ 9 * 10 ^ 8 / (F / 10)
          else 0) * (F / 10) ≤ word (r1 * F) / 10 ^ 9 * 10 ^ 8 := by
        split_ifs
        · exact Nat.div_mul_le_self _ _
        · omega
      unfold word at *
      omega
    rw [word_eq product] at least
    refine ⟨known.1, known.2.2, fast, product, ?_⟩
    by_contra past
    rw [if_neg past, zero_add] at least
    exact past (ticks_le order known.2.2 known.1 frequency.symm fast least)
  · intro h
    rw [word_eq h.product, if_pos h.offset]
    exact ⟨by omega, shown_of_product fast⟩

theorem keepsTime_iff (c : Clock) (tsc t0 r0 t1 r1 : ℕ) :
    (10 ^ 6 ≤ c.tscFrequency → c.tscFrequency ≤ 10 ^ 10 → tsc - c.tscOffset < 2 ^ 63 →
      (c.Exact tsc ↔ c.nanos tsc < 2 ^ 64)) ∧
    (r0 < r1 → r1 ≤ 10 ^ 9 → t1 - t0 ≤ 10 ^ 10 → t1 < 2 ^ 64 →
      ((Clock.calibrated t0 r0 t1 r1).Shows t1 r1 ↔
        Calibrates r1 t0 t1 ((t1 - t0) * 10 ^ 9 / (r1 - r0)))) :=
  ⟨exact_iff, shows_iff⟩

/-- A minute and a half at 3 GHz, and two readings half a second apart, after the counter has run for
longer than the reference. -/
theorem keepsTime_gigahertz :
    Clock.Exact ⟨7, 3000000000, 0, 0⟩ 270000000000 ∧
      (Clock.calibrated 3000000000 500000000 4500000000 1000000000).Shows 4500000000 1000000000 := by
  obtain ⟨reads, calibrates⟩ := keepsTime_iff ⟨7, 3000000000, 0, 0⟩ 270000000000 3000000000 500000000
    4500000000 1000000000
  refine ⟨(reads (by decide) (by decide) (by decide)).mpr (by decide +kernel), ?_⟩
  exact (calibrates (by decide) (by decide) (by decide) (by decide)).mpr
    ⟨by decide, by decide, by decide, by decide, by decide⟩

/-- At 1 MHz the nanoseconds of 2^62 steps need more than 64 bits.  A counter that starts with the
first reading is behind the reference: the offset wraps around, and the clock shows nothing. -/
theorem not_keepsTime :
    ¬Clock.Exact ⟨1, 1000000, 0, 0⟩ (2 ^ 62 + 1) ∧
      ¬(Clock.calibrated 1000 500000000 500001000 1000000000).Shows 500001000 1000000000 := by
  refine ⟨fun exact => absurd exact.value (by decide +kernel), fun shows => ?_⟩
  exact absurd shows.2.1 (by decide +kernel)

end JeoKernel.Nanotime

import JeoKernel.Lib.Regions

/-!
# Looking for a run of free cells

A loop goes through the cells from `lo` on and counts the free cells right before the current one; it
has found a run when it has counted `n`.  `Counting` is its invariant.
-/

namespace JeoKernel

/-- The region is free and lies between `lo` and `hi`. -/
structure Region.Fits (free : ℕ → Prop) (lo hi : ℕ) (r : Region) : Prop where
  lower : lo ≤ r.start
  upper : r.start + r.length ≤ hi
  free : ∀ x ∈ r, free x

/-- The loop is before cell `pos`, and has counted `count` free cells before it. -/
structure Counting (free : ℕ → Prop) (n lo pos count : ℕ) : Prop where
  below : count < n
  room : lo + count ≤ pos
  run : ∀ x, pos - count ≤ x → x < pos → free x
  maximal : lo + count < pos → ¬free (pos - count - 1)
  none_yet : ∀ start, ¬Region.Fits free lo pos ⟨start, n⟩

namespace Counting

variable {free : ℕ → Prop} {n lo pos count : ℕ}

theorem start (free : ℕ → Prop) (lo : ℕ) (pos : 0 < n) : Counting free n lo lo 0 where
  below := pos
  room := le_rfl
  run := by omega
  maximal := by omega
  none_yet start fits := by
    have := fits.lower
    have := fits.upper
    simp only at *
    omega

section

variable (h : Counting free n lo pos count)

include h

/-- A run that ends right behind a free cell starts where the counting started. -/
theorem start_eq {start : ℕ} (fits : Region.Fits free lo (pos + 1) ⟨start, n⟩) :
    start + n = pos + 1 ∧ n = count + 1 := by
  have last : start + n = pos + 1 := by
    by_contra earlier
    have upper := fits.upper
    exact h.none_yet start ⟨fits.lower, by simp only at *; omega, fits.free⟩
  have below := h.below
  have lower := fits.lower
  simp only at lower
  by_contra longer
  -- the cell that ended the counting would be in the run
  refine h.maximal (by omega) (fits.free _ ?_)
  rw [Region.mem_def]
  dsimp only
  omega

theorem used (taken : ¬free pos) :
    Counting free n lo (pos + 1) 0 where
  below := by have := h.below; omega
  room := by have := h.room; omega
  run := by omega
  maximal _ := by simpa using taken
  none_yet start fits := by
    obtain ⟨last, length⟩ := h.start_eq fits
    refine taken (fits.free pos ?_)
    rw [Region.mem_def]
    dsimp only
    omega

theorem succ (here : free pos) (more : count + 1 ≠ n) :
    Counting free n lo (pos + 1) (count + 1) where
  below := by have := h.below; omega
  room := by have := h.room; omega
  run x lower upper := by
    by_cases last : x = pos
    · rwa [last]
    · exact h.run x (by omega) (by omega)
  maximal before := by
    rw [show pos + 1 - (count + 1) - 1 = pos - count - 1 by omega]
    exact h.maximal (by omega)
  none_yet start fits := more (h.start_eq fits).2.symm

theorem found (here : free pos) (enough : count + 1 = n) :
    Region.Fits free lo (pos + 1) ⟨pos - count, n⟩ ∧
      ∀ start < pos - count, ¬Region.Fits free lo (pos + 1) ⟨start, n⟩ := by
  have room := h.room
  constructor
  · refine ⟨by dsimp only; omega, by dsimp only; omega, fun x mem => ?_⟩
    rw [Region.mem_def] at mem
    dsimp only at mem
    by_cases last : x = pos
    · rwa [last]
    · exact h.run x (by omega) (by omega)
  · intro start earlier fits
    have := (h.start_eq fits).1
    omega

end

end Counting

end JeoKernel

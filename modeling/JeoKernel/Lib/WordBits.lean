import Mathlib.Algebra.Ring.Nat
import Mathlib.Data.List.Basic

/-!
# Bits in an array of words

A list of words of width `w` read as one array of bits: bit `i` is bit `i % w` of word `i / w`.
-/

namespace JeoKernel.WordBits

variable {w : ℕ}

/-- Bit `i` of the array; a word that is not there reads as zero. -/
def bit (words : List (BitVec w)) (i : ℕ) : Bool := (words.getD (i / w) 0).getLsbD (i % w)

/-- `word | (1 << b)` or `word & ~(1 << b)`. -/
def putBit (word : BitVec w) (b : ℕ) (value : Bool) : BitVec w :=
  if value then word ||| 1#w <<< b else word &&& ~~~(1#w <<< b)

def setBit (words : List (BitVec w)) (i : ℕ) (value : Bool) : List (BitVec w) :=
  words.modify (i / w) fun word => putBit word (i % w) value

@[simp] theorem length_setBit (words : List (BitVec w)) (i : ℕ) (value : Bool) :
    (setBit words i value).length = words.length := by
  simp [setBit]

theorem getLsbD_putBit (word : BitVec w) {b c : ℕ} (value : Bool) (hc : c < w) :
    (putBit word b value).getLsbD c = if b = c then value else word.getLsbD c := by
  unfold putBit
  by_cases h : b = c
  · subst h
    cases value <;> simp [hc]
  · cases value <;> simp [hc, h] <;> intros <;> omega

theorem bit_setBit {words : List (BitVec w)} {i : ℕ} (value : Bool) (hi : i / w < words.length)
    (hw : 0 < w) (j : ℕ) :
    bit (setBit words i value) j = if i = j then value else bit words j := by
  unfold bit setBit
  simp only [List.getD_eq_getElem?_getD, List.getElem?_modify, Option.map_eq_map]
  by_cases word : i / w = j / w
  · have same : i % w = j % w ↔ i = j := by
      refine ⟨fun rest => ?_, fun h => by rw [h]⟩
      rw [← Nat.div_add_mod i w, ← Nat.div_add_mod j w, word, rest]
    simp only [← word, if_true, List.getElem?_eq_getElem hi, Option.map_some, Option.getD_some]
    rw [getLsbD_putBit _ _ (Nat.mod_lt _ hw)]
    simp only [same]
  · have other : i ≠ j := fun h => word (by rw [h])
    simp [word, other]

end JeoKernel.WordBits

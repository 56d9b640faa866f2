import Mathlib.Algebra.Ring.Nat
import Mathlib.Data.List.Basic
import Mathlib.Data.List.GetD

/-!
# Memory with 64-bit addresses

An address space is a function from 64-bit addresses to bytes; a load or store of several bytes wraps
at the end of it.
-/

namespace JeoKernel

open List

abbrev Space := UInt64 → UInt8

namespace Space

def load (m : Space) (addr : UInt64) (length : ℕ) : List UInt8 :=
  (range length).map fun i => m (addr + UInt64.ofNat i)

def store (m : Space) (addr : UInt64) (bytes : List UInt8) : Space := fun x =>
  if (x - addr).toNat < bytes.length then bytes.getD (x - addr).toNat 0 else m x

@[simp] theorem length_load (m : Space) (addr : UInt64) (length : ℕ) :
    (m.load addr length).length = length := by
  simp [load]

theorem add_ofNat_sub_toNat (addr : UInt64) {i : ℕ} (small : i < 2 ^ 64) :
    (addr + UInt64.ofNat i - addr).toNat = i := by
  rw [UInt64.add_comm, UInt64.add_sub_cancel, UInt64.toNat_ofNat']
  exact Nat.mod_eq_of_lt small

theorem load_store_self (m : Space) (addr : UInt64) (bytes : List UInt8)
    (fits : bytes.length ≤ 2 ^ 64) : (m.store addr bytes).load addr bytes.length = bytes := by
  refine ext_getElem (by simp) fun i h₁ h₂ => ?_
  have place := add_ofNat_sub_toNat addr (Nat.lt_of_lt_of_le h₂ fits)
  simp only [load, store, getElem_map, getElem_range]
  rw [place, if_pos h₂, getD_eq_getElem _ _ h₂]

end Space

end JeoKernel

import Mathlib.Algebra.Order.Ring.Nat

/-!
# Computations with fuel

A loop without a bound is a function of the fuel it is given, with `none` where the fuel did not
suffice.  It settles at a value if it returns that value for all large enough fuel.
-/

namespace JeoKernel.Fuel

variable {α β : Type}

def Settles (f : ℕ → Option α) (a : α) : Prop := ∃ n, ∀ fuel ≥ n, f fuel = some a

variable {f g : ℕ → Option α} {a b : α}

theorem Settles.of_forall (h : ∀ fuel, f fuel = some a) : Settles f a := ⟨0, fun fuel _ => h fuel⟩

theorem Settles.unique (h : Settles f a) (h' : Settles f b) : a = b := by
  obtain ⟨n, all⟩ := h
  obtain ⟨n', all'⟩ := h'
  have left := all (max n n') (le_max_left n n')
  have right := all' (max n n') (le_max_right n n')
  exact Option.some.inj (left.symm.trans right)

theorem Settles.bind {g : ℕ → α → Option β} {b : β} (h : Settles f a)
    (h' : Settles (fun fuel => g fuel a) b) : Settles (fun fuel => (f fuel).bind (g fuel)) b := by
  obtain ⟨n, all⟩ := h
  obtain ⟨n', all'⟩ := h'
  refine ⟨max n n', fun fuel enough => ?_⟩
  dsimp only
  rw [all fuel (le_of_max_le_left enough), Option.bind_some]
  exact all' fuel (le_of_max_le_right enough)

theorem Settles.map (h : Settles f a) (g : α → β) : Settles (fun fuel => (f fuel).map g) (g a) := by
  obtain ⟨n, all⟩ := h
  refine ⟨n, fun fuel enough => ?_⟩
  dsimp only
  rw [all fuel enough, Option.map_some]

theorem Settles.succ (h : Settles f a) (turn : ∀ fuel, g (fuel + 1) = f fuel) : Settles g a := by
  obtain ⟨n, all⟩ := h
  refine ⟨n + 1, fun fuel enough => ?_⟩
  obtain ⟨k, rfl⟩ := Nat.exists_eq_add_of_le' (Nat.le_of_add_left_le enough)
  rw [turn]
  exact all k (by omega)

end JeoKernel.Fuel

import JeoKernel.Lib.Loop

/-!
# Faults of storage

What a program must not do with storage that it manages by hand, and what it means that a computation
does none of it.
-/

namespace JeoKernel

inductive Fault
  /-- An object is constructed over another one. -/
  | occupied
  /-- There is no object to use or to destroy. -/
  | missing
  /-- The address is not in the storage. -/
  | outside
  /-- The storage was released. -/
  | dangling
  /-- Storage is released with objects in it. -/
  | leak
  /-- Storage is released with a size other than its own. -/
  | wrongSize
  deriving DecidableEq

/-- The computation meets no fault and its result satisfies `P`. -/
abbrev Ends {σ : Type} (P : σ → Prop) (r : Except Fault σ) : Prop := Loop.Post P (fun _ => False) r

theorem Fault.ok_bind {σ τ : Type} (x : σ) (f : σ → Except Fault τ) : (.ok x >>= f) = f x := rfl

namespace Ends

variable {σ : Type} {P : σ → Prop} {r : Except Fault σ}

theorem exists_ok (h : Ends P r) : ∃ s, r = .ok s ∧ P s := by
  cases r with
  | error e => exact h.elim
  | ok s => exact ⟨s, rfl, h⟩

end Ends

end JeoKernel

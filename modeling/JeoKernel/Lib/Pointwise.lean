import Mathlib.Data.List.Forall2

/-!
# Lists related place by place
-/

namespace JeoKernel.Pointwise

variable {α β : Type*}

variable {i : ℕ}

theorem forall₂_set {R : α → α → Prop} (refl : ∀ a, R a a) {l : List α} {a b : α}
    (at_i : l[i]? = some a) (related : R a b) : List.Forall₂ R l (l.set i b) := by
  induction l generalizing i with
  | nil => simp at at_i
  | cons c l ih =>
    cases i with
    | zero =>
      obtain rfl : c = a := by simpa using at_i
      exact .cons related (List.forall₂_same.mpr fun d _ => refl d)
    | succ i => exact .cons (refl c) (ih (by simpa using at_i))

variable {R : α → β → Prop} {l : List α} {l' : List β}

section

variable (related : List.Forall₂ R l l')

include related

theorem getElem?_right {b : β} (at_i : l'[i]? = some b) : ∃ a, l[i]? = some a ∧ R a b := by
  induction related generalizing i with
  | nil => simp at at_i
  | cons first _ ih =>
    cases i with
    | zero =>
      cases at_i
      exact ⟨_, rfl, first⟩
    | succ i => exact ih (by simpa using at_i)

theorem getElem?_left {a : α} (at_i : l[i]? = some a) :
    ∃ b, l'[i]? = some b ∧ R a b := getElem?_right related.flip at_i

theorem set_both {a : α} {b : β} (new : R a b) (k : ℕ) :
    List.Forall₂ R (l.set k a) (l'.set k b) := by
  induction related generalizing k with
  | nil => exact .nil
  | cons first rest ih =>
    cases k with
    | zero => exact .cons new rest
    | succ k => exact .cons first (ih k)

theorem eraseIdx_both (k : ℕ) : List.Forall₂ R (l.eraseIdx k) (l'.eraseIdx k) := by
  induction related generalizing k with
  | nil => exact .nil
  | cons first rest ih =>
    cases k with
    | zero => exact rest
    | succ k => exact .cons first (ih k)

end

end JeoKernel.Pointwise

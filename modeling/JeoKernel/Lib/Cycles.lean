import Mathlib.Data.Fintype.EquivFin

/-!
# Cycles of a relation on a finite type

On a finite type, a chain of steps from `a` goes on for ever if and only if it can come to an
element that leads back to itself.
-/

namespace JeoKernel.Cycles

open Relation

variable {α : Type*} {r : α → α → Prop}

/-- An element that can be reached from `a` leads back to itself. -/
def ComesBack (r : α → α → Prop) (a : α) : Prop := ∃ b, ReflTransGen r a b ∧ TransGen r b b

theorem not_transGen_self_of_acc {a : α} (h : Acc (flip r) a) : ¬TransGen r a a := by
  induction h with
  | intro a _ ih =>
    intro back
    -- the first step of the way back goes to an element that also leads back to itself
    obtain ⟨b, step, rest⟩ := TransGen.head'_iff.mp back
    exact ih b step (.tail' rest step)

theorem not_comesBack_of_acc {a : α} (h : Acc (flip r) a) : ¬ComesBack r a := by
  rintro ⟨b, reached, back⟩
  induction reached using ReflTransGen.head_induction_on with
  | refl => exact not_transGen_self_of_acc h back
  | head step _ ih => exact ih (h.inv step)

theorem acc_of_not_comesBack [Finite α] {a : α} (h : ¬ComesBack r a) : Acc (flip r) a := by
  let R : α → α → Prop := fun c b => ReflTransGen r a b ∧ TransGen r b c
  have irrefl : Std.Irrefl R := ⟨fun b ⟨reached, back⟩ => h ⟨b, reached, back⟩⟩
  have trans : IsTrans α R :=
    ⟨fun _ _ _ ⟨_, first⟩ ⟨reached, second⟩ => ⟨reached, second.trans first⟩⟩
  have wf : WellFounded R := Finite.wellFounded_of_trans_of_irrefl R
  -- the elements that `a` reaches are closed under the steps
  suffices all : ∀ b, ReflTransGen r a b → Acc (flip r) b from all a .refl
  intro b
  induction b using wf.induction with
  | _ b ih =>
    intro reached
    refine ⟨b, fun c step => ?_⟩
    exact ih c ⟨reached, .single step⟩ (reached.tail step)

end JeoKernel.Cycles

import Mathlib.Algebra.Ring.Nat
import Mathlib.Data.List.Basic

/-!
# Runs of a state machine

A machine is a partial step function `exec : σ → α → Option σ`; an action carries everything the
step reads from outside (arguments, answers of the environment).  `RunWhen ok exec s as t` says
that the actions `as` lead from `s` to `t` and that each of them met `ok` in the state it was
taken in.  Every safety theorem about runs goes through `RunWhen.invariant`.
-/

namespace JeoKernel.Machine

variable {σ α : Type*}

/-- The actions `as` lead from `s` to `t`, each of them allowed by `ok` where it was taken. -/
inductive RunWhen (ok : σ → α → Prop) (exec : σ → α → Option σ) : σ → List α → σ → Prop
  | nil (s : σ) : RunWhen ok exec s [] s
  | cons {s t u a as} :
      ok s a → exec s a = some t → RunWhen ok exec t as u → RunWhen ok exec s (a :: as) u

abbrev Run (exec : σ → α → Option σ) : σ → List α → σ → Prop := RunWhen (fun _ _ => True) exec

variable {ok : σ → α → Prop} {exec : σ → α → Option σ}

theorem RunWhen.of_foldlM [∀ s a, Decidable (ok s a)] {s t : σ} {as : List α}
    (h : as.foldlM (fun s a => if ok s a then exec s a else none) s = some t) :
    RunWhen ok exec s as t := by
  induction as generalizing s with
  | nil =>
    obtain rfl := Option.some.inj h
    exact .nil s
  | cons a as ih =>
    obtain ⟨u, taken, rest⟩ := Option.bind_eq_some_iff.mp h
    by_cases allowed : ok s a
    · exact .cons allowed (by simpa [allowed] using taken) (ih rest)
    · simp [allowed] at taken

theorem RunWhen.reaches {s t : σ} {as : List α} {P : σ → Prop} (run : RunWhen ok exec s as t)
    (rest : RunWhen ok exec s as t → P t) : ∃ t, RunWhen ok exec s as t ∧ P t :=
  ⟨t, run, rest run⟩

/-- A run can be computed, with a value of the state that it ends in. -/
theorem RunWhen.exists_and [∀ s a, Decidable (ok s a)] {β : Type*} {f : σ → β} {v : β} {s : σ}
    {as : List α} {P : σ → Prop}
    (computed : (as.foldlM (fun s a => if ok s a then exec s a else none) s).map f = some v)
    (rest : ∀ t, RunWhen ok exec s as t → f t = v → P t) : ∃ t, RunWhen ok exec s as t ∧ P t := by
  obtain ⟨t, reached, value⟩ := Option.map_eq_some_iff.mp computed
  exact ⟨t, .of_foldlM reached, rest t (.of_foldlM reached) value⟩

/-- So can two runs that go on from the same state. -/
theorem RunWhen.exists_branches [∀ s a, Decidable (ok s a)] {β γ : Type*} {f : σ → β} {g : σ → γ}
    {x : β} {y z : γ} {s : σ} {as bs cs : List α} {P : σ → σ → σ → Prop}
    (computed : (as.foldlM (fun s a => if ok s a then exec s a else none) s).map (fun t => (f t,
        (bs.foldlM (fun s a => if ok s a then exec s a else none) t).map g,
        (cs.foldlM (fun s a => if ok s a then exec s a else none) t).map g)) =
      some (x, some y, some z))
    (rest : ∀ t u v, RunWhen ok exec s as t → RunWhen ok exec t bs u → RunWhen ok exec t cs v →
      f t = x → g u = y → g v = z → P t u v) : ∃ t u v, P t u v := by
  obtain ⟨t, reached, data⟩ := Option.map_eq_some_iff.mp computed
  obtain ⟨value, data⟩ := Prod.mk.inj data
  obtain ⟨left, right⟩ := Prod.mk.inj data
  obtain ⟨u, reached', value'⟩ := Option.map_eq_some_iff.mp left
  obtain ⟨v, reached'', value''⟩ := Option.map_eq_some_iff.mp right
  exact ⟨t, u, v, rest t u v (.of_foldlM reached) (.of_foldlM reached') (.of_foldlM reached'')
    value value' value''⟩

theorem RunWhen.nil_iff {s t : σ} : RunWhen ok exec s [] t ↔ t = s :=
  ⟨fun run => by cases run; rfl, fun same => same ▸ .nil t⟩

theorem RunWhen.cons_iff {s u : σ} {a : α} {as : List α} :
    RunWhen ok exec s (a :: as) u ↔ ok s a ∧ ∃ t, exec s a = some t ∧ RunWhen ok exec t as u := by
  constructor
  · rintro (_ | ⟨allowed, taken, rest⟩)
    exact ⟨allowed, _, taken, rest⟩
  · rintro ⟨allowed, t, taken, rest⟩
    exact .cons allowed taken rest

theorem RunWhen.append {s t u : σ} {as bs : List α} (run : RunWhen ok exec s as t)
    (run' : RunWhen ok exec t bs u) : RunWhen ok exec s (as ++ bs) u := by
  induction run with
  | nil => exact run'
  | cons allowed taken _ ih => exact .cons allowed taken (ih run')

theorem RunWhen.exists_of_append {s u : σ} {as bs : List α} (run : RunWhen ok exec s (as ++ bs) u) :
    ∃ t, RunWhen ok exec s as t ∧ RunWhen ok exec t bs u := by
  induction as generalizing s with
  | nil => exact ⟨s, .nil s, run⟩
  | cons a as ih =>
    obtain ⟨allowed, t, taken, rest⟩ := cons_iff.mp run
    obtain ⟨v, first, last⟩ := ih rest
    exact ⟨v, .cons allowed taken first, last⟩

theorem RunWhen.unique {ok' : σ → α → Prop} {s t t' : σ} {as : List α}
    (run : RunWhen ok exec s as t) (run' : RunWhen ok' exec s as t') : t = t' := by
  induction run with
  | nil =>
    cases run'
    rfl
  | cons _ taken _ ih =>
    cases run' with
    | cons _ taken' rest' =>
      obtain rfl := Option.some.inj (taken.symm.trans taken')
      exact ih rest'

/-- A property kept by every allowed step holds in every state a run reaches. -/
theorem RunWhen.invariant {I : σ → Prop}
    (step : ∀ s a t, I s → ok s a → exec s a = some t → I t)
    {s t : σ} {as : List α} (run : RunWhen ok exec s as t) (start : I s) : I t := by
  induction run with
  | nil => exact start
  | cons allowed taken _ ih => exact ih (step _ _ _ start allowed taken)

/-- Where every allowed step lowers a measure, the measure bounds the length of a run. -/
theorem RunWhen.length_le {I : σ → Prop} (measure : σ → ℕ)
    (step : ∀ s a t, I s → ok s a → exec s a = some t → I t ∧ measure t < measure s)
    {s t : σ} {as : List α} (run : RunWhen ok exec s as t) (start : I s) :
    as.length ≤ measure s := by
  induction run with
  | nil => exact Nat.zero_le _
  | cons allowed taken _ ih =>
    obtain ⟨kept, lower⟩ := step _ _ _ start allowed taken
    have rest := ih kept
    simp only [List.length_cons]
    omega

end JeoKernel.Machine

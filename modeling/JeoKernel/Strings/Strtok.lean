import Mathlib.Data.List.GetD
import Mathlib.Data.List.TakeWhile

/-!
# Tokenizing with `strtok_r`

The second loop of `strtok_r` never moves on: its `i` is hidden by that of the loop over the delimiters.
-/

namespace JeoKernel.Strtok

open List

/-! ## The code -/

/-- The characters in front of the terminator. -/
def chars (s : List UInt8) : List UInt8 := s.takeWhile (· ≠ 0)

variable (buf delim : List UInt8)

/-- The first loop, which goes past delimiters. -/
def skip : ℕ → ℕ → Option ℕ
  | 0, _ => none
  | fuel + 1, str => if buf.getD str 0 ∈ chars delim then skip fuel (str + 1) else some str

/-- The second loop: the string, the buffer and `saveptr`. -/
def cut (str : ℕ) : ℕ → Option (ℕ × List UInt8 × Option ℕ)
  | 0 => none
  | fuel + 1 =>
    let c := buf.getD str 0
    if c ≠ 0 then
      match (chars delim).idxOf? c with
      | some i => some (str, buf.set (str + i) 0, some (str + i + 1))
      | none => cut str fuel
    else some (str, buf, none)

/-- `strtok_r`, with the buffer and `saveptr` behind it; `none` is a call that has not returned after
`fuel` turns of a loop. -/
def strtokR (fuel : ℕ) (str saveptr : Option ℕ) : Option (Option ℕ × List UInt8 × Option ℕ) :=
  match str.or saveptr with
  | none => some (none, buf, saveptr)
  | some str =>
    (skip buf delim fuel str).bind fun str =>
      (cut buf delim str fuel).map fun (str, buf, saveptr) => (some str, buf, saveptr)

/-! ## Tokens -/

/-- The strings that `n` calls return. -/
def results (delim : List UInt8) (fuel : ℕ) :
    ℕ → List UInt8 → Option ℕ → Option ℕ → Option (List (Option (List UInt8)))
  | 0, _, _, _ => some []
  | n + 1, buf, str, saveptr =>
    (strtokR buf delim fuel str saveptr).bind fun (token, buf, saveptr) =>
      (results delim fuel n buf none saveptr).map
        (token.map (fun token => chars (buf.drop token)) :: ·)

def tokens : List (List UInt8) := ((chars buf).splitOnP (· ∈ chars delim)).filter (· ≠ [])

/-- The calls return, and return the tokens of the string and then `NULL`. -/
def Tokenizes : Prop :=
  ∀ saveptr, ∃ fuel, results delim fuel ((tokens buf delim).length + 1) buf (some 0) saveptr =
    some ((tokens buf delim).map some ++ [none])

variable {buf delim} {fuel str p : ℕ}

theorem not_delimiter_of_skip (found : skip buf delim fuel str = some p) :
    buf.getD p 0 ∉ chars delim := by
  fun_induction skip buf delim fuel str with
  | case1 => cases found
  | case2 fuel str delimiter ih => exact ih found
  | case3 fuel str other =>
    cases found
    exact other

/-- Where there is no delimiter, only the end of the string is found. -/
theorem eq_of_cut (other : buf.getD p 0 ∉ chars delim) {r : ℕ × List UInt8 × Option ℕ}
    (returned : cut buf delim p fuel = some r) : buf.getD p 0 = 0 ∧ r = (p, buf, none) := by
  induction fuel with
  | zero => cases returned
  | succ fuel ih =>
    rw [cut, idxOf?_eq_none_iff.mpr other] at returned
    split_ifs at returned with more
    · exact ih returned
    · cases returned
      exact ⟨not_not.mp more, rfl⟩

/-- If the first call returns, it returns an empty string. -/
theorem results_empty {saveptr : Option ℕ} {n : ℕ} {l : List (Option (List UInt8))}
    (returned : results delim fuel (n + 1) buf (some 0) saveptr = some l) : l.head? = some (some []) := by
  obtain ⟨r, first, rest⟩ := Option.bind_eq_some_iff.mp returned
  obtain ⟨p, skipped, first⟩ := Option.bind_eq_some_iff.mp first
  obtain ⟨r', taken, rfl⟩ := Option.map_eq_some_iff.mp first
  obtain ⟨zero, rfl⟩ := eq_of_cut (not_delimiter_of_skip skipped) taken
  obtain ⟨later, -, rfl⟩ := Option.map_eq_some_iff.mp rest
  have empty : chars (buf.drop p) = [] := by
    refine takeWhile_eq_nil_iff.mpr fun bound => ?_
    rw [length_drop] at bound
    rw [getD_eq_getElem _ _ (by omega)] at zero
    simpa using zero
  simp [empty]

theorem not_tokenizes (buf delim : List UInt8) : ¬Tokenizes buf delim := by
  intro tokenizes
  obtain ⟨fuel, returned⟩ := tokenizes none
  have first := results_empty returned
  cases all : tokens buf delim with
  | nil => simp [all] at first
  | cons token rest =>
    have nonempty : token ∈ tokens buf delim := by simp [all]
    obtain rfl : token = [] := by simpa [all] using first
    simp [tokens] at nonempty

/-- The first of one token is not found, and where there is no token an empty string is. -/
theorem not_tokenizes_letter :
    tokens [97] [32] = [[97]] ∧ (∀ fuel, strtokR [97] [32] fuel (some 0) none = none) ∧
      tokens [32] [32] = [] ∧ ¬Tokenizes [32] [32] := by
  refine ⟨by decide, fun fuel => ?_, by decide, fun tokenizes => ?_⟩
  · cases fuel with
    | zero => rfl
    | succ fuel =>
      cases taken : cut [97] [32] 0 (fuel + 1) with
      | none => simp [strtokR, skip, chars, taken]
      | some r => exact absurd (eq_of_cut (by decide) taken).1 (by decide)
  · obtain ⟨fuel, returned⟩ := tokenizes none
    exact absurd (results_empty returned) (by decide)

end JeoKernel.Strtok

/-
  Alambix.Lib.CString — terminated strings in blocks of memory.

  A string is a list of characters none of which is the terminator `nul`. In memory it
  stands before a terminator, and anything may follow. `cString` reads a block the way the
  C library does: up to the first terminator; `none` where the block holds none, and the
  reader runs off its end.

  - `cString_terminated`: what comes before the first terminator of a block is read back,
    whatever follows: a string as it was (`upTo_eq`).
  - `cString_take`: of the first `k` characters of such a block it is read back exactly
    when it is shorter than `k`; otherwise the cut has lost the terminator.
-/

import Mathlib.Data.List.TakeWhile

namespace Alambix.Lib

variable {α : Type} [DecidableEq α] {nul : α}

variable (nul) in
def cString : List α → Option (List α)
  | [] => none
  | a :: as => if a = nul then some [] else (cString as).map (a :: ·)

variable (nul) in
/-- What comes before the first terminator. -/
def upTo (as : List α) : List α := as.takeWhile (· ≠ nul)

theorem upTo_eq {name : List α} (h : nul ∉ name) : upTo nul name = name := by
  refine List.takeWhile_eq_self_iff.mpr fun a ha => ?_
  rw [decide_eq_true_eq]
  rintro rfl
  exact h ha

variable (nul) in
/-- A block is what comes before its first terminator, or goes on with that terminator. -/
theorem upTo_cases (as : List α) : upTo nul as = as ∨ ∃ rest, as = upTo nul as ++ nul :: rest := by
  induction as with
  | nil => exact .inl rfl
  | cons a as ih =>
    by_cases ha : a = nul
    · exact .inr ⟨as, by simp [upTo, ha]⟩
    · have hcons : upTo nul (a :: as) = a :: upTo nul as := by simp [upTo, ha]
      rw [hcons]
      rcases ih with ih | ⟨rest, ih⟩
      · exact .inl (by rw [ih])
      · exact .inr ⟨rest, congrArg (a :: ·) ih⟩

theorem cString_terminated (as rest : List α) : cString nul (as ++ nul :: rest) = some (upTo nul as) := by
  induction as with
  | nil => simp [cString, upTo]
  | cons a as ih =>
    by_cases ha : a = nul
    · simp [cString, upTo, ha]
    · rw [upTo] at ih
      simp [cString, upTo, ha, ih]

theorem cString_eq_none {as : List α} : cString nul as = none ↔ nul ∉ as := by
  induction as with
  | nil => simp [cString]
  | cons a as ih =>
    by_cases ha : a = nul
    · simp [cString, ha]
    · simp [cString, ha, ih, Ne.symm ha]

theorem cString_take {name : List α} (h : nul ∉ name) (rest : List α) (k : Nat) :
    cString nul ((name ++ nul :: rest).take k) = if name.length < k then some name else none := by
  split
  · rename_i hk
    have hcut : (name ++ nul :: rest).take k = name ++ nul :: rest.take (k - name.length - 1) := by
      obtain ⟨j, hj⟩ : ∃ j, k - name.length = j + 1 := ⟨k - name.length - 1, by omega⟩
      rw [List.take_append, List.take_of_length_le (by omega), hj, List.take_succ_cons]
      rfl
    rw [hcut, cString_terminated, upTo_eq h]
  · rename_i hk
    rw [cString_eq_none, List.take_append_of_le_length (by omega)]
    exact fun hm => h (List.mem_of_mem_take hm)

end Alambix.Lib

/-
  Alambix.Lib.Lines — reading a text line by line into a buffer, as fgets does.

  `fgets newline k text` is what one call reads with room for `k` characters: up to and with
  the next newline, at most `k` of them; at the end of the text nothing. `Reads` says that
  successive calls read these pieces of a text and leave that rest of it.

  Nothing is lost: the pieces and the rest are the text (`Reads.flatten`). Whoever reads
  again what comes after some of the pieces reads the same pieces (`Reads.drop`): they are
  numbered by the text alone (`Reads.getElem?_eq`).
-/

import Mathlib.Logic.Function.Basic

namespace Alambix.Lib

variable {α : Type} [DecidableEq α]

def fgets (newline : α) : Nat → List α → List α × List α
  | 0, text => ([], text)
  | _ + 1, [] => ([], [])
  | k + 1, a :: text =>
    if a = newline then ([a], text) else (a :: (fgets newline k text).1, (fgets newline k text).2)

theorem fgets_append (newline : α) (k : Nat) (text : List α) :
    (fgets newline k text).1 ++ (fgets newline k text).2 = text := by
  induction text generalizing k with
  | nil => cases k <;> rfl
  | cons a text ih =>
    cases k with
    | zero => rfl
    | succ k =>
      simp only [fgets]
      split
      · rfl
      · simpa using ih k

theorem fgets_length (newline : α) (k : Nat) (text : List α) : (fgets newline k text).1.length ≤ k := by
  induction text generalizing k with
  | nil => cases k <;> simp [fgets]
  | cons a text ih =>
    cases k with
    | zero => simp [fgets]
    | succ k =>
      simp only [fgets]
      split
      · simp
      · simpa using ih k

variable {newline : α} {k : Nat}

/-! ## Successive calls -/

variable (newline k) in
/-- What the call after `n` others reads. -/
def piece : Nat → List α → List α
  | 0, text => (fgets newline k text).1
  | n + 1, text => piece n (fgets newline k text).2

variable (newline k) in
def Reads (text : List α) : List (List α) → List α → Prop
  | [], rest => rest = text
  | l :: ls, rest => (fgets newline k text).1 = l ∧ Reads (fgets newline k text).2 ls rest

namespace Reads

theorem refl (text : List α) : Reads newline k text [] text := rfl

theorem snoc {text rest : List α} {ls : List (List α)} (h : Reads newline k text ls rest) :
    Reads newline k text (ls ++ [(fgets newline k rest).1]) (fgets newline k rest).2 := by
  induction ls generalizing text with
  | nil =>
    obtain rfl : rest = text := h
    exact ⟨rfl, rfl⟩
  | cons l ls ih => exact ⟨h.1, ih h.2⟩

theorem flatten {text rest : List α} {ls : List (List α)} (h : Reads newline k text ls rest) :
    ls.flatten ++ rest = text := by
  induction ls generalizing text with
  | nil => exact h
  | cons l ls ih =>
    obtain ⟨rfl, h⟩ := h
    rw [List.flatten_cons, List.append_assoc, ih h, fgets_append]

theorem mem_text {text rest l : List α} {ls : List (List α)} (h : Reads newline k text ls rest) (hl : l ∈ ls) {a : α}
    (ha : a ∈ l) : a ∈ text := by
  rw [← h.flatten]
  exact List.mem_append_left _ (List.mem_flatten_of_mem hl ha)

theorem head {text rest l : List α} {ls : List (List α)} (h : Reads newline k text (l :: ls) rest) :
    fgets newline k text = (l, ls.flatten ++ rest) := by
  obtain ⟨rfl, h⟩ := h
  rw [h.flatten]

/-- Some of the pieces, and what comes after them. -/
theorem take {text rest : List α} {ls ls' : List (List α)} (h : Reads newline k text (ls ++ ls') rest) :
    Reads newline k text ls (ls'.flatten ++ rest) := by
  induction ls generalizing text with
  | nil => exact h.flatten
  | cons l ls ih => exact ⟨h.1, ih h.2⟩

/-- Whoever begins after some of the pieces reads the others. -/
theorem drop {text rest : List α} {ls ls' : List (List α)} (h : Reads newline k text (ls ++ ls') rest) :
    Reads newline k (ls'.flatten ++ rest) ls' rest := by
  induction ls generalizing text with
  | nil =>
    have hread : Reads newline k text ls' rest := h
    rw [hread.flatten]
    exact hread
  | cons l ls ih => exact ih h.2

theorem getElem?_eq {text rest : List α} {ls : List (List α)} (h : Reads newline k text ls rest) {n : Nat}
    (hn : n < ls.length) : ls[n]? = some (piece newline k n text) := by
  induction ls generalizing text n with
  | nil => cases hn
  | cons l ls ih =>
    obtain ⟨rfl, h⟩ := h
    cases n with
    | zero => rfl
    | succ n => simpa [piece] using ih h (by simpa using hn)

end Reads

end Alambix.Lib

/-
  Alambix.Lib.Shuffle — interleavings of two lists.

  `Shuffle u v w`: `w` holds every element of `u` and of `v` exactly once, each list in its
  own order. A shuffle grows at its end by an element of either side (`snoc_left`,
  `snoc_right`) and is a permutation of the two lists together (`perm`).
-/

import Mathlib.Logic.Function.Basic

namespace Alambix.Lib

variable {α : Type}

inductive Shuffle : List α → List α → List α → Prop
  | nil : Shuffle [] [] []
  | left {u v w : List α} (a : α) : Shuffle u v w → Shuffle (a :: u) v (a :: w)
  | right {u v w : List α} (a : α) : Shuffle u v w → Shuffle u (a :: v) (a :: w)

namespace Shuffle

variable {u v w : List α}

theorem snoc_left (h : Shuffle u v w) (a : α) : Shuffle (u ++ [a]) v (w ++ [a]) := by
  induction h with
  | nil => exact .left a .nil
  | left b _ ih => exact .left b ih
  | right b _ ih => exact .right b ih

theorem snoc_right (h : Shuffle u v w) (a : α) : Shuffle u (v ++ [a]) (w ++ [a]) := by
  induction h with
  | nil => exact .right a .nil
  | left b _ ih => exact .left b ih
  | right b _ ih => exact .right b ih

theorem perm (h : Shuffle u v w) : w.Perm (u ++ v) := by
  induction h with
  | nil => exact .nil
  | left a _ ih => exact ih.cons a
  | right a _ ih => exact (ih.cons a).trans List.perm_middle.symm

theorem length (h : Shuffle u v w) : w.length = u.length + v.length := by
  simpa using h.perm.length_eq

end Shuffle

end Alambix.Lib

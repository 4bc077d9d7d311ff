/-
  Alambix.Lib.Barrier — pthread_barrier_wait.

  A barrier counts the threads that have arrived in its current cycle. The last one starts
  a new cycle, and from then on each of them may leave: a thread leaves once the cycle it
  arrived in is over.
-/

import Mathlib.Logic.Function.Basic

namespace Alambix.Lib

structure Barrier where
  parties : Nat
  arrived : Nat
  cycle : Nat
  deriving DecidableEq, Repr

namespace Barrier

/-- A thread arrives. -/
def arrive (b : Barrier) : Barrier :=
  if b.arrived + 1 = b.parties then { b with arrived := 0, cycle := b.cycle + 1 }
  else { b with arrived := b.arrived + 1 }

/-- A thread that arrived in this cycle may leave. -/
def Over (b : Barrier) (cycle : Nat) : Prop := cycle < b.cycle

instance (b : Barrier) (cycle : Nat) : Decidable (b.Over cycle) := inferInstanceAs (Decidable (_ < _))

theorem arrive_early {b : Barrier} (h : b.arrived + 1 ≠ b.parties) :
    b.arrive = { b with arrived := b.arrived + 1 } := by
  rw [arrive, if_neg h]

theorem arrive_last {b : Barrier} (h : b.arrived + 1 = b.parties) :
    b.arrive = { b with arrived := 0, cycle := b.cycle + 1 } := by
  rw [arrive, if_pos h]

end Barrier

end Alambix.Lib

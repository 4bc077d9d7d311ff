/-
  Alambix.Lib.Pthread — POSIX threads, their identifiers and pthread_detach.

  Threads are numbered in the order of their creation. A thread holds its resources until
  it has both terminated and been detached; from then on a later pthread_create may hand
  its identifier out again. pthread_create stores the identifier in a variable;
  pthread_detach acts on whatever thread bears the identifier it is given now. `holder`
  says whose identifier a variable was given last, and `detaches` and `repeated` count the
  calls by the thread they were meant for; no call reads them.

  - `Alone k`: no other thread that holds resources bears the identifier of `k`. A new
    thread is alone (`create_alone`) and stays so until it has released its resources
    (`Alone.create`, `Alone.detach`, `Alone.terminate`).
  - `detach_of_alone`: a detach of such a thread reaches that thread and no other.
-/

import Mathlib.Logic.Function.Basic

namespace Alambix.Lib

open Function (update)

structure Pthreads (Var : Type) where
  /-- Threads created so far. -/
  next : Nat
  id : Nat → Nat
  terminated : Nat → Bool
  detached : Nat → Bool
  var : Var → Nat
  holder : Var → Nat
  detaches : Nat → Nat
  /-- pthread_detach calls meant for a thread already detached. -/
  repeated : Nat

namespace Pthreads

variable {Var : Type} (h : Pthreads Var)

def initial : Pthreads Var := ⟨0, fun _ => 0, fun _ => false, fun _ => false, fun _ => 0, fun _ => 0, fun _ => 0, 0⟩

def held (k : Nat) : Bool := !(h.terminated k && h.detached k)

/-- No thread that holds resources bears this identifier. -/
def Unused (x : Nat) : Prop := ∀ k < h.next, h.held k = true → h.id k ≠ x

instance (x : Nat) : Decidable (h.Unused x) := inferInstanceAs (Decidable (∀ k < h.next, _))

def create [DecidableEq Var] (v : Var) (x : Nat) : Pthreads Var :=
  { h with
    next := h.next + 1, id := update h.id h.next x
    terminated := update h.terminated h.next false, detached := update h.detached h.next false
    var := update h.var v x, holder := update h.holder v h.next, detaches := update h.detaches h.next 0 }

/-- `pthread_detach(v)`. -/
def detach (v : Var) : Pthreads Var :=
  { h with
    detached := fun k => h.detached k || decide (k < h.next ∧ h.id k = h.var v)
    detaches := update h.detaches (h.holder v) (h.detaches (h.holder v) + 1)
    repeated := h.repeated + (h.detached (h.holder v)).toNat }

def terminate (k : Nat) : Pthreads Var := { h with terminated := update h.terminated k true }

/-- Threads that have terminated and still hold resources. -/
def leaked : Nat := (List.range h.next).countP fun k => h.terminated k && h.held k

def Alone (k : Nat) : Prop := ∀ j < h.next, j ≠ k → h.held j = true → h.id j ≠ h.id k

variable {h} {k x : Nat} {v : Var}

theorem held_of_running (hk : h.terminated k = false) : h.held k = true := by
  simp [held, hk]

theorem create_alone [DecidableEq Var] (hx : h.Unused x) : (h.create v x).Alone h.next := by
  intro j hj hne hheld
  have hlt : j < h.next := by
    have : j < h.next + 1 := hj
    omega
  have hid : h.id j ≠ x := hx j hlt (by simpa [held, create, hne] using hheld)
  simpa [create, hne] using hid

theorem Alone.create [DecidableEq Var] (ha : h.Alone k) (hk : k < h.next) (hrun : h.terminated k = false)
    (hx : h.Unused x) : (h.create v x).Alone k := by
  intro j hj hne hheld
  have hkn : k ≠ h.next := by omega
  by_cases hjn : j = h.next
  · subst hjn
    have hid : h.id k ≠ x := hx k hk (held_of_running hrun)
    simpa [Pthreads.create, hkn] using hid.symm
  · have hlt : j < h.next := by
      have : j < h.next + 1 := hj
      omega
    have hid : h.id j ≠ h.id k := ha j hlt hne (by simpa [held, Pthreads.create, hjn] using hheld)
    simpa [Pthreads.create, hkn, hjn] using hid

/-- What releases resources and creates nothing leaves a thread alone. -/
theorem Alone.mono {h' : Pthreads Var} (ha : h.Alone k) (hn : h'.next = h.next) (hid : h'.id = h.id)
    (hheld : ∀ j, h'.held j = true → h.held j = true) : h'.Alone k := by
  intro j hj hne hh
  rw [hn] at hj
  rw [hid]
  exact ha j hj hne (hheld j hh)

theorem Alone.detach (ha : h.Alone k) : (h.detach v).Alone k := by
  refine ha.mono rfl rfl fun j hj => ?_
  have hj : (!(h.terminated j && (h.detached j || decide (j < h.next ∧ h.id j = h.var v)))) = true := hj
  unfold held
  cases hd : h.detached j <;> simp_all

theorem Alone.terminate (ha : h.Alone k) (i : Nat) : (h.terminate i).Alone k := by
  refine ha.mono rfl rfl fun j hj => ?_
  have hj : (!(update h.terminated i true j && h.detached j)) = true := hj
  unfold held
  by_cases hij : j = i
  · subst hij
    simp_all
  · rwa [Function.update_of_ne hij] at hj

/-- A detach of a thread that is alone with its identifier reaches it and no other. -/
theorem detach_of_alone (hv : h.var v = h.id (h.holder v)) (hk : h.holder v < h.next)
    (ha : h.Alone (h.holder v)) : (h.detach v).detached = update h.detached (h.holder v) true := by
  funext j
  show (h.detached j || decide (j < h.next ∧ h.id j = h.var v)) = update h.detached (h.holder v) true j
  rw [hv]
  by_cases hj : j = h.holder v
  · subst hj
    simp [hk]
  · rw [Function.update_of_ne hj]
    by_cases hsame : j < h.next ∧ h.id j = h.id (h.holder v)
    · -- a thread that shares the identifier has released its resources
      have hrel : h.held j = false := by
        by_contra hheld
        exact ha j hsame.1 hj (by simpa using hheld) hsame.2
      have : h.detached j = true := by
        simp only [held, Bool.not_eq_false', Bool.and_eq_true] at hrel
        exact hrel.2
      simp [this]
    · simp [hsame]

end Pthreads

end Alambix.Lib

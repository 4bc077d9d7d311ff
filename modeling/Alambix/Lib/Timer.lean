/-
  Alambix.Lib.Timer — POSIX timers: timer_settime, and when a timer expires.

  Times are in nanoseconds. A timer is disarmed, or it expires at its deadline or later, and
  is armed again if it has an interval. A value of zero disarms it, whatever the interval.
-/

import Mathlib.Logic.Function.Basic

namespace Alambix.Lib

structure Itimerspec where
  itInterval : Nat
  itValue : Nat

structure Timer where
  interval : Nat
  deadline : Option Nat
  deriving DecidableEq, Repr

namespace Timer

/-- As timer_create leaves it. -/
def created : Timer := ⟨0, none⟩

/-- `timer_settime(timer, 0, &itimer, NULL)` at this time. -/
def settime (now : Nat) (itimer : Itimerspec) : Timer :=
  ⟨itimer.itInterval, if itimer.itValue = 0 then none else some (now + itimer.itValue)⟩

def armed (t : Timer) : Bool := t.deadline.isSome

/-- It may expire at this time. -/
def Due (t : Timer) (now : Nat) : Prop := ∃ d ∈ t.deadline, d ≤ now

instance (t : Timer) (now : Nat) : Decidable (t.Due now) :=
  match h : t.deadline with
  | none => .isFalse fun ⟨_, hd, _⟩ => by rw [h] at hd; cases hd
  | some d => decidable_of_iff (d ≤ now)
      ⟨fun hle => ⟨d, h, hle⟩, fun ⟨_, hd, hle⟩ => by rw [h] at hd; cases hd; exact hle⟩

def expire (t : Timer) : Timer :=
  { t with deadline := if t.interval = 0 then none else t.deadline.map (· + t.interval) }

@[simp] theorem armed_created : created.armed = false := rfl

theorem armed_settime (now : Nat) (itimer : Itimerspec) :
    (settime now itimer).armed = decide (itimer.itValue ≠ 0) := by
  by_cases h : itimer.itValue = 0 <;> simp [settime, armed, h]

theorem Due.armed {t : Timer} {now : Nat} (h : t.Due now) : t.armed = true := by
  obtain ⟨d, hd, -⟩ := h
  rw [Timer.armed, hd]
  rfl

/-- Without an interval it expires once. -/
theorem armed_expire_oneShot {t : Timer} (h : t.interval = 0) : t.expire.armed = false := by
  simp [expire, armed, h]

end Timer

end Alambix.Lib

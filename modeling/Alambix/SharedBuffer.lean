/-
  Alambix.SharedBuffer — the one buffer of the bartender, the queue and the still.

  alambix_bartender_thread_fct receives every drink into one array on its stack and hands
  its address to alambix_still_start (`drink_to_prepare = buffer`); nothing says that the
  still copies the name. The bartender loops back to mq_receive, or returns, without
  waiting for the timer.

  - `BufferKept`: while the still runs, the bartender's function has not returned and its
    buffer holds the drink started last.

  Proved, over every run of the program and any number of rounds:
  - `step_bufferKept`: a message loses the drink being made exactly when the still runs
    and it is another drink; a return exactly when the still runs.
  - `buffer_kept_iff`: the buffer is kept and written by no mq_receive while the still
    runs exactly when the timer is idle at each mq_receive that brings a message and when
    the bartender returns. The code does not wait for it: `next_drink_overwrites`,
    `returned_while_the_still_runs`.
-/

import Alambix.Distilling

namespace Alambix

open Lib.Transition

variable {Drink : Type}

def BufferKept (s : St Drink) : Prop :=
  s.still = true → s.bartender ≠ .returned ∧ ∃ d, s.started.getLast? = some d ∧ s.buffer = some d

theorem BufferKept.frame {s s' : St Drink} (hk : BufferKept s) (hs : s'.still = s.still)
    (hb : s'.bartender = s.bartender) (hbuf : s'.buffer = s.buffer) (hst : s'.started = s.started) : BufferKept s' := by
  unfold BufferKept at *
  rw [hs, hb, hbuf, hst]
  exact hk

theorem bufferKept_of_off {s : St Drink} (h : s.still = false) : BufferKept s := by
  intro hon
  rw [h] at hon; cases hon

/-- The drink in the buffer stays the one being made, and the buffer in scope. -/
def KeepsBuffer (s : St Drink) : Ev Drink → Prop
  | .bartender (.mqReceive d) => s.still = true → s.buffer = some d
  | .bartender .semPost => s.still = false
  | _ => True

/-- An mq_receive has put a message into the buffer. -/
def Ev.writesBuffer : Ev Drink → Bool
  | .bartender (.mqReceive _) => true
  | _ => false

/-- The event writes the buffer or takes it out of scope. -/
def Ev.spoilsBuffer : Ev Drink → Bool
  | .bartender (.mqReceive _) => true
  | .bartender .semPost => true
  | _ => false

/-- No preparation is going on when the event spoils the buffer: the timer is disarmed and
    no expiry notification is outstanding. -/
def SpoilsIdle (s : St Drink) (e : Ev Drink) : Prop :=
  e.spoilsBuffer = true → s.armed = false ∧ s.notified = 0

instance (s : St Drink) (e : Ev Drink) : Decidable (SpoilsIdle s e) :=
  inferInstanceAs (Decidable (_ → _))

/-- Between timer_settime and alambix_still_start the still runs exactly while the timer
    is to stop it. -/
theorem StillInv.off_iff {s : St Drink} (hs : StillInv s) (hb : s.bartender.setting = 0) :
    s.still = false ↔ s.armed = false ∧ s.notified = 0 := by
  have hone := hs.stopper
  rw [hb] at hone
  cases hst : s.still <;> cases ha : s.armed <;> simp only [hst, ha, Bool.toNat_true, Bool.toNat_false] at hone <;>
    simp <;> omega

/-! ## Each event -/

theorem timer_bufferKept {s s' : St Drink} {e : TimerEv} (hk : BufferKept s) (h : timerDrinkPrepare s e = some s') :
    BufferKept s' := by
  cases e with
  | expire =>
    obtain ⟨-, rfl⟩ := guarded_eq_some.mp h
    exact hk.frame rfl rfl rfl rfl
  | stillStop =>
    obtain ⟨-, rfl⟩ := guarded_eq_some.mp h
    exact bufferKept_of_off rfl

variable [DecidableEq Drink]

theorem main_bufferKept {s s' : St Drink} {e : MainEv Drink} (hk : BufferKept s) (h : mainThread s e = some s') :
    BufferKept s' := by
  rcases main_cases h with ⟨fs, w, -, -, rfl⟩ | ⟨chosen, -, -, hr, rfl⟩ | ⟨-, m, x, o, l, rfl⟩
  · exact hk.frame rfl rfl rfl rfl
  · -- the bartender of the last round has returned, so the still is off
    have hoff : s.still = false := by
      cases hon : s.still with
      | false => rfl
      | true => exact absurd hr.2.2 (hk hon).1
    exact bufferKept_of_off hoff
  · exact hk.frame rfl rfl rfl rfl

theorem bartender_bufferKept {s s' : St Drink} {e : BartenderEv Drink} (hk : BufferKept s)
    (h : bartenderThreadFct s e = some s') : BufferKept s' ↔ KeepsBuffer s (.bartender e) := by
  cases e with
  | mqReceive d =>
    obtain ⟨-, rfl⟩ := guarded_eq_some.mp h
    constructor
    · intro hk' hon
      obtain ⟨-, d₀, hlast, hbuf⟩ := hk hon
      obtain ⟨-, d₁, hlast', hbuf'⟩ := hk' hon
      have h1 : s.started.getLast? = some d₁ := hlast'
      have h2 : some d = some d₁ := hbuf'
      rw [hbuf, ← hlast, h1, h2]
    · intro hsame hon
      obtain ⟨-, d₀, hlast, hbuf⟩ := hk hon
      refine ⟨by simp, d, ?_, rfl⟩
      rw [← hsame hon, hbuf]
      exact hlast
  | stillStart d =>
    obtain ⟨⟨-, hbuf, -⟩, rfl⟩ := guarded_eq_some.mp h
    refine iff_of_true (fun _ => ⟨by simp, d, ?_, hbuf⟩) trivial
    exact List.getLast?_concat
  | semPost =>
    obtain ⟨-, rfl⟩ := guarded_eq_some.mp h
    constructor
    · intro hk'
      show s.still = false
      cases hon : s.still with
      | false => rfl
      | true => exact absurd rfl (hk' hon).1
    · intro hoff
      exact bufferKept_of_off hoff
  | hasOrderedDrink more =>
    obtain ⟨-, rfl⟩ := guarded_eq_some.mp h
    refine iff_of_true (fun hon => ⟨?_, (hk hon).2⟩) trivial
    cases more <;> simp
  | exit | timerSettimeFail =>
    obtain ⟨hpc, rfl⟩ := guarded_eq_some.mp h
    exact iff_of_true (hk.frame rfl rfl rfl rfl) trivial
  | _ =>
    obtain ⟨-, rfl⟩ := guarded_eq_some.mp h
    exact iff_of_true (fun hon => ⟨by simp, (hk hon).2⟩) trivial

theorem step_bufferKept {s s' : St Drink} {e : Ev Drink} (hk : BufferKept s) (h : step s e = some s') :
    BufferKept s' ↔ KeepsBuffer s e := by
  obtain ⟨-, h⟩ := step_eq_some.mp h
  cases e with
  | main e => exact iff_of_true (main_bufferKept hk h) trivial
  | client c e =>
    rw [client_touches h]
    exact iff_of_true (hk.frame rfl rfl rfl rfl) trivial
  | waiter e =>
    rw [waiter_touches h]
    exact iff_of_true (hk.frame rfl rfl rfl rfl) trivial
  | bartender e => exact bartender_bufferKept hk h
  | timer e => exact iff_of_true (timer_bufferKept hk h) trivial

/-! ## The still and the timer -/

/-- Keeping the buffer, unwritten while the still runs, is to spoil it idle. -/
theorem spoilsIdle_iff {s s' : St Drink} {e : Ev Drink} (hs : StillInv s) (h : step s e = some s') :
    SpoilsIdle s e ↔ KeepsBuffer s e ∧ (e.writesBuffer = true → s.still = false) := by
  obtain ⟨-, h⟩ := step_eq_some.mp h
  cases e with
  | bartender e =>
    cases e with
    | mqReceive d =>
      obtain ⟨⟨hpc, -⟩, -⟩ := guarded_eq_some.mp h
      have hoff := hs.off_iff (by rw [hpc]; rfl)
      constructor
      · intro hidle
        have hst := hoff.mpr (hidle rfl)
        refine ⟨fun hon => ?_, fun _ => hst⟩
        rw [hst] at hon; cases hon
      · intro hkept _
        exact hoff.mp (hkept.2 rfl)
    | semPost =>
      obtain ⟨hpc, -⟩ := guarded_eq_some.mp h
      have hoff := hs.off_iff (by rw [hpc]; rfl)
      constructor
      · intro hidle
        exact ⟨hoff.mpr (hidle rfl), fun he => by cases he⟩
      · intro hkept _
        exact hoff.mp hkept.1
    | _ => exact iff_of_true (fun he => by cases he) ⟨trivial, fun he => by cases he⟩
  | _ => exact iff_of_true (fun he => by cases he) ⟨trivial, fun he => by cases he⟩

/-! ## Every run -/

/-- In a run of the program, over any number of rounds and whatever fails: while the still
    runs the buffer it was given is in scope, holds its drink and is written by no
    mq_receive, exactly when the timer is idle at each mq_receive that brings a message
    and each time the bartender returns. -/
theorem buffer_kept_iff {s : St Drink} {tr : List (St Drink × Ev Drink)}
    (hr : Run step (fun _ _ => True) boot tr s) :
    ((∀ t ∈ visited tr s, BufferKept t) ∧ ∀ x ∈ tr, x.2.writesBuffer = true → x.1.still = false) ↔
      ∀ x ∈ tr, SpoilsIdle x.1 x.2 := by
  have hkept : (∀ t ∈ visited tr s, BufferKept t) ↔ ∀ x ∈ tr, KeepsBuffer x.1 x.2 :=
    hr.safe_iff (J := fun _ => True) (fun _ _ => trivial) (bufferKept_of_off rfl)
      fun _ _ _ _ hk _ hs => step_bufferKept hk hs
  have hidle : ∀ x ∈ tr,
      (SpoilsIdle x.1 x.2 ↔ KeepsBuffer x.1 x.2 ∧ (x.2.writesBuffer = true → x.1.still = false)) := by
    intro x hx
    obtain ⟨hreach, -, s', -, hs⟩ := hr.next_visited x hx
    exact spoilsIdle_iff (reach_still boot_still hreach) hs
  rw [hkept]
  constructor
  · rintro ⟨hk, hw⟩ x hx
    exact (hidle x hx).mpr ⟨hk x hx, hw x hx⟩
  · intro h
    exact ⟨fun x hx => ((hidle x hx).mp (h x hx)).1, fun x hx => ((hidle x hx).mp (h x hx)).2⟩

/-- One drink each, every preparation over before the next message and before the end. -/
def ordersOneByOne : List (Ev Nat) :=
  startRound oneEach ++ orderPlaced ++
    ([.waiter (.takeOrder [2, 1]), .waiter (.getOrderedDrink 2), .waiter (.mqSend 2),
      .bartender (.mqReceive 2), .bartender (.stillStart 2), .bartender .timerSettime,
      .bartender (.hasOrderedDrink true), .timer .expire, .timer .stillStop,
      .waiter (.getOrderedDrink 1), .waiter (.mqSend 1), .waiter .getNull,
      .bartender (.mqReceive 1), .bartender (.stillStart 1), .bartender .timerSettime,
      .bartender (.hasOrderedDrink false), .bartender .provideOrder, .timer .expire, .timer .stillStop,
      .bartender .semPost] : List (Ev Nat))

theorem one_by_one_keeps_the_buffer :
    ∃ tr, ∃ s : St Nat, Run step (fun _ _ => True) boot tr s ∧ s.bartender = .returned ∧ s.started = [2, 1] ∧
      (∀ t ∈ visited tr s, BufferKept t) ∧ ∀ x ∈ tr, x.2.writesBuffer = true → x.1.still = false := by
  have hround : Reach step SpoilsIdle (opened : St Nat) _ := exec_get_reach ordersOneByOne (by decide)
  obtain ⟨tr, hr⟩ := ((opened_reached (fun he => by cases he)).trans hround).run
  have hall : Run step (fun _ _ => True) boot tr _ := hr.mono fun _ _ _ => trivial
  refine ⟨tr, _, hall, by decide, by decide, (buffer_kept_iff hall).mpr fun x hx => ?_⟩
  exact (hr.next_visited x hx).2.1

/-- The second drink is received while the first, whose name the buffer held, is being made. -/
theorem next_drink_overwrites :
    ∃ s : St Nat, Reach step (fun _ _ => True) boot s ∧ s.still = true ∧ s.started = [2] ∧ s.buffer = some 1 ∧
      ¬ BufferKept s := by
  have hr : Reach step (fun _ _ => True) (opened : St Nat) _ :=
    exec_get_reach (startRound oneEach ++ orderStarted.take 27) (by decide)
  refine ⟨_, (opened_reached trivial).trans hr, by decide, by decide, by decide, fun hk => ?_⟩
  obtain ⟨-, d, hlast, hbuf⟩ := hk (by decide)
  have h2 : d = 2 := Option.some.inj (hlast.symm.trans (by decide))
  have h1 : d = 1 := Option.some.inj (hbuf.symm.trans (by decide))
  omega

/-- The last drink is being made from the stack of a function that has returned. -/
theorem returned_while_the_still_runs :
    ∃ s : St Nat, Reach step (fun _ _ => True) boot s ∧ s.still = true ∧ s.bartender = .returned := by
  have hr : Reach step (fun _ _ => True) (opened : St Nat) _ :=
    exec_get_reach (startRound oneEach ++ orderProvided) (by decide)
  exact ⟨_, (opened_reached trivial).trans hr, by decide, by decide⟩

end Alambix

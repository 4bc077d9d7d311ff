/-
  Alambix.Distilling — the still and its one-shot timer.

  - `StillInv`: the still runs exactly while its stop is on its way: the bartender is
    between alambix_still_start and timer_settime, or the timer is armed, or an expiry
    notification is outstanding, never two of them; and it has been started once more than
    stopped exactly while it runs. Every event of the program keeps it (`step_still`), a
    new round included: it says nothing of the round.

  Proved:
  - over all rounds, whatever the library answers and whatever fails: no stop is lost or
    doubled (`no_stop_lost_or_doubled`).
  - `provided_when_made_iff`: in a run of a round, everything provided and served is made
    exactly when the timer is idle each time the bartender leaves its loop. The code does
    not wait for it: `served_while_the_still_runs`.
-/

import Alambix.Delivery

namespace Alambix

open Lib.Transition

variable {Drink : Type}

/-- The bartender is between alambix_still_start and timer_settime. -/
def BartenderPc.setting : BartenderPc → Nat
  | .timerSettime => 1
  | _ => 0

structure StillInv (s : St Drink) : Prop where
  /-- Whoever is to stop the still, as long as it runs and only then. -/
  stopper : s.still.toNat = s.bartender.setting + s.armed.toNat + s.notified
  count : s.starts = s.stops + s.still.toNat

theorem StillInv.frame {s s' : St Drink} (hi : StillInv s) (hb : s'.bartender = s.bartender)
    (hs : s'.still = s.still) (ha : s'.armed = s.armed) (hn : s'.notified = s.notified)
    (h1 : s'.starts = s.starts) (h2 : s'.stops = s.stops) : StillInv s' := by
  obtain ⟨hi1, hi2⟩ := hi
  constructor
  · rw [hs, hb, ha, hn]; exact hi1
  · rw [h1, h2, hs]; exact hi2

theorem boot_still : StillInv (boot : St Drink) := ⟨rfl, rfl⟩

theorem opened_still : StillInv (opened : St Drink) := ⟨rfl, rfl⟩

def ExactlyOne (a b c : Prop) : Prop := (a ∧ ¬ b ∧ ¬ c) ∨ (¬ a ∧ b ∧ ¬ c) ∨ (¬ a ∧ ¬ b ∧ c)

theorem StillInv.running_iff {s : St Drink} (hi : StillInv s) :
    s.still = true ↔ ExactlyOne (s.bartender = .timerSettime) (s.armed = true) (0 < s.notified) := by
  have hone := hi.stopper
  have hset : s.bartender = .timerSettime ↔ s.bartender.setting = 1 := by
    cases s.bartender <;> simp [BartenderPc.setting]
  have hle : s.bartender.setting ≤ 1 := by cases s.bartender <;> simp [BartenderPc.setting]
  rw [hset]
  unfold ExactlyOne
  cases hs : s.still <;> cases ha : s.armed <;> simp only [hs, ha, Bool.toNat_true, Bool.toNat_false] at hone <;>
    simp <;> omega

theorem newRound_still {s : St Drink} (hi : StillInv s) (hb : s.bartender.setting = 0)
    (wanted : Client → List Drink) : StillInv (newRound s wanted) := by
  obtain ⟨hone, hcount⟩ := hi
  rw [hb] at hone
  exact ⟨hone, hcount⟩

theorem roundOf_still {s : St Drink} (hi : StillInv s) (hr : AllReturned s) (wanted : Client → List Drink) :
    StillInv (roundOf s wanted) :=
  (newRound_still hi (by rw [hr.2.2]; rfl) wanted).frame rfl rfl rfl rfl rfl rfl

/-- Every drink received was started, and each start has been followed by its stop. -/
structure Made (s : St Drink) : Prop where
  received : s.started = s.received
  stopped : s.starts = s.stops
  still : s.still = false

/-- Nothing is provided or served before it is made. -/
def NothingEarly (s : St Drink) : Prop :=
  (s.bartender = .provideOrder → Made s) ∧ (s.waiter = .serveOrder → Made s)

theorem HandOverInv.nothingEarly {s : St Drink} (hh : HandOverInv s)
    (hm : s.bartender.leftLoop = true → Made s) : NothingEarly s := by
  refine ⟨fun hpc => hm (by rw [hpc]; rfl), fun hpc => hm ?_⟩
  rw [hh.bartender_returned (by rw [hpc]; rfl)]
  rfl

/-! ## Each event keeps it -/

theorem timer_still {s s' : St Drink} {e : TimerEv} (hi : StillInv s)
    (h : timerDrinkPrepare s e = some s') : StillInv s' := by
  obtain ⟨hone, hcount⟩ := hi
  cases e with
  | expire =>
    obtain ⟨harm, rfl⟩ := guarded_eq_some.mp h
    rw [harm] at hone
    constructor
    · simp only [Bool.toNat_true, Bool.toNat_false] at hone ⊢; omega
    · exact hcount
  | stillStop =>
    obtain ⟨hpos, rfl⟩ := guarded_eq_some.mp h
    have hle := s.still.toNat_le
    constructor <;> simp only [Bool.toNat_false] <;> omega

variable [DecidableEq Drink]

theorem bartender_still {s s' : St Drink} {e : BartenderEv Drink} (hi : StillInv s)
    (h : bartenderThreadFct s e = some s') : StillInv s' := by
  obtain ⟨hone, hcount⟩ := hi
  cases e with
  | stillStart d =>
    obtain ⟨⟨hpc, -, hoff⟩, rfl⟩ := guarded_eq_some.mp h
    rw [hpc, hoff] at hone
    rw [hoff] at hcount
    simp only [Bool.toNat_false, BartenderPc.setting] at hone hcount
    constructor <;> simp only [Bool.toNat_true, BartenderPc.setting] <;> omega
  | timerSettime =>
    obtain ⟨hpc, rfl⟩ := guarded_eq_some.mp h
    have hle := s.still.toNat_le
    rw [hpc] at hone
    simp only [BartenderPc.setting] at hone
    constructor
    · simp only [Bool.toNat_true, BartenderPc.setting]; omega
    · exact hcount
  | timerSettimeFail =>
    obtain ⟨hpc, rfl⟩ := guarded_eq_some.mp h
    exact ⟨hone, hcount⟩
  | exit =>
    obtain ⟨hpc, rfl⟩ := guarded_eq_some.mp h
    exact ⟨hone, hcount⟩
  | hasOrderedDrink more =>
    obtain ⟨hpc, rfl⟩ := guarded_eq_some.mp h
    rw [hpc] at hone
    cases more <;> exact ⟨hone, hcount⟩
  | _ =>
    obtain ⟨hpc, rfl⟩ := guarded_eq_some.mp h
    simp only [hpc] at hone
    exact ⟨hone, hcount⟩

theorem waiter_still {s s' : St Drink} {e : WaiterEv Drink} (hi : StillInv s)
    (h : waiterThreadFct s e = some s') : StillInv s' := by
  rw [waiter_touches h]
  exact hi.frame rfl rfl rfl rfl rfl rfl

theorem client_still {s s' : St Drink} {c : Client} {e : ClientEv Drink} (hi : StillInv s)
    (h : clientThreadFct c s e = some s') : StillInv s' := by
  rw [client_touches h]
  exact hi.frame rfl rfl rfl rfl rfl rfl

theorem main_still {s s' : St Drink} {e : MainEv Drink} (hi : StillInv s)
    (h : mainThread s e = some s') : StillInv s' := by
  rcases main_cases h with ⟨fs, w, -, -, rfl⟩ | ⟨chosen, -, -, hr, rfl⟩ | ⟨-, m, x, o, l, rfl⟩
  · exact hi.frame rfl rfl rfl rfl rfl rfl
  · have hb : s.bartender.setting = 0 := by rw [hr.2.2]; rfl
    exact (newRound_still hi hb chosen).frame rfl rfl rfl rfl rfl rfl
  · exact hi.frame rfl rfl rfl rfl rfl rfl

theorem step_still {s s' : St Drink} {e : Ev Drink} (hi : StillInv s) (h : step s e = some s') : StillInv s' := by
  obtain ⟨-, h⟩ := step_eq_some.mp h
  cases e with
  | main e => exact main_still hi h
  | client c e => exact client_still hi h
  | waiter e => exact waiter_still hi h
  | bartender e => exact bartender_still hi h
  | timer e => exact timer_still hi h

theorem reach_still {ok : St Drink → Ev Drink → Prop} {s₀ s : St Drink} (hi : StillInv s₀)
    (h : Reach step ok s₀ s) : StillInv s :=
  h.inv hi fun _ _ _ hi _ hs => step_still hi hs

/-! ## Over all rounds -/

/-- In every reachable state of the program, over any number of rounds: timer_settime is
    called with the timer disarmed and no notification outstanding; the still runs exactly
    while one of the three is to stop it; alambix_still_stop finds it running; and starts
    and stops differ by at most one. -/
theorem no_stop_lost_or_doubled {s : St Drink} (h : Reach step (fun _ _ => True) boot s) :
    (s.bartender = .timerSettime → s.armed = false ∧ s.notified = 0) ∧
    (s.still = true ↔ ExactlyOne (s.bartender = .timerSettime) (s.armed = true) (0 < s.notified)) ∧
    (∀ s', step s (.timer .stillStop) = some s' → s.still = true) ∧
    s.notified ≤ 1 ∧ s.stops ≤ s.starts ∧ s.starts ≤ s.stops + 1 := by
  have hi : StillInv s := reach_still boot_still h
  have hone := hi.stopper
  have hcount := hi.count
  have hle := s.still.toNat_le
  refine ⟨fun hpc => ?_, hi.running_iff, fun s' hs => ?_, by omega, by omega, by omega⟩
  · rw [hpc] at hone
    simp only [BartenderPc.setting] at hone
    have harm : s.armed.toNat = 0 := by omega
    exact ⟨by simpa using harm, by omega⟩
  · obtain ⟨hpos, -⟩ := guarded_eq_some.mp (step_eq_some.mp hs).2
    cases hst : s.still with
    | true => rfl
    | false => rw [hst] at hone; simp only [Bool.toNat_false] at hone; omega

theorem second_drink_finds_the_timer_idle :
    ∃ s : St Nat, Reach step (fun _ _ => True) boot s ∧ s.bartender = .timerSettime ∧ s.starts = 2 ∧
      s.armed = false ∧ s.notified = 0 ∧ s.still = true := by
  have hr : Reach step (fun _ _ => True) (opened : St Nat) _ :=
    exec_get_reach (startRound oneEach ++ orderStarted.dropLast.dropLast) (by decide)
  obtain ⟨h1, h2, -⟩ := no_stop_lost_or_doubled ((opened_reached trivial).trans hr)
  obtain ⟨ha, hn⟩ := h1 (by decide)
  exact ⟨_, (opened_reached trivial).trans hr, by decide, by decide, ha, hn, h2.mpr (Or.inl (by decide))⟩

/-! ## Provided before it is made? -/

/-- If this event takes the bartender out of its loop, the timer armed for the last drink
    has expired and its notification has run. -/
def LeavesIdle (s : St Drink) (e : Ev Drink) : Prop :=
  e.answer = some false → s.armed = false ∧ s.notified = 0

/-- What the round keeps from the bartender's exit on, if it leaves its loop idle. -/
theorem step_made {s s' : St Drink} {e : Ev Drink} (hs : StillInv s) (hl : LineInv s)
    (hm : s.bartender.leftLoop = true → Made s) (he : e.inRound = true) (hidle : LeavesIdle s e)
    (h : step s e = some s') : s'.bartender.leftLoop = true → Made s' := by
  obtain ⟨-, h⟩ := step_eq_some.mp h
  intro hb
  cases e with
  | main e => cases he
  | client c e =>
    rw [client_touches h] at hb ⊢
    exact ⟨(hm hb).1, (hm hb).2, (hm hb).3⟩
  | waiter e =>
    rw [waiter_touches h] at hb ⊢
    exact ⟨(hm hb).1, (hm hb).2, (hm hb).3⟩
  | timer e =>
    cases e with
    | expire =>
      obtain ⟨-, rfl⟩ := guarded_eq_some.mp h
      exact ⟨(hm hb).1, (hm hb).2, (hm hb).3⟩
    | stillStop =>
      -- a notification is outstanding only while the still runs
      obtain ⟨hpos, rfl⟩ := guarded_eq_some.mp h
      have hone := hs.stopper
      rw [(hm hb).still] at hone
      simp only [Bool.toNat_false] at hone
      omega
  | bartender e =>
    cases e with
    | hasOrderedDrink more =>
      obtain ⟨hpc, rfl⟩ := guarded_eq_some.mp h
      cases more with
      | true => simp [BartenderPc.leftLoop] at hb
      | false =>
        obtain ⟨harm, hnot⟩ := hidle rfl
        have hone := hs.stopper
        have hcount := hs.count
        have hrec := hl.started
        rw [hpc, harm, hnot] at hone
        have hoff : s.still = false := by simpa [BartenderPc.setting] using hone
        rw [hoff] at hcount
        refine ⟨?_, hcount, hoff⟩
        simpa [St.unstarted, hpc] using hrec.symm
    | provideOrder =>
      obtain ⟨hpc, rfl⟩ := guarded_eq_some.mp h
      have hmade := hm (by rw [hpc]; rfl)
      exact ⟨hmade.1, hmade.2, hmade.3⟩
    | semPost =>
      obtain ⟨hpc, rfl⟩ := guarded_eq_some.mp h
      have hmade := hm (by rw [hpc]; rfl)
      exact ⟨hmade.1, hmade.2, hmade.3⟩
    | _ =>
      obtain ⟨hpc, rfl⟩ := guarded_eq_some.mp h
      simp_all [BartenderPc.leftLoop]

/-- Leaving the loop with something made of everything means leaving it idle. -/
theorem leaves_idle_of_made {s s' : St Drink} {e : Ev Drink} (hs : StillInv s) (h : step s e = some s')
    (hn : NothingEarly s') : LeavesIdle s e := by
  intro hans
  obtain ⟨-, h⟩ := step_eq_some.mp h
  cases e with
  | bartender e =>
    cases e with
    | hasOrderedDrink more =>
      obtain rfl : more = false := Option.some.inj hans
      obtain ⟨hpc, rfl⟩ := guarded_eq_some.mp h
      have hoff : s.still = false := (hn.1 rfl).still
      have hone := hs.stopper
      rw [hoff] at hone
      simp only [Bool.toNat_false] at hone
      have harm : s.armed.toNat = 0 := by omega
      exact ⟨by simpa using harm, by omega⟩
    | _ => cases hans
  | _ => cases hans

/-- In a run of a round, everything is made when it is provided, and when it is served,
    exactly when the timer is idle at each exit from the bartender's loop. -/
theorem provided_when_made_iff {s₀ s : St Drink} (h0 : Ready s₀) (hs : StillInv s₀)
    (wanted : Client → List Drink) {tr : List (St Drink × Ev Drink)}
    (hr : Run step (fun _ e => e.inRound = true) (roundOf s₀ wanted) tr s) :
    (∀ t ∈ visited tr s, NothingEarly t) ↔ ∀ x ∈ tr, LeavesIdle x.1 x.2 := by
  have hstill0 : StillInv (roundOf s₀ wanted) := roundOf_still hs h0.returned wanted
  constructor
  · intro hn x hx
    obtain ⟨hreach, -, s', hvis, hstep⟩ := hr.next_visited x hx
    exact leaves_idle_of_made (reach_still hstill0 hreach) hstep (hn s' hvis)
  · intro hidle t ht
    have hmade : ∀ t ∈ visited tr s, (LineInv t ∧ HandOverInv t) ∧ (t.bartender.leftLoop = true → Made t) :=
      hr.safe_of (J := fun t => StillInv t ∧ LineInv t ∧ HandOverInv t)
        (fun _ hreach => ⟨reach_still hstill0 hreach, round_line (fun _ _ h => h) h0 hreach⟩) hidle
        ⟨round_line (fun _ _ h => h) h0 (.refl : Reach step (fun _ e => e.inRound = true) _ _),
          fun h => by simp [roundOf, newRound, BartenderPc.leftLoop] at h⟩
        fun _ _ _ hJ hP hok hC hs =>
          ⟨step_line hJ.2.1 hJ.2.2 hok hs, step_made hJ.1 hJ.2.1 hP.2 hok hC hs⟩
    exact (hmade t ht).1.2.nothingEarly (hmade t ht).2

/-- One drink each: the bartender provides, and the waiter serves, while the second one is
    still being made. -/
theorem served_while_the_still_runs :
    (∃ s, Reach step AsDocumented (roundOf opened oneEach) s ∧
      s.bartender = .provideOrder ∧ s.received = [2, 1] ∧ s.starts = 2 ∧ s.stops = 1 ∧ ¬ NothingEarly s) ∧
    (∃ s, Reach step AsDocumented (roundOf opened oneEach) s ∧
      s.waiter = .serveOrder ∧ s.still = true ∧ s.stops = 1 ∧ ¬ NothingEarly s) := by
  refine ⟨⟨_, exec_get_reach orderStarted (by decide), by decide, by decide, by decide, by decide, ?_⟩,
    ⟨_, exec_get_reach orderProvided (by decide), by decide, by decide, by decide, ?_⟩⟩
  · intro hn
    exact absurd (hn.1 (by decide)).still (by decide)
  · intro hn
    exact absurd (hn.2 (by decide)).still (by decide)

/-- The same order, with the second expiry handled before the bartender leaves its loop. -/
def orderStartedIdle : List (Ev Nat) :=
  orderStarted.dropLast ++ [.timer .expire, .timer .stillStop, .bartender (.hasOrderedDrink false)]

theorem waiting_for_the_last_drink_is_enough :
    ∃ tr s, Run step (fun _ e => e.inRound = true) (roundOf opened oneEach) tr s ∧ s.bartender = .provideOrder ∧
      ((∀ t ∈ visited tr s, NothingEarly t) ↔ ∀ x ∈ tr, LeavesIdle x.1 x.2) := by
  have hreach : Reach step (fun _ e => e.inRound = true) (roundOf opened oneEach) _ :=
    exec_get_reach orderStartedIdle (by decide)
  obtain ⟨tr, hr⟩ := hreach.run
  exact ⟨tr, _, hr, by decide, provided_when_made_iff opened_ready opened_still oneEach hr⟩

end Alambix

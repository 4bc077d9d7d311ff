/-
  Alambix.Teardown — quitting: alambix_destroy against the threads of a round.

  The Quit button makes alambix_open return at any time, and nothing stops the detached
  threads before the process ends. A thread "calls on" a semaphore or the queue while it is
  at a sem_wait, sem_post, mq_send or mq_receive on it (blocked there, or about to call),
  and "may call" on it while its control flow can still lead there. `QuitSafe` is the
  promise: no thread calls on what alambix_destroy has destroyed or closed.

  Proved, for every run of the program, whatever the library answers and whatever fails:
  - `quit_is_safe_when`: a run keeps the promise if everything is destroyed when no thread
    may call on it any more; and whenever something is destroyed earlier, the run can go
    on to break it. The waiter's control flow ends at one coin from each of the others, so
    that is: the round is over, but for its serving.
  - `quit_breaks_the_round`: quitting right after Start breaks it.
-/

import Alambix.Distilling

namespace Alambix

open Lib.Transition

variable {Drink : Type}

/-! ## Calls on what is destroyed -/

/-- What alambix_destroy destroys or closes. -/
inductive Shared where
  | semOrderDrink
  | semProvideDrink
  | mq
  deriving DecidableEq, Repr

def ClientPc.callsOn : ClientPc Drink → Shared → Bool
  | .semPost, .semOrderDrink => true
  | _, _ => false

def ClientPc.mayCall : ClientPc Drink → Shared → Bool
  | .returned, _ => false
  | _, .semOrderDrink => true
  | _, _ => false

def WaiterPc.callsOn : WaiterPc Drink → Shared → Bool
  | .semWaitFirst, .semOrderDrink => true
  | .semWaitSecond, .semOrderDrink => true
  | .mqSend _, .mq => true
  | .semWaitProvide, .semProvideDrink => true
  | _, _ => false

def WaiterPc.mayCall : WaiterPc Drink → Shared → Bool
  | .semWaitFirst, _ => true
  | .semWaitSecond, _ => true
  | .takeOrder, o => o != .semOrderDrink
  | .getOrderedDrink, o => o != .semOrderDrink
  | .mqSend _, o => o != .semOrderDrink
  | .semWaitProvide, o => o == .semProvideDrink
  | _, _ => false

def BartenderPc.callsOn : BartenderPc → Shared → Bool
  | .mqReceive, .mq => true
  | .semPost, .semProvideDrink => true
  | _, _ => false

def BartenderPc.mayCall : BartenderPc → Shared → Bool
  | .mqReceive, o => o != .semOrderDrink
  | .stillStart, o => o != .semOrderDrink
  | .timerSettime, o => o != .semOrderDrink
  | .hasOrderedDrink, o => o != .semOrderDrink
  | .provideOrder, o => o == .semProvideDrink
  | .semPost, o => o == .semProvideDrink
  | _, _ => false

/-- The thread is at a call on `o`. -/
def St.callsOn (s : St Drink) : Thread → Shared → Bool
  | .client c => (s.client c).callsOn
  | .waiter => s.waiter.callsOn
  | .bartender => s.bartender.callsOn

/-- The thread may still come to a call on `o`. -/
def St.mayCall (s : St Drink) : Thread → Shared → Bool
  | .client c => (s.client c).mayCall
  | .waiter => s.waiter.mayCall
  | .bartender => s.bartender.mayCall

/-- What the main thread has destroyed. -/
def MainPc.destroyed : MainPc → Shared → Bool
  | .semDestroyProvideDrink, o => o == .semOrderDrink
  | .mqUnlink, o => o != .mq
  | .mqClose, o => o != .mq
  | .alambixClose, _ => true
  | _, _ => false

/-- What a statement destroys. -/
def Ev.destroys : Ev Drink → Option Shared
  | .main .semDestroyOrderDrink => some .semOrderDrink
  | .main .semDestroyProvideDrink => some .semProvideDrink
  | .main .mqClose => some .mq
  | _ => none

/-- While the process lives, no thread calls on what was destroyed. -/
def QuitSafe (s : St Drink) : Prop :=
  s.exited = none → ∀ o, s.main.destroyed o = true → ∀ t, s.callsOn t o = false

/-- If this statement destroys something, no thread may call on it any more. -/
def DestroysUnused (s : St Drink) (e : Ev Drink) : Prop := ∀ o ∈ e.destroys, ∀ t, s.mayCall t o = false

instance {p : Thread → Prop} [DecidablePred p] : Decidable (∀ t, p t) :=
  decidable_of_iff ((p (.client .client0) ∧ p (.client .client1)) ∧ p .waiter ∧ p .bartender)
    ⟨fun ⟨⟨h0, h1⟩, hw, hb⟩ t => match t with
      | .client .client0 => h0
      | .client .client1 => h1
      | .waiter => hw
      | .bartender => hb, fun h => ⟨⟨h _, h _⟩, h _, h _⟩⟩

instance (s : St Drink) (e : Ev Drink) : Decidable (DestroysUnused s e) :=
  inferInstanceAs (Decidable (∀ o ∈ e.destroys, ∀ t, s.mayCall t o = false))

theorem St.mayCall_of_callsOn {s : St Drink} {t : Thread} {o : Shared} (h : s.callsOn t o = true) :
    s.mayCall t o = true := by
  cases t with
  | client c => cases hpc : s.client c <;> cases o <;> simp_all [callsOn, mayCall, ClientPc.callsOn, ClientPc.mayCall]
  | waiter => cases hpc : s.waiter <;> cases o <;> simp_all [callsOn, mayCall, WaiterPc.callsOn, WaiterPc.mayCall]
  | bartender =>
    cases hpc : s.bartender <;> cases o <;> simp_all [callsOn, mayCall, BartenderPc.callsOn, BartenderPc.mayCall]

/-! ## A call that may not come any more does not come -/

theorem timer_mayCall {s s' : St Drink} {e : TimerEv} (h : timerDrinkPrepare s e = some s') :
    s'.mayCall = s.mayCall := by
  rw [timer_touches h]; rfl

variable [DecidableEq Drink]

theorem client_mayCall {s s' : St Drink} {c : Client} {e : ClientEv Drink} (h : clientThreadFct c s e = some s')
    {t : Thread} {o : Shared} (hm : s'.mayCall t o = true) : s.mayCall t o = true := by
  cases t with
  | waiter => rw [client_touches h] at hm; exact hm
  | bartender => rw [client_touches h] at hm; exact hm
  | client x =>
    by_cases hx : x = c
    · subst hx
      cases e <;> obtain ⟨hpc, rfl⟩ := guarded_eq_some.mp h <;> cases o <;>
        simp_all [St.mayCall, ClientPc.mayCall]
    · rw [client_touches h] at hm
      simpa [St.mayCall, hx] using hm

theorem waiter_mayCall {s s' : St Drink} {e : WaiterEv Drink} (h : waiterThreadFct s e = some s')
    {t : Thread} {o : Shared} (hm : s'.mayCall t o = true) : s.mayCall t o = true := by
  cases t with
  | client c => rw [waiter_touches h] at hm; exact hm
  | bartender => rw [waiter_touches h] at hm; exact hm
  | waiter =>
    cases e <;> obtain ⟨hpc, rfl⟩ := guarded_eq_some.mp h <;> cases o <;> simp_all [St.mayCall, WaiterPc.mayCall]

theorem bartender_mayCall {s s' : St Drink} {e : BartenderEv Drink} (h : bartenderThreadFct s e = some s')
    {t : Thread} {o : Shared} (hm : s'.mayCall t o = true) : s.mayCall t o = true := by
  cases t with
  | client c => rw [bartender_touches h] at hm; exact hm
  | waiter => rw [bartender_touches h] at hm; exact hm
  | bartender =>
    cases e with
    | hasOrderedDrink more =>
      obtain ⟨hpc, rfl⟩ := guarded_eq_some.mp h
      cases more <;> cases o <;> simp_all [St.mayCall, BartenderPc.mayCall]
    | _ =>
      obtain ⟨hpc, rfl⟩ := guarded_eq_some.mp h
      cases o <;> simp_all [St.mayCall, BartenderPc.mayCall]

theorem step_mayCall {s s' : St Drink} {e : Ev Drink} (he : e.inRound = true) (h : step s e = some s')
    {t : Thread} {o : Shared} (hm : s'.mayCall t o = true) : s.mayCall t o = true := by
  obtain ⟨-, h⟩ := step_eq_some.mp h
  cases e with
  | main e => cases he
  | client c e => exact client_mayCall h hm
  | waiter e => exact waiter_mayCall h hm
  | bartender e => exact bartender_mayCall h hm
  | timer e => rwa [← timer_mayCall h]

/-- What the main thread has destroyed it destroys now or had destroyed before; a thread
    of a round that is torn down is not started again. -/
theorem main_destroyed {s s' : St Drink} {e : MainEv Drink} (h : mainThread s e = some s') {o : Shared}
    (ho : s'.main.destroyed o = true) :
    (s.main.destroyed o = true ∨ (Ev.main e).destroys = some o) ∧ s'.mayCall = s.mayCall := by
  cases e with
  | alambixInit fs w =>
    obtain ⟨hpc, rfl⟩ := guarded_eq_some.mp h
    simp only [afterInit, hpc] at ho
    split at ho <;> cases ho
  | alambixStart chosen =>
    obtain ⟨-, rfl⟩ := guarded_eq_some.mp h
    cases ho
  | pthreadCreate =>
    obtain ⟨t, -, rfl⟩ := pthreadCreate_eq_some.mp h
    cases ho
  | pthreadCreateFail =>
    obtain ⟨t, -, rfl⟩ := pthreadCreateFail_eq_some.mp h
    exact ⟨.inl ho, rfl⟩
  | pthreadDetach =>
    obtain ⟨t, -, rfl⟩ := pthreadDetach_eq_some.mp h
    rcases t with (_ | _) | _ | _ <;> cases ho
  | alambixClose code =>
    obtain ⟨-, rfl⟩ := guarded_eq_some.mp h
    exact ⟨.inl ho, rfl⟩
  | _ =>
    obtain ⟨hpc, rfl⟩ := guarded_eq_some.mp h
    refine ⟨?_, rfl⟩
    cases o <;> simp_all [MainPc.destroyed, Ev.destroys]

/-- No thread may call on what was destroyed. -/
def NoneLeft (s : St Drink) : Prop := ∀ o, s.main.destroyed o = true → ∀ t, s.mayCall t o = false

theorem step_noneLeft {s s' : St Drink} {e : Ev Drink} (hi : NoneLeft s) (hu : DestroysUnused s e)
    (h : step s e = some s') : NoneLeft s' := by
  intro o ho t
  by_cases he : e.inRound = true
  · have hold := hi o (step_main_unchanged he h ▸ ho) t
    by_contra hm
    simp [step_mayCall he h (by simpa using hm)] at hold
  · cases e with
    | main e =>
      obtain ⟨hd, hsame⟩ := main_destroyed (step_eq_some.mp h).2 ho
      rw [hsame]
      rcases hd with hd | hd
      · exact hi o hd t
      · exact hu o hd t
    | _ => exact absurd rfl he

omit [DecidableEq Drink] in
theorem NoneLeft.quitSafe {s : St Drink} (hi : NoneLeft s) : QuitSafe s := by
  intro _ o ho t
  by_contra hc
  have hold := hi o ho t
  simp [St.mayCall_of_callsOn (by simpa using hc)] at hold

/-! ## A call that may come can come -/

/-- What holds of the whole program and is needed here: the coins, the still, and a drink
    in the buffer of a bartender at alambix_still_start. -/
structure ProgramInv (s : St Drink) : Prop where
  desk : DeskInv s
  still : StillInv s
  buffered : s.bartender = .stillStart → ∃ d, s.buffer = some d

omit [DecidableEq Drink] in
theorem boot_programInv : ProgramInv (boot : St Drink) where
  desk := boot_desk
  still := boot_still
  buffered := fun h => by cases h

theorem step_programInv {s s' : St Drink} {e : Ev Drink} (hi : ProgramInv s) (h : step s e = some s') :
    ProgramInv s' := by
  refine ⟨?_, step_still hi.still h, ?_⟩
  · cases e with
    | main e => exact main_desk hi.desk (step_eq_some.mp h).2
    | client c e | waiter e | bartender e | timer e => exact step_desk hi.desk rfl h
  · have hb := hi.buffered
    obtain ⟨-, h⟩ := step_eq_some.mp h
    cases e with
    | main e =>
      rcases main_cases h with ⟨fs, w, -, -, rfl⟩ | ⟨chosen, -, -, hr, rfl⟩ | ⟨-, m, x, o, l, rfl⟩
      · exact hb
      · intro hpc; cases hpc
      · exact hb
    | client c e => rw [client_touches h]; exact hb
    | waiter e => rw [waiter_touches h]; exact hb
    | timer e => rw [timer_touches h]; exact hb
    | bartender e =>
      cases e with
      | hasOrderedDrink more => obtain ⟨hpc, rfl⟩ := guarded_eq_some.mp h; cases more <;> simp
      | _ => obtain ⟨hpc, rfl⟩ := guarded_eq_some.mp h; simp_all

theorem reach_programInv {s : St Drink} (h : Reach step (fun _ _ => True) boot s) : ProgramInv s :=
  h.inv boot_programInv fun _ _ _ hi _ hs => step_programInv hi hs

/-- The run can go on to a call on something destroyed. -/
def GoesWrong (s : St Drink) : Prop := ∃ t, Reach step (fun _ _ => True) s t ∧ ¬ QuitSafe t

theorem GoesWrong.of_step {s s' : St Drink} {e : Ev Drink} (h : step s e = some s') (hw : GoesWrong s') :
    GoesWrong s := by
  obtain ⟨t, hr, hn⟩ := hw
  exact ⟨t, (Reach.step .refl trivial h).trans hr, hn⟩

/-- Main has closed the queue, and the process has not ended. -/
structure Closed (s : St Drink) : Prop where
  alive : s.exited = none
  main : s.main = .alambixClose

section

variable {s : St Drink} (hc : Closed s)

include hc

theorem goesWrong_of_callsOn (t : Thread) (o : Shared) (h : s.callsOn t o = true) : GoesWrong s := by
  refine ⟨s, .refl, fun hq => ?_⟩
  have := hq hc.alive o (by rw [hc.main]; rfl) t
  rw [h] at this; cases this

theorem waiter_goesWrong {s' : St Drink} {e : WaiterEv Drink} (h : waiterThreadFct s e = some s')
    (hw : GoesWrong s') : GoesWrong s :=
  GoesWrong.of_step (e := .waiter e) (step_eq_some.mpr ⟨⟨hc.alive, by rw [hc.main]; rfl⟩, h⟩) hw

theorem bartender_goesWrong {s' : St Drink} {e : BartenderEv Drink} (h : bartenderThreadFct s e = some s')
    (hw : GoesWrong s') : GoesWrong s :=
  GoesWrong.of_step (e := .bartender e) (step_eq_some.mpr ⟨⟨hc.alive, by rw [hc.main]; rfl⟩, h⟩) hw

/-- The waiter fetches a drink and sends it, or waits for the bartender. -/
theorem fetch_goesWrong (hpc : s.waiter = .getOrderedDrink) : GoesWrong s := by
  cases ht : s.toFetch with
  | nil =>
    exact waiter_goesWrong hc (e := .getNull) (guarded_of ⟨hpc, ht⟩)
      (goesWrong_of_callsOn ⟨hc.alive, hc.main⟩ .waiter .semProvideDrink rfl)
  | cons d rest =>
    exact waiter_goesWrong hc (e := .getOrderedDrink d) (guarded_of ⟨hpc, by rw [ht]; rfl⟩)
      (goesWrong_of_callsOn ⟨hc.alive, hc.main⟩ .waiter .mq rfl)

theorem takeOrder_goesWrong (hpc : s.waiter = .takeOrder) : GoesWrong s :=
  waiter_goesWrong hc (e := .takeOrder []) (guarded_of hpc) (fetch_goesWrong ⟨hc.alive, hc.main⟩ rfl)

/-- The bartender goes around its loop, back to mq_receive. -/
theorem hasOrderedDrink_goesWrong (hpc : s.bartender = .hasOrderedDrink) : GoesWrong s :=
  bartender_goesWrong hc (e := .hasOrderedDrink true) (guarded_of hpc)
    (goesWrong_of_callsOn ⟨hc.alive, hc.main⟩ .bartender .mq rfl)

theorem timerSettime_goesWrong (hpc : s.bartender = .timerSettime) : GoesWrong s :=
  bartender_goesWrong hc (e := .timerSettime) (guarded_of hpc) (hasOrderedDrink_goesWrong ⟨hc.alive, hc.main⟩ rfl)

theorem stillStart_goesWrong (hpc : s.bartender = .stillStart) {d : Drink} (hb : s.buffer = some d)
    (hoff : s.still = false) : GoesWrong s :=
  bartender_goesWrong hc (e := .stillStart d) (guarded_of ⟨hpc, hb, hoff⟩)
    (timerSettime_goesWrong ⟨hc.alive, hc.main⟩ rfl)

/-- A bartender waiting for the still gets it when the timer's notification has run. -/
theorem notified_goesWrong (hpc : s.bartender = .stillStart) {d : Drink} (hb : s.buffer = some d)
    (hn : 0 < s.notified) : GoesWrong s :=
  GoesWrong.of_step (e := .timer .stillStop) (step_eq_some.mpr ⟨hc.alive, guarded_of hn⟩)
    (stillStart_goesWrong ⟨hc.alive, hc.main⟩ hpc hb rfl)

theorem blocked_goesWrong (hi : ProgramInv s) (hpc : s.bartender = .stillStart) : GoesWrong s := by
  obtain ⟨d, hb⟩ := hi.buffered hpc
  have hone := hi.still.stopper
  rw [hpc] at hone
  cases hst : s.still with
  | false => exact stillStart_goesWrong hc hpc hb hst
  | true =>
    by_cases hn : 0 < s.notified
    · exact notified_goesWrong hc hpc hb hn
    · have harm : s.armed = true := by
        cases ha : s.armed with
        | true => rfl
        | false => simp [hst, ha, BartenderPc.setting] at hone; omega
      exact GoesWrong.of_step (e := .timer .expire) (step_eq_some.mpr ⟨hc.alive, guarded_of harm⟩)
        (notified_goesWrong ⟨hc.alive, hc.main⟩ hpc hb (Nat.succ_pos _))

theorem bartender_left_goesWrong (hi : ProgramInv s) {o : Shared} (hm : s.bartender.mayCall o = true) :
    GoesWrong s := by
  cases hpc : s.bartender with
  | mqReceive => exact goesWrong_of_callsOn hc .bartender .mq (by simp [St.callsOn, hpc, BartenderPc.callsOn])
  | stillStart => exact blocked_goesWrong hc hi hpc
  | timerSettime => exact timerSettime_goesWrong hc hpc
  | hasOrderedDrink => exact hasOrderedDrink_goesWrong hc hpc
  | provideOrder =>
    exact bartender_goesWrong hc (e := .provideOrder) (guarded_of hpc)
      (goesWrong_of_callsOn ⟨hc.alive, hc.main⟩ .bartender .semProvideDrink rfl)
  | semPost =>
    exact goesWrong_of_callsOn hc .bartender .semProvideDrink (by simp [St.callsOn, hpc, BartenderPc.callsOn])
  | _ => rw [hpc] at hm; cases hm

theorem waiter_left_goesWrong {o : Shared} (hm : s.waiter.mayCall o = true) : GoesWrong s := by
  cases hpc : s.waiter with
  | semWaitFirst | semWaitSecond =>
    exact goesWrong_of_callsOn hc .waiter .semOrderDrink (by simp [St.callsOn, hpc, WaiterPc.callsOn])
  | takeOrder => exact takeOrder_goesWrong hc hpc
  | getOrderedDrink => exact fetch_goesWrong hc hpc
  | mqSend d => exact goesWrong_of_callsOn hc .waiter .mq (by simp [St.callsOn, hpc, WaiterPc.callsOn])
  | semWaitProvide =>
    exact goesWrong_of_callsOn hc .waiter .semProvideDrink (by simp [St.callsOn, hpc, WaiterPc.callsOn])
  | _ => rw [hpc] at hm; cases hm

/-- A client still in its loop keeps the waiter waiting for its coin. -/
theorem left_goesWrong (hi : ProgramInv s) {t : Thread} {o : Shared} (hm : s.mayCall t o = true) : GoesWrong s := by
  cases t with
  | waiter => exact waiter_left_goesWrong hc hm
  | bartender => exact bartender_left_goesWrong hc hi hm
  | client c =>
    have hcoins : s.waiter.coins ≠ 2 := by
      intro h2
      have hm : (s.client c).mayCall o = true := hm
      rw [hi.desk.both_returned h2 c] at hm
      cases hm
    apply waiter_left_goesWrong hc (o := .semOrderDrink)
    cases hpc : s.waiter <;> simp_all [WaiterPc.coins, WaiterPc.mayCall]

end

/-! ## Quitting -/

theorem main_reach {s s' : St Drink} {e : MainEv Drink} (hx : s.exited = none) (h : mainThread s e = some s') :
    Reach step (fun _ _ => True) s s' :=
  Reach.step (e := .main e) .refl trivial (step_eq_some.mpr ⟨hx, h⟩)

theorem mqUnlink_closes {s : St Drink} (hx : s.exited = none) (hm : s.main = .mqUnlink) :
    Reach step (fun _ _ => True) s { s with main := .alambixClose, mqOpen := false, linked := false } := by
  have h1 : mainThread s .mqUnlink = some { s with main := .mqClose, linked := false } := guarded_of hm
  exact (main_reach hx h1).trans (main_reach (e := .mqClose) hx (guarded_of rfl))

theorem semDestroyProvideDrink_closes {s : St Drink} (hx : s.exited = none) (hm : s.main = .semDestroyProvideDrink) :
    Reach step (fun _ _ => True) s { s with main := .alambixClose, mqOpen := false, linked := false } := by
  have h1 : mainThread s .semDestroyProvideDrink = some { s with main := .mqUnlink } := guarded_of hm
  exact (main_reach hx h1).trans (mqUnlink_closes hx rfl)

/-- After a statement of alambix_destroy main goes on alone to the end of it. -/
theorem destroy_closes {s s' : St Drink} {e : Ev Drink} {o : Shared} (h : step s e = some s')
    (he : e.destroys = some o) :
    ∃ l, Reach step (fun _ _ => True) s' { s with main := .alambixClose, mqOpen := false, linked := l } := by
  obtain ⟨hruns, h⟩ := step_eq_some.mp h
  cases e with
  | main e =>
    have hx : s.exited = none := hruns
    cases e with
    | semDestroyOrderDrink =>
      obtain ⟨-, rfl⟩ := guarded_eq_some.mp h
      exact ⟨false, semDestroyProvideDrink_closes hx rfl⟩
    | semDestroyProvideDrink =>
      obtain ⟨-, rfl⟩ := guarded_eq_some.mp h
      exact ⟨false, mqUnlink_closes hx rfl⟩
    | mqClose =>
      obtain ⟨-, rfl⟩ := guarded_eq_some.mp h
      exact ⟨s.linked, .refl⟩
    | _ => cases he
  | _ => cases he

/-- A run keeps the promise in every state if each statement of alambix_destroy finds that
    no thread may call any more on what it destroys; after one that does not, the run can
    go on to break the promise. -/
theorem quit_is_safe_when :
    (∀ s : St Drink, Reach step DestroysUnused boot s → QuitSafe s) ∧
    (∀ (s s' : St Drink) (e : Ev Drink), Reach step (fun _ _ => True) boot s → step s e = some s' →
      ¬ DestroysUnused s e → ∃ t, Reach step (fun _ _ => True) s' t ∧ ¬ QuitSafe t) := by
  refine ⟨fun s hr => ?_, fun s s' e hr hs hu => ?_⟩
  · have h0 : NoneLeft (boot : St Drink) := fun o ho => by cases ho
    exact (hr.inv h0 fun _ _ _ hi hok hs => step_noneLeft hi hok hs).quitSafe
  · simp only [DestroysUnused, not_forall, Bool.not_eq_false] at hu
    obtain ⟨o, ho, t, hm⟩ := hu
    have he : e.destroys = some o := ho
    obtain ⟨l, hclose⟩ := destroy_closes hs he
    have hi := reach_programInv ((hr.step trivial hs).trans hclose)
    have halive : s.exited = none := alive_of_step hs
    have hclosed : Closed { s with main := .alambixClose, mqOpen := false, linked := l } := ⟨halive, rfl⟩
    obtain ⟨u, hu, hn⟩ := left_goesWrong hclosed hi (t := t) (o := o) hm
    exact ⟨u, hclose.trans hu, hn⟩

/-- Start, and at once Quit. -/
def quitAtOnce : List (Ev Nat) :=
  startRound oneEach ++
    [.main .quit, .main .semDestroyOrderDrink, .main .semDestroyProvideDrink, .main .mqUnlink, .main .mqClose]

/-- The waiter and the bartender are left blocked in sem_wait and mq_receive on what was
    destroyed, and a client goes on to its sem_post. -/
theorem quit_breaks_the_round :
    ∃ s s' : St Nat, Reach step (fun _ _ => True) boot s ∧ s.main = .alambixClose ∧ s.waiter = .semWaitFirst ∧
      s.bartender = .mqReceive ∧ s.client .client0 = .semPost ∧ step s (.client .client0 .semPost) = some s' ∧
      ¬ QuitSafe s := by
  have hr : Reach step (fun _ _ => True) (opened : St Nat) _ :=
    exec_get_reach (quitAtOnce ++ (orderOne .client0 1 []).take 6) (by decide)
  refine ⟨_, _, (opened_reached trivial).trans hr, by decide, by decide, by decide, by decide, guarded_of (by decide),
    fun hq => ?_⟩
  exact absurd (hq (by decide) .mq (by decide) .bartender) (by decide)

/-- The round is over but for the last drink's timer; then the user quits. -/
def quitAfterwards : List (Ev Nat) :=
  startRound oneEach ++ orderProvided ++
    [.waiter .serveOrder, .main .quit, .main .semDestroyOrderDrink, .main .semDestroyProvideDrink,
      .main .mqUnlink, .main .mqClose, .main (.alambixClose 0)]

theorem quitting_afterwards_is_safe :
    (∃ s : St Nat, Reach step DestroysUnused boot s ∧ s.exited = some 0 ∧ QuitSafe s) ∧
    (∃ s s' t : St Nat, Reach step (fun _ _ => True) boot s ∧ step s (.main .semDestroyOrderDrink) = some s' ∧
      ¬ DestroysUnused s (.main .semDestroyOrderDrink) ∧ Reach step (fun _ _ => True) s' t ∧ ¬ QuitSafe t) := by
  constructor
  · have hok : DestroysUnused (boot : St Nat) (.main (.alambixInit freshFs allSucceed)) := fun o ho => by cases ho
    have hr : Reach step DestroysUnused (opened : St Nat) _ := exec_get_reach quitAfterwards (by decide)
    exact ⟨_, (opened_reached hok).trans hr, by decide, quit_is_safe_when.1 _ ((opened_reached hok).trans hr)⟩
  · obtain ⟨s, hr, hm, hx, hn⟩ : ∃ s : St Nat, Reach step (fun _ _ => True) opened s ∧
        s.main = .semDestroyOrderDrink ∧ s.exited = none ∧ ¬ DestroysUnused s (.main .semDestroyOrderDrink) :=
      ⟨_, exec_get_reach (startRound oneEach ++ [.main .quit]) (by decide), by decide, by decide, by decide⟩
    have hs : step s (.main .semDestroyOrderDrink) = some { s with main := .semDestroyProvideDrink } :=
      step_eq_some.mpr ⟨hx, guarded_of hm⟩
    obtain ⟨t, ht, hq⟩ := quit_is_safe_when.2 s _ _ ((opened_reached trivial).trans hr) hs hn
    exact ⟨s, _, t, (opened_reached trivial).trans hr, hs, hn, ht, hq⟩

end Alambix

/-
  Alambix.Rounds — any number of rounds ("play again"), from alambix_init on.

  Semaphores, mutex and queue are set up once and never reset; a round starts with what
  the last one left of them. `RoundInv` collects what the earlier modules keep within a
  round; at the end of a round it leaves nothing behind (`RoundInv.clean`), so the next
  round starts with it again and it holds in every reachable state (`reach_roundInv`).
  The still and its timer do run on into the next round: `StillInv` is all that is known
  of them, and all that is needed.

  Proved:
  - `rounds_leave_nothing_behind`: after any number of rounds.
  - `every_round_is_a_round`: while a round is on, the program is in a state that round
    reaches on its own, started from a `Ready` state; so what is proved of one round holds
    of each.
-/

import Alambix.Distilling

namespace Alambix

open Lib.Transition

variable {Drink : Type}

structure RoundInv (s : St Drink) : Prop where
  desk : DeskInv s
  line : LineInv s
  handOver : HandOverInv s
  complete : Complete s
  history : ∀ r ∈ s.history, r.2 = r.1

/-! ## Between rounds -/

theorem opened_roundInv : RoundInv (opened : St Drink) where
  desk := boot_desk.frame rfl rfl rfl rfl rfl rfl rfl
  line := by constructor <;> simp [opened, boot, WaiterPc.unsent, St.unstarted]
  handOver := by
    constructor <;>
      simp [opened, boot, WaiterPc.served, WaiterPc.tookOrder, BartenderPc.posted, BartenderPc.provided]
  complete := fun _ => ⟨rfl, rfl, rfl⟩
  history := by intro r hr; cases hr

theorem RoundInv.frame {s s' : St Drink} (hi : RoundInv s) (hd : DeskInv s') (h : SameLine s s') : RoundInv s' where
  desk := hd
  line := hi.line.frame h
  handOver := hi.handOver.frame h
  complete := hi.complete.frame h
  history := by rw [h.2.2.2.2]; exact hi.history

/-- A round that has ended has put every coin it took back where it was, given the mutex
    back, emptied the queue and started the whole order. -/
theorem RoundInv.clean {s : St Drink} (hi : RoundInv s) (hr : AllReturned s) :
    s.semOrderDrink = 0 ∧ s.semProvideDrink = 0 ∧ s.orderMutex = none ∧ s.mq.msgs = [] ∧ s.started = s.taken := by
  obtain ⟨hsem, hmutex⟩ := hi.desk.clean hr
  obtain ⟨-, hw, hb⟩ := hr
  have hcoin := hi.handOver.coin
  rw [hw, hb] at hcoin
  simp only [WaiterPc.served, BartenderPc.posted] at hcoin
  obtain ⟨hq, hs⟩ := started_whole_order hi.line hi.complete (by rw [hb]; rfl)
  exact ⟨hsem, by omega, hmutex, hq, hs⟩

theorem newRound_roundInv {s : St Drink} (hi : RoundInv s) (hr : AllReturned s) (wanted : Client → List Drink) :
    RoundInv (newRound s wanted) := by
  obtain ⟨ho, hp, hm, hq, -⟩ := hi.clean hr
  exact ⟨newRound_desk ho hm wanted, newRound_line hq wanted, newRound_handOver hp wanted,
    newRound_complete s wanted, hi.history⟩

/-- Where the main thread is while it sets no round up and takes none down. -/
def MainPc.inRound : MainPc → Bool
  | .ui => true
  | .pthreadCreate _ => true
  | .pthreadDetach _ => true
  | _ => false

/-- A thread on its way to exit has closed the descriptor. -/
def WaiterPc.closed : WaiterPc Drink → Bool
  | .failExit _ => true
  | _ => false

def BartenderPc.closed : BartenderPc → Bool
  | .failMqUnlink => true
  | .failExit => true
  | _ => false

/-- The queue keeps its attributes, and its descriptor stays open until it is torn down. -/
structure QueueInv (s : St Drink) : Prop where
  attr : s.mq.attr = mqBartenderAttr
  closed : s.mqOpen = false → s.main.inRound = true → s.waiter.closed = true ∨ s.bartender.closed = true

theorem QueueInv.frame {s s' : St Drink} (hi : QueueInv s) (hq : s'.mq.attr = s.mq.attr) (ho : s'.mqOpen = s.mqOpen)
    (hm : s'.main.inRound = true → s.main.inRound = true) (hw : s.waiter.closed = true → s'.waiter.closed = true)
    (hb : s.bartender.closed = true → s'.bartender.closed = true) : QueueInv s' where
  attr := hq.trans hi.attr
  closed h hr := (hi.closed (ho ▸ h) (hm hr)).imp hw hb

/-- Between two rounds the next one can start. -/
theorem ready_again {s : St Drink} (hi : RoundInv s) (hq : QueueInv s) (hx : s.exited = none) (hm : s.main = .ui)
    (hr : AllReturned s) : Ready s := by
  obtain ⟨ho, hp, hmx, hmsgs, -⟩ := hi.clean hr
  have hopen : s.mqOpen = true := by
    cases h : s.mqOpen with
    | true => rfl
    | false =>
      have := hq.closed h (by rw [hm]; rfl)
      simp [hr.2.1, hr.2.2, WaiterPc.closed, BartenderPc.closed] at this
  have hattr := hq.attr
  refine ⟨hx, hr, ho, hp, hmx, hopen, ?_⟩
  cases hmq : s.mq with
  | mk attr msgs => simp_all

/-! ## Each event keeps it -/

variable [DecidableEq Drink]

theorem waiter_history {s s' : St Drink} {e : WaiterEv Drink} (hi : RoundInv s)
    (h : waiterThreadFct s e = some s') : ∀ r ∈ s'.history, r.2 = r.1 := by
  cases e with
  | serveOrder =>
    obtain ⟨hpc, rfl⟩ := guarded_eq_some.mp h
    have hb := hi.handOver.bartender_returned (by rw [hpc]; rfl)
    obtain ⟨-, hs⟩ := started_whole_order hi.line hi.complete (by rw [hb]; rfl)
    intro r hr
    rcases List.mem_append.mp hr with hr | hr
    · exact hi.history r hr
    · rw [List.mem_singleton.mp hr]
      exact hs
  | _ =>
    obtain ⟨-, rfl⟩ := guarded_eq_some.mp h
    exact hi.history

theorem bartender_history {s s' : St Drink} {e : BartenderEv Drink} (h : bartenderThreadFct s e = some s') :
    s'.history = s.history := by
  rw [bartender_touches h]

theorem main_roundInv {s s' : St Drink} {e : MainEv Drink} (hi : RoundInv s) (hm : s.main ≠ .alambixOpen)
    (h : mainThread s e = some s') : RoundInv s' ∧ s'.main ≠ .alambixOpen := by
  have hmain : s'.main ≠ .alambixOpen := by
    cases e with
    | alambixInit fs w => exact absurd (guarded_eq_some.mp h).1 hm
    | pthreadCreate =>
      obtain ⟨t, -, rfl⟩ := pthreadCreate_eq_some.mp h
      simp
    | pthreadCreateFail =>
      obtain ⟨t, -, rfl⟩ := pthreadCreateFail_eq_some.mp h
      exact hm
    | pthreadDetach =>
      obtain ⟨t, -, rfl⟩ := pthreadDetach_eq_some.mp h
      rcases t with (_ | _) | _ | _ <;> simp [afterDetach]
    | alambixClose code =>
      obtain ⟨-, rfl⟩ := guarded_eq_some.mp h
      exact hm
    | _ =>
      obtain ⟨-, rfl⟩ := guarded_eq_some.mp h
      simp
  refine ⟨?_, hmain⟩
  rcases main_cases h with ⟨fs, w, -, hopen, -⟩ | ⟨chosen, -, -, hr, rfl⟩ | ⟨-, m, x, o, l, rfl⟩
  · exact absurd hopen hm
  · have hnew := newRound_roundInv hi hr chosen
    exact hnew.frame (hnew.desk.frame rfl rfl rfl rfl rfl rfl rfl) (by simp [SameLine])
  · exact hi.frame (hi.desk.frame rfl rfl rfl rfl rfl rfl rfl) (by simp [SameLine])

theorem step_roundInv {s s' : St Drink} {e : Ev Drink} (hi : RoundInv s) (hm : s.main ≠ .alambixOpen)
    (ha : AnswersExactly s e) (h : step s e = some s') : RoundInv s' ∧ s'.main ≠ .alambixOpen := by
  cases e with
  | main e => exact main_roundInv hi hm (step_eq_some.mp h).2
  | client c e =>
    exact ⟨hi.frame (step_desk hi.desk rfl h) (client_line (step_eq_some.mp h).2), step_main_unchanged rfl h ▸ hm⟩
  | timer e =>
    exact ⟨hi.frame (step_desk hi.desk rfl h) (timer_line (step_eq_some.mp h).2), step_main_unchanged rfl h ▸ hm⟩
  | waiter e =>
    obtain ⟨hl, hh⟩ := step_line hi.line hi.handOver rfl h
    exact ⟨⟨step_desk hi.desk rfl h, hl, hh, step_complete hi.line hi.handOver hi.complete rfl ha h,
      waiter_history hi (step_eq_some.mp h).2⟩, step_main_unchanged rfl h ▸ hm⟩
  | bartender e =>
    obtain ⟨hl, hh⟩ := step_line hi.line hi.handOver rfl h
    refine ⟨⟨step_desk hi.desk rfl h, hl, hh, step_complete hi.line hi.handOver hi.complete rfl ha h, ?_⟩,
      step_main_unchanged rfl h ▸ hm⟩
    rw [bartender_history (step_eq_some.mp h).2]
    exact hi.history

theorem reach_roundInv {s : St Drink} (h : Reach step AnswersExactly opened s) :
    RoundInv s ∧ s.main ≠ .alambixOpen :=
  h.inv (I := fun s => RoundInv s ∧ s.main ≠ .alambixOpen) ⟨opened_roundInv, by simp [opened]⟩
    fun _ _ _ hi ha hs => step_roundInv hi.1 hi.2 ha hs

/-- Whenever a round has ended, the semaphores are 0, the mutex is free, the queue is empty
    and what was started is the order taken; and so it was in every round served before. -/
theorem rounds_leave_nothing_behind {s : St Drink} (h : Reach step AnswersExactly opened s) :
    (AllReturned s →
      s.semOrderDrink = 0 ∧ s.semProvideDrink = 0 ∧ s.orderMutex = none ∧ s.mq.msgs = [] ∧ s.started = s.taken) ∧
    (∀ r ∈ s.history, r.2 = r.1) := by
  obtain ⟨hi, -⟩ := reach_roundInv h
  exact ⟨hi.clean, hi.history⟩

/-- Two rounds; the second starts while the last drink of the first is still being made. -/
def playAgain : List (Ev Nat) :=
  startRound oneEach ++ orderProvided ++ [.waiter .serveOrder] ++
    startRound oneEach ++ [.timer .expire, .timer .stillStop] ++ orderProvided ++ [.waiter .serveOrder]

theorem second_round_ends_clean :
    ∃ s, Reach step AnswersExactly (opened : St Nat) s ∧ AllReturned s ∧ s.still = true ∧ s.history.length = 2 ∧
      s.semOrderDrink = 0 ∧ s.semProvideDrink = 0 ∧ s.orderMutex = none ∧ s.mq.msgs = [] ∧ s.started = s.taken := by
  have hr : Reach step AnswersExactly (opened : St Nat) _ := exec_get_reach playAgain (by decide)
  have hclean := (rounds_leave_nothing_behind hr).1 (by decide)
  exact ⟨_, hr, by decide, by decide, by decide, hclean⟩

/-! ## A round on its own -/

theorem waiter_queue {s s' : St Drink} {e : WaiterEv Drink} (hi : QueueInv s) (h : waiterThreadFct s e = some s') :
    QueueInv s' := by
  cases e with
  | mqClose d =>
    obtain ⟨-, rfl⟩ := guarded_eq_some.mp h
    exact ⟨hi.attr, fun _ _ => Or.inl rfl⟩
  | _ =>
    obtain ⟨hpc, rfl⟩ := guarded_eq_some.mp h
    exact hi.frame rfl rfl id (by simp [hpc, WaiterPc.closed]) id

theorem bartender_queue {s s' : St Drink} {e : BartenderEv Drink} (hi : QueueInv s)
    (h : bartenderThreadFct s e = some s') : QueueInv s' := by
  cases e with
  | mqClose =>
    obtain ⟨-, rfl⟩ := guarded_eq_some.mp h
    exact ⟨hi.attr, fun _ _ => Or.inr rfl⟩
  | _ =>
    obtain ⟨hpc, rfl⟩ := guarded_eq_some.mp h
    exact hi.frame rfl rfl id id (by simp [hpc, BartenderPc.closed])

/-- The main thread sets a round up only while it is in one, or between two of them. -/
theorem main_inRound {s s' : St Drink} {e : MainEv Drink} (hm : s.main ≠ .alambixOpen)
    (h : mainThread s e = some s') (hr : s'.main.inRound = true) : s.main.inRound = true := by
  cases e with
  | alambixInit fs w => exact absurd (guarded_eq_some.mp h).1 hm
  | alambixStart chosen => rw [(guarded_eq_some.mp h).1.1]; rfl
  | quit => rw [(guarded_eq_some.mp h).1]; rfl
  | pthreadCreate =>
    obtain ⟨t, ht, -⟩ := pthreadCreate_eq_some.mp h
    rw [ht]; rfl
  | pthreadCreateFail =>
    obtain ⟨t, ht, -⟩ := pthreadCreateFail_eq_some.mp h
    rw [ht]; rfl
  | pthreadDetach =>
    obtain ⟨t, ht, -⟩ := pthreadDetach_eq_some.mp h
    rw [ht]; rfl
  | alambixClose code =>
    obtain ⟨hpc, rfl⟩ := guarded_eq_some.mp h
    simp [hpc, MainPc.inRound] at hr
  | _ =>
    obtain ⟨-, rfl⟩ := guarded_eq_some.mp h
    simp [MainPc.inRound] at hr

/-- Setting a round up and taking one down neither open nor close the descriptor while the
    round is on. -/
theorem main_queue {s s' : St Drink} {e : MainEv Drink} (hi : QueueInv s) (hm : s.main ≠ .alambixOpen)
    (h : mainThread s e = some s') : QueueInv s' := by
  have hback := main_inRound hm h
  cases e with
  | alambixInit fs w => exact absurd (guarded_eq_some.mp h).1 hm
  | alambixStart chosen =>
    obtain ⟨⟨hpc, hr⟩, rfl⟩ := guarded_eq_some.mp h
    exact hi.frame rfl rfl hback (by simp [hr.2.1, WaiterPc.closed]) (by simp [hr.2.2, BartenderPc.closed])
  | mqClose =>
    obtain ⟨-, rfl⟩ := guarded_eq_some.mp h
    exact ⟨hi.attr, fun _ hr => by cases hr⟩
  | pthreadCreate =>
    obtain ⟨t, -, rfl⟩ := pthreadCreate_eq_some.mp h
    exact hi.frame rfl rfl hback id id
  | pthreadCreateFail =>
    obtain ⟨t, -, rfl⟩ := pthreadCreateFail_eq_some.mp h
    exact hi.frame rfl rfl hback id id
  | pthreadDetach =>
    obtain ⟨t, -, rfl⟩ := pthreadDetach_eq_some.mp h
    exact hi.frame rfl rfl hback id id
  | _ =>
    obtain ⟨-, rfl⟩ := guarded_eq_some.mp h
    exact hi.frame rfl rfl hback id id

theorem step_queue {s s' : St Drink} {e : Ev Drink} (hi : QueueInv s) (hm : s.main ≠ .alambixOpen)
    (h : step s e = some s') : QueueInv s' := by
  obtain ⟨-, h⟩ := step_eq_some.mp h
  cases e with
  | main e => exact main_queue hi hm h
  | client c e => rw [client_touches h]; exact hi.frame rfl rfl id id id
  | waiter e => exact waiter_queue hi h
  | bartender e => exact bartender_queue hi h
  | timer e => rw [timer_touches h]; exact hi.frame rfl rfl id id id

/-- The threads and the timer do not look at the main thread. -/
theorem fire_atUi (s : St Drink) {e : Ev Drink} (he : e.inRound = true) :
    fire { s with main := .ui } e = (fire s e).map fun t => { t with main := .ui } := by
  cases e with
  | main e => cases he
  | client c e => cases e <;> simp only [fire, clientThreadFct, guarded] <;> split <;> rfl
  | waiter e => cases e <;> simp only [fire, waiterThreadFct, guarded] <;> split <;> rfl
  | bartender e => cases e <;> simp only [fire, bartenderThreadFct, guarded] <;> split <;> rfl
  | timer e => cases e <;> simp only [fire, timerDrinkPrepare, guarded] <;> split <;> rfl

theorem step_atUi {s s' : St Drink} {e : Ev Drink} (he : e.inRound = true) (h : step s e = some s') :
    step { s with main := .ui } e = some { s' with main := .ui } := by
  obtain ⟨hruns, h⟩ := step_eq_some.mp h
  refine step_eq_some.mpr ⟨?_, by rw [fire_atUi s he, h]; rfl⟩
  cases e with
  | main e => cases he
  | client c e => exact ⟨hruns.1, rfl⟩
  | waiter e => exact ⟨hruns.1, rfl⟩
  | bartender e => exact ⟨hruns.1, rfl⟩
  | timer e => exact hruns

/-- An event of a round whose library answers exactly. -/
def OfRound (s : St Drink) (e : Ev Drink) : Prop := e.inRound = true ∧ AnswersExactly s e

/-- The state a round has reached on its own, from a state it could start in. -/
def InOneRound (s : St Drink) : Prop :=
  ∃ s₀ wanted, Ready s₀ ∧ StillInv s₀ ∧ Reach step OfRound (roundOf s₀ wanted) { s with main := .ui }

/-- Once its round has ended and the timer is idle, nothing of it can happen. -/
theorem returned_no_step {s s' : St Drink} (hr : AllReturned s) (ha : s.armed = false) (hn : s.notified = 0)
    {e : Ev Drink} (he : e.inRound = true) : step s e ≠ some s' := by
  obtain ⟨⟨hc0, hc1⟩, hw, hb⟩ := hr
  intro h
  obtain ⟨-, h⟩ := step_eq_some.mp h
  cases e with
  | main e => cases he
  | client c e =>
    have h : clientThreadFct c s e = some s' := h
    have hc : s.client c = .returned := by cases c <;> assumption
    cases e <;> obtain ⟨hpc, -⟩ := guarded_eq_some.mp h <;> simp [hc] at hpc
  | waiter e =>
    have h : waiterThreadFct s e = some s' := h
    cases e <;> obtain ⟨hpc, -⟩ := guarded_eq_some.mp h <;> simp [hw] at hpc
  | bartender e =>
    have h : bartenderThreadFct s e = some s' := h
    cases e <;> obtain ⟨hpc, -⟩ := guarded_eq_some.mp h <;> simp [hb] at hpc
  | timer e =>
    have h : timerDrinkPrepare s e = some s' := h
    cases e <;> obtain ⟨hpc, -⟩ := guarded_eq_some.mp h
    · rw [ha] at hpc; cases hpc
    · omega

/-- A main thread that stays in the round has clicked Start, or gone on in alambix_start. -/
theorem main_setup {s s' : St Drink} {e : MainEv Drink} (h : mainThread s e = some s') (hm : s.main ≠ .alambixOpen)
    (hx : s'.exited = none) (hr : s'.main.inRound = true) :
    (s.main = .ui ∧ AllReturned s ∧ ∃ chosen, { s' with main := .ui } = roundOf s chosen) ∨
    (s.main ≠ .ui ∧ { s' with main := .ui } = { s with main := .ui }) := by
  cases e with
  | alambixInit fs w => exact absurd (guarded_eq_some.mp h).1 hm
  | alambixStart chosen =>
    obtain ⟨⟨hui, hret⟩, rfl⟩ := guarded_eq_some.mp h
    exact .inl ⟨hui, hret, chosen, rfl⟩
  | pthreadCreate =>
    obtain ⟨t, ht, rfl⟩ := pthreadCreate_eq_some.mp h
    exact .inr ⟨by simp [ht], rfl⟩
  | pthreadDetach =>
    obtain ⟨t, ht, rfl⟩ := pthreadDetach_eq_some.mp h
    exact .inr ⟨by simp [ht], rfl⟩
  | pthreadCreateFail =>
    obtain ⟨t, -, rfl⟩ := pthreadCreateFail_eq_some.mp h
    cases hx
  | alambixClose code =>
    obtain ⟨-, rfl⟩ := guarded_eq_some.mp h
    cases hx
  | _ =>
    obtain ⟨-, rfl⟩ := guarded_eq_some.mp h
    simp [MainPc.inRound] at hr

theorem step_inOneRound {s s' : St Drink} {e : Ev Drink} (hi : RoundInv s) (hq : QueueInv s) (hs : StillInv s)
    (hm : s.main ≠ .alambixOpen) (hround : s = opened ∨ InOneRound s) (ha : AnswersExactly s e)
    (h : step s e = some s') (hx : s'.exited = none) (hr : s'.main.inRound = true) : InOneRound s' := by
  cases e with
  | main e =>
    obtain ⟨halive, h⟩ := step_eq_some.mp h
    rcases main_setup h hm hx hr with ⟨hui, hret, chosen, hs'⟩ | ⟨hui, hs'⟩
    · exact ⟨s, chosen, ready_again hi hq halive hui hret, hs, hs' ▸ .refl⟩
    · rcases hround with rfl | ⟨s₀, wanted, h0, hs0, hreach⟩
      · exact absurd rfl hui
      · exact ⟨s₀, wanted, h0, hs0, hs' ▸ hreach⟩
  | client c e | waiter e | bartender e | timer e =>
    rcases hround with rfl | ⟨s₀, wanted, h0, hs0, hreach⟩
    · exact absurd h (returned_no_step opened_ready.returned rfl rfl rfl)
    · exact ⟨s₀, wanted, h0, hs0, hreach.step ⟨rfl, ha⟩ (step_atUi rfl h)⟩

/-- Until the user quits, a program that lives is at its start or in a state that a round
    reaches on its own. -/
theorem every_round_is_a_round {s : St Drink} (h : Reach step AnswersExactly opened s) (hx : s.exited = none)
    (hr : s.main.inRound = true) : s = opened ∨ InOneRound s := by
  induction h with
  | refl => exact .inl rfl
  | @step s s' e hreach ha hs ih =>
    obtain ⟨hi, hm⟩ := reach_roundInv hreach
    have hq : QueueInv s := hreach.inv_with (J := fun s => s.main ≠ .alambixOpen)
      (fun _ hr => (reach_roundInv hr).2) ⟨rfl, fun h => by cases h⟩ fun _ _ _ hm hi _ hs => step_queue hi hm hs
    have hst : StillInv s := reach_still opened_still hreach
    have hback : s.main.inRound = true := by
      cases e with
      | main e => exact main_inRound hm (step_eq_some.mp hs).2 hr
      | client c e | waiter e | bartender e | timer e => rwa [step_main_unchanged rfl hs] at hr
    exact .inr (step_inOneRound hi hq hst hm (ih (alive_of_step hs) hback) ha hs hx hr)

end Alambix

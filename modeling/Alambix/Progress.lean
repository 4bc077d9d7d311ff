/-
  Alambix.Progress — a round neither blocks nor runs forever.

  Five things block: the mutex, two semaphores, a full or empty queue, a running still.
  - `Sound`: no call has failed, and a bartender waiting for a message after the order was
    taken has not received all of it.
  - `can_step`: the waits form no cycle. An expiry on its way can always happen; without
    one the still is free and only an empty queue can hold the bartender; then the waiter
    is still to send, or it waits for a coin, and then some client is not done; and the
    client inside alambix_order_drink waits for nobody.
  - `remaining`: what is left of the round, each drink weighed by the statements still to
    be executed for it. Every event lowers it (`step_remaining`).

  Proved: `round_ends`.
-/

import Alambix.Distilling

namespace Alambix

open Lib.Mqueue Lib.Transition
open Function (update)

variable {Drink : Type}

/-! ## No call has failed -/

def WaiterPc.failing : WaiterPc Drink → Bool
  | .failMqClose _ => true
  | .failExit _ => true
  | _ => false

def BartenderPc.failing : BartenderPc → Bool
  | .failMqClose => true
  | .failMqUnlink => true
  | .failExit => true
  | _ => false

structure Sound (s : St Drink) : Prop where
  alive : s.exited = none
  ui : s.main = .ui
  mqOpen : s.mqOpen = true
  attr : s.mq.attr = mqBartenderAttr
  waiter : s.waiter.failing = false
  bartender : s.bartender.failing = false
  waiting : s.bartender = .mqReceive → s.waiter.tookOrder = true → s.received.length < s.taken.length

theorem roundOf_sound {s : St Drink} (h0 : Ready s) (wanted : Client → List Drink) : Sound (roundOf s wanted) where
  alive := h0.alive
  ui := rfl
  mqOpen := h0.mqOpen
  attr := by simp [roundOf, newRound, h0.mq]
  waiter := rfl
  bartender := rfl
  waiting := fun _ h => by cases h

/-- The order the waiter takes is as long as the two lists of choices. -/
theorem DeskInv.order_length {s : St Drink} (hi : DeskInv s) (hw : s.waiter.coins = 2) :
    s.order.length = (s.wanted .client0).length + (s.wanted .client1).length := by
  have hr := hi.both_returned hw
  have hlen := hi.shuffled.length
  rwa [hi.placed_all hr, hi.placed_all hr] at hlen

variable [DecidableEq Drink]

theorem waiter_sound {s s' : St Drink} {e : WaiterEv Drink} (hd : DeskInv s) (hl : LineInv s) (hi : Sound s)
    (hne : 1 ≤ (s.wanted .client0).length + (s.wanted .client1).length) (ha : AsDocumented s (.waiter e))
    (h : waiterThreadFct s e = some s') : Sound s' := by
  obtain ⟨i1, i2, i3, i4, i5, i6, i7⟩ := hi
  obtain ⟨-, hsucc, -, htakes⟩ := ha
  cases e with
  | takeOrder ds =>
    obtain ⟨hpc, rfl⟩ := guarded_eq_some.mp h
    obtain rfl : ds = s.order := htakes ds rfl
    refine ⟨i1, i2, i3, i4, rfl, i6, fun _ _ => ?_⟩
    -- nothing has been received of an order that was not taken
    obtain ⟨-, -, -, hrec, -⟩ := hl.empty_before (by rw [hpc]; rfl)
    have hlen := hd.order_length (by rw [hpc]; rfl)
    simp only [hrec, List.length_nil]
    omega
  | mqSendFail d => cases hsucc
  | mqClose d =>
    obtain ⟨hpc, -⟩ := guarded_eq_some.mp h
    rw [hpc] at i5; cases i5
  | exit d =>
    obtain ⟨hpc, -⟩ := guarded_eq_some.mp h
    rw [hpc] at i5; cases i5
  | _ =>
    obtain ⟨hpc, rfl⟩ := guarded_eq_some.mp h
    constructor <;> simp_all [WaiterPc.failing, WaiterPc.tookOrder]

theorem bartender_sound {s s' : St Drink} {e : BartenderEv Drink} (hi : Sound s)
    (ha : AsDocumented s (.bartender e)) (h : bartenderThreadFct s e = some s') : Sound s' := by
  obtain ⟨i1, i2, i3, i4, i5, i6, i7⟩ := hi
  obtain ⟨-, hsucc, hans, -⟩ := ha
  cases e with
  | mqReceiveFail => cases hsucc
  | timerSettimeFail => cases hsucc
  | mqClose =>
    obtain ⟨hpc, -⟩ := guarded_eq_some.mp h
    rw [hpc] at i6; cases i6
  | mqUnlink =>
    obtain ⟨hpc, -⟩ := guarded_eq_some.mp h
    rw [hpc] at i6; cases i6
  | exit =>
    obtain ⟨hpc, -⟩ := guarded_eq_some.mp h
    rw [hpc] at i6; cases i6
  | hasOrderedDrink more =>
    obtain ⟨hpc, rfl⟩ := guarded_eq_some.mp h
    have hmore := hans more rfl
    cases more with
    | true => exact ⟨i1, i2, i3, i4, i5, rfl, fun _ _ => hmore.mp rfl⟩
    | false => exact ⟨i1, i2, i3, i4, i5, rfl, fun hb => by cases hb⟩
  | _ =>
    obtain ⟨hpc, rfl⟩ := guarded_eq_some.mp h
    constructor <;> simp_all [BartenderPc.failing]

theorem step_sound {s s' : St Drink} {e : Ev Drink} (hd : DeskInv s) (hl : LineInv s) (hi : Sound s)
    (hne : 1 ≤ (s.wanted .client0).length + (s.wanted .client1).length) (ha : AsDocumented s e)
    (h : step s e = some s') : Sound s' := by
  obtain ⟨-, h⟩ := step_eq_some.mp h
  cases e with
  | main e => cases ha.1
  | waiter e => exact waiter_sound hd hl hi hne ha h
  | bartender e => exact bartender_sound hi ha h
  | client c e =>
    obtain ⟨i1, i2, i3, i4, i5, i6, i7⟩ := hi
    rw [client_touches h]
    exact ⟨i1, i2, i3, i4, i5, i6, i7⟩
  | timer e =>
    obtain ⟨i1, i2, i3, i4, i5, i6, i7⟩ := hi
    rw [timer_touches h]
    exact ⟨i1, i2, i3, i4, i5, i6, i7⟩

/-! ## Somebody can go on -/

/-- Some event of the round can happen. -/
def CanStep (s : St Drink) : Prop := ∃ e s', AsDocumented s e ∧ step s e = some s'

section

variable {s : St Drink} (hi : Sound s)

include hi

theorem client_canStep {c : Client} {e : ClientEv Drink} (h : (clientThreadFct c s e).isSome = true) : CanStep s := by
  obtain ⟨s', hs⟩ := Option.isSome_iff_exists.mp h
  exact ⟨.client c e, s', ⟨rfl, rfl, answersExactly_of rfl, takesOrder_of rfl⟩,
    step_eq_some.mpr ⟨⟨hi.alive, by rw [hi.ui]; rfl⟩, hs⟩⟩

theorem waiter_canStep {e : WaiterEv Drink} (hsucc : Ev.succeeds (.waiter e) = true)
    (htakes : TakesOrder s (.waiter e)) (h : (waiterThreadFct s e).isSome = true) : CanStep s := by
  obtain ⟨s', hs⟩ := Option.isSome_iff_exists.mp h
  exact ⟨.waiter e, s', ⟨rfl, hsucc, answersExactly_of rfl, htakes⟩,
    step_eq_some.mpr ⟨⟨hi.alive, by rw [hi.ui]; rfl⟩, hs⟩⟩

theorem bartender_canStep {e : BartenderEv Drink} (hsucc : Ev.succeeds (.bartender e) = true)
    (hans : AnswersExactly s (.bartender e)) (h : (bartenderThreadFct s e).isSome = true) : CanStep s := by
  obtain ⟨s', hs⟩ := Option.isSome_iff_exists.mp h
  exact ⟨.bartender e, s', ⟨rfl, hsucc, hans, takesOrder_of rfl⟩,
    step_eq_some.mpr ⟨⟨hi.alive, by rw [hi.ui]; rfl⟩, hs⟩⟩

theorem timer_canStep {e : TimerEv} (h : (timerDrinkPrepare s e).isSome = true) : CanStep s := by
  obtain ⟨s', hs⟩ := Option.isSome_iff_exists.mp h
  exact ⟨.timer e, s', ⟨rfl, rfl, answersExactly_of rfl, takesOrder_of rfl⟩,
    step_eq_some.mpr ⟨hi.alive, hs⟩⟩

/-- The owner of the mutex waits for nobody. -/
theorem holder_can_step {c : Client} (h : (s.client c).holdsMutex = true) : CanStep s := by
  cases hpc : s.client c with
  | orderDrink d => exact client_canStep hi (c := c) (e := .orderRead d) (by simp [clientThreadFct, guarded, hpc])
  | orderWrite d seen =>
    exact client_canStep hi (c := c) (e := .orderWrite d seen) (by simp [clientThreadFct, guarded, hpc])
  | mutexUnlock => exact client_canStep hi (c := c) (e := .mutexUnlock) (by simp [clientThreadFct, guarded, hpc])
  | _ => rw [hpc] at h; cases h

/-- A client that has not returned can go on, or the owner of the mutex can. -/
theorem client_can_step (hd : DeskInv s) {c : Client} (hc : s.client c ≠ .returned) : CanStep s := by
  by_cases hold : (s.client c).holdsMutex = true
  · exact holder_can_step hi hold
  cases hpc : s.client c with
  | chooseDrink =>
    cases hch : s.chosen c with
    | nil => exact client_canStep hi (c := c) (e := .chooseNull) (by simp [clientThreadFct, guarded, hpc, hch])
    | cons d rest =>
      exact client_canStep hi (c := c) (e := .chooseDrink d) (by simp [clientThreadFct, guarded, hpc, hch])
  | mutexLock d =>
    cases hm : s.orderMutex with
    | none => exact client_canStep hi (c := c) (e := .mutexLock d) (by simp [clientThreadFct, guarded, hpc, hm])
    | some owner => exact holder_can_step hi ((hd.clients owner).holder.mpr hm)
  | semPost => exact client_canStep hi (c := c) (e := .semPost) (by simp [clientThreadFct, guarded, hpc])
  | returned => exact absurd hpc hc
  | _ => rw [hpc] at hold; exact absurd rfl hold

/-- A waiter short of a coin waits for a client that has not returned. -/
theorem coins_can_step (hd : DeskInv s) (hsem : s.semOrderDrink = 0) (hw : s.waiter.coins < 2) : CanStep s := by
  have hcoins := hd.coins
  by_cases h0 : s.client .client0 = .returned
  · by_cases h1 : s.client .client1 = .returned
    · rw [h0, h1] at hcoins
      simp only [ClientPc.posted] at hcoins
      omega
    · exact client_can_step hi hd h1
  · exact client_can_step hi hd h0

theorem fetch_can_step (hpc : s.waiter = .getOrderedDrink) : CanStep s := by
  cases ht : s.toFetch with
  | nil =>
    exact waiter_canStep hi (e := .getNull) rfl (takesOrder_of rfl) (by simp [waiterThreadFct, guarded, hpc, ht])
  | cons d rest =>
    exact waiter_canStep hi (e := .getOrderedDrink d) rfl (takesOrder_of rfl)
      (by simp [waiterThreadFct, guarded, hpc, ht])

/-- With the bartender waiting for a message, the queue empty: the waiter goes on. -/
theorem empty_queue_can_step (hd : DeskInv s) (hl : LineInv s) (hb : s.bartender = .mqReceive)
    (hq : s.mq.msgs = []) : CanStep s := by
  -- a waiter past its loop has sent everything, and the bartender would have received it
  have hmiss : s.waiter.leftLoop = true → s.waiter.unsent = [] → s.waiter.tookOrder = true → CanStep s := by
    intro hleft hun htook
    have hlt := hi.waiting hb htook
    rw [hl.taken_eq, hq, hun, hl.after hleft] at hlt
    simp at hlt
  cases hpc : s.waiter with
  | semWaitFirst =>
    by_cases hsem : s.semOrderDrink = 0
    · exact coins_can_step hi hd hsem (by simp [hpc, WaiterPc.coins])
    · exact waiter_canStep hi (e := .semWaitFirst) rfl (takesOrder_of rfl)
        (by simp [waiterThreadFct, guarded, hpc]; omega)
  | semWaitSecond =>
    by_cases hsem : s.semOrderDrink = 0
    · exact coins_can_step hi hd hsem (by simp [hpc, WaiterPc.coins])
    · exact waiter_canStep hi (e := .semWaitSecond) rfl (takesOrder_of rfl)
        (by simp [waiterThreadFct, guarded, hpc]; omega)
  | takeOrder =>
    exact waiter_canStep hi (e := .takeOrder s.order) rfl (fun ds h => (Option.some.inj h).symm)
      (by simp [waiterThreadFct, guarded, hpc])
  | getOrderedDrink => exact fetch_can_step hi hpc
  | mqSend d =>
    exact waiter_canStep hi (e := .mqSend d) rfl (takesOrder_of rfl)
      (by simp [waiterThreadFct, guarded, hpc, hi.mqOpen, Mq.Sendable, hi.attr, hq, mqBartenderAttr, mqMsgMax])
  | failMqClose d | failExit d => have := hi.waiter; rw [hpc] at this; cases this
  | semWaitProvide | serveOrder | returned => exact hmiss (by rw [hpc]; rfl) (by rw [hpc]; rfl) (by rw [hpc]; rfl)

/-- The bartender returned: the waiter has its coin, or is on its way to it. -/
theorem bartender_done_can_step (hd : DeskInv s) (hh : HandOverInv s) (hc : Complete s) (hb : s.bartender = .returned)
    (hr : ¬ AllReturned s) : CanStep s := by
  have htook : s.waiter.tookOrder = true := by
    by_contra hw
    have := hh.early (by simpa using hw)
    rw [hb] at this; cases this
  cases hpc : s.waiter with
  | semWaitFirst | semWaitSecond | takeOrder => rw [hpc] at htook; cases htook
  | getOrderedDrink => exact fetch_can_step hi hpc
  | mqSend d =>
    obtain ⟨-, hun, -⟩ := hc (by rw [hb]; rfl)
    rw [hpc] at hun; cases hun
  | failMqClose d | failExit d => have := hi.waiter; rw [hpc] at this; cases this
  | semWaitProvide =>
    have hcoin := hh.coin
    rw [hpc, hb] at hcoin
    simp only [WaiterPc.served, BartenderPc.posted] at hcoin
    exact waiter_canStep hi (e := .semWaitProvide) rfl (takesOrder_of rfl)
      (by simp [waiterThreadFct, guarded, hpc]; omega)
  | serveOrder =>
    exact waiter_canStep hi (e := .serveOrder) rfl (takesOrder_of rfl) (by simp [waiterThreadFct, guarded, hpc])
  | returned =>
    have hret := hd.both_returned (by rw [hpc]; rfl)
    exact absurd ⟨⟨hret _, hret _⟩, hpc, hb⟩ hr

theorem can_step (hd : DeskInv s) (hl : LineInv s) (hh : HandOverInv s) (hc : Complete s) (hst : StillInv s)
    (hr : ¬ AllReturned s) : CanStep s := by
  by_cases hpos : 0 < s.notified
  · exact timer_canStep hi (e := .stillStop) (by simp [timerDrinkPrepare, guarded, hpos])
  have hnot : s.notified = 0 := by omega
  cases harm : s.armed with
  | true => exact timer_canStep hi (e := .expire) (by simp [timerDrinkPrepare, guarded, harm])
  | false =>
    have hone := hst.stopper
    rw [harm, hnot] at hone
    cases hb : s.bartender with
    | mqReceive =>
      cases hq : s.mq.msgs with
      | nil => exact empty_queue_can_step hi hd hl hb hq
      | cons d rest =>
        exact bartender_canStep hi (e := .mqReceive d) rfl (answersExactly_of rfl)
          (by simp [bartenderThreadFct, guarded, hb, hi.mqOpen, Mq.Receivable, hi.attr, hq, mqBartenderAttr])
    | failMqClose | failMqUnlink | failExit => have := hi.bartender; rw [hb] at this; cases this
    | stillStart =>
      rw [hb] at hone
      have hoff : s.still = false := by simpa [BartenderPc.setting] using hone
      obtain ⟨d, hbuf⟩ := hl.buffered hb
      exact bartender_canStep hi (e := .stillStart d) rfl (answersExactly_of rfl)
        (by simp [bartenderThreadFct, guarded, hb, hoff, hbuf])
    | timerSettime =>
      exact bartender_canStep hi (e := .timerSettime) rfl (answersExactly_of rfl)
        (by simp [bartenderThreadFct, guarded, hb])
    | hasOrderedDrink =>
      refine bartender_canStep hi (e := .hasOrderedDrink (decide (s.received.length < s.taken.length))) rfl ?_
        (by simp [bartenderThreadFct, guarded, hb])
      intro more hmore
      rw [← Option.some.inj hmore]
      simp
    | provideOrder =>
      exact bartender_canStep hi (e := .provideOrder) rfl (answersExactly_of rfl)
        (by simp [bartenderThreadFct, guarded, hb])
    | semPost =>
      exact bartender_canStep hi (e := .semPost) rfl (answersExactly_of rfl)
        (by simp [bartenderThreadFct, guarded, hb])
    | returned => exact bartender_done_can_step hi hd hh hc hb hr

end

/-! ## What is left of the round -/

/-- Statements a client is still to execute, and 8 for the drink it is to place. -/
def ClientPc.remaining : ClientPc Drink → Nat
  | .chooseDrink => 2
  | .mutexLock _ => 14
  | .orderDrink _ => 13
  | .orderWrite _ _ => 12
  | .mutexUnlock => 3
  | .semPost => 1
  | .returned => 0

/-- The waiter's, and 6 for the drink it is to send. -/
def WaiterPc.remaining : WaiterPc Drink → Nat
  | .semWaitFirst => 6
  | .semWaitSecond => 5
  | .takeOrder => 4
  | .getOrderedDrink => 3
  | .mqSend _ => 10
  | .semWaitProvide => 2
  | .serveOrder => 1
  | .failMqClose _ => 0
  | .failExit _ => 0
  | .returned => 0

/-- The bartender's, and 2 for the timer it is to arm. -/
def BartenderPc.remaining : BartenderPc → Nat
  | .stillStart => 8
  | .timerSettime => 7
  | .hasOrderedDrink => 4
  | .mqReceive => 3
  | .provideOrder => 2
  | .semPost => 1
  | .failMqClose => 0
  | .failMqUnlink => 0
  | .failExit => 0
  | .returned => 0

/-- The measure of a round: the counters of its threads, what the timer has still to do,
    and each drink by where it is: still to be chosen, placed and not taken, to be
    fetched, in the queue. -/
def remaining (s : St Drink) : Nat :=
  ((s.client .client0).remaining + 13 * (s.chosen .client0).length) +
  ((s.client .client1).remaining + 13 * (s.chosen .client1).length) +
  (if s.waiter.tookOrder then 0 else 8 * s.order.length) +
  (s.waiter.remaining + 8 * s.toFetch.length + 6 * s.mq.msgs.length) +
  (s.bartender.remaining + 2 * s.armed.toNat + s.notified)

omit [DecidableEq Drink] in
theorem timer_remaining {s s' : St Drink} {e : TimerEv} (h : timerDrinkPrepare s e = some s') :
    remaining s' < remaining s := by
  cases e with
  | expire =>
    obtain ⟨harm, rfl⟩ := guarded_eq_some.mp h
    simp only [remaining, harm, Bool.toNat_true, Bool.toNat_false]
    omega
  | stillStop =>
    obtain ⟨hpos, rfl⟩ := guarded_eq_some.mp h
    simp only [remaining]
    omega

theorem client_remaining {s s' : St Drink} {c : Client} {e : ClientEv Drink} (hd : DeskInv s)
    (h : clientThreadFct c s e = some s') : remaining s' < remaining s := by
  cases e with
  | chooseDrink d =>
    obtain ⟨⟨hpc, hch⟩, rfl⟩ := guarded_eq_some.mp h
    obtain ⟨rest, hrest⟩ := List.head?_eq_some_iff.mp hch
    cases c <;> simp [remaining, hpc, hrest, ClientPc.remaining] <;> omega
  | chooseNull =>
    obtain ⟨⟨hpc, hch⟩, rfl⟩ := guarded_eq_some.mp h
    cases c <;> simp [remaining, hpc, ClientPc.remaining]
  | mutexLock d =>
    obtain ⟨⟨hpc, -⟩, rfl⟩ := guarded_eq_some.mp h
    cases c <;> simp [remaining, hpc, ClientPc.remaining]
  | orderWrite d seen =>
    obtain ⟨hpc, rfl⟩ := guarded_eq_some.mp h
    obtain rfl := (hd.clients c).seen d seen hpc
    cases htook : s.waiter.tookOrder <;> cases c <;> simp [remaining, hpc, htook, ClientPc.remaining] <;> omega
  | _ =>
    obtain ⟨hpc, rfl⟩ := guarded_eq_some.mp h
    cases c <;> simp [remaining, hpc, ClientPc.remaining]

theorem waiter_remaining {s s' : St Drink} {e : WaiterEv Drink} (hi : Sound s) (ha : AsDocumented s (.waiter e))
    (h : waiterThreadFct s e = some s') : remaining s' < remaining s := by
  obtain ⟨-, hsucc, -, htakes⟩ := ha
  cases e with
  | takeOrder ds =>
    obtain ⟨hpc, rfl⟩ := guarded_eq_some.mp h
    obtain rfl : ds = s.order := htakes ds rfl
    simp [remaining, hpc, WaiterPc.remaining, WaiterPc.tookOrder]
    omega
  | getOrderedDrink d =>
    obtain ⟨⟨hpc, hd⟩, rfl⟩ := guarded_eq_some.mp h
    obtain ⟨rest, hrest⟩ := List.head?_eq_some_iff.mp hd
    simp [remaining, hpc, hrest, WaiterPc.remaining, WaiterPc.tookOrder]
    omega
  | mqSend d =>
    obtain ⟨⟨hpc, -⟩, rfl⟩ := guarded_eq_some.mp h
    simp [remaining, hpc, WaiterPc.remaining, WaiterPc.tookOrder]
    omega
  | mqSendFail d => cases hsucc
  | mqClose d =>
    have hw := hi.waiter
    rw [(guarded_eq_some.mp h).1] at hw; cases hw
  | exit d =>
    have hw := hi.waiter
    rw [(guarded_eq_some.mp h).1] at hw; cases hw
  | _ =>
    obtain ⟨hpc, rfl⟩ := guarded_eq_some.mp h
    simp [remaining, hpc, WaiterPc.remaining, WaiterPc.tookOrder]

theorem bartender_remaining {s s' : St Drink} {e : BartenderEv Drink} (hi : Sound s)
    (ha : AsDocumented s (.bartender e)) (h : bartenderThreadFct s e = some s') : remaining s' < remaining s := by
  obtain ⟨-, hsucc, -, -⟩ := ha
  cases e with
  | mqReceive d =>
    obtain ⟨⟨hpc, -, hrcv⟩, rfl⟩ := guarded_eq_some.mp h
    simp only [remaining, hpc, hrcv.msgs, BartenderPc.remaining, List.length_cons]
    omega
  | mqReceiveFail => cases hsucc
  | timerSettimeFail => cases hsucc
  | mqClose =>
    have hb := hi.bartender
    rw [(guarded_eq_some.mp h).1] at hb; cases hb
  | mqUnlink =>
    have hb := hi.bartender
    rw [(guarded_eq_some.mp h).1] at hb; cases hb
  | exit =>
    have hb := hi.bartender
    rw [(guarded_eq_some.mp h).1] at hb; cases hb
  | timerSettime =>
    obtain ⟨hpc, rfl⟩ := guarded_eq_some.mp h
    simp only [remaining, hpc, BartenderPc.remaining, Bool.toNat_true]
    omega
  | hasOrderedDrink more =>
    obtain ⟨hpc, rfl⟩ := guarded_eq_some.mp h
    cases more <;> simp [remaining, hpc, BartenderPc.remaining]
  | _ =>
    obtain ⟨hpc, rfl⟩ := guarded_eq_some.mp h
    simp [remaining, hpc, BartenderPc.remaining]

theorem step_remaining {s s' : St Drink} {e : Ev Drink} (hd : DeskInv s) (hi : Sound s) (ha : AsDocumented s e)
    (h : step s e = some s') : remaining s' < remaining s := by
  obtain ⟨-, h⟩ := step_eq_some.mp h
  cases e with
  | main e => cases ha.1
  | client c e => exact client_remaining hd h
  | waiter e => exact waiter_remaining hi ha h
  | bartender e => exact bartender_remaining hi ha h
  | timer e => exact timer_remaining h

/-! ## One round -/

theorem round_sound {s₀ s : St Drink} (h0 : Ready s₀) {wanted : Client → List Drink}
    (hne : 1 ≤ (wanted .client0).length + (wanted .client1).length)
    (h : Reach step AsDocumented (roundOf s₀ wanted) s) : Sound s := by
  refine h.inv_with (J := fun s => DeskInv s ∧ LineInv s ∧ s.wanted = wanted) (fun s hr => ?_)
    (roundOf_sound h0 wanted) fun s e s' hJ hi ha hs => ?_
  · have hin : ∀ (s : St Drink) (e : Ev Drink), AsDocumented s e → e.inRound = true := fun _ _ h => h.1
    exact ⟨round_desk hin h0.semOrderDrink h0.orderMutex hr, (round_line hin h0 hr).1, round_wanted hin hr⟩
  · obtain ⟨hd, hl, hw⟩ := hJ
    exact step_sound hd hl hi (by rw [hw]; exact hne) ha hs

/-- A round with at least one drink, whose calls succeed and whose library does what it
    documents: while a thread has not returned something can happen; everything that
    happens lowers `remaining`; so no run goes on forever, and a run that cannot go on has
    served the order and all four threads have returned. -/
theorem round_ends {s₀ : St Drink} (h0 : Ready s₀) (hst : StillInv s₀) (wanted : Client → List Drink)
    (hne : 1 ≤ (wanted .client0).length + (wanted .client1).length) :
    (∀ s, Reach step AsDocumented (roundOf s₀ wanted) s → ¬ AllReturned s → CanStep s) ∧
    (∀ s e s', Reach step AsDocumented (roundOf s₀ wanted) s → AsDocumented s e → step s e = some s' →
      remaining s' < remaining s) ∧
    (∀ f : Nat → St Drink, f 0 = roundOf s₀ wanted →
      ¬ ∀ n, ∃ e, AsDocumented (f n) e ∧ step (f n) e = some (f (n + 1))) ∧
    (∀ s, Reach step AsDocumented (roundOf s₀ wanted) s → Stuck step AsDocumented s →
      AllReturned s ∧ s.served = true) := by
  have hin : ∀ (s : St Drink) (e : Ev Drink), AsDocumented s e → e.inRound = true := fun _ _ h => h.1
  have hgo : ∀ s, Reach step AsDocumented (roundOf s₀ wanted) s → ¬ AllReturned s → CanStep s := by
    intro s hr hret
    obtain ⟨hl, hh⟩ := round_line hin h0 hr
    exact can_step (round_sound h0 hne hr) (round_desk hin h0.semOrderDrink h0.orderMutex hr) hl hh
      (round_complete hin (fun _ _ h => h.2.2.1) h0 hr)
      (reach_still (roundOf_still hst h0.returned wanted) hr) hret
  have hless : ∀ s e s', Reach step AsDocumented (roundOf s₀ wanted) s → AsDocumented s e → step s e = some s' →
      remaining s' < remaining s := fun s e s' hr ha hs =>
    step_remaining (round_desk hin h0.semOrderDrink h0.orderMutex hr) (round_sound h0 hne hr) ha hs
  refine ⟨hgo, hless, fun f hf => no_infinite_run hless f hf, fun s hr hstuck => ?_⟩
  have hret : AllReturned s := by
    by_contra hret
    obtain ⟨e, s', ha, hs⟩ := hgo s hr hret
    exact hstuck e s' ha hs
  exact ⟨hret, (round_line hin h0 hr).2.served hret.2.1⟩

/-- Thirteen drinks, one client's: more than the queue holds. -/
def thirteen : Client → List Nat
  | .client0 => List.replicate 13 7
  | .client1 => []

/-- The first drink is being made, the second is waiting for the still, ten are in the
    queue and the waiter has the last one in its hands. -/
def queueFull : List (Ev Nat) :=
  ((List.range 13).flatMap fun n => (orderOne .client0 7 (List.replicate n 7)).take 5) ++
    [.client .client0 .chooseNull, .client .client0 .semPost, .client .client1 .chooseNull, .client .client1 .semPost,
      .waiter .semWaitFirst, .waiter .semWaitSecond, .waiter (.takeOrder (List.replicate 13 7)),
      .waiter (.getOrderedDrink 7), .waiter (.mqSend 7), .bartender (.mqReceive 7), .bartender (.stillStart 7),
      .bartender .timerSettime, .bartender (.hasOrderedDrink true), .waiter (.getOrderedDrink 7),
      .waiter (.mqSend 7), .bartender (.mqReceive 7)] ++
    ((List.range 10).flatMap fun _ => [.waiter (.getOrderedDrink 7), .waiter (.mqSend 7)]) ++
    [.waiter (.getOrderedDrink 7)]

theorem full_queue_is_no_deadlock :
    ∃ s, Reach step AsDocumented (roundOf opened thirteen) s ∧ s.waiter = .mqSend 7 ∧ s.mq.msgs.length = mqMsgMax ∧
      s.bartender = .stillStart ∧ s.still = true ∧ CanStep s := by
  have hr : Reach step AsDocumented (roundOf opened thirteen) _ := exec_get_reach queueFull (by decide +kernel)
  exact ⟨_, hr, by decide +kernel, by decide +kernel, by decide +kernel, by decide +kernel,
    (round_ends opened_ready opened_still thirteen (by decide)).1 _ hr (by decide +kernel)⟩

end Alambix

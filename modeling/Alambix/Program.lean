/-
  Alambix.Program — the program of `alambix_bix.c` and `main.c`, one statement at a time.

  Actors. The main thread (`main`: alambix_open, which runs alambix_init and then the user
  interface's loop; alambix_start when the Start button is clicked; alambix_destroy and
  alambix_close once the user has quit), the two clients, the waiter, the bartender, and
  the one-shot timer whose notification thread calls alambix_still_stop. A thread runs
  from its pthread_create on; every other statement of every thread may fall in between.
  The shared objects are `order_mutex`, the two semaphores, the bartender's queue, the
  timer and what the closed library keeps: each client's choices, the order list, the
  order taken, the still.

  The library, as `alambix.h` documents it: alambix_choose_drink hands out a client's
  choices one by one and then NULL; alambix_order_drink reads the order list and then
  writes it back with the drink appended, in two steps; alambix_get_ordered_drink hands
  out the taken order one by one and then NULL; alambix_still_start blocks while the still
  runs; the Start button works only when no thread of an earlier round is left. Its page
  also asks for a drink of each client before Start. The threads do not rely on it: a result
  that needs a drink at all asks for one of either client, and only `Alambix.Scenes`, which
  lists what every round shows, asks for one of each (`Scene.Chosen`). What
  alambix_take_order takes and what alambix_has_ordered_drink answers is left open here:
  `Documented` is the contract (the order placed; 1 exactly while a drink of it has not
  been received).

  The user interface is one thread, the main one, and alambix_start is its callback for the
  Start button: until it returns no other button works, so that the user quits before it or
  after it. `alambix.h` does not say more than that it is the button's entry point.

  Any checked call may fail (the `…Fail` events); after a teardown a call on the closed
  descriptor can only fail. `exit` ends every thread at the statement it is at.

  The fields from `wanted` on record what happened and are read by no statement.
-/

import Alambix.Init
import Alambix.Lib.Transition

namespace Alambix

open Lib.Mqueue Lib.Transition
open Function (update)

inductive Client where
  | client0
  | client1
  deriving DecidableEq, Repr

inductive Thread where
  | client (c : Client)
  | waiter
  | bartender
  deriving DecidableEq, Repr

/-! ## Program counters: the statement a thread is at -/

/-- `alambix_client_thread_fct`. -/
inductive ClientPc (Drink : Type) where
  | chooseDrink
  | mutexLock (drink : Drink)
  | orderDrink (drink : Drink)
  /-- Inside alambix_order_drink: the list was read. -/
  | orderWrite (drink : Drink) (seen : List Drink)
  | mutexUnlock
  | semPost
  | returned
  deriving DecidableEq, Repr

/-- `alambix_waiter_thread_fct`. -/
inductive WaiterPc (Drink : Type) where
  | semWaitFirst
  | semWaitSecond
  | takeOrder
  | getOrderedDrink
  | mqSend (orderedDrink : Drink)
  | failMqClose (orderedDrink : Drink)
  | failExit (orderedDrink : Drink)
  | semWaitProvide
  | serveOrder
  | returned
  deriving DecidableEq, Repr

/-- `alambix_bartender_thread_fct`. -/
inductive BartenderPc where
  | mqReceive
  | failMqClose
  | failMqUnlink
  | failExit
  | stillStart
  | timerSettime
  | hasOrderedDrink
  | provideOrder
  | semPost
  | returned
  deriving DecidableEq, Repr

/-- `main`, with alambix_start (called from alambix_open's loop) and alambix_destroy. -/
inductive MainPc where
  | alambixOpen
  /-- alambix_open's loop: alambix_init has returned, the user may click. -/
  | ui
  | pthreadCreate (t : Thread)
  /-- The pthread_detach that follows the creation of `t`. -/
  | pthreadDetach (t : Thread)
  | semDestroyOrderDrink
  | semDestroyProvideDrink
  | mqUnlink
  | mqClose
  | alambixClose
  deriving DecidableEq, Repr

structure St (Drink : Type) where
  main : MainPc
  exited : Option Int
  client : Client → ClientPc Drink
  waiter : WaiterPc Drink
  bartender : BartenderPc
  /-- What alambix_choose_drink has still to hand out to each client. -/
  chosen : Client → List Drink
  /-- The library's shared order list. -/
  order : List Drink
  /-- What alambix_get_ordered_drink has still to hand out. -/
  toFetch : List Drink
  orderMutex : Option Client
  semOrderDrink : Nat
  semProvideDrink : Nat
  /-- The queue object behind `mq`. -/
  mq : Mq Drink
  /-- `mq` is an open descriptor. -/
  mqOpen : Bool
  /-- The name of the queue exists. -/
  linked : Bool
  /-- The bartender's `buffer`. -/
  buffer : Option Drink
  /-- The still runs. -/
  still : Bool
  /-- `timer_drink_prepare` is armed. -/
  armed : Bool
  /-- Expiry notifications whose alambix_still_stop has not run yet. -/
  notified : Nat
  /-- alambix_init created the queue. -/
  created : Bool
  wanted : Client → List Drink
  placed : Client → List Drink
  taken : List Drink
  fetched : List Drink
  sent : List Drink
  received : List Drink
  started : List Drink
  /-- Calls of alambix_still_start that returned and of alambix_still_stop, all rounds. -/
  starts : Nat
  stops : Nat
  provided : Bool
  served : Bool
  /-- The order taken and the sequence started of each round served so far. -/
  history : List (List Drink × List Drink)

variable {Drink : Type}

/-! ## The threads -/

inductive ClientEv (Drink : Type) where
  | chooseDrink (drink : Drink)
  | chooseNull
  | mutexLock (drink : Drink)
  | orderRead (drink : Drink)
  | orderWrite (drink : Drink) (seen : List Drink)
  | mutexUnlock
  | semPost
  deriving DecidableEq, Repr

section

variable [DecidableEq Drink]

def clientThreadFct (c : Client) (s : St Drink) : ClientEv Drink → Option (St Drink)
  | .chooseDrink d =>
    guarded (s.client c = .chooseDrink ∧ (s.chosen c).head? = some d)
      { s with client := update s.client c (.mutexLock d), chosen := update s.chosen c (s.chosen c).tail }
  | .chooseNull =>
    guarded (s.client c = .chooseDrink ∧ s.chosen c = [])
      { s with client := update s.client c .semPost }
  | .mutexLock d =>
    guarded (s.client c = .mutexLock d ∧ s.orderMutex = none)
      { s with client := update s.client c (.orderDrink d), orderMutex := some c }
  | .orderRead d =>
    guarded (s.client c = .orderDrink d)
      { s with client := update s.client c (.orderWrite d s.order) }
  | .orderWrite d seen =>
    guarded (s.client c = .orderWrite d seen)
      { s with client := update s.client c .mutexUnlock, order := seen ++ [d],
               placed := update s.placed c (s.placed c ++ [d]) }
  | .mutexUnlock =>
    guarded (s.client c = .mutexUnlock)
      { s with client := update s.client c .chooseDrink, orderMutex := none }
  | .semPost =>
    guarded (s.client c = .semPost)
      { s with client := update s.client c .returned, semOrderDrink := s.semOrderDrink + 1 }

inductive WaiterEv (Drink : Type) where
  | semWaitFirst
  | semWaitSecond
  | takeOrder (drinks : List Drink)
  | getOrderedDrink (drink : Drink)
  | getNull
  | mqSend (drink : Drink)
  | mqSendFail (drink : Drink)
  | mqClose (drink : Drink)
  | exit (drink : Drink)
  | semWaitProvide
  | serveOrder
  deriving DecidableEq, Repr

def waiterThreadFct (s : St Drink) : WaiterEv Drink → Option (St Drink)
  | .semWaitFirst =>
    guarded (s.waiter = .semWaitFirst ∧ 0 < s.semOrderDrink)
      { s with waiter := .semWaitSecond, semOrderDrink := s.semOrderDrink - 1 }
  | .semWaitSecond =>
    guarded (s.waiter = .semWaitSecond ∧ 0 < s.semOrderDrink)
      { s with waiter := .takeOrder, semOrderDrink := s.semOrderDrink - 1 }
  | .takeOrder ds =>
    guarded (s.waiter = .takeOrder)
      { s with waiter := .getOrderedDrink, taken := ds, toFetch := ds }
  | .getOrderedDrink d =>
    guarded (s.waiter = .getOrderedDrink ∧ s.toFetch.head? = some d)
      { s with waiter := .mqSend d, toFetch := s.toFetch.tail, fetched := s.fetched ++ [d] }
  | .getNull =>
    guarded (s.waiter = .getOrderedDrink ∧ s.toFetch = [])
      { s with waiter := .semWaitProvide }
  | .mqSend d =>
    guarded (s.waiter = .mqSend d ∧ s.mqOpen = true ∧ s.mq.Sendable mqMsgSize)
      { s with waiter := .getOrderedDrink, mq := s.mq.send d, sent := s.sent ++ [d] }
  | .mqSendFail d => guarded (s.waiter = .mqSend d) { s with waiter := .failMqClose d }
  | .mqClose d => guarded (s.waiter = .failMqClose d) { s with waiter := .failExit d, mqOpen := false }
  | .exit d => guarded (s.waiter = .failExit d) { s with exited := some exitFailure }
  | .semWaitProvide =>
    guarded (s.waiter = .semWaitProvide ∧ 0 < s.semProvideDrink)
      { s with waiter := .serveOrder, semProvideDrink := s.semProvideDrink - 1 }
  | .serveOrder =>
    guarded (s.waiter = .serveOrder)
      { s with waiter := .returned, served := true, history := s.history ++ [(s.taken, s.started)] }

inductive BartenderEv (Drink : Type) where
  | mqReceive (drink : Drink)
  | mqReceiveFail
  | mqClose
  | mqUnlink
  | exit
  | stillStart (drink : Drink)
  | timerSettime
  | timerSettimeFail
  | hasOrderedDrink (more : Bool)
  | provideOrder
  | semPost
  deriving DecidableEq, Repr

def bartenderThreadFct (s : St Drink) : BartenderEv Drink → Option (St Drink)
  | .mqReceive d =>
    guarded (s.bartender = .mqReceive ∧ s.mqOpen = true ∧ s.mq.Receivable mqMsgSize d)
      { s with bartender := .stillStart, mq := s.mq.receive, buffer := some d, received := s.received ++ [d] }
  | .mqReceiveFail => guarded (s.bartender = .mqReceive) { s with bartender := .failMqClose }
  | .mqClose => guarded (s.bartender = .failMqClose) { s with bartender := .failMqUnlink, mqOpen := false }
  | .mqUnlink => guarded (s.bartender = .failMqUnlink) { s with bartender := .failExit, linked := false }
  | .exit => guarded (s.bartender = .failExit) { s with exited := some exitFailure }
  | .stillStart d =>
    guarded (s.bartender = .stillStart ∧ s.buffer = some d ∧ s.still = false)
      { s with bartender := .timerSettime, still := true, started := s.started ++ [d], starts := s.starts + 1 }
  | .timerSettime =>
    -- it_interval is 0: one expiry; setting an armed timer would drop the expiry it was armed for
    guarded (s.bartender = .timerSettime) { s with bartender := .hasOrderedDrink, armed := true }
  | .timerSettimeFail => guarded (s.bartender = .timerSettime) { s with exited := some exitFailure }
  | .hasOrderedDrink more =>
    guarded (s.bartender = .hasOrderedDrink)
      { s with bartender := if more then .mqReceive else .provideOrder }
  | .provideOrder => guarded (s.bartender = .provideOrder) { s with bartender := .semPost, provided := true }
  | .semPost =>
    guarded (s.bartender = .semPost)
      { s with bartender := .returned, semProvideDrink := s.semProvideDrink + 1 }

inductive TimerEv where
  | expire
  | stillStop
  deriving DecidableEq, Repr

/-- The timer expires; later its notification thread calls `alambix_still_stop`. -/
def timerDrinkPrepare (s : St Drink) : TimerEv → Option (St Drink)
  | .expire => guarded (s.armed = true) { s with armed := false, notified := s.notified + 1 }
  | .stillStop =>
    guarded (0 < s.notified) { s with notified := s.notified - 1, still := false, stops := s.stops + 1 }

/-! ## The main thread -/

/-- The statement after the pthread_detach that follows the creation of `t`. -/
def afterDetach : Thread → MainPc
  | .client .client0 => .pthreadCreate (.client .client1)
  | .client .client1 => .pthreadCreate .waiter
  | .waiter => .pthreadCreate .bartender
  | .bartender => .ui

/-- The order in which alambix_start creates the threads. -/
def Thread.rank : Thread → Nat
  | .client .client0 => 0
  | .client .client1 => 1
  | .waiter => 2
  | .bartender => 3

/-- The thread of the current round exists: its pthread_create has succeeded. -/
def MainPc.spawned (m : MainPc) (t : Thread) : Bool :=
  match m with
  | .alambixOpen => false
  | .pthreadCreate u => decide (t.rank < u.rank)
  | .pthreadDetach u => decide (t.rank ≤ u.rank)
  | _ => true

inductive MainEv (Drink : Type) where
  | alambixInit (fs : MqFs Drink) (w : InitWorld)
  | alambixStart (chosen : Client → List Drink)
  | pthreadCreate
  | pthreadCreateFail
  | pthreadDetach
  /-- The user quits: alambix_open returns. -/
  | quit
  | semDestroyOrderDrink
  | semDestroyProvideDrink
  | mqUnlink
  | mqClose
  | alambixClose (code : Int)

/-- All four threads of the round have returned. -/
def AllReturned (s : St Drink) : Prop :=
  (s.client .client0 = .returned ∧ s.client .client1 = .returned) ∧ s.waiter = .returned ∧ s.bartender = .returned

instance (s : St Drink) : Decidable (AllReturned s) := inferInstanceAs (Decidable (_ ∧ _))

/-- What alambix_init, run on the name space `fs`, leaves of the program. -/
def afterInit (s : St Drink) (fs : MqFs Drink) (w : InitWorld) : St Drink :=
  let r := alambixInit fs w
  let mq := match r.1 with
    | .returned mq => mq
    | _ => none
  { s with
    main := if r.1 matches .exited _ then s.main else .ui
    exited := match r.1 with
      | .exited code => some code
      | _ => none
    mq := (r.2.obj? mq).getD ⟨mqBartenderAttr, []⟩
    mqOpen := mq.isSome
    linked := (r.2.names alambixBartenderMqName).isSome
    created := decide (fs.next < r.2.next) }

/-- A new round: the four threads are to begin, the library has new choices and an empty
    order list. Semaphores, mutex, queue, timer and still are as the last round left them. -/
def newRound (s : St Drink) (chosen : Client → List Drink) : St Drink :=
  { s with
    client := fun _ => .chooseDrink, waiter := .semWaitFirst, bartender := .mqReceive
    chosen := chosen, order := [], toFetch := [], buffer := none
    wanted := chosen, placed := fun _ => [], taken := [], fetched := [], sent := [], received := [], started := []
    provided := false, served := false }

def mainThread (s : St Drink) : MainEv Drink → Option (St Drink)
  | .alambixInit fs w => guarded (s.main = .alambixOpen) (afterInit s fs w)
  | .alambixStart chosen =>
    guarded (s.main = .ui ∧ AllReturned s)
      { newRound s chosen with main := .pthreadCreate (.client .client0) }
  | .pthreadCreate =>
    match s.main with
    | .pthreadCreate t => some { s with main := .pthreadDetach t }
    | _ => none
  | .pthreadCreateFail =>
    match s.main with
    | .pthreadCreate _ => some { s with exited := some (-1) }
    | _ => none
  | .pthreadDetach =>
    match s.main with
    | .pthreadDetach t => some { s with main := afterDetach t }
    | _ => none
  | .quit => guarded (s.main = .ui) { s with main := .semDestroyOrderDrink }
  | .semDestroyOrderDrink => guarded (s.main = .semDestroyOrderDrink) { s with main := .semDestroyProvideDrink }
  | .semDestroyProvideDrink => guarded (s.main = .semDestroyProvideDrink) { s with main := .mqUnlink }
  | .mqUnlink => guarded (s.main = .mqUnlink) { s with main := .mqClose, linked := false }
  | .mqClose => guarded (s.main = .mqClose) { s with main := .alambixClose, mqOpen := false }
  | .alambixClose code => guarded (s.main = .alambixClose) { s with exited := some code }

/-! ## The program -/

inductive Ev (Drink : Type) where
  | main (e : MainEv Drink)
  | client (c : Client) (e : ClientEv Drink)
  | waiter (e : WaiterEv Drink)
  | bartender (e : BartenderEv Drink)
  | timer (e : TimerEv)

def Ev.Runs (s : St Drink) : Ev Drink → Prop
  | .main _ => s.exited = none
  | .client c _ => s.exited = none ∧ s.main.spawned (.client c) = true
  | .waiter _ => s.exited = none ∧ s.main.spawned .waiter = true
  | .bartender _ => s.exited = none ∧ s.main.spawned .bartender = true
  | .timer _ => s.exited = none

instance (s : St Drink) : (e : Ev Drink) → Decidable (e.Runs s)
  | .main _ => inferInstanceAs (Decidable (s.exited = none))
  | .client c _ => inferInstanceAs (Decidable (s.exited = none ∧ s.main.spawned (.client c) = true))
  | .waiter _ => inferInstanceAs (Decidable (s.exited = none ∧ s.main.spawned .waiter = true))
  | .bartender _ => inferInstanceAs (Decidable (s.exited = none ∧ s.main.spawned .bartender = true))
  | .timer _ => inferInstanceAs (Decidable (s.exited = none))

def fire (s : St Drink) : Ev Drink → Option (St Drink)
  | .main e => mainThread s e
  | .client c e => clientThreadFct c s e
  | .waiter e => waiterThreadFct s e
  | .bartender e => bartenderThreadFct s e
  | .timer e => timerDrinkPrepare s e

def step (s : St Drink) (e : Ev Drink) : Option (St Drink) := if e.Runs s then fire s e else none

theorem step_eq_some {s s' : St Drink} {e : Ev Drink} : step s e = some s' ↔ e.Runs s ∧ fire s e = some s' := by
  simp [step]

/-- Nothing happens in a process that has ended. -/
theorem alive_of_step {s s' : St Drink} {e : Ev Drink} (h : step s e = some s') : s.exited = none := by
  have hruns := (step_eq_some.mp h).1
  cases e with
  | main e | timer e => exact hruns
  | client c e | waiter e | bartender e => exact hruns.1

theorem main_moves {s s' : St Drink} {e : MainEv Drink} (h : mainThread s e = some s') (hx : s.exited = none) :
    step s (.main e) = some s' :=
  step_eq_some.mpr ⟨hx, h⟩

theorem timer_moves {s s' : St Drink} {e : TimerEv} (h : timerDrinkPrepare s e = some s') (hx : s.exited = none) :
    step s (.timer e) = some s' :=
  step_eq_some.mpr ⟨hx, h⟩

theorem client_moves {s s' : St Drink} {c : Client} {e : ClientEv Drink} (h : clientThreadFct c s e = some s')
    (hx : s.exited = none) (hm : s.main = .ui) : step s (.client c e) = some s' :=
  step_eq_some.mpr ⟨⟨hx, by rw [hm]; rfl⟩, h⟩

theorem waiter_moves {s s' : St Drink} {e : WaiterEv Drink} (h : waiterThreadFct s e = some s')
    (hx : s.exited = none) (hm : s.main = .ui) : step s (.waiter e) = some s' :=
  step_eq_some.mpr ⟨⟨hx, by rw [hm]; rfl⟩, h⟩

theorem bartender_moves {s s' : St Drink} {e : BartenderEv Drink} (h : bartenderThreadFct s e = some s')
    (hx : s.exited = none) (hm : s.main = .ui) : step s (.bartender e) = some s' :=
  step_eq_some.mpr ⟨⟨hx, by rw [hm]; rfl⟩, h⟩

/-! ### What each actor leaves alone -/

theorem client_touches {s s' : St Drink} {c : Client} {e : ClientEv Drink} (h : clientThreadFct c s e = some s') :
    s' = { s with
      client := update s.client c (s'.client c), chosen := s'.chosen, order := s'.order, placed := s'.placed
      orderMutex := s'.orderMutex, semOrderDrink := s'.semOrderDrink } := by
  cases e <;> obtain ⟨-, rfl⟩ := guarded_eq_some.mp h <;> simp

theorem waiter_touches {s s' : St Drink} {e : WaiterEv Drink} (h : waiterThreadFct s e = some s') :
    s' = { s with
      waiter := s'.waiter, semOrderDrink := s'.semOrderDrink, semProvideDrink := s'.semProvideDrink
      mq := s'.mq, mqOpen := s'.mqOpen, exited := s'.exited, toFetch := s'.toFetch, taken := s'.taken
      fetched := s'.fetched, sent := s'.sent, served := s'.served, history := s'.history } := by
  cases e <;> obtain ⟨-, rfl⟩ := guarded_eq_some.mp h <;> rfl

theorem bartender_touches {s s' : St Drink} {e : BartenderEv Drink} (h : bartenderThreadFct s e = some s') :
    s' = { s with
      bartender := s'.bartender, semProvideDrink := s'.semProvideDrink, mq := s'.mq, mqOpen := s'.mqOpen
      linked := s'.linked, exited := s'.exited, buffer := s'.buffer, still := s'.still, armed := s'.armed
      received := s'.received, started := s'.started, starts := s'.starts, provided := s'.provided } := by
  cases e <;> obtain ⟨-, rfl⟩ := guarded_eq_some.mp h <;> rfl

theorem pthreadCreate_eq_some {s s' : St Drink} :
    mainThread s .pthreadCreate = some s' ↔
      ∃ t, s.main = .pthreadCreate t ∧ s' = { s with main := .pthreadDetach t } := by
  simp only [mainThread]
  split <;> simp_all [eq_comm]

theorem pthreadCreateFail_eq_some {s s' : St Drink} :
    mainThread s .pthreadCreateFail = some s' ↔
      ∃ t, s.main = .pthreadCreate t ∧ s' = { s with exited := some (-1) } := by
  simp only [mainThread]
  split <;> simp_all [eq_comm]

theorem pthreadDetach_eq_some {s s' : St Drink} :
    mainThread s .pthreadDetach = some s' ↔
      ∃ t, s.main = .pthreadDetach t ∧ s' = { s with main := afterDetach t } := by
  simp only [mainThread]
  split <;> simp_all [eq_comm]

/-- Besides alambix_init and alambix_start, the main thread touches only its own counter,
    the exit status, the descriptor and the name. -/
theorem main_cases {s s' : St Drink} {e : MainEv Drink} (h : mainThread s e = some s') :
    (∃ fs w, e = .alambixInit fs w ∧ s.main = .alambixOpen ∧ s' = afterInit s fs w) ∨
    (∃ chosen, e = .alambixStart chosen ∧ s.main = .ui ∧ AllReturned s ∧
      s' = { newRound s chosen with main := .pthreadCreate (.client .client0) }) ∨
    (s.main ≠ .alambixOpen ∧ ∃ m x o l, s' = { s with main := m, exited := x, mqOpen := o, linked := l }) := by
  cases e with
  | alambixInit fs w =>
    obtain ⟨hm, rfl⟩ := guarded_eq_some.mp h
    exact .inl ⟨fs, w, rfl, hm, rfl⟩
  | alambixStart chosen =>
    obtain ⟨⟨hm, hr⟩, rfl⟩ := guarded_eq_some.mp h
    exact .inr (.inl ⟨chosen, rfl, hm, hr, rfl⟩)
  | pthreadCreate =>
    obtain ⟨t, hm, rfl⟩ := pthreadCreate_eq_some.mp h
    exact .inr (.inr ⟨by simp [hm], _, _, _, _, rfl⟩)
  | pthreadCreateFail =>
    obtain ⟨t, hm, rfl⟩ := pthreadCreateFail_eq_some.mp h
    exact .inr (.inr ⟨by simp [hm], _, _, _, _, rfl⟩)
  | pthreadDetach =>
    obtain ⟨t, hm, rfl⟩ := pthreadDetach_eq_some.mp h
    exact .inr (.inr ⟨by simp [hm], _, _, _, _, rfl⟩)
  | _ =>
    obtain ⟨hm, rfl⟩ := guarded_eq_some.mp h
    exact .inr (.inr ⟨by simp [hm], _, _, _, _, rfl⟩)

end

theorem timer_touches {s s' : St Drink} {e : TimerEv} (h : timerDrinkPrepare s e = some s') :
    s' = { s with armed := s'.armed, notified := s'.notified, still := s'.still, stops := s'.stops } := by
  cases e <;> obtain ⟨-, rfl⟩ := guarded_eq_some.mp h <;> rfl

/-! ## Where runs begin, and what they may take from the library -/

/-- Before alambix_open. No thread of the round exists. -/
def boot : St Drink where
  main := .alambixOpen
  exited := none
  client := fun _ => .returned
  waiter := .returned
  bartender := .returned
  chosen := fun _ => []
  order := []
  toFetch := []
  orderMutex := none
  semOrderDrink := 0
  semProvideDrink := 0
  mq := ⟨mqBartenderAttr, []⟩
  mqOpen := false
  linked := false
  buffer := none
  still := false
  armed := false
  notified := 0
  created := false
  wanted := fun _ => []
  placed := fun _ => []
  taken := []
  fetched := []
  sent := []
  received := []
  started := []
  starts := 0
  stops := 0
  provided := true
  served := true
  history := []

/-- alambix_init has returned, with the queue it asked for. -/
def opened : St Drink := { boot with main := .ui, mqOpen := true, linked := true, created := true }

/-- On a system without the queue's name, with every call succeeding, alambix_init leads there. -/
theorem afterInit_opened (fs : MqFs Drink) (h : fs.names alambixBartenderMqName = none) :
    afterInit boot fs allSucceed = opened := by
  have hr : alambixInit fs allSucceed =
      (.returned (some fs.next), fs.create alambixBartenderMqName mqBartenderAttr) := by
    rw [alambixInit_eq]
    simp [allSucceed, h]
  simp [afterInit, hr, opened, boot, MqFs.obj?]

/-- A system no program has run on. -/
def freshFs : MqFs Drink where
  names := fun _ => none
  objs := fun _ => ⟨mqBartenderAttr, []⟩
  next := 0
  bound := by intro n id h; cases h

theorem opened_reached [DecidableEq Drink] {ok : St Drink → Ev Drink → Prop}
    (hok : ok boot (.main (.alambixInit freshFs allSucceed))) :
    Reach step ok boot opened := by
  have hinit : mainThread boot (.alambixInit freshFs allSucceed) = some (opened : St Drink) := by
    rw [← afterInit_opened freshFs rfl]
    exact guarded_of rfl
  exact .step .refl hok (step_eq_some.mpr ⟨rfl, hinit⟩)

/-- A round can start: nothing is left of an earlier one (but the still may run). -/
structure Ready (s : St Drink) : Prop where
  alive : s.exited = none
  returned : AllReturned s
  semOrderDrink : s.semOrderDrink = 0
  semProvideDrink : s.semProvideDrink = 0
  orderMutex : s.orderMutex = none
  mqOpen : s.mqOpen = true
  mq : s.mq = ⟨mqBartenderAttr, []⟩

theorem opened_ready : Ready (opened : St Drink) := ⟨rfl, ⟨⟨rfl, rfl⟩, rfl, rfl⟩, rfl, rfl, rfl, rfl, rfl⟩

/-- A round whose four threads exist and are to begin, alambix_start having returned. -/
def roundOf (s : St Drink) (wanted : Client → List Drink) : St Drink := { newRound s wanted with main := .ui }

/-- The Start button, and alambix_start to its end. -/
def startRound (chosen : Client → List Drink) : List (Ev Drink) :=
  [.main (.alambixStart chosen), .main .pthreadCreate, .main .pthreadDetach, .main .pthreadCreate,
    .main .pthreadDetach, .main .pthreadCreate, .main .pthreadDetach, .main .pthreadCreate, .main .pthreadDetach]

/-- An event of the round: of its threads or of the timer. -/
def Ev.inRound : Ev Drink → Bool
  | .main _ => false
  | _ => true

/-- No call fails. -/
def Ev.succeeds : Ev Drink → Bool
  | .main .pthreadCreateFail => false
  | .waiter (.mqSendFail _) => false
  | .bartender .mqReceiveFail => false
  | .bartender .timerSettimeFail => false
  | _ => true

/-- What alambix_has_ordered_drink answers. -/
def Ev.answer : Ev Drink → Option Bool
  | .bartender (.hasOrderedDrink more) => some more
  | _ => none

/-- What alambix_take_order takes. -/
def Ev.takes : Ev Drink → Option (List Drink)
  | .waiter (.takeOrder ds) => some ds
  | _ => none

/-- alambix_has_ordered_drink answers 1 exactly while a drink of the order taken has not
    been received from the queue. -/
def AnswersExactly (s : St Drink) (e : Ev Drink) : Prop :=
  ∀ more ∈ e.answer, more = true ↔ s.received.length < s.taken.length

/-- alambix_take_order takes the order the clients placed. -/
def TakesOrder (s : St Drink) (e : Ev Drink) : Prop := ∀ ds ∈ e.takes, ds = s.order

instance (s : St Drink) (e : Ev Drink) : Decidable (AnswersExactly s e) :=
  inferInstanceAs (Decidable (∀ more ∈ e.answer, more = true ↔ s.received.length < s.taken.length))

instance [DecidableEq Drink] (s : St Drink) (e : Ev Drink) : Decidable (TakesOrder s e) :=
  inferInstanceAs (Decidable (∀ ds ∈ e.takes, ds = s.order))

theorem answersExactly_of {s : St Drink} {e : Ev Drink} (h : e.answer = none) : AnswersExactly s e := by
  intro more hmore
  rw [h] at hmore; cases hmore

theorem takesOrder_of {s : St Drink} {e : Ev Drink} (h : e.takes = none) : TakesOrder s e := by
  intro ds hds
  rw [h] at hds; cases hds

/-- The library does what it documents; calls may fail, and the user may quit. -/
def Documented (s : St Drink) (e : Ev Drink) : Prop := AnswersExactly s e ∧ TakesOrder s e

instance [DecidableEq Drink] (s : St Drink) (e : Ev Drink) : Decidable (Documented s e) :=
  inferInstanceAs (Decidable (_ ∧ _))

theorem documented_of {s : St Drink} {e : Ev Drink} (ha : e.answer = none) (ht : e.takes = none) : Documented s e :=
  ⟨answersExactly_of ha, takesOrder_of ht⟩

/-- An event of the round in which no call fails and the library does what it documents. -/
def AsDocumented (s : St Drink) (e : Ev Drink) : Prop :=
  e.inRound = true ∧ e.succeeds = true ∧ AnswersExactly s e ∧ TakesOrder s e

instance [DecidableEq Drink] (s : St Drink) (e : Ev Drink) : Decidable (AsDocumented s e) :=
  inferInstanceAs (Decidable (_ ∧ _ ∧ _ ∧ _))

end Alambix

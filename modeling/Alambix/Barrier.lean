/-
  Alambix.Barrier — the ordering of an earlier version, with a barrier for the semaphore.

  In `old_increments/Step1/Step1_mutex/main.c` a client that has ordered all its drinks and
  a waiter about to take the order wait for each other at `take_order_barrier`, of three
  parties. In the current version a client posts a coin and returns, and the waiter takes
  two coins (`Alambix.Program`). The ordering loop, with `order_mutex`, is the same.

  An observer sees the calls of alambix_order_drink, each with its client and its drink,
  and of alambix_take_order (`Call`).

  - `SameOrdering` relates the two: the clients are at the same statement, a client at or
    past the barrier having posted; both waiters have taken the order, or neither has.
    Nothing ties the barrier to the coins otherwise.

  Proved: each version answers every step of the other (`barrier_answered`,
  `semaphore_answered`): a waiter that lags behind catches up when the other takes the
  order, since then both clients are at the barrier and both coins are there. So over
  every pair of choices the two have the same finite traces (`same_traces`).
-/

import Alambix.Ordering
import Alambix.Lib.Simulation
import Alambix.Lib.Barrier

namespace Alambix

open Lib Lib.Transition
open Function (update)

/-! ## The earlier version -/

/-- `alambix_client_thread_fct`, earlier version. -/
inductive BarrierClientPc (Drink : Type) where
  | chooseDrink
  | mutexLock (drink : Drink)
  | orderDrink (drink : Drink)
  | orderWrite (drink : Drink) (seen : List Drink)
  | mutexUnlock
  | barrierWait
  /-- In pthread_barrier_wait, arrived in this cycle. -/
  | atBarrier (cycle : Nat)
  | returned
  deriving DecidableEq, Repr

/-- `alambix_waiter_thread_fct`, earlier version, up to the order taken. -/
inductive BarrierWaiterPc where
  | barrierWait
  | atBarrier (cycle : Nat)
  | takeOrder
  | getOrderedDrink
  deriving DecidableEq, Repr

structure BarrierSt (Drink : Type) where
  client : Client → BarrierClientPc Drink
  waiter : BarrierWaiterPc
  chosen : Client → List Drink
  order : List Drink
  taken : List Drink
  orderMutex : Option Client
  takeOrderBarrier : Barrier

inductive BarrierClientEv (Drink : Type) where
  | chooseDrink (drink : Drink)
  | chooseNull
  | mutexLock (drink : Drink)
  | orderRead (drink : Drink)
  | orderWrite (drink : Drink) (seen : List Drink)
  | mutexUnlock
  | barrierArrive
  | barrierLeave (cycle : Nat)
  deriving DecidableEq, Repr

inductive BarrierWaiterEv (Drink : Type) where
  | barrierArrive
  | barrierLeave (cycle : Nat)
  | takeOrder (drinks : List Drink)
  deriving DecidableEq, Repr

inductive BarrierEv (Drink : Type) where
  | client (c : Client) (e : BarrierClientEv Drink)
  | waiter (e : BarrierWaiterEv Drink)

variable {Drink : Type}

section

variable [DecidableEq Drink]

def barrierClientThreadFct (c : Client) (s : BarrierSt Drink) : BarrierClientEv Drink → Option (BarrierSt Drink)
  | .chooseDrink d =>
    guarded (s.client c = .chooseDrink ∧ (s.chosen c).head? = some d)
      { s with client := update s.client c (.mutexLock d), chosen := update s.chosen c (s.chosen c).tail }
  | .chooseNull =>
    guarded (s.client c = .chooseDrink ∧ s.chosen c = [])
      { s with client := update s.client c .barrierWait }
  | .mutexLock d =>
    guarded (s.client c = .mutexLock d ∧ s.orderMutex = none)
      { s with client := update s.client c (.orderDrink d), orderMutex := some c }
  | .orderRead d =>
    guarded (s.client c = .orderDrink d)
      { s with client := update s.client c (.orderWrite d s.order) }
  | .orderWrite d seen =>
    guarded (s.client c = .orderWrite d seen)
      { s with client := update s.client c .mutexUnlock, order := seen ++ [d] }
  | .mutexUnlock =>
    guarded (s.client c = .mutexUnlock)
      { s with client := update s.client c .chooseDrink, orderMutex := none }
  | .barrierArrive =>
    guarded (s.client c = .barrierWait)
      { s with client := update s.client c (.atBarrier s.takeOrderBarrier.cycle)
               takeOrderBarrier := s.takeOrderBarrier.arrive }
  | .barrierLeave n =>
    guarded (s.client c = .atBarrier n ∧ s.takeOrderBarrier.Over n)
      { s with client := update s.client c .returned }

def barrierWaiterThreadFct (s : BarrierSt Drink) : BarrierWaiterEv Drink → Option (BarrierSt Drink)
  | .barrierArrive =>
    guarded (s.waiter = .barrierWait)
      { s with waiter := .atBarrier s.takeOrderBarrier.cycle, takeOrderBarrier := s.takeOrderBarrier.arrive }
  | .barrierLeave n =>
    guarded (s.waiter = .atBarrier n ∧ s.takeOrderBarrier.Over n) { s with waiter := .takeOrder }
  | .takeOrder ds => guarded (s.waiter = .takeOrder) { s with waiter := .getOrderedDrink, taken := ds }

def barrierStep (s : BarrierSt Drink) : BarrierEv Drink → Option (BarrierSt Drink)
  | .client c e => barrierClientThreadFct c s e
  | .waiter e => barrierWaiterThreadFct s e

end

/-- A round of the earlier version, its barrier in some cycle. -/
def barrierRound (cycle : Nat) (wanted : Client → List Drink) : BarrierSt Drink where
  client := fun _ => .chooseDrink
  waiter := .barrierWait
  chosen := wanted
  order := []
  taken := []
  orderMutex := none
  takeOrderBarrier := ⟨3, 0, cycle⟩

/-! ## What is observed -/

inductive Call (Drink : Type) where
  | orderDrink (c : Client) (drink : Drink)
  | takeOrder
  deriving DecidableEq, Repr

def BarrierEv.call : BarrierEv Drink → Option (Call Drink)
  | .client c (.orderRead d) => some (.orderDrink c d)
  | .waiter (.takeOrder _) => some .takeOrder
  | _ => none

def Ev.call : Ev Drink → Option (Call Drink)
  | .client c (.orderRead d) => some (.orderDrink c d)
  | .waiter (.takeOrder _) => some .takeOrder
  | _ => none

/-- An event of the clients, or of the waiter up to its alambix_take_order. -/
def Ev.ordering : Ev Drink → Bool
  | .client _ _ => true
  | .waiter .semWaitFirst => true
  | .waiter .semWaitSecond => true
  | .waiter (.takeOrder _) => true
  | _ => false

section

variable [DecidableEq Drink]

/-- The finite traces of the version with the barrier. -/
def barrierTraces (cycle : Nat) (wanted : Client → List Drink) : Set (List (Call Drink)) :=
  Traces barrierStep (fun _ _ => True) BarrierEv.call (barrierRound cycle wanted)

/-- The finite traces of a round of the current version, up to the order taken. -/
def semaphoreTraces (s₀ : St Drink) (wanted : Client → List Drink) : Set (List (Call Drink)) :=
  Traces step (fun _ e => e.ordering = true) Ev.call (roundOf s₀ wanted)

end

/-! ## The barrier -/

/-- Has arrived at the barrier. -/
def BarrierClientPc.arrived : BarrierClientPc Drink → Nat
  | .atBarrier _ => 1
  | .returned => 1
  | _ => 0

def BarrierWaiterPc.arrived : BarrierWaiterPc → Nat
  | .barrierWait => 0
  | _ => 1

/-- Has left the barrier. -/
def BarrierClientPc.passed : BarrierClientPc Drink → Bool
  | .returned => true
  | _ => false

def BarrierWaiterPc.passed : BarrierWaiterPc → Bool
  | .takeOrder => true
  | .getOrderedDrink => true
  | _ => false

def BarrierSt.arrived (s : BarrierSt Drink) : Nat :=
  (s.client .client0).arrived + (s.client .client1).arrived + s.waiter.arrived

/-- The barrier of three in cycle `n`, when this many have arrived. -/
def meeting (n arrived : Nat) : Barrier := if arrived = 3 then ⟨3, 0, n + 1⟩ else ⟨3, arrived, n⟩

theorem meeting_arrive {n k : Nat} (h : k < 3) : (meeting n k).arrive = meeting n (k + 1) := by
  by_cases h2 : k = 2
  · subst h2
    exact Barrier.arrive_last rfl
  · rw [meeting, if_neg (by omega), Barrier.arrive_early (by simpa using h2), meeting, if_neg (by omega)]

theorem meeting_cycle {n k : Nat} (h : k < 3) : (meeting n k).cycle = n := by
  rw [meeting, if_neg (by omega)]

theorem meeting_over {n k : Nat} : (meeting n k).Over n ↔ k = 3 := by
  unfold meeting Barrier.Over
  split
  · simp_all
  · simp_all

structure BarrierInv (n : Nat) (s : BarrierSt Drink) : Prop where
  barrier : s.takeOrderBarrier = meeting n s.arrived
  clientCycle : ∀ c m, s.client c = .atBarrier m → m = n
  waiterCycle : ∀ m, s.waiter = .atBarrier m → m = n
  clientPassed : ∀ c, (s.client c).passed = true → s.arrived = 3
  waiterPassed : s.waiter.passed = true → s.arrived = 3

theorem BarrierClientPc.arrived_le (pc : BarrierClientPc Drink) : pc.arrived ≤ 1 := by
  cases pc <;> simp [arrived]

theorem BarrierWaiterPc.arrived_le (pc : BarrierWaiterPc) : pc.arrived ≤ 1 := by cases pc <;> simp [arrived]

/-- When all three have arrived, each client has. -/
theorem BarrierSt.all_arrived {s : BarrierSt Drink} (h : s.arrived = 3) (c : Client) : (s.client c).arrived = 1 := by
  have h0 := (s.client .client0).arrived_le
  have h1 := (s.client .client1).arrived_le
  have hw := s.waiter.arrived_le
  unfold arrived at h
  cases c <;> omega

theorem BarrierSt.arrived_lt {s : BarrierSt Drink} {c : Client} (h : (s.client c).arrived = 0) : s.arrived < 3 := by
  have h0 := (s.client .client0).arrived_le
  have h1 := (s.client .client1).arrived_le
  have hw := s.waiter.arrived_le
  unfold arrived
  cases c <;> omega

/-- A client's move, counted. -/
theorem BarrierSt.arrived_update {s s' : BarrierSt Drink} {c : Client} {pc : BarrierClientPc Drink}
    (hc : s'.client = update s.client c pc) (hw : s'.waiter = s.waiter) :
    s'.arrived + (s.client c).arrived = s.arrived + pc.arrived := by
  unfold arrived
  rw [hc, hw]
  cases c <;> simp <;> omega

theorem barrierRound_inv (n : Nat) (wanted : Client → List Drink) : BarrierInv n (barrierRound n wanted) where
  barrier := rfl
  clientCycle := fun c m h => by cases h
  waiterCycle := fun m h => by cases h
  clientPassed := fun c h => by cases h
  waiterPassed := fun h => by cases h

/-- A client's move. -/
theorem BarrierInv.client_moves {n : Nat} {s s' : BarrierSt Drink} {c : Client} {pc : BarrierClientPc Drink}
    (hi : BarrierInv n s) (hc : s'.client = update s.client c pc) (hw : s'.waiter = s.waiter)
    (hb : s'.takeOrderBarrier = meeting n s'.arrived) (hcyc : ∀ m, pc = .atBarrier m → m = n)
    (hpass : pc.passed = true → s'.arrived = 3) (hall : s.arrived = 3 → s'.arrived = 3) : BarrierInv n s' := by
  refine ⟨hb, ?_, ?_, ?_, ?_⟩
  · intro x m hx
    rw [hc] at hx
    by_cases hxc : x = c
    · subst hxc
      rw [Function.update_self] at hx
      exact hcyc m hx
    · rw [Function.update_of_ne hxc] at hx
      exact hi.clientCycle x m hx
  · rw [hw]; exact hi.waiterCycle
  · intro x hx
    rw [hc] at hx
    by_cases hxc : x = c
    · subst hxc
      rw [Function.update_self] at hx
      exact hpass hx
    · rw [Function.update_of_ne hxc] at hx
      exact hall (hi.clientPassed x hx)
  · intro hx
    rw [hw] at hx
    exact hall (hi.waiterPassed hx)

theorem BarrierInv.client_keeps {n : Nat} {s s' : BarrierSt Drink} {c : Client} {pc : BarrierClientPc Drink}
    (hi : BarrierInv n s) (hc : s'.client = update s.client c pc) (hw : s'.waiter = s.waiter)
    (hb : s'.takeOrderBarrier = s.takeOrderBarrier) (harr : pc.arrived = (s.client c).arrived)
    (hcyc : ∀ m, pc ≠ .atBarrier m) (hpass : pc.passed = true → s.arrived = 3) : BarrierInv n s' := by
  have hcount := BarrierSt.arrived_update hc hw
  have hsame : s'.arrived = s.arrived := by omega
  refine hi.client_moves hc hw ?_ (fun m hm => absurd hm (hcyc m)) (fun h => ?_) (fun h => ?_)
  · rw [hb, hsame, hi.barrier]
  · rw [hsame, hpass h]
  · rw [hsame, h]

theorem BarrierInv.client_arrives {n : Nat} {s s' : BarrierSt Drink} {c : Client} (hi : BarrierInv n s)
    (hpc : s.client c = .barrierWait) (hc : s'.client = update s.client c (.atBarrier s.takeOrderBarrier.cycle))
    (hw : s'.waiter = s.waiter) (hb : s'.takeOrderBarrier = s.takeOrderBarrier.arrive) : BarrierInv n s' := by
  have hlt : s.arrived < 3 := BarrierSt.arrived_lt (c := c) (by rw [hpc]; rfl)
  have hcount : s'.arrived = s.arrived + 1 := by
    have hmoved := BarrierSt.arrived_update hc hw
    rwa [hpc] at hmoved
  refine hi.client_moves hc hw ?_ ?_ nofun fun h => ?_
  · rw [hb, hcount, hi.barrier, meeting_arrive hlt]
  · intro m hm
    rw [← BarrierClientPc.atBarrier.inj hm, hi.barrier, meeting_cycle hlt]
  · omega

/-- The waiter's move once all three have arrived. -/
theorem BarrierInv.waiter_moves {n : Nat} {s s' : BarrierSt Drink} (hi : BarrierInv n s)
    (hc : s'.client = s.client) (hb : s'.takeOrderBarrier = s.takeOrderBarrier)
    (harr : s'.waiter.arrived = s.waiter.arrived) (hcyc : ∀ m, s'.waiter ≠ .atBarrier m) (hall : s.arrived = 3) :
    BarrierInv n s' := by
  have hsame : s'.arrived = s.arrived := by
    unfold BarrierSt.arrived
    rw [hc, harr]
  refine ⟨by rw [hb, hsame, hi.barrier], ?_, fun m hm => absurd hm (hcyc m), fun _ _ => hsame.trans hall,
    fun _ => hsame.trans hall⟩
  rw [hc]; exact hi.clientCycle

theorem waiter_arrives {n : Nat} {s : BarrierSt Drink} (hi : BarrierInv n s) (hpc : s.waiter = .barrierWait) :
    BarrierInv n { s with waiter := .atBarrier s.takeOrderBarrier.cycle
                          takeOrderBarrier := s.takeOrderBarrier.arrive } := by
  have h0 := (s.client .client0).arrived_le
  have h1 := (s.client .client1).arrived_le
  have hs : s.arrived = (s.client .client0).arrived + (s.client .client1).arrived := by
    unfold BarrierSt.arrived
    rw [hpc]; rfl
  have hlt : s.arrived < 3 := by omega
  have hcycle : s.takeOrderBarrier.cycle = n := by rw [hi.barrier, meeting_cycle hlt]
  refine ⟨?_, hi.clientCycle, ?_, ?_, nofun⟩
  · show s.takeOrderBarrier.arrive = meeting n ((s.client .client0).arrived + (s.client .client1).arrived + 1)
    rw [hi.barrier, meeting_arrive hlt, hs]
  · intro m hm
    rw [← hcycle]
    exact (BarrierWaiterPc.atBarrier.inj hm).symm
  · intro x hx
    have := hi.clientPassed x hx
    omega

variable [DecidableEq Drink]

theorem client_barrierInv {n : Nat} {s s' : BarrierSt Drink} {c : Client} {e : BarrierClientEv Drink}
    (hi : BarrierInv n s) (h : barrierClientThreadFct c s e = some s') : BarrierInv n s' := by
  cases e with
  | barrierArrive =>
    obtain ⟨hpc, rfl⟩ := guarded_eq_some.mp h
    exact hi.client_arrives hpc rfl rfl rfl
  | barrierLeave m =>
    obtain ⟨⟨hpc, hover⟩, rfl⟩ := guarded_eq_some.mp h
    obtain rfl := hi.clientCycle c m hpc
    rw [hi.barrier, meeting_over] at hover
    exact hi.client_keeps rfl rfl rfl (by rw [hpc]; rfl) nofun fun _ => hover
  | mutexUnlock =>
    obtain ⟨hpc, rfl⟩ := guarded_eq_some.mp h
    exact hi.client_keeps rfl rfl rfl (by rw [hpc]; rfl) nofun nofun
  | orderRead d | orderWrite d seen =>
    obtain ⟨hpc, rfl⟩ := guarded_eq_some.mp h
    exact hi.client_keeps rfl rfl rfl (by rw [hpc]; rfl) nofun nofun
  | _ =>
    obtain ⟨⟨hpc, -⟩, rfl⟩ := guarded_eq_some.mp h
    exact hi.client_keeps rfl rfl rfl (by rw [hpc]; rfl) nofun nofun

omit [DecidableEq Drink] in
theorem waiter_barrierInv {n : Nat} {s s' : BarrierSt Drink} {e : BarrierWaiterEv Drink}
    (hi : BarrierInv n s) (h : barrierWaiterThreadFct s e = some s') : BarrierInv n s' := by
  cases e with
  | barrierArrive =>
    obtain ⟨hpc, rfl⟩ := guarded_eq_some.mp h
    exact waiter_arrives hi hpc
  | barrierLeave m =>
    obtain ⟨⟨hpc, hover⟩, rfl⟩ := guarded_eq_some.mp h
    obtain rfl := hi.waiterCycle m hpc
    rw [hi.barrier, meeting_over] at hover
    exact hi.waiter_moves rfl rfl (by rw [hpc]; rfl) nofun hover
  | takeOrder ds =>
    obtain ⟨hpc, rfl⟩ := guarded_eq_some.mp h
    exact hi.waiter_moves rfl rfl (by rw [hpc]; rfl) nofun (hi.waiterPassed (by rw [hpc]; rfl))

theorem reach_barrierInv {ok : BarrierSt Drink → BarrierEv Drink → Prop} {n : Nat} {wanted : Client → List Drink}
    {s : BarrierSt Drink} (h : Reach barrierStep ok (barrierRound n wanted) s) : BarrierInv n s :=
  h.inv (barrierRound_inv n wanted) fun _ e _ hi _ hs => by
    cases e with
    | client c e => exact client_barrierInv hi hs
    | waiter e => exact waiter_barrierInv hi hs

/-! ## The two versions side by side -/

/-- The statement of the current version a client's statement answers to. -/
def BarrierClientPc.asSemaphore : BarrierClientPc Drink → ClientPc Drink
  | .chooseDrink => .chooseDrink
  | .mutexLock d => .mutexLock d
  | .orderDrink d => .orderDrink d
  | .orderWrite d seen => .orderWrite d seen
  | .mutexUnlock => .mutexUnlock
  | .barrierWait => .semPost
  | .atBarrier _ => .returned
  | .returned => .returned

def BarrierWaiterPc.tookOrder : BarrierWaiterPc → Bool
  | .getOrderedDrink => true
  | _ => false

structure SameOrdering (a : BarrierSt Drink) (b : St Drink) : Prop where
  alive : b.exited = none
  main : b.main = .ui
  client : b.client = fun c => (a.client c).asSemaphore
  chosen : b.chosen = a.chosen
  order : b.order = a.order
  orderMutex : b.orderMutex = a.orderMutex
  waiter : b.waiter.tookOrder = a.waiter.tookOrder

omit [DecidableEq Drink] in
theorem asSemaphore_update (f : Client → BarrierClientPc Drink) (c : Client) (pc : BarrierClientPc Drink) :
    (fun x => (update f c pc x).asSemaphore) = update (fun x => (f x).asSemaphore) c pc.asSemaphore := by
  funext x
  by_cases hx : x = c
  · subst hx; simp
  · simp [hx]

omit [DecidableEq Drink] in
theorem SameOrdering.at_client {a : BarrierSt Drink} {b : St Drink} (h : SameOrdering a b) (c : Client) :
    b.client c = (a.client c).asSemaphore := by rw [h.client]

omit [DecidableEq Drink] in
/-- Client `c` moves in both versions, and so does what it touches. -/
theorem SameOrdering.client_moves {a a' : BarrierSt Drink} {b b' : St Drink} {c : Client}
    {pc : BarrierClientPc Drink} (h : SameOrdering a b) (ha : a'.client = update a.client c pc)
    (hb : b'.client = update b.client c pc.asSemaphore) (hch : b'.chosen = a'.chosen) (ho : b'.order = a'.order)
    (hmx : b'.orderMutex = a'.orderMutex) (hx : b'.exited = b.exited) (hm : b'.main = b.main)
    (hw : b'.waiter = b.waiter) (hw' : a'.waiter = a.waiter) : SameOrdering a' b' where
  alive := hx.trans h.alive
  main := hm.trans h.main
  client := by rw [ha, hb, asSemaphore_update, h.client]
  chosen := hch
  order := ho
  orderMutex := hmx
  waiter := by rw [hw, hw', h.waiter]

/-- A client's step of the current version is an answer. -/
theorem SameOrdering.answers {a : BarrierSt Drink} {b b' : St Drink} {c : Client} {e : ClientEv Drink}
    {o : Option (Call Drink)} (h : SameOrdering a b) (hs : clientThreadFct c b e = some b')
    (ho : (Ev.client c e).call = o) : Answers step (fun _ e => e.ordering = true) Ev.call b o b' := by
  rw [← ho]
  exact .of_step rfl (step_eq_some.mpr ⟨⟨h.alive, by rw [h.main]; rfl⟩, hs⟩)

/-- A client of the current version does what one of the earlier version does. -/
theorem client_answered {a a' : BarrierSt Drink} {b : St Drink} {c : Client} {e : BarrierClientEv Drink}
    (h : SameOrdering a b) (hs : barrierClientThreadFct c a e = some a') :
    ∃ b', Answers step (fun _ e => e.ordering = true) Ev.call b (BarrierEv.client c e).call b' ∧
      SameOrdering a' b' := by
  have hat := h.at_client c
  cases e with
  | chooseDrink d =>
    obtain ⟨⟨hpc, hch⟩, rfl⟩ := guarded_eq_some.mp hs
    have hb : clientThreadFct c b (.chooseDrink d) = some _ :=
      guarded_of ⟨by rw [hat, hpc]; rfl, by rw [h.chosen]; exact hch⟩
    exact ⟨_, h.answers hb rfl, h.client_moves rfl rfl (by rw [h.chosen]) h.order h.orderMutex rfl rfl rfl rfl⟩
  | chooseNull =>
    obtain ⟨⟨hpc, hch⟩, rfl⟩ := guarded_eq_some.mp hs
    have hb : clientThreadFct c b .chooseNull = some _ :=
      guarded_of ⟨by rw [hat, hpc]; rfl, by rw [h.chosen]; exact hch⟩
    exact ⟨_, h.answers hb rfl, h.client_moves rfl rfl h.chosen h.order h.orderMutex rfl rfl rfl rfl⟩
  | mutexLock d =>
    obtain ⟨⟨hpc, hmx⟩, rfl⟩ := guarded_eq_some.mp hs
    have hb : clientThreadFct c b (.mutexLock d) = some _ :=
      guarded_of ⟨by rw [hat, hpc]; rfl, by rw [h.orderMutex]; exact hmx⟩
    exact ⟨_, h.answers hb rfl, h.client_moves rfl rfl h.chosen h.order rfl rfl rfl rfl rfl⟩
  | orderRead d =>
    obtain ⟨hpc, rfl⟩ := guarded_eq_some.mp hs
    have hb : clientThreadFct c b (.orderRead d) = some _ := guarded_of (by rw [hat, hpc]; rfl)
    refine ⟨_, h.answers hb rfl, h.client_moves rfl ?_ h.chosen h.order h.orderMutex rfl rfl rfl rfl⟩
    rw [← h.order]; rfl
  | orderWrite d seen =>
    obtain ⟨hpc, rfl⟩ := guarded_eq_some.mp hs
    have hb : clientThreadFct c b (.orderWrite d seen) = some _ := guarded_of (by rw [hat, hpc]; rfl)
    exact ⟨_, h.answers hb rfl, h.client_moves rfl rfl h.chosen rfl h.orderMutex rfl rfl rfl rfl⟩
  | mutexUnlock =>
    obtain ⟨hpc, rfl⟩ := guarded_eq_some.mp hs
    have hb : clientThreadFct c b .mutexUnlock = some _ := guarded_of (by rw [hat, hpc]; rfl)
    exact ⟨_, h.answers hb rfl, h.client_moves rfl rfl h.chosen h.order rfl rfl rfl rfl rfl⟩
  | barrierArrive =>
    obtain ⟨hpc, rfl⟩ := guarded_eq_some.mp hs
    have hb : clientThreadFct c b .semPost = some _ := guarded_of (by rw [hat, hpc]; rfl)
    exact ⟨_, h.answers hb rfl, h.client_moves rfl rfl h.chosen h.order h.orderMutex rfl rfl rfl rfl⟩
  | barrierLeave n =>
    -- it has posted, and returned, when it arrived
    obtain ⟨⟨hpc, -⟩, rfl⟩ := guarded_eq_some.mp hs
    refine ⟨b, .refl b, h.client_moves rfl ?_ h.chosen h.order h.orderMutex rfl rfl rfl rfl⟩
    rw [hpc] at hat
    exact (Function.update_eq_self_iff.mpr hat.symm).symm

/-! ## A client's statement the other way -/

omit [DecidableEq Drink] in
theorem BarrierClientPc.asSemaphore_returned {pc : BarrierClientPc Drink} :
    pc.asSemaphore = .returned ↔ pc.arrived = 1 := by
  cases pc <;> simp [asSemaphore, arrived]

/-- The statement of the earlier version a client's statement answers to, up to its coin. -/
def ClientPc.asBarrier : ClientPc Drink → BarrierClientPc Drink
  | .chooseDrink => .chooseDrink
  | .mutexLock d => .mutexLock d
  | .orderDrink d => .orderDrink d
  | .orderWrite d seen => .orderWrite d seen
  | .mutexUnlock => .mutexUnlock
  | .semPost => .barrierWait
  | .returned => .returned

omit [DecidableEq Drink] in
theorem BarrierClientPc.eq_asBarrier {pc : BarrierClientPc Drink} (h : pc.asSemaphore ≠ .returned) :
    pc = pc.asSemaphore.asBarrier := by
  cases pc with
  | atBarrier n => exact absurd rfl h
  | _ => rfl

omit [DecidableEq Drink] in
theorem SameOrdering.at_statement {a : BarrierSt Drink} {b : St Drink} {c : Client} {pc : ClientPc Drink}
    (h : SameOrdering a b) (hpc : b.client c = pc) (hne : pc ≠ .returned) : a.client c = pc.asBarrier := by
  have hat : pc = (a.client c).asSemaphore := by rw [← hpc, h.at_client]
  rw [hat] at hne ⊢
  exact BarrierClientPc.eq_asBarrier hne

/-- A client's step of the earlier version is an answer. -/
theorem barrier_client_answers {a a' : BarrierSt Drink} {c : Client} {e : BarrierClientEv Drink}
    {o : Option (Call Drink)} (hs : barrierClientThreadFct c a e = some a') (ho : (BarrierEv.client c e).call = o) :
    Answers barrierStep (fun _ _ => True) BarrierEv.call a o a' := by
  rw [← ho]
  exact .of_step trivial hs

/-- A client of the earlier version does what one of the current version does. -/
theorem barrier_client_answered {a : BarrierSt Drink} {b b' : St Drink} {c : Client} {e : ClientEv Drink}
    (h : SameOrdering a b) (hs : clientThreadFct c b e = some b') :
    ∃ a', Answers barrierStep (fun _ _ => True) BarrierEv.call a (Ev.client c e).call a' ∧ SameOrdering a' b' := by
  cases e with
  | chooseDrink d =>
    obtain ⟨⟨hpc, hch⟩, rfl⟩ := guarded_eq_some.mp hs
    have ha : barrierClientThreadFct c a (.chooseDrink d) = some _ :=
      guarded_of ⟨h.at_statement hpc nofun, by rw [← h.chosen]; exact hch⟩
    exact ⟨_, barrier_client_answers ha rfl,
      h.client_moves rfl rfl (by rw [h.chosen]) h.order h.orderMutex rfl rfl rfl rfl⟩
  | chooseNull =>
    obtain ⟨⟨hpc, hch⟩, rfl⟩ := guarded_eq_some.mp hs
    have ha : barrierClientThreadFct c a .chooseNull = some _ :=
      guarded_of ⟨h.at_statement hpc nofun, by rw [← h.chosen]; exact hch⟩
    exact ⟨_, barrier_client_answers ha rfl, h.client_moves rfl rfl h.chosen h.order h.orderMutex rfl rfl rfl rfl⟩
  | mutexLock d =>
    obtain ⟨⟨hpc, hmx⟩, rfl⟩ := guarded_eq_some.mp hs
    have ha : barrierClientThreadFct c a (.mutexLock d) = some _ :=
      guarded_of ⟨h.at_statement hpc nofun, by rw [← h.orderMutex]; exact hmx⟩
    exact ⟨_, barrier_client_answers ha rfl, h.client_moves rfl rfl h.chosen h.order rfl rfl rfl rfl rfl⟩
  | orderRead d =>
    obtain ⟨hpc, rfl⟩ := guarded_eq_some.mp hs
    have ha : barrierClientThreadFct c a (.orderRead d) = some _ := guarded_of (h.at_statement hpc nofun)
    refine ⟨_, barrier_client_answers ha rfl, h.client_moves rfl ?_ h.chosen h.order h.orderMutex rfl rfl rfl rfl⟩
    rw [← h.order]; rfl
  | orderWrite d seen =>
    obtain ⟨hpc, rfl⟩ := guarded_eq_some.mp hs
    have ha : barrierClientThreadFct c a (.orderWrite d seen) = some _ := guarded_of (h.at_statement hpc nofun)
    exact ⟨_, barrier_client_answers ha rfl, h.client_moves rfl rfl h.chosen rfl h.orderMutex rfl rfl rfl rfl⟩
  | mutexUnlock =>
    obtain ⟨hpc, rfl⟩ := guarded_eq_some.mp hs
    have ha : barrierClientThreadFct c a .mutexUnlock = some _ := guarded_of (h.at_statement hpc nofun)
    exact ⟨_, barrier_client_answers ha rfl, h.client_moves rfl rfl h.chosen h.order rfl rfl rfl rfl rfl⟩
  | semPost =>
    -- it arrives; that it may leave only once all three have is not observed
    obtain ⟨hpc, rfl⟩ := guarded_eq_some.mp hs
    have ha : barrierClientThreadFct c a .barrierArrive = some _ := guarded_of (h.at_statement hpc nofun)
    exact ⟨_, barrier_client_answers ha rfl, h.client_moves rfl rfl h.chosen h.order h.orderMutex rfl rfl rfl rfl⟩

/-! ## The waiter -/

/-- A waiter's step of the current version can be taken. -/
theorem SameOrdering.waiter_step {a : BarrierSt Drink} {b b' : St Drink} {e : WaiterEv Drink}
    (h : SameOrdering a b) (hs : waiterThreadFct b e = some b') : step b (.waiter e) = some b' :=
  step_eq_some.mpr ⟨⟨h.alive, by rw [h.main]; rfl⟩, hs⟩

omit [DecidableEq Drink] in
/-- A waiter moves before it takes the order; the clients do not look at it. -/
theorem SameOrdering.waits {a : BarrierSt Drink} {b : St Drink} (h : SameOrdering a b) (w : WaiterPc Drink) (n : Nat)
    (hw : w.tookOrder = b.waiter.tookOrder) : SameOrdering a { b with waiter := w, semOrderDrink := n } :=
  ⟨h.alive, h.main, h.client, h.chosen, h.order, h.orderMutex, hw.trans h.waiter⟩

omit [DecidableEq Drink] in
theorem SameOrdering.barrier_waits {a : BarrierSt Drink} {b : St Drink} (h : SameOrdering a b) (w : BarrierWaiterPc)
    (bar : Barrier) (hw : w.tookOrder = a.waiter.tookOrder) :
    SameOrdering { a with waiter := w, takeOrderBarrier := bar } b :=
  ⟨h.alive, h.main, h.client, h.chosen, h.order, h.orderMutex, h.waiter.trans hw.symm⟩

omit [DecidableEq Drink] in
theorem SameOrdering.both_take {a : BarrierSt Drink} {b : St Drink} (h : SameOrdering a b) (ds ds' : List Drink) :
    SameOrdering { a with waiter := .getOrderedDrink, taken := ds }
      { b with waiter := .getOrderedDrink, taken := ds', toFetch := ds' } :=
  ⟨h.alive, h.main, h.client, h.chosen, h.order, h.orderMutex, rfl⟩

theorem take_order_answered {a : BarrierSt Drink} {b : St Drink} (h : SameOrdering a b) (hpc : b.waiter = .takeOrder)
    (ds : List Drink) : ∃ b', Answers step (fun _ e => e.ordering = true) Ev.call b (some .takeOrder) b' ∧
      SameOrdering { a with waiter := .getOrderedDrink, taken := ds } b' := by
  have hs : waiterThreadFct b (.takeOrder ds) = some _ := guarded_of hpc
  have hb : Answers step (fun _ e => e.ordering = true) Ev.call b (Ev.call (.waiter (.takeOrder ds))) _ :=
    .of_step rfl (h.waiter_step hs)
  exact ⟨_, hb, h.both_take ds ds⟩

theorem second_coin_answered {a : BarrierSt Drink} {b : St Drink} (h : SameOrdering a b)
    (hpc : b.waiter = .semWaitSecond) (hpos : 0 < b.semOrderDrink) (ds : List Drink) :
    ∃ b', Answers step (fun _ e => e.ordering = true) Ev.call b (some .takeOrder) b' ∧
      SameOrdering { a with waiter := .getOrderedDrink, taken := ds } b' := by
  have hs : waiterThreadFct b .semWaitSecond = some _ := guarded_of ⟨hpc, hpos⟩
  have hsame := h.waits .takeOrder (b.semOrderDrink - 1) (by rw [hpc]; rfl)
  obtain ⟨b', hb', htaken⟩ := take_order_answered hsame rfl ds
  exact ⟨b', .silent rfl (h.waiter_step hs) rfl hb', htaken⟩

/-- The earlier version takes the order. Both coins are put down: the waiter of the current
    version takes those it has not taken yet, then the order. -/
theorem waiter_catches_up {a : BarrierSt Drink} {b : St Drink} (h : SameOrdering a b)
    (hw : b.waiter.tookOrder = false) (hcoins : b.semOrderDrink + b.waiter.coins = 2) (ds : List Drink) :
    ∃ b', Answers step (fun _ e => e.ordering = true) Ev.call b (some .takeOrder) b' ∧
      SameOrdering { a with waiter := .getOrderedDrink, taken := ds } b' := by
  cases hpc : b.waiter with
  | semWaitFirst =>
    rw [hpc, WaiterPc.coins] at hcoins
    have hs : waiterThreadFct b .semWaitFirst = some _ := guarded_of ⟨hpc, by omega⟩
    have hsame := h.waits .semWaitSecond (b.semOrderDrink - 1) (by rw [hpc]; rfl)
    have hleft : 0 < b.semOrderDrink - 1 := by omega
    obtain ⟨b', hb', htaken⟩ := second_coin_answered hsame rfl hleft ds
    exact ⟨b', .silent rfl (h.waiter_step hs) rfl hb', htaken⟩
  | semWaitSecond =>
    rw [hpc, WaiterPc.coins] at hcoins
    exact second_coin_answered h hpc (by omega) ds
  | takeOrder => exact take_order_answered h hpc ds
  | _ => rw [hpc] at hw; cases hw

omit [DecidableEq Drink] in
theorem BarrierSt.arrived_at {n : Nat} {a : BarrierSt Drink} (hi : BarrierInv n a) {m : Nat}
    (hpc : a.waiter = .atBarrier m) (hall : ∀ c, (a.client c).arrived = 1) : a.takeOrderBarrier.Over m := by
  obtain rfl := hi.waiterCycle m hpc
  rw [hi.barrier, meeting_over]
  unfold arrived
  rw [hall, hall, hpc]; rfl

theorem barrier_take_order_answered {a : BarrierSt Drink} {b : St Drink} (h : SameOrdering a b)
    (hpc : a.waiter = .takeOrder) (ds : List Drink) :
    ∃ a', Answers barrierStep (fun _ _ => True) BarrierEv.call a (some .takeOrder) a' ∧
      SameOrdering a' { b with waiter := .getOrderedDrink, taken := ds, toFetch := ds } := by
  have hs : barrierStep a (.waiter (.takeOrder ds)) = some _ := guarded_of hpc
  have ha : Answers barrierStep (fun _ _ => True) BarrierEv.call a (BarrierEv.call (.waiter (.takeOrder ds))) _ :=
    .of_step trivial hs
  exact ⟨_, ha, h.both_take ds ds⟩

theorem barrier_leave_answered {n : Nat} {a : BarrierSt Drink} {b : St Drink} (h : SameOrdering a b)
    (hi : BarrierInv n a) {m : Nat} (hpc : a.waiter = .atBarrier m) (hall : ∀ c, (a.client c).arrived = 1)
    (ds : List Drink) :
    ∃ a', Answers barrierStep (fun _ _ => True) BarrierEv.call a (some .takeOrder) a' ∧
      SameOrdering a' { b with waiter := .getOrderedDrink, taken := ds, toFetch := ds } := by
  have hs : barrierStep a (.waiter (.barrierLeave m)) = some _ := guarded_of ⟨hpc, BarrierSt.arrived_at hi hpc hall⟩
  have hsame := h.barrier_waits .takeOrder a.takeOrderBarrier (by rw [hpc]; rfl)
  obtain ⟨a', ha', htaken⟩ := barrier_take_order_answered hsame rfl ds
  exact ⟨a', .silent trivial hs rfl ha', htaken⟩

/-- The current version takes the order. Both clients are at the barrier: the waiter of the
    earlier version arrives last, leaves, and takes the order. -/
theorem barrier_waiter_catches_up {n : Nat} {a : BarrierSt Drink} {b : St Drink} (h : SameOrdering a b)
    (hi : BarrierInv n a) (hw : a.waiter.tookOrder = false) (hall : ∀ c, (a.client c).arrived = 1)
    (ds : List Drink) :
    ∃ a', Answers barrierStep (fun _ _ => True) BarrierEv.call a (some .takeOrder) a' ∧
      SameOrdering a' { b with waiter := .getOrderedDrink, taken := ds, toFetch := ds } := by
  cases hpc : a.waiter with
  | barrierWait =>
    have hs : barrierStep a (.waiter .barrierArrive) = some _ := guarded_of hpc
    have hsame := h.barrier_waits (.atBarrier a.takeOrderBarrier.cycle) a.takeOrderBarrier.arrive (by rw [hpc]; rfl)
    obtain ⟨a', ha', htaken⟩ := barrier_leave_answered hsame (waiter_arrives hi hpc) rfl hall ds
    exact ⟨a', .silent trivial hs rfl ha', htaken⟩
  | atBarrier m => exact barrier_leave_answered h hi hpc hall ds
  | takeOrder => exact barrier_take_order_answered h hpc ds
  | getOrderedDrink => rw [hpc] at hw; cases hw

/-! ## Each answers the other -/

/-- Every step of the earlier version is answered by the current one. -/
theorem barrier_answered {n : Nat} {a a' : BarrierSt Drink} {b : St Drink} {e : BarrierEv Drink}
    (h : SameOrdering a b) (ha : BarrierInv n a) (hb : DeskInv b) (hs : barrierStep a e = some a') :
    ∃ b', Answers step (fun _ e => e.ordering = true) Ev.call b e.call b' ∧ SameOrdering a' b' := by
  cases e with
  | client c e => exact client_answered h hs
  | waiter e =>
    cases e with
    | barrierArrive =>
      obtain ⟨hpc, rfl⟩ := guarded_eq_some.mp hs
      exact ⟨b, .refl b, h.barrier_waits _ _ (by rw [hpc]; rfl)⟩
    | barrierLeave m =>
      obtain ⟨⟨hpc, -⟩, rfl⟩ := guarded_eq_some.mp hs
      exact ⟨b, .refl b, h.barrier_waits _ _ (by rw [hpc]; rfl)⟩
    | takeOrder ds =>
      obtain ⟨hpc, rfl⟩ := guarded_eq_some.mp hs
      have hall : a.arrived = 3 := ha.waiterPassed (by rw [hpc]; rfl)
      have hr : ∀ c, b.client c = .returned := fun c =>
        (h.at_client c).trans (BarrierClientPc.asSemaphore_returned.mpr (BarrierSt.all_arrived hall c))
      have hcoins := hb.coins
      rw [hr, hr] at hcoins
      exact waiter_catches_up h (by rw [h.waiter, hpc]; rfl) hcoins ds

/-- Every step of the current version is answered by the earlier one. -/
theorem semaphore_answered {n : Nat} {a : BarrierSt Drink} {b b' : St Drink} {e : Ev Drink}
    (h : SameOrdering a b) (ha : BarrierInv n a) (hb : DeskInv b) (he : e.ordering = true) (hs : step b e = some b') :
    ∃ a', Answers barrierStep (fun _ _ => True) BarrierEv.call a e.call a' ∧ SameOrdering a' b' := by
  obtain ⟨-, hs⟩ := step_eq_some.mp hs
  cases e with
  | client c e => exact barrier_client_answered h hs
  | waiter e =>
    cases e with
    | semWaitFirst =>
      obtain ⟨⟨hpc, -⟩, rfl⟩ := guarded_eq_some.mp hs
      exact ⟨a, .refl a, h.waits _ _ (by rw [hpc]; rfl)⟩
    | semWaitSecond =>
      obtain ⟨⟨hpc, -⟩, rfl⟩ := guarded_eq_some.mp hs
      exact ⟨a, .refl a, h.waits _ _ (by rw [hpc]; rfl)⟩
    | takeOrder ds =>
      obtain ⟨hpc, rfl⟩ := guarded_eq_some.mp hs
      have hr := hb.both_returned (by rw [hpc]; rfl)
      have hall : ∀ c, (a.client c).arrived = 1 := fun c =>
        BarrierClientPc.asSemaphore_returned.mp ((h.at_client c).symm.trans (hr c))
      exact barrier_waiter_catches_up h ha (by rw [← h.waiter, hpc]; rfl) hall ds
    | _ => cases he
  | _ => cases he

omit [DecidableEq Drink] in
theorem round_sameOrdering {s₀ : St Drink} (h0 : Ready s₀) (cycle : Nat) (wanted : Client → List Drink) :
    SameOrdering (barrierRound cycle wanted) (roundOf s₀ wanted) :=
  ⟨h0.alive, rfl, rfl, rfl, rfl, h0.orderMutex, rfl⟩

omit [DecidableEq Drink] in
theorem ordering_inRound {e : Ev Drink} (h : e.ordering = true) : e.inRound = true := by
  cases e with
  | main e => cases h
  | _ => rfl

/-- Two states that rounds of the two versions have come to. -/
structure Alongside (cycle : Nat) (s₀ : St Drink) (wanted : Client → List Drink) (a : BarrierSt Drink) (b : St Drink) :
    Prop where
  same : SameOrdering a b
  barrier : Reach barrierStep (fun _ _ => True) (barrierRound cycle wanted) a
  semaphore : Reach step (fun _ e => e.ordering = true) (roundOf s₀ wanted) b

theorem Alongside.desk {s₀ b : St Drink} {a : BarrierSt Drink} {cycle : Nat} {wanted : Client → List Drink}
    (h0 : Ready s₀) (h : Alongside cycle s₀ wanted a b) : DeskInv b :=
  round_desk (fun _ _ he => ordering_inRound he) h0.semOrderDrink h0.orderMutex h.semaphore

/-- Whatever the clients choose and whatever cycle the barrier is in, the calls of
    alambix_order_drink and alambix_take_order have the same finite traces in both. -/
theorem same_traces {s₀ : St Drink} (h0 : Ready s₀) (cycle : Nat) (wanted : Client → List Drink) :
    barrierTraces cycle wanted = semaphoreTraces s₀ wanted := by
  have hstart : Alongside cycle s₀ wanted _ _ := ⟨round_sameOrdering h0 cycle wanted, .refl, .refl⟩
  apply traces_eq (R := Alongside cycle s₀ wanted) hstart
  · intro a b e a' h hok hs
    obtain ⟨b', hans, hsame⟩ := barrier_answered h.same (reach_barrierInv h.barrier) (h.desk h0) hs
    exact ⟨b', hans, hsame, h.barrier.step hok hs, h.semaphore.trans hans.reach⟩
  · intro a b e b' h hok hs
    obtain ⟨a', hans, hsame⟩ := semaphore_answered h.same (reach_barrierInv h.barrier) (h.desk h0) hok hs
    exact ⟨a', hans, hsame, h.barrier.trans hans.reach, h.semaphore.step hok hs⟩

/-- client1 orders 2, then client0 orders 1, and the order is taken. -/
theorem ordered_across_the_barrier :
    [.orderDrink .client1 2, .orderDrink .client0 1, .takeOrder] ∈ barrierTraces 0 oneEach := by
  have hrun : (exec step (fun _ (e : Ev Nat) => e.ordering = true) (roundOf opened oneEach)
      (orderPlaced ++ ([.waiter (.takeOrder [2, 1])] : List (Ev Nat)))).isSome = true := by decide
  rw [same_traces opened_ready]
  exact exec_traces _ hrun

end Alambix

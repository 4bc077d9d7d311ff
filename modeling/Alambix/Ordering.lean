/-
  Alambix.Ordering — the clients' side: the order list, its mutex and the coins.

  - `DeskInv`: each client's choices are what it has placed, the drink in its hands and
    what it has still to choose; the order list is a shuffle of what the two have placed;
    the mutex is held exactly by the client inside alambix_order_drink (or about to
    unlock), so the list a client read is still the list when it writes; and coins on the
    table plus coins taken are the coins put down.
  - Every event but a new round keeps it (`step_desk`), and a new round starts with it
    where semaphore and mutex are free (`newRound_desk`).

  Proved of one round, whatever the library answers and whatever fails: never two clients
  inside alambix_order_drink, the waiter takes the order only after both clients left
  their loops and then the list is a shuffle of the two chosen lists, and nothing is
  ordered from then on (`no_order_lost_or_taken_early`).
-/

import Alambix.Program
import Alambix.Lib.Shuffle

namespace Alambix

open Lib Lib.Transition
open Function (update)

variable {Drink : Type}

/-! ## What the program counters say -/

/-- The drink a client has chosen and not ordered yet. -/
def ClientPc.inHand : ClientPc Drink → List Drink
  | .mutexLock d => [d]
  | .orderDrink d => [d]
  | .orderWrite d _ => [d]
  | _ => []

def ClientPc.inOrderDrink : ClientPc Drink → Bool
  | .orderDrink _ => true
  | .orderWrite _ _ => true
  | _ => false

def ClientPc.holdsMutex : ClientPc Drink → Bool
  | .orderDrink _ => true
  | .orderWrite _ _ => true
  | .mutexUnlock => true
  | _ => false

def ClientPc.leftLoop : ClientPc Drink → Bool
  | .semPost => true
  | .returned => true
  | _ => false

/-- Coins put on the table. -/
def ClientPc.posted : ClientPc Drink → Nat
  | .returned => 1
  | _ => 0

/-- Coins taken from the table. -/
def WaiterPc.coins : WaiterPc Drink → Nat
  | .semWaitFirst => 0
  | .semWaitSecond => 1
  | _ => 2

/-- The waiter has executed `alambix_take_order`. -/
def WaiterPc.tookOrder : WaiterPc Drink → Bool
  | .semWaitFirst => false
  | .semWaitSecond => false
  | .takeOrder => false
  | _ => true

theorem ClientPc.posted_le (pc : ClientPc Drink) : pc.posted ≤ 1 := by cases pc <;> simp [posted]

theorem ClientPc.posted_eq_one {pc : ClientPc Drink} : pc.posted = 1 ↔ pc = .returned := by
  cases pc <;> simp [posted]

theorem ClientPc.inOrderDrink_holds {pc : ClientPc Drink} (h : pc.inOrderDrink = true) : pc.holdsMutex = true := by
  cases pc <;> simp_all [inOrderDrink, holdsMutex]

theorem WaiterPc.tookOrder_coins {pc : WaiterPc Drink} (h : pc.tookOrder = true) : pc.coins = 2 := by
  cases pc <;> simp_all [tookOrder, coins]

/-! ## The invariant -/

structure ClientInv (s : St Drink) (c : Client) : Prop where
  split : s.wanted c = s.placed c ++ (s.client c).inHand ++ s.chosen c
  holder : (s.client c).holdsMutex = true ↔ s.orderMutex = some c
  seen : ∀ d l, s.client c = .orderWrite d l → l = s.order
  done : (s.client c).leftLoop = true → s.chosen c = []

structure DeskInv (s : St Drink) : Prop where
  clients : ∀ c, ClientInv s c
  shuffled : Shuffle (s.placed .client0) (s.placed .client1) s.order
  coins : s.semOrderDrink + s.waiter.coins = (s.client .client0).posted + (s.client .client1).posted

/-- Another actor's event leaves a client's own fields alone; it matters only what it does
    to the mutex, and to the order list while this client holds the mutex. -/
theorem ClientInv.frame {s s' : St Drink} {c : Client} (hi : ClientInv s c)
    (hpc : s'.client c = s.client c) (hch : s'.chosen c = s.chosen c) (hw : s'.wanted c = s.wanted c)
    (hp : s'.placed c = s.placed c) (hm : s'.orderMutex = some c ↔ s.orderMutex = some c)
    (ho : (s.client c).holdsMutex = true → s'.order = s.order) : ClientInv s' c where
  split := by rw [hpc, hch, hw, hp]; exact hi.split
  holder := by rw [hpc, hm]; exact hi.holder
  seen := by
    intro d l h
    rw [hpc] at h
    rw [ho (by simp [h, ClientPc.holdsMutex])]
    exact hi.seen d l h
  done := by rw [hpc, hch]; exact hi.done

theorem DeskInv.frame {s s' : St Drink} (hi : DeskInv s) (hpc : s'.client = s.client) (hch : s'.chosen = s.chosen)
    (hw : s'.wanted = s.wanted) (hp : s'.placed = s.placed) (hm : s'.orderMutex = s.orderMutex)
    (ho : s'.order = s.order) (hs : s'.semOrderDrink + s'.waiter.coins = s.semOrderDrink + s.waiter.coins) :
    DeskInv s' where
  clients c := (hi.clients c).frame (by rw [hpc]) (by rw [hch]) (by rw [hw]) (by rw [hp]) (by rw [hm]) fun _ => ho
  shuffled := by rw [hp, ho]; exact hi.shuffled
  coins := by rw [hpc, hs]; exact hi.coins

theorem newRound_desk {s : St Drink} (hs : s.semOrderDrink = 0) (hm : s.orderMutex = none)
    (wanted : Client → List Drink) : DeskInv (newRound s wanted) where
  clients c := by
    constructor <;> simp [newRound, ClientPc.inHand, ClientPc.holdsMutex, ClientPc.leftLoop, hm]
  shuffled := .nil
  coins := by simp [newRound, hs, WaiterPc.coins, ClientPc.posted]

theorem boot_desk : DeskInv (boot : St Drink) where
  clients c := by constructor <;> simp [boot, ClientPc.inHand, ClientPc.holdsMutex]
  shuffled := .nil
  coins := rfl

/-- Two coins taken: both clients have put theirs. -/
theorem DeskInv.both_returned {s : St Drink} (hi : DeskInv s) (hw : s.waiter.coins = 2) (c : Client) :
    s.client c = .returned := by
  have hcoins := hi.coins
  have h0 := (s.client .client0).posted_le
  have h1 := (s.client .client1).posted_le
  apply ClientPc.posted_eq_one.mp
  cases c <;> omega

/-- Once everybody has returned no coin is left and nobody has the mutex. -/
theorem DeskInv.clean {s : St Drink} (hi : DeskInv s) (hr : AllReturned s) :
    s.semOrderDrink = 0 ∧ s.orderMutex = none := by
  obtain ⟨⟨hc0, hc1⟩, hw, -⟩ := hr
  have hcoins := hi.coins
  rw [hw, hc0, hc1] at hcoins
  simp only [WaiterPc.coins, ClientPc.posted] at hcoins
  refine ⟨by omega, ?_⟩
  cases hm : s.orderMutex with
  | none => rfl
  | some c =>
    have hold := (hi.clients c).holder.mpr hm
    cases c <;> simp [hc0, hc1, ClientPc.holdsMutex] at hold

/-- A client out of its loop has placed everything it wanted. -/
theorem DeskInv.placed_all {s : St Drink} (hi : DeskInv s) (hr : ∀ c, s.client c = .returned) (c : Client) :
    s.placed c = s.wanted c := by
  have hsplit := (hi.clients c).split
  have hdone := (hi.clients c).done (by rw [hr c]; rfl)
  rw [hr c, hdone] at hsplit
  simpa [ClientPc.inHand] using hsplit.symm

/-! ## Each event keeps it -/

theorem timer_desk {s s' : St Drink} {e : TimerEv} (hi : DeskInv s)
    (h : timerDrinkPrepare s e = some s') : DeskInv s' := by
  rw [timer_touches h]
  exact hi.frame rfl rfl rfl rfl rfl rfl rfl

variable [DecidableEq Drink]

/-- A client's statement keeps what holds of the other client: only the owner of the mutex
    writes the list or gives the mutex back. -/
theorem client_other {s s' : St Drink} {c x : Client} {e : ClientEv Drink} (hi : ∀ c, ClientInv s c)
    (hx : x ≠ c) (h : clientThreadFct c s e = some s') : ClientInv s' x := by
  have hx' : c ≠ x := hx.symm
  have owner : (s.client c).holdsMutex = true → (s.client x).holdsMutex = true → False := by
    intro hc hxh
    have := (hi c).holder.mp hc
    rw [(hi x).holder.mp hxh] at this
    exact hx (Option.some.inj this)
  cases e with
  | chooseDrink d =>
    obtain ⟨-, rfl⟩ := guarded_eq_some.mp h
    exact (hi x).frame (by simp [hx]) (by simp [hx]) rfl rfl Iff.rfl fun _ => rfl
  | orderWrite d seen =>
    obtain ⟨hpc, rfl⟩ := guarded_eq_some.mp h
    exact (hi x).frame (by simp [hx]) rfl rfl (by simp [hx]) Iff.rfl
      fun hold => (owner (by simp [hpc, ClientPc.holdsMutex]) hold).elim
  | mutexLock d =>
    obtain ⟨⟨-, hfree⟩, rfl⟩ := guarded_eq_some.mp h
    exact (hi x).frame (by simp [hx]) rfl rfl rfl (by simp [hx', hfree]) fun _ => rfl
  | mutexUnlock =>
    obtain ⟨hpc, rfl⟩ := guarded_eq_some.mp h
    have hown : s.orderMutex = some c := (hi c).holder.mp (by simp [hpc, ClientPc.holdsMutex])
    exact (hi x).frame (by simp [hx]) rfl rfl rfl (by simp [hown, hx']) fun _ => rfl
  | _ =>
    obtain ⟨-, rfl⟩ := guarded_eq_some.mp h
    exact (hi x).frame (by simp [hx]) rfl rfl rfl Iff.rfl fun _ => rfl

theorem client_own {s s' : St Drink} {c : Client} {e : ClientEv Drink} (hi : ClientInv s c)
    (h : clientThreadFct c s e = some s') : ClientInv s' c := by
  obtain ⟨hsplit, hholder, hseen, hdone⟩ := hi
  cases e with
  | chooseDrink d =>
    obtain ⟨⟨hpc, hd⟩, rfl⟩ := guarded_eq_some.mp h
    obtain ⟨rest, hrest⟩ := List.head?_eq_some_iff.mp hd
    rw [hpc] at hsplit hholder
    refine ⟨?_, ?_, ?_, ?_⟩
    · simpa [hrest, ClientPc.inHand] using hsplit
    · simpa [ClientPc.holdsMutex] using hholder
    · intro d' l hw; simp at hw
    · intro hleft; simp [ClientPc.leftLoop] at hleft
  | chooseNull =>
    obtain ⟨⟨hpc, hnull⟩, rfl⟩ := guarded_eq_some.mp h
    rw [hpc] at hsplit hholder
    refine ⟨?_, ?_, ?_, ?_⟩
    · simpa [ClientPc.inHand] using hsplit
    · simpa [ClientPc.holdsMutex] using hholder
    · intro d' l hw; simp at hw
    · exact fun _ => hnull
  | mutexLock d =>
    obtain ⟨⟨hpc, hfree⟩, rfl⟩ := guarded_eq_some.mp h
    rw [hpc] at hsplit
    refine ⟨?_, ?_, ?_, ?_⟩
    · simpa [ClientPc.inHand] using hsplit
    · simp [ClientPc.holdsMutex]
    · intro d' l hw; simp at hw
    · intro hleft; simp [ClientPc.leftLoop] at hleft
  | orderRead d =>
    obtain ⟨hpc, rfl⟩ := guarded_eq_some.mp h
    rw [hpc] at hsplit hholder
    refine ⟨?_, ?_, ?_, ?_⟩
    · simpa [ClientPc.inHand] using hsplit
    · simpa [ClientPc.holdsMutex] using hholder
    · intro d' l hw
      simp only [Function.update_self, ClientPc.orderWrite.injEq] at hw
      exact hw.2.symm
    · intro hleft; simp [ClientPc.leftLoop] at hleft
  | orderWrite d seen =>
    obtain ⟨hpc, rfl⟩ := guarded_eq_some.mp h
    rw [hpc] at hsplit hholder
    refine ⟨?_, ?_, ?_, ?_⟩
    · simpa [ClientPc.inHand] using hsplit
    · simpa [ClientPc.holdsMutex] using hholder
    · intro d' l hw; simp at hw
    · intro hleft; simp [ClientPc.leftLoop] at hleft
  | mutexUnlock =>
    obtain ⟨hpc, rfl⟩ := guarded_eq_some.mp h
    rw [hpc] at hsplit
    refine ⟨?_, ?_, ?_, ?_⟩
    · simpa [ClientPc.inHand] using hsplit
    · simp [ClientPc.holdsMutex]
    · intro d' l hw; simp at hw
    · intro hleft; simp [ClientPc.leftLoop] at hleft
  | semPost =>
    obtain ⟨hpc, rfl⟩ := guarded_eq_some.mp h
    rw [hpc] at hsplit hholder hdone
    refine ⟨?_, ?_, ?_, ?_⟩
    · simpa [ClientPc.inHand] using hsplit
    · simpa [ClientPc.holdsMutex] using hholder
    · intro d' l hw; simp at hw
    · exact fun _ => hdone rfl

theorem client_shuffled {s s' : St Drink} {c : Client} {e : ClientEv Drink} (hi : DeskInv s)
    (h : clientThreadFct c s e = some s') : Shuffle (s'.placed .client0) (s'.placed .client1) s'.order := by
  cases e with
  | orderWrite d seen =>
    obtain ⟨hpc, rfl⟩ := guarded_eq_some.mp h
    obtain rfl := (hi.clients c).seen d seen hpc
    cases c with
    | client0 => simpa using hi.shuffled.snoc_left d
    | client1 => simpa using hi.shuffled.snoc_right d
  | _ =>
    obtain ⟨-, rfl⟩ := guarded_eq_some.mp h
    exact hi.shuffled

theorem client_desk {s s' : St Drink} {c : Client} {e : ClientEv Drink} (hi : DeskInv s)
    (h : clientThreadFct c s e = some s') : DeskInv s' := by
  refine ⟨fun x => ?_, client_shuffled hi h, ?_⟩
  · by_cases hx : x = c
    · subst hx
      exact client_own (hi.clients x) h
    · exact client_other hi.clients hx h
  · have hcoins := hi.coins
    cases e <;> obtain ⟨hpc, rfl⟩ := guarded_eq_some.mp h <;> cases c <;>
      simp_all [ClientPc.posted] <;> omega

theorem waiter_desk {s s' : St Drink} {e : WaiterEv Drink} (hi : DeskInv s)
    (h : waiterThreadFct s e = some s') : DeskInv s' := by
  cases e with
  | semWaitFirst =>
    obtain ⟨⟨hpc, hpos⟩, rfl⟩ := guarded_eq_some.mp h
    exact hi.frame rfl rfl rfl rfl rfl rfl (by simp only [hpc, WaiterPc.coins]; omega)
  | semWaitSecond =>
    obtain ⟨⟨hpc, hpos⟩, rfl⟩ := guarded_eq_some.mp h
    exact hi.frame rfl rfl rfl rfl rfl rfl (by simp only [hpc, WaiterPc.coins]; omega)
  | _ =>
    obtain ⟨hpc, rfl⟩ := guarded_eq_some.mp h
    exact hi.frame rfl rfl rfl rfl rfl rfl (by simp [hpc, WaiterPc.coins])

theorem bartender_desk {s s' : St Drink} {e : BartenderEv Drink} (hi : DeskInv s)
    (h : bartenderThreadFct s e = some s') : DeskInv s' := by
  rw [bartender_touches h]
  exact hi.frame rfl rfl rfl rfl rfl rfl rfl

theorem step_desk {s s' : St Drink} {e : Ev Drink} (hi : DeskInv s) (he : e.inRound = true)
    (h : step s e = some s') : DeskInv s' := by
  obtain ⟨-, h⟩ := step_eq_some.mp h
  cases e with
  | main e => cases he
  | client c e => exact client_desk hi h
  | waiter e => exact waiter_desk hi h
  | bartender e => exact bartender_desk hi h
  | timer e => exact timer_desk hi h

/-- A new round finds the table empty and the mutex free. -/
theorem main_desk {s s' : St Drink} {e : MainEv Drink} (hi : DeskInv s) (h : mainThread s e = some s') :
    DeskInv s' := by
  rcases main_cases h with ⟨fs, w, -, -, rfl⟩ | ⟨chosen, -, -, hr, rfl⟩ | ⟨-, m, x, o, l, rfl⟩
  · exact hi.frame rfl rfl rfl rfl rfl rfl rfl
  · obtain ⟨hs, hm⟩ := hi.clean hr
    exact (newRound_desk hs hm chosen).frame rfl rfl rfl rfl rfl rfl rfl
  · exact hi.frame rfl rfl rfl rfl rfl rfl rfl

/-! ## One round -/

theorem step_wanted {s s' : St Drink} {e : Ev Drink} (he : e.inRound = true) (h : step s e = some s') :
    s'.wanted = s.wanted := by
  obtain ⟨-, h⟩ := step_eq_some.mp h
  cases e with
  | main e => cases he
  | client c e => rw [client_touches h]
  | waiter e => rw [waiter_touches h]
  | bartender e => rw [bartender_touches h]
  | timer e => rw [timer_touches h]

theorem step_main_unchanged {s s' : St Drink} {e : Ev Drink} (he : e.inRound = true) (h : step s e = some s') :
    s'.main = s.main := by
  obtain ⟨-, h⟩ := step_eq_some.mp h
  cases e with
  | main e => cases he
  | client c e => rw [client_touches h]
  | waiter e => rw [waiter_touches h]
  | bartender e => rw [bartender_touches h]
  | timer e => rw [timer_touches h]

theorem round_wanted {ok : St Drink → Ev Drink → Prop} (hok : ∀ s e, ok s e → e.inRound = true) {s₀ s : St Drink}
    {wanted : Client → List Drink} (h : Reach step ok (roundOf s₀ wanted) s) : s.wanted = wanted :=
  h.inv (I := fun s => s.wanted = wanted) rfl fun _ _ _ hi hk hs => (step_wanted (hok _ _ hk) hs).trans hi

theorem round_desk {ok : St Drink → Ev Drink → Prop} (hok : ∀ s e, ok s e → e.inRound = true) {s₀ s : St Drink}
    (hs : s₀.semOrderDrink = 0) (hm : s₀.orderMutex = none) {wanted : Client → List Drink}
    (h : Reach step ok (roundOf s₀ wanted) s) : DeskInv s :=
  h.inv ((newRound_desk hs hm wanted).frame rfl rfl rfl rfl rfl rfl rfl)
    fun _ _ _ hi hk hs => step_desk hi (hok _ _ hk) hs

/-- An event inside `alambix_order_drink`. -/
def ClientEv.IsOrderDrink : ClientEv Drink → Prop
  | .orderRead _ => True
  | .orderWrite _ _ => True
  | _ => False

theorem returned_orders_nothing {s s' : St Drink} {c : Client} {e : ClientEv Drink} (hr : s.client c = .returned)
    (he : e.IsOrderDrink) : step s (.client c e) ≠ some s' := by
  intro h
  obtain ⟨-, h⟩ := step_eq_some.mp h
  cases e with
  | orderRead d =>
    obtain ⟨hpc, -⟩ := guarded_eq_some.mp h
    rw [hr] at hpc; cases hpc
  | orderWrite d seen =>
    obtain ⟨hpc, -⟩ := guarded_eq_some.mp h
    rw [hr] at hpc; cases hpc
  | _ => exact he.elim

/-- At most one thread is inside alambix_order_drink; the waiter takes the order when both
    clients have left their loops and the order list is a shuffle of what they chose;
    nothing is ordered after that. -/
theorem no_order_lost_or_taken_early {s₀ s : St Drink} (hs : s₀.semOrderDrink = 0) (hm : s₀.orderMutex = none)
    (wanted : Client → List Drink) (h : Reach step (fun _ e => e.inRound = true) (roundOf s₀ wanted) s) :
    (∀ c c', (s.client c).inOrderDrink = true → (s.client c').inOrderDrink = true → c = c') ∧
    (s.waiter = .takeOrder →
      (∀ c, (s.client c).leftLoop = true) ∧ Shuffle (wanted .client0) (wanted .client1) s.order) ∧
    (s.waiter.tookOrder = true → ∀ c e s', ClientEv.IsOrderDrink e → step s (.client c e) ≠ some s') := by
  have hi : DeskInv s := round_desk (fun _ _ h => h) hs hm h
  have hw : s.wanted = wanted := round_wanted (fun _ _ h => h) h
  refine ⟨fun c c' hc hc' => ?_, fun hpc => ?_, fun htook c e s' he => ?_⟩
  · have h1 := (hi.clients c).holder.mp (ClientPc.inOrderDrink_holds hc)
    have h2 := (hi.clients c').holder.mp (ClientPc.inOrderDrink_holds hc')
    exact Option.some.inj (h1.symm.trans h2)
  · have hr := hi.both_returned (by rw [hpc]; rfl)
    refine ⟨fun c => by rw [hr c]; rfl, ?_⟩
    have hshuf := hi.shuffled
    rwa [hi.placed_all hr, hi.placed_all hr, hw] at hshuf
  · exact returned_orders_nothing (hi.both_returned (WaiterPc.tookOrder_coins htook) c) he

/-- The events of client `c` ordering its only drink when the list read `seen`. -/
def orderOne (c : Client) (d : Drink) (seen : List Drink) : List (Ev Drink) :=
  [.client c (.chooseDrink d), .client c (.mutexLock d), .client c (.orderRead d), .client c (.orderWrite d seen),
    .client c .mutexUnlock, .client c .chooseNull, .client c .semPost]

/-- One drink each: 1 for client0, 2 for client1. -/
def oneEach : Client → List Nat
  | .client0 => [1]
  | .client1 => [2]

/-- client1 orders before client0; the waiter is about to take the order. -/
def orderPlaced : List (Ev Nat) :=
  orderOne .client1 2 [] ++ [.waiter .semWaitFirst] ++ orderOne .client0 1 [2] ++ [.waiter .semWaitSecond]

theorem order_placed_is_complete :
    ∃ s, Reach step (fun _ e => e.inRound = true) (roundOf opened oneEach) s ∧ s.waiter = .takeOrder ∧
      s.order = [2, 1] ∧ Shuffle [1] [2] s.order ∧
      (∀ c e s', ClientEv.IsOrderDrink e → s.waiter.tookOrder = true → step s (.client c e) ≠ some s') := by
  have hr : Reach step (fun _ e => e.inRound = true) (roundOf opened oneEach) _ :=
    exec_get_reach orderPlaced (by decide)
  obtain ⟨-, h2, h3⟩ := no_order_lost_or_taken_early rfl rfl oneEach hr
  exact ⟨_, hr, by decide, by decide, (h2 (by decide)).2, fun c e s' he htook => h3 htook c e s' he⟩

end Alambix

/-
  Alambix.Delivery — the order on its way from the waiter to the still.

  - `LineInv`: the order taken is what was fetched and what is left to fetch; what was
    fetched is what was sent and the drink in the waiter's hands; what was sent is what
    was received and what is in the queue; what was received is what was started and the
    drink in the bartender's buffer waiting for the still.
  - `HandOverInv`: the coin of sem_provide_drink, put down after alambix_provide_order and
    taken before alambix_serve_order; the bartender receives nothing before the order is
    taken.
  - `Complete`: once the bartender has left its loop nothing is left to fetch, to send or
    to receive. This one needs alambix_has_ordered_drink to answer exactly.

  Proved of one round: delivery in order and without loss at every moment, whatever
  alambix_has_ordered_drink answers, and a whole order at the moment it is served, if it
  answers exactly (`delivered_in_order`).
-/

import Alambix.Ordering

namespace Alambix

open Lib.Mqueue Lib.Transition

variable {Drink : Type}

/-! ## What the program counters say -/

/-- The drink the waiter has fetched and not sent. -/
def WaiterPc.unsent : WaiterPc Drink → List Drink
  | .mqSend d => [d]
  | .failMqClose d => [d]
  | .failExit d => [d]
  | _ => []

def WaiterPc.leftLoop : WaiterPc Drink → Bool
  | .semWaitProvide => true
  | .serveOrder => true
  | .returned => true
  | _ => false

/-- Coins the waiter has taken from sem_provide_drink. -/
def WaiterPc.served : WaiterPc Drink → Nat
  | .serveOrder => 1
  | .returned => 1
  | _ => 0

/-- Coins the bartender has put down. -/
def BartenderPc.posted : BartenderPc → Nat
  | .returned => 1
  | _ => 0

def BartenderPc.provided : BartenderPc → Bool
  | .semPost => true
  | .returned => true
  | _ => false

def BartenderPc.leftLoop : BartenderPc → Bool
  | .provideOrder => true
  | .semPost => true
  | .returned => true
  | _ => false

/-- The bartender waits for a message, or its mq_receive has failed. -/
def BartenderPc.receiving : BartenderPc → Bool
  | .mqReceive => true
  | .failMqClose => true
  | .failMqUnlink => true
  | .failExit => true
  | _ => false

/-- The drink the bartender has received and not started. -/
def St.unstarted (s : St Drink) : List Drink := if s.bartender = .stillStart then s.buffer.toList else []

theorem WaiterPc.unsent_le (pc : WaiterPc Drink) : pc.unsent.length ≤ 1 := by cases pc <;> simp [unsent]

theorem BartenderPc.posted_eq_one {pc : BartenderPc} : pc.posted = 1 ↔ pc = .returned := by
  cases pc <;> simp [posted]

theorem BartenderPc.posted_le (pc : BartenderPc) : pc.posted ≤ 1 := by cases pc <;> simp [posted]

/-! ## The invariants -/

structure LineInv (s : St Drink) : Prop where
  fetched : s.taken = s.fetched ++ s.toFetch
  sent : s.fetched = s.sent ++ s.waiter.unsent
  queued : s.sent = s.received ++ s.mq.msgs
  started : s.received = s.started ++ s.unstarted
  buffered : s.bartender = .stillStart → ∃ d, s.buffer = some d
  before : s.waiter.tookOrder = false → s.taken = []
  after : s.waiter.leftLoop = true → s.toFetch = []

structure HandOverInv (s : St Drink) : Prop where
  coin : s.semProvideDrink + s.waiter.served = s.bartender.posted
  provided : s.provided = s.bartender.provided
  early : s.waiter.tookOrder = false → s.bartender.receiving = true
  served : s.waiter = .returned → s.served = true

/-- The bartender has left its loop only with the whole order received. -/
def Complete (s : St Drink) : Prop :=
  s.bartender.leftLoop = true → s.toFetch = [] ∧ s.waiter.unsent = [] ∧ s.mq.msgs = []

/-- The events that touch neither the waiter's nor the bartender's side keep all of it. -/
def SameLine (s s' : St Drink) : Prop :=
  (s'.waiter = s.waiter ∧ s'.bartender = s.bartender ∧ s'.mq = s.mq ∧ s'.buffer = s.buffer) ∧
  (s'.toFetch = s.toFetch ∧ s'.taken = s.taken ∧ s'.fetched = s.fetched ∧ s'.sent = s.sent) ∧
  (s'.received = s.received ∧ s'.started = s.started) ∧
  (s'.semProvideDrink = s.semProvideDrink ∧ s'.provided = s.provided ∧ s'.served = s.served) ∧
  s'.history = s.history

theorem LineInv.frame {s s' : St Drink} (hi : LineInv s) (h : SameLine s s') : LineInv s' := by
  obtain ⟨⟨h1, h2, h3, h4⟩, ⟨h5, h6, h7, h8⟩, ⟨h9, h10⟩, -, -⟩ := h
  obtain ⟨i1, i2, i3, i4, i5, i6, i7⟩ := hi
  constructor <;> simp_all [St.unstarted]

theorem HandOverInv.frame {s s' : St Drink} (hi : HandOverInv s) (h : SameLine s s') : HandOverInv s' := by
  obtain ⟨⟨h1, h2, -, -⟩, -, -, ⟨h3, h4, h5⟩, -⟩ := h
  obtain ⟨i1, i2, i3, i4⟩ := hi
  constructor <;> simp_all

theorem Complete.frame {s s' : St Drink} (hi : Complete s) (h : SameLine s s') : Complete s' := by
  obtain ⟨⟨h1, h2, h3, -⟩, ⟨h4, -⟩, -⟩ := h
  unfold Complete at *
  rw [h1, h2, h3, h4]
  exact hi

/-- An order not yet taken leaves the whole line empty. -/
theorem LineInv.empty_before {s : St Drink} (hi : LineInv s) (hw : s.waiter.tookOrder = false) :
    s.fetched = [] ∧ s.toFetch = [] ∧ s.sent = [] ∧ s.received = [] ∧ s.mq.msgs = [] := by
  have h1 := hi.fetched
  rw [hi.before hw] at h1
  obtain ⟨hf, ht⟩ := List.append_eq_nil_iff.mp h1.symm
  have h2 := hi.sent
  rw [hf] at h2
  obtain ⟨hs, -⟩ := List.append_eq_nil_iff.mp h2.symm
  have h3 := hi.queued
  rw [hs] at h3
  obtain ⟨hr, hq⟩ := List.append_eq_nil_iff.mp h3.symm
  exact ⟨hf, ht, hs, hr, hq⟩

theorem LineInv.taken_eq {s : St Drink} (hi : LineInv s) :
    s.taken = s.received ++ s.mq.msgs ++ s.waiter.unsent ++ s.toFetch := by
  rw [hi.fetched, hi.sent, hi.queued]

/-- When the waiter serves, the bartender has returned. -/
theorem HandOverInv.bartender_returned {s : St Drink} (hi : HandOverInv s) (hw : s.waiter.served = 1) :
    s.bartender = .returned := by
  have hcoin := hi.coin
  have hle := s.bartender.posted_le
  exact BartenderPc.posted_eq_one.mp (by omega)

/-- A bartender out of its loop has started the whole order taken. -/
theorem started_whole_order {s : St Drink} (hl : LineInv s) (hc : Complete s) (hb : s.bartender.leftLoop = true) :
    s.mq.msgs = [] ∧ s.started = s.taken := by
  obtain ⟨ht, hu, hq⟩ := hc hb
  have hns : s.unstarted = [] := by
    unfold St.unstarted
    rw [if_neg]
    intro hpc
    rw [hpc] at hb; cases hb
  refine ⟨hq, ?_⟩
  rw [hl.taken_eq, hl.started, hq, hu, ht, hns]
  simp

theorem newRound_line {s : St Drink} (hq : s.mq.msgs = []) (wanted : Client → List Drink) :
    LineInv (newRound s wanted) := by
  constructor <;> simp [newRound, WaiterPc.unsent, St.unstarted, hq, WaiterPc.leftLoop]

theorem newRound_handOver {s : St Drink} (hs : s.semProvideDrink = 0) (wanted : Client → List Drink) :
    HandOverInv (newRound s wanted) := by
  constructor <;>
    simp [newRound, hs, WaiterPc.served, BartenderPc.posted, BartenderPc.provided, BartenderPc.receiving]

theorem newRound_complete (s : St Drink) (wanted : Client → List Drink) : Complete (newRound s wanted) := by
  intro h
  simp [newRound, BartenderPc.leftLoop] at h

/-! ## Each event keeps them -/

theorem timer_line {s s' : St Drink} {e : TimerEv} (h : timerDrinkPrepare s e = some s') : SameLine s s' := by
  rw [timer_touches h]; simp [SameLine]

variable [DecidableEq Drink]

theorem client_line {s s' : St Drink} {c : Client} {e : ClientEv Drink}
    (h : clientThreadFct c s e = some s') : SameLine s s' := by
  rw [client_touches h]; simp [SameLine]

theorem waiter_line {s s' : St Drink} {e : WaiterEv Drink} (hi : LineInv s)
    (h : waiterThreadFct s e = some s') : LineInv s' := by
  have hsent := hi.sent
  have hbefore := hi.before
  cases e with
  | takeOrder ds =>
    obtain ⟨hpc, rfl⟩ := guarded_eq_some.mp h
    obtain ⟨hf, -, hs, -, -⟩ := hi.empty_before (by rw [hpc]; rfl)
    exact { hi with
      fetched := by rw [hf]; rfl
      sent := by rw [hf, hs]; rfl
      before := fun hw => by cases hw
      after := fun hw => by cases hw }
  | getOrderedDrink d =>
    obtain ⟨⟨hpc, hd⟩, rfl⟩ := guarded_eq_some.mp h
    obtain ⟨rest, hrest⟩ := List.head?_eq_some_iff.mp hd
    rw [hpc] at hsent
    exact { hi with
      fetched := by rw [hi.fetched, hrest]; simp
      sent := by rw [hsent]; simp [WaiterPc.unsent]
      before := fun hw => by cases hw
      after := fun hw => by cases hw }
  | getNull =>
    obtain ⟨⟨hpc, hnull⟩, rfl⟩ := guarded_eq_some.mp h
    rw [hpc] at hsent
    exact { hi with
      sent := hsent
      before := fun hw => by cases hw
      after := fun _ => hnull }
  | mqSend d =>
    obtain ⟨⟨hpc, -⟩, rfl⟩ := guarded_eq_some.mp h
    rw [hpc] at hsent
    exact { hi with
      sent := by rw [hsent]; simp [WaiterPc.unsent]
      queued := by rw [hi.queued]; simp
      before := fun hw => by cases hw
      after := fun hw => by cases hw }
  | _ =>
    -- no drink moves, and the waiter is in its loop or past it as before
    obtain ⟨hpc, rfl⟩ := guarded_eq_some.mp h
    have hafter := hi.after
    refine ⟨hi.fetched, ?_, hi.queued, hi.started, hi.buffered, ?_, ?_⟩ <;>
      simp_all [WaiterPc.unsent, WaiterPc.tookOrder, WaiterPc.leftLoop]

theorem bartender_line {s s' : St Drink} {e : BartenderEv Drink} (hi : LineInv s)
    (h : bartenderThreadFct s e = some s') : LineInv s' := by
  have hstarted := hi.started
  cases e with
  | mqReceive d =>
    obtain ⟨⟨hpc, -, hrcv⟩, rfl⟩ := guarded_eq_some.mp h
    have hnone : s.unstarted = [] := if_neg (by rw [hpc]; intro hs; cases hs)
    rw [hnone, List.append_nil] at hstarted
    exact { hi with
      queued := by rw [hi.queued, hrcv.msgs]; simp
      started := by rw [hstarted]; simp [St.unstarted]
      buffered := fun _ => ⟨d, rfl⟩ }
  | stillStart d =>
    obtain ⟨⟨hpc, hb, -⟩, rfl⟩ := guarded_eq_some.mp h
    have hone : s.unstarted = [d] := by simp [St.unstarted, hpc, hb]
    rw [hone] at hstarted
    exact { hi with
      started := by rw [hstarted]; simp [St.unstarted]
      buffered := fun hs => by cases hs }
  | hasOrderedDrink more =>
    obtain ⟨hpc, rfl⟩ := guarded_eq_some.mp h
    cases more <;> exact { hi with
      started := by rw [hstarted]; simp [St.unstarted, hpc]
      buffered := fun hs => by cases hs }
  | _ =>
    -- neither into alambix_still_start nor out of it
    obtain ⟨hpc, rfl⟩ := guarded_eq_some.mp h
    refine ⟨hi.fetched, hi.sent, hi.queued, ?_, ?_, hi.before, hi.after⟩ <;> simp_all [St.unstarted]

/-- The bartender's coin is on the table or taken. -/
theorem waiter_coin {s s' : St Drink} {e : WaiterEv Drink}
    (hcoin : s.semProvideDrink + s.waiter.served = s.bartender.posted) (h : waiterThreadFct s e = some s') :
    s'.semProvideDrink + s'.waiter.served = s'.bartender.posted := by
  cases e with
  | semWaitProvide =>
    obtain ⟨⟨hpc, hpos⟩, rfl⟩ := guarded_eq_some.mp h
    rw [hpc] at hcoin
    simp only [WaiterPc.served] at hcoin ⊢
    omega
  | exit =>
    obtain ⟨-, rfl⟩ := guarded_eq_some.mp h
    exact hcoin
  | _ =>
    -- no coin taken
    obtain ⟨hpc, rfl⟩ := guarded_eq_some.mp h
    simp only [hpc, WaiterPc.served] at hcoin
    exact hcoin

theorem bartender_coin {s s' : St Drink} {e : BartenderEv Drink}
    (hcoin : s.semProvideDrink + s.waiter.served = s.bartender.posted) (h : bartenderThreadFct s e = some s') :
    s'.semProvideDrink + s'.waiter.served = s'.bartender.posted := by
  cases e with
  | semPost =>
    obtain ⟨hpc, rfl⟩ := guarded_eq_some.mp h
    rw [hpc] at hcoin
    simp only [BartenderPc.posted] at hcoin ⊢
    omega
  | hasOrderedDrink more =>
    obtain ⟨hpc, rfl⟩ := guarded_eq_some.mp h
    rw [hpc] at hcoin
    cases more <;> exact hcoin
  | exit | timerSettimeFail =>
    obtain ⟨-, rfl⟩ := guarded_eq_some.mp h
    exact hcoin
  | _ =>
    -- no coin put down
    obtain ⟨hpc, rfl⟩ := guarded_eq_some.mp h
    simp only [hpc] at hcoin
    exact hcoin

theorem waiter_handOver {s s' : St Drink} {e : WaiterEv Drink} (hi : HandOverInv s)
    (h : waiterThreadFct s e = some s') : HandOverInv s' := by
  have hcoin := waiter_coin hi.coin h
  cases e with
  | semWaitProvide =>
    obtain ⟨-, rfl⟩ := guarded_eq_some.mp h
    exact ⟨hcoin, hi.provided, nofun, nofun⟩
  | serveOrder =>
    obtain ⟨-, rfl⟩ := guarded_eq_some.mp h
    exact ⟨hcoin, hi.provided, nofun, fun _ => rfl⟩
  | _ =>
    obtain ⟨hpc, rfl⟩ := guarded_eq_some.mp h
    have hearly := hi.early
    have hserved := hi.served
    refine ⟨hcoin, hi.provided, ?_, ?_⟩ <;> simp_all [WaiterPc.tookOrder]

/-- The bartender's first message can only come after the order was taken. -/
theorem bartender_handOver {s s' : St Drink} {e : BartenderEv Drink} (hl : LineInv s) (hi : HandOverInv s)
    (h : bartenderThreadFct s e = some s') : HandOverInv s' := by
  have hcoin := bartender_coin hi.coin h
  have hprovided := hi.provided
  have hearly := hi.early
  cases e with
  | mqReceive d =>
    obtain ⟨⟨hpc, -, hrcv⟩, rfl⟩ := guarded_eq_some.mp h
    rw [hpc] at hprovided
    refine ⟨hcoin, hprovided, fun hw => ?_, hi.served⟩
    obtain ⟨-, -, -, -, hq⟩ := hl.empty_before hw
    rw [hrcv.msgs] at hq
    cases hq
  | hasOrderedDrink more =>
    obtain ⟨hpc, rfl⟩ := guarded_eq_some.mp h
    rw [hpc] at hprovided hearly
    cases more with
    | true => exact ⟨hcoin, hprovided, fun _ => rfl, hi.served⟩
    | false => exact ⟨hcoin, hprovided, fun hw => (by cases hearly hw), hi.served⟩
  | semPost =>
    obtain ⟨hpc, rfl⟩ := guarded_eq_some.mp h
    rw [hpc] at hprovided hearly
    exact ⟨hcoin, hprovided, fun hw => (by cases hearly hw), hi.served⟩
  | _ =>
    obtain ⟨hpc, rfl⟩ := guarded_eq_some.mp h
    refine ⟨hcoin, ?_, ?_, hi.served⟩ <;> simp_all [BartenderPc.provided, BartenderPc.receiving]

theorem waiter_complete {s s' : St Drink} {e : WaiterEv Drink} (hh : HandOverInv s) (hi : Complete s)
    (h : waiterThreadFct s e = some s') : Complete s' := by
  intro hb
  cases e with
  | takeOrder ds =>
    obtain ⟨hpc, rfl⟩ := guarded_eq_some.mp h
    have := hh.early (by rw [hpc]; rfl)
    cases hpb : s.bartender <;> simp_all [BartenderPc.leftLoop, BartenderPc.receiving]
  | getOrderedDrink d =>
    obtain ⟨⟨hpc, hd⟩, rfl⟩ := guarded_eq_some.mp h
    obtain ⟨ht, -⟩ := hi hb
    rw [ht] at hd; cases hd
  | _ =>
    obtain ⟨hpc, rfl⟩ := guarded_eq_some.mp h
    have := hi hb
    simp_all [WaiterPc.unsent]

theorem bartender_complete {s s' : St Drink} {e : BartenderEv Drink} (hl : LineInv s) (hi : Complete s)
    (ha : AnswersExactly s (.bartender e)) (h : bartenderThreadFct s e = some s') : Complete s' := by
  intro hb
  cases e with
  | hasOrderedDrink more =>
    obtain ⟨hpc, rfl⟩ := guarded_eq_some.mp h
    cases more with
    | true => simp [BartenderPc.leftLoop] at hb
    | false =>
      -- nothing is missing, so the three parts of the order after `received` are empty
      have hlen : ¬ s.received.length < s.taken.length := fun hlt => by simpa using (ha false rfl).mpr hlt
      rw [hl.taken_eq] at hlen
      simp only [List.length_append] at hlen
      have hf : s.toFetch = [] := List.eq_nil_of_length_eq_zero (by omega)
      have hu : s.waiter.unsent = [] := List.eq_nil_of_length_eq_zero (by omega)
      have hq : s.mq.msgs = [] := List.eq_nil_of_length_eq_zero (by omega)
      exact ⟨hf, hu, hq⟩
  | provideOrder =>
    obtain ⟨hpc, rfl⟩ := guarded_eq_some.mp h
    exact hi (by rw [hpc]; rfl)
  | semPost =>
    obtain ⟨hpc, rfl⟩ := guarded_eq_some.mp h
    exact hi (by rw [hpc]; rfl)
  | _ =>
    obtain ⟨hpc, rfl⟩ := guarded_eq_some.mp h
    simp_all [BartenderPc.leftLoop]

/-! ## One round -/

theorem step_line {s s' : St Drink} {e : Ev Drink} (hl : LineInv s) (hh : HandOverInv s) (he : e.inRound = true)
    (h : step s e = some s') : LineInv s' ∧ HandOverInv s' := by
  obtain ⟨-, h⟩ := step_eq_some.mp h
  cases e with
  | main e => cases he
  | client c e => exact ⟨hl.frame (client_line h), hh.frame (client_line h)⟩
  | waiter e => exact ⟨waiter_line hl h, waiter_handOver hh h⟩
  | bartender e => exact ⟨bartender_line hl h, bartender_handOver hl hh h⟩
  | timer e => exact ⟨hl.frame (timer_line h), hh.frame (timer_line h)⟩

theorem step_complete {s s' : St Drink} {e : Ev Drink} (hl : LineInv s) (hh : HandOverInv s) (hc : Complete s)
    (he : e.inRound = true) (ha : AnswersExactly s e) (h : step s e = some s') : Complete s' := by
  obtain ⟨-, h⟩ := step_eq_some.mp h
  cases e with
  | main e => cases he
  | client c e => exact hc.frame (client_line h)
  | waiter e => exact waiter_complete hh hc h
  | bartender e => exact bartender_complete hl hc ha h
  | timer e => exact hc.frame (timer_line h)

theorem round_line {ok : St Drink → Ev Drink → Prop} (hok : ∀ s e, ok s e → e.inRound = true) {s₀ s : St Drink}
    (h0 : Ready s₀) {wanted : Client → List Drink} (h : Reach step ok (roundOf s₀ wanted) s) :
    LineInv s ∧ HandOverInv s := by
  have hq : s₀.mq.msgs = [] := by rw [h0.mq]
  have same : SameLine (newRound s₀ wanted) (roundOf s₀ wanted) := by simp [SameLine, roundOf]
  exact h.inv (I := fun s => LineInv s ∧ HandOverInv s)
    ⟨(newRound_line hq wanted).frame same, (newRound_handOver h0.semProvideDrink wanted).frame same⟩
    fun _ _ _ hi hk hs => step_line hi.1 hi.2 (hok _ _ hk) hs

theorem round_complete {ok : St Drink → Ev Drink → Prop} (hok : ∀ s e, ok s e → e.inRound = true)
    (ha : ∀ s e, ok s e → AnswersExactly s e) {s₀ s : St Drink} (h0 : Ready s₀) {wanted : Client → List Drink}
    (h : Reach step ok (roundOf s₀ wanted) s) : Complete s :=
  h.inv_with (J := fun s => LineInv s ∧ HandOverInv s) (fun _ hr => round_line hok h0 hr)
    (newRound_complete s₀ wanted) fun _ _ _ hJ hi hk hs => step_complete hJ.1 hJ.2 hi (hok _ _ hk) (ha _ _ hk) hs

/-- Whatever alambix_has_ordered_drink answers, the sequence started is a prefix of the
    sequence sent, and what was fetched is what was received, what is in the queue and at
    most one drink. If it answers exactly, the waiter serves only after
    alambix_provide_order, with the queue empty and the whole order started. -/
theorem delivered_in_order {s₀ s : St Drink} (h0 : Ready s₀) (wanted : Client → List Drink) :
    (Reach step (fun _ e => e.inRound = true) (roundOf s₀ wanted) s →
      s.started <+: s.sent ∧ s.sent <+: s.fetched ∧ s.fetched <+: s.taken ∧
      ∃ inHand, inHand.length ≤ 1 ∧ s.fetched = s.received ++ s.mq.msgs ++ inHand) ∧
    (Reach step (fun s e => e.inRound = true ∧ AnswersExactly s e) (roundOf s₀ wanted) s → s.waiter = .serveOrder →
      s.provided = true ∧ s.bartender = .returned ∧ s.mq.msgs = [] ∧ s.started = s.taken) := by
  refine ⟨fun h => ?_, fun h hpc => ?_⟩
  · obtain ⟨hl, -⟩ := round_line (fun _ _ h => h) h0 h
    refine ⟨⟨s.unstarted ++ s.mq.msgs, ?_⟩, ⟨s.waiter.unsent, hl.sent.symm⟩, ⟨s.toFetch, hl.fetched.symm⟩,
      s.waiter.unsent, s.waiter.unsent_le, ?_⟩
    · rw [hl.queued, hl.started, List.append_assoc]
    · rw [hl.sent, hl.queued]
  · obtain ⟨hl, hh⟩ := round_line (fun _ _ h => h.1) h0 h
    have hc := round_complete (fun _ _ h => h.1) (fun _ _ h => h.2) h0 h
    have hb := hh.bartender_returned (by rw [hpc]; rfl)
    obtain ⟨hq, hs⟩ := started_whole_order hl hc (by rw [hb]; rfl)
    exact ⟨by rw [hh.provided, hb]; rfl, hb, hq, hs⟩

/-- From the order placed to its second drink in the still, the first one being made: the
    bartender has left its loop. -/
def orderStarted : List (Ev Nat) :=
  orderPlaced ++
    [.waiter (.takeOrder [2, 1]), .waiter (.getOrderedDrink 2), .waiter (.mqSend 2),
      .bartender (.mqReceive 2), .bartender (.stillStart 2), .bartender .timerSettime,
      .bartender (.hasOrderedDrink true), .waiter (.getOrderedDrink 1), .waiter (.mqSend 1), .waiter .getNull,
      .bartender (.mqReceive 1), .timer .expire, .timer .stillStop, .bartender (.stillStart 1),
      .bartender .timerSettime, .bartender (.hasOrderedDrink false)]

/-- The waiter is about to serve. -/
def orderProvided : List (Ev Nat) :=
  orderStarted ++ [.bartender .provideOrder, .bartender .semPost, .waiter .semWaitProvide]

theorem order_provided_is_delivered :
    ∃ s, Reach step (fun s e => e.inRound = true ∧ AnswersExactly s e) (roundOf opened oneEach) s ∧
      s.waiter = .serveOrder ∧ s.started <+: s.sent ∧ s.mq.msgs = [] ∧ s.started = s.taken ∧ s.taken = [2, 1] := by
  have hr : Reach step (fun s e => e.inRound = true ∧ AnswersExactly s e) (roundOf opened oneEach) _ :=
    exec_get_reach orderProvided (by decide)
  have hw := (delivered_in_order (s := _) opened_ready oneEach).2 hr (by decide)
  have hp := (delivered_in_order (s := _) opened_ready oneEach).1 (hr.mono fun _ _ h => h.1)
  exact ⟨_, hr, by decide, hp.1, hw.2.2.1, hw.2.2.2, by decide⟩

end Alambix

/-
  Alambix.Pub — what the program shows of the pub, over any number of rounds.

  `Pub` is the pub as its customers see it: what each client has still to order, the order
  on the list, what is still to be made of the order taken, whether the still runs, and how
  far the round is. Its steps are the calls that change one of these (`Scene`): a round
  begins, a drink is put on the list, the order is taken, a preparation begins, ends, the
  order is provided, served. No thread, no queue, no semaphore.

  The order is provided when everything has been started, not when it is made: the still
  may stop at any later moment, even in the next round.

  The program begins before alambix_init, which may fail, recover or be refused its queue:
  only a queue that an earlier run has left with messages in it, and that cannot be unlinked,
  is excluded (`StartsEmpty`).

  - `St.pub` reads the pub off a state of the program.
  - Every step of the program is the pub's step for what it shows, and leaves the pub as it
    is if it shows nothing (`step_pub`).
  - From a state at rest (`AtRest`) the program can show each step the pub can take, and
    come to rest again (`rest_shows`).

  Proved: the two have the same finite traces (`shows_the_pub`).
-/

import Alambix.Rounds
import Alambix.Lib.Simulation

namespace Alambix

open Lib.Mqueue Lib.Transition
open Function (update)

/-! ## The pub -/

inductive Stage where
  | ordering
  | preparing
  | provided
  | served
  deriving DecidableEq, Repr

structure Pub (Drink : Type) where
  toOrder : Client → List Drink
  order : List Drink
  toMake : List Drink
  making : Bool
  stage : Stage

inductive Scene (Drink : Type) where
  | start (chosen : Client → List Drink)
  | orderDrink (c : Client) (drink : Drink)
  | takeOrder (drinks : List Drink)
  | stillStart (drink : Drink)
  | stillStop
  | provideOrder
  | serveOrder

variable {Drink : Type}

/-- Before the first round. -/
def closedPub : Pub Drink := ⟨fun _ => [], [], [], false, .served⟩

section

variable [DecidableEq Drink]

def Pub.next (p : Pub Drink) : Scene Drink → Option (Pub Drink)
  | .start chosen =>
    guarded (p.stage = .served) { p with toOrder := chosen, order := [], toMake := [], stage := .ordering }
  | .orderDrink c d =>
    guarded (p.stage = .ordering ∧ (p.toOrder c).head? = some d)
      { p with toOrder := update p.toOrder c (p.toOrder c).tail, order := p.order ++ [d] }
  | .takeOrder ds =>
    guarded (p.stage = .ordering ∧ (p.toOrder .client0 = [] ∧ p.toOrder .client1 = []) ∧ ds = p.order)
      { p with toMake := ds, stage := .preparing }
  | .stillStart d =>
    guarded (p.stage = .preparing ∧ p.toMake.head? = some d ∧ p.making = false)
      { p with toMake := p.toMake.tail, making := true }
  | .stillStop => guarded (p.making = true) { p with making := false }
  | .provideOrder =>
    -- the bartender provides nothing before its first drink
    guarded (p.stage = .preparing ∧ p.toMake = [] ∧ p.order ≠ []) { p with stage := .provided }
  | .serveOrder => guarded (p.stage = .provided) { p with stage := .served }

end

/-! ## What the program shows -/

/-- The call of the library an event shows, alambix_order_drink when it returns. -/
def Ev.scene : Ev Drink → Option (Scene Drink)
  | .main (.alambixStart chosen) => some (.start chosen)
  | .client c (.orderWrite d _) => some (.orderDrink c d)
  | .waiter (.takeOrder ds) => some (.takeOrder ds)
  | .waiter .serveOrder => some .serveOrder
  | .bartender (.stillStart d) => some (.stillStart d)
  | .bartender .provideOrder => some .provideOrder
  | .timer .stillStop => some .stillStop
  | _ => none

def St.stage (s : St Drink) : Stage :=
  if s.waiter.tookOrder = false then .ordering
  else if s.provided = false then .preparing
  else if s.served = false then .provided
  else .served

def St.pub (s : St Drink) : Pub Drink where
  toOrder := fun c => (s.client c).inHand ++ s.chosen c
  order := s.order
  toMake := s.unstarted ++ s.mq.msgs ++ s.waiter.unsent ++ s.toFetch
  making := s.still
  stage := s.stage

/-! ## What the program keeps besides -/

/-- The bartender has started a drink in this round. -/
def BartenderPc.begun : BartenderPc → Bool
  | .timerSettime => true
  | .hasOrderedDrink => true
  | .provideOrder => true
  | _ => false

structure PubInv (s : St Drink) : Prop where
  taken : s.waiter.tookOrder = true → s.taken = s.order
  begun : s.bartender.begun = true → s.started ≠ []
  served : s.served = true → s.waiter = .returned

theorem boot_pubInv : PubInv (boot : St Drink) where
  taken := fun _ => rfl
  begun := nofun
  served := fun _ => rfl

theorem PubInv.frame {s s' : St Drink} (hi : PubInv s) (hw : s'.waiter = s.waiter) (hb : s'.bartender = s.bartender)
    (ht : s'.taken = s.taken) (ho : s'.order = s.order) (hst : s'.started = s.started) (hsv : s'.served = s.served) :
    PubInv s' := by
  obtain ⟨h1, h2, h3⟩ := hi
  constructor
  · rw [hw, ht, ho]; exact h1
  · rw [hb, hst]; exact h2
  · rw [hw, hsv]; exact h3

variable [DecidableEq Drink]

/-- Nothing is ordered once the order is taken. -/
theorem client_pubInv {s s' : St Drink} {c : Client} {e : ClientEv Drink} (hd : DeskInv s) (hi : PubInv s)
    (h : clientThreadFct c s e = some s') : PubInv s' := by
  cases e with
  | orderWrite d seen =>
    obtain ⟨hpc, rfl⟩ := guarded_eq_some.mp h
    refine ⟨fun htook => ?_, hi.begun, hi.served⟩
    have hr := hd.both_returned (WaiterPc.tookOrder_coins htook) c
    rw [hpc] at hr; cases hr
  | _ =>
    obtain ⟨-, rfl⟩ := guarded_eq_some.mp h
    exact hi.frame rfl rfl rfl rfl rfl rfl

theorem waiter_pubInv {s s' : St Drink} {e : WaiterEv Drink} (hi : PubInv s) (ht : TakesOrder s (.waiter e))
    (h : waiterThreadFct s e = some s') : PubInv s' := by
  obtain ⟨htaken, hbegun, hserved⟩ := hi
  cases e with
  | takeOrder ds =>
    obtain ⟨hpc, rfl⟩ := guarded_eq_some.mp h
    refine ⟨fun _ => ht ds rfl, hbegun, fun hs => ?_⟩
    have := hserved hs
    rw [hpc] at this; cases this
  | serveOrder =>
    obtain ⟨hpc, rfl⟩ := guarded_eq_some.mp h
    rw [hpc] at htaken
    exact ⟨htaken, hbegun, fun _ => rfl⟩
  | exit d =>
    obtain ⟨-, rfl⟩ := guarded_eq_some.mp h
    exact ⟨htaken, hbegun, hserved⟩
  | _ =>
    obtain ⟨hpc, rfl⟩ := guarded_eq_some.mp h
    constructor <;> simp_all [WaiterPc.tookOrder]

theorem bartender_pubInv {s s' : St Drink} {e : BartenderEv Drink} (hi : PubInv s)
    (h : bartenderThreadFct s e = some s') : PubInv s' := by
  obtain ⟨htaken, hbegun, hserved⟩ := hi
  cases e with
  | stillStart d =>
    obtain ⟨-, rfl⟩ := guarded_eq_some.mp h
    exact ⟨htaken, fun _ => by simp, hserved⟩
  | hasOrderedDrink more =>
    obtain ⟨hpc, rfl⟩ := guarded_eq_some.mp h
    rw [hpc] at hbegun
    exact ⟨htaken, fun _ => hbegun rfl, hserved⟩
  | exit | timerSettimeFail =>
    obtain ⟨-, rfl⟩ := guarded_eq_some.mp h
    exact ⟨htaken, hbegun, hserved⟩
  | _ =>
    obtain ⟨hpc, rfl⟩ := guarded_eq_some.mp h
    constructor <;> simp_all [BartenderPc.begun]

theorem step_pubInv {s s' : St Drink} {e : Ev Drink} (hd : DeskInv s) (hm : s.main ≠ .alambixOpen) (hi : PubInv s)
    (ht : TakesOrder s e) (h : step s e = some s') : PubInv s' := by
  obtain ⟨-, h⟩ := step_eq_some.mp h
  cases e with
  | main e =>
    rcases main_cases h with ⟨fs, w, -, hopen, -⟩ | ⟨chosen, -, -, -, rfl⟩ | ⟨-, m, x, o, l, rfl⟩
    · exact absurd hopen hm
    · exact ⟨nofun, nofun, nofun⟩
    · exact hi.frame rfl rfl rfl rfl rfl rfl
  | client c e => exact client_pubInv hd hi h
  | waiter e => exact waiter_pubInv hi ht h
  | bartender e => exact bartender_pubInv hi h
  | timer e =>
    rw [timer_touches h]
    exact hi.frame rfl rfl rfl rfl rfl rfl

/-- What is known of the program while it serves any number of rounds. -/
structure Serving (s : St Drink) : Prop where
  round : RoundInv s
  main : s.main ≠ .alambixOpen
  still : StillInv s
  pub : PubInv s

/-! ## From before alambix_init -/

/-- alambix_init leaves no message in the queue. -/
def Ev.emptyQueue : Ev Drink → Prop
  | .main (.alambixInit fs w) => (afterInit boot fs w).mq.msgs = []
  | _ => True

/-- The library does what it documents, and alambix_init leaves no message in the queue. -/
def StartsEmpty (s : St Drink) (e : Ev Drink) : Prop := Documented s e ∧ e.emptyQueue

omit [DecidableEq Drink] in
theorem startsEmpty_of {s : St Drink} {e : Ev Drink} (ha : e.answer = none) (ht : e.takes = none)
    (hq : e.emptyQueue) : StartsEmpty s e :=
  ⟨documented_of ha ht, hq⟩

/-- No thread exists yet, and no timer is armed. -/
theorem boot_step {s' : St Drink} {e : Ev Drink} (h : step boot e = some s') :
    ∃ fs w, e = .main (.alambixInit fs w) ∧ s' = afterInit boot fs w := by
  obtain ⟨hruns, h⟩ := step_eq_some.mp h
  cases e with
  | main e =>
    rcases main_cases h with ⟨fs, w, rfl, -, rfl⟩ | ⟨-, -, hm, -⟩ | ⟨hm, -⟩
    · exact ⟨fs, w, rfl, rfl⟩
    · cases hm
    · exact absurd rfl hm
  | client c e | waiter e | bartender e => cases hruns.2
  | timer e =>
    have h : timerDrinkPrepare boot e = some s' := h
    cases e with
    | expire => cases (guarded_eq_some.mp h).1
    | stillStop => exact absurd (guarded_eq_some.mp h).1 (Nat.lt_irrefl 0)

omit [DecidableEq Drink] in
theorem boot_roundInv {q : Mq Drink} (hq : q.msgs = []) : RoundInv ({ boot with mq := q } : St Drink) where
  desk := boot_desk.frame rfl rfl rfl rfl rfl rfl rfl
  line := by constructor <;> simp [boot, hq, WaiterPc.unsent, St.unstarted]
  handOver := by
    constructor <;> simp [boot, WaiterPc.served, WaiterPc.tookOrder, BartenderPc.posted, BartenderPc.provided]
  complete := fun _ => ⟨rfl, rfl, hq⟩
  history := by intro r hr; cases hr

omit [DecidableEq Drink] in
theorem afterInit_serving {fs : MqFs Drink} {w : InitWorld} (hq : (afterInit boot fs w).mq.msgs = [])
    (hx : (afterInit boot fs w).exited = none) : Serving (afterInit boot fs w) where
  round :=
    (boot_roundInv hq).frame ((boot_roundInv hq).desk.frame rfl rfl rfl rfl rfl rfl rfl) (by simp [SameLine, afterInit])
  main := by
    simp only [afterInit] at hx ⊢
    split <;> simp_all
  still := boot_still.frame rfl rfl rfl rfl rfl rfl
  pub := boot_pubInv.frame rfl rfl rfl rfl rfl rfl

theorem step_serving {s s' : St Drink} {e : Ev Drink} (hi : Serving s) (hd : Documented s e) (h : step s e = some s') :
    Serving s' := by
  obtain ⟨hround, hmain⟩ := step_roundInv hi.round hi.main hd.1 h
  exact ⟨hround, hmain, step_still hi.still h, step_pubInv hi.round.desk hi.main hi.pub hd.2 h⟩

theorem reach_serving {s : St Drink} (h : Reach step StartsEmpty boot s) :
    s = boot ∨ s.exited ≠ none ∨ Serving s := by
  refine h.inv (I := fun s => s = boot ∨ s.exited ≠ none ∨ Serving s) (.inl rfl) fun s e s' hi hd hs => .inr ?_
  rcases hi with rfl | hx | hi
  · obtain ⟨fs, w, rfl, rfl⟩ := boot_step hs
    by_cases hx : (afterInit boot fs w).exited = none
    · exact .inr (afterInit_serving hd.2 hx)
    · exact .inl hx
  · exact absurd (alive_of_step hs) hx
  · exact .inr (step_serving hi hd.1 hs)

/-! ## Each step shows the pub's step -/

omit [DecidableEq Drink] in
theorem pub_eq {s s' : St Drink} (hto : ∀ c, (s'.client c).inHand ++ s'.chosen c = (s.client c).inHand ++ s.chosen c)
    (ho : s'.order = s.order)
    (hmake : s'.unstarted ++ s'.mq.msgs ++ s'.waiter.unsent ++ s'.toFetch =
      s.unstarted ++ s.mq.msgs ++ s.waiter.unsent ++ s.toFetch)
    (hst : s'.still = s.still) (hstage : s'.stage = s.stage) : s'.pub = s.pub := by
  unfold St.pub
  rw [ho, hmake, hst, hstage, funext hto]

theorem shows_nothing {s s' : St Drink} {e : Ev Drink} (he : e.scene = none) (hp : s'.pub = s.pub) :
    Answers Pub.next (fun _ _ => True) some s.pub e.scene s'.pub := by
  rw [he, hp]
  exact .refl _

theorem shows {s s' : St Drink} {e : Ev Drink} {c : Scene Drink} (he : e.scene = some c)
    (hn : s.pub.next c = some s'.pub) : Answers Pub.next (fun _ _ => True) some s.pub e.scene s'.pub := by
  rw [he]
  exact .shown trivial hn rfl (.refl _)

omit [DecidableEq Drink] in
theorem Serving.ordering {s : St Drink} (hi : Serving s) {c : Client} (hc : s.client c ≠ .returned) :
    s.waiter.tookOrder = false := by
  by_contra htook
  exact hc (hi.round.desk.both_returned (WaiterPc.tookOrder_coins (by simpa using htook)) c)

theorem client_shows {s s' : St Drink} {c : Client} {e : ClientEv Drink} (hi : Serving s)
    (h : clientThreadFct c s e = some s') :
    Answers Pub.next (fun _ _ => True) some s.pub (Ev.client c e).scene s'.pub := by
  cases e with
  | orderWrite d seen =>
    obtain ⟨hpc, rfl⟩ := guarded_eq_some.mp h
    have hseen : seen = s.order := (hi.round.desk.clients c).seen d seen hpc
    have hw : s.waiter.tookOrder = false := hi.ordering (c := c) (by rw [hpc]; nofun)
    refine shows rfl (guarded_eq_some.mpr ⟨⟨if_pos hw, ?_⟩, ?_⟩)
    · simp [St.pub, hpc, ClientPc.inHand]
    · simp only [St.pub, hseen, Pub.mk.injEq, true_and]
      refine ⟨?_, rfl, rfl⟩
      funext x
      by_cases hx : x = c
      · subst hx
        simp [hpc, ClientPc.inHand]
      · simp [hx]
  | chooseDrink d =>
    obtain ⟨⟨hpc, hch⟩, rfl⟩ := guarded_eq_some.mp h
    obtain ⟨rest, hrest⟩ := List.head?_eq_some_iff.mp hch
    refine shows_nothing rfl (pub_eq (fun x => ?_) rfl rfl rfl rfl)
    by_cases hx : x = c
    · subst hx
      simp [hpc, hrest, ClientPc.inHand]
    · simp [hx]
  | _ =>
    obtain ⟨hpc, rfl⟩ := guarded_eq_some.mp h
    refine shows_nothing rfl (pub_eq (fun x => ?_) rfl rfl rfl rfl)
    by_cases hx : x = c
    · subst hx
      simp [hpc, ClientPc.inHand]
    · simp [hx]

theorem waiter_shows {s s' : St Drink} {e : WaiterEv Drink} (hi : Serving s) (ht : TakesOrder s (.waiter e))
    (h : waiterThreadFct s e = some s') :
    Answers Pub.next (fun _ _ => True) some s.pub (Ev.waiter e).scene s'.pub := by
  have hround := hi.round
  cases e with
  | takeOrder ds =>
    obtain ⟨hpc, rfl⟩ := guarded_eq_some.mp h
    have hw : s.waiter.tookOrder = false := by rw [hpc]; rfl
    have hret := hround.desk.both_returned (by rw [hpc]; rfl)
    have hempty : ∀ c, (s.client c).inHand ++ s.chosen c = [] := by
      intro c
      rw [hret c, (hround.desk.clients c).done (by rw [hret c]; rfl)]
      rfl
    obtain ⟨-, -, -, hrec, hq⟩ := hround.line.empty_before hw
    have hun : s.unstarted = [] := by
      have hst := hround.line.started
      rw [hrec] at hst
      exact (List.append_eq_nil_iff.mp hst.symm).2
    rw [St.unstarted] at hun
    have hprov : s.provided = false := by
      have hrcv := hround.handOver.early hw
      rw [hround.handOver.provided]
      cases hb : s.bartender <;> rw [hb] at hrcv <;> first | rfl | cases hrcv
    refine shows rfl (guarded_eq_some.mpr ⟨⟨if_pos hw, ⟨hempty _, hempty _⟩, ht ds rfl⟩, ?_⟩)
    simp [St.pub, St.unstarted, hun, hq, St.stage, WaiterPc.tookOrder, WaiterPc.unsent, hprov]
  | serveOrder =>
    obtain ⟨hpc, rfl⟩ := guarded_eq_some.mp h
    have hb := hround.handOver.bartender_returned (by rw [hpc]; rfl)
    have hprov : s.provided = true := by rw [hround.handOver.provided, hb]; rfl
    have hserved : s.served = false := by
      by_contra hs
      have := hi.pub.served (by simpa using hs)
      rw [hpc] at this; cases this
    refine shows rfl (guarded_eq_some.mpr ⟨?_, ?_⟩)
    · simp [St.pub, St.stage, hpc, WaiterPc.tookOrder, hprov, hserved]
    · simp [St.pub, St.stage, St.unstarted, hpc, WaiterPc.tookOrder, WaiterPc.unsent, hprov]
  | getOrderedDrink d =>
    obtain ⟨⟨hpc, hd⟩, rfl⟩ := guarded_eq_some.mp h
    obtain ⟨rest, hrest⟩ := List.head?_eq_some_iff.mp hd
    refine shows_nothing rfl (pub_eq (fun _ => rfl) rfl ?_ rfl ?_)
    · simp [hpc, hrest, WaiterPc.unsent, St.unstarted]
    · simp [St.stage, hpc, WaiterPc.tookOrder]
  | mqSend d =>
    obtain ⟨⟨hpc, -⟩, rfl⟩ := guarded_eq_some.mp h
    refine shows_nothing rfl (pub_eq (fun _ => rfl) rfl ?_ rfl ?_)
    · simp [hpc, WaiterPc.unsent, St.unstarted]
    · simp [St.stage, hpc, WaiterPc.tookOrder]
  | exit d =>
    obtain ⟨-, rfl⟩ := guarded_eq_some.mp h
    exact shows_nothing rfl (pub_eq (fun _ => rfl) rfl rfl rfl rfl)
  | _ =>
    obtain ⟨hpc, rfl⟩ := guarded_eq_some.mp h
    refine shows_nothing rfl (pub_eq (fun _ => rfl) rfl ?_ rfl ?_)
    · simp [hpc, WaiterPc.unsent, St.unstarted]
    · simp [St.stage, hpc, WaiterPc.tookOrder]

theorem bartender_shows {s s' : St Drink} {e : BartenderEv Drink} (hi : Serving s)
    (h : bartenderThreadFct s e = some s') :
    Answers Pub.next (fun _ _ => True) some s.pub (Ev.bartender e).scene s'.pub := by
  have hround := hi.round
  have hprov := hround.handOver.provided
  have htook : s.bartender.receiving = false → s.waiter.tookOrder = true := by
    intro hrcv
    by_contra hw
    have := hround.handOver.early (by simpa using hw)
    rw [hrcv] at this; cases this
  cases e with
  | mqReceive d =>
    obtain ⟨⟨hpc, -, hrcv⟩, rfl⟩ := guarded_eq_some.mp h
    refine shows_nothing rfl (pub_eq (fun _ => rfl) rfl ?_ rfl rfl)
    rw [hrcv.msgs]
    simp [St.unstarted, hpc]
  | stillStart d =>
    obtain ⟨⟨hpc, hb, hoff⟩, rfl⟩ := guarded_eq_some.mp h
    have hw := htook (by rw [hpc]; rfl)
    rw [hpc] at hprov
    refine shows rfl (guarded_eq_some.mpr ⟨⟨?_, ?_, hoff⟩, ?_⟩)
    · simp [St.pub, St.stage, hw, hprov, BartenderPc.provided]
    · simp [St.pub, St.unstarted, hpc, hb]
    · simp [St.pub, St.unstarted, St.stage, hpc, hb]
  | hasOrderedDrink more =>
    obtain ⟨hpc, rfl⟩ := guarded_eq_some.mp h
    refine shows_nothing rfl (pub_eq (fun _ => rfl) rfl ?_ rfl rfl)
    cases more <;> simp [St.unstarted, hpc]
  | provideOrder =>
    obtain ⟨hpc, rfl⟩ := guarded_eq_some.mp h
    have hw := htook (by rw [hpc]; rfl)
    rw [hpc] at hprov
    obtain ⟨ht, hu, hq⟩ := hround.complete (by rw [hpc]; rfl)
    have hne : s.order ≠ [] := by
      obtain ⟨-, hstart⟩ := started_whole_order hround.line hround.complete (by rw [hpc]; rfl)
      rw [← hi.pub.taken hw, ← hstart]
      exact hi.pub.begun (by rw [hpc]; rfl)
    refine shows rfl (guarded_eq_some.mpr ⟨⟨?_, ?_, hne⟩, ?_⟩)
    · simp [St.pub, St.stage, hw, hprov, BartenderPc.provided]
    · simp [St.pub, St.unstarted, hpc, ht, hu, hq]
    · have hserved : s.served = false := by
        by_contra hs
        have hret := hi.pub.served (by simpa using hs)
        have hb := hround.handOver.bartender_returned (by rw [hret]; rfl)
        rw [hpc] at hb; cases hb
      simp [St.pub, St.unstarted, St.stage, hpc, hw, hserved]
  | exit | timerSettimeFail =>
    obtain ⟨-, rfl⟩ := guarded_eq_some.mp h
    exact shows_nothing rfl (pub_eq (fun _ => rfl) rfl rfl rfl rfl)
  | _ =>
    obtain ⟨hpc, rfl⟩ := guarded_eq_some.mp h
    refine shows_nothing rfl (pub_eq (fun _ => rfl) rfl ?_ rfl rfl)
    simp [St.unstarted, hpc]

theorem timer_shows {s s' : St Drink} {e : TimerEv} (hi : Serving s) (h : timerDrinkPrepare s e = some s') :
    Answers Pub.next (fun _ _ => True) some s.pub (Ev.timer e : Ev Drink).scene s'.pub := by
  cases e with
  | expire =>
    obtain ⟨-, rfl⟩ := guarded_eq_some.mp h
    exact shows_nothing rfl (pub_eq (fun _ => rfl) rfl rfl rfl rfl)
  | stillStop =>
    obtain ⟨hpos, rfl⟩ := guarded_eq_some.mp h
    have hone := hi.still.stopper
    have hon : s.still = true := by
      cases hs : s.still with
      | true => rfl
      | false => rw [hs] at hone; simp only [Bool.toNat_false] at hone; omega
    exact shows rfl (guarded_eq_some.mpr ⟨hon, rfl⟩)

theorem main_shows {s s' : St Drink} {e : MainEv Drink} (hi : Serving s) (h : mainThread s e = some s') :
    Answers Pub.next (fun _ _ => True) some s.pub (Ev.main e).scene s'.pub := by
  cases e with
  | alambixInit fs w => exact absurd (guarded_eq_some.mp h).1 hi.main
  | alambixStart chosen =>
    obtain ⟨⟨-, hr⟩, rfl⟩ := guarded_eq_some.mp h
    obtain ⟨-, -, -, hq, -⟩ := hi.round.clean hr
    have hserved := hi.round.handOver.served hr.2.1
    have hprov := hi.round.handOver.provided
    rw [hr.2.2] at hprov
    refine shows rfl (guarded_eq_some.mpr ⟨?_, ?_⟩)
    · simp [St.pub, St.stage, hr.2.1, WaiterPc.tookOrder, hprov, BartenderPc.provided, hserved]
    · simp [St.pub, St.stage, St.unstarted, newRound, ClientPc.inHand, WaiterPc.unsent, WaiterPc.tookOrder, hq]
  | _ =>
    rcases main_cases h with ⟨_, _, he, -⟩ | ⟨_, he, -⟩ | ⟨-, m, x, o, l, rfl⟩
    · cases he
    · cases he
    · exact shows_nothing rfl (pub_eq (fun _ => rfl) rfl rfl rfl rfl)

/-- Every step of the program shows the pub's step, or nothing and leaves the pub as it is. -/
theorem step_pub {s s' : St Drink} {e : Ev Drink} (hi : Serving s) (hd : Documented s e) (h : step s e = some s') :
    Answers Pub.next (fun _ _ => True) some s.pub e.scene s'.pub := by
  obtain ⟨-, h⟩ := step_eq_some.mp h
  cases e with
  | main e => exact main_shows hi h
  | client c e => exact client_shows hi h
  | waiter e => exact waiter_shows hi hd.2 h
  | bartender e => exact bartender_shows hi h
  | timer e => exact timer_shows hi h

theorem maps_pub :
    Maps step StartsEmpty Ev.scene (boot : St Drink) Pub.next (fun _ _ => True) some St.pub := by
  intro s e s' hr hd hs
  rcases reach_serving hr with rfl | hx | hi
  · obtain ⟨fs, w, rfl, rfl⟩ := boot_step hs
    have hq : (afterInit boot fs w).mq.msgs = [] := hd.2
    exact shows_nothing rfl (pub_eq (fun _ => rfl) rfl (by rw [hq]; rfl) rfl rfl)
  · exact absurd (alive_of_step hs) hx
  · exact step_pub hi hd.1 hs

omit [DecidableEq Drink] in
theorem boot_pub : (boot : St Drink).pub = closedPub := by
  simp [St.pub, St.stage, St.unstarted, boot, closedPub, ClientPc.inHand, WaiterPc.unsent, WaiterPc.tookOrder]

/-! ## The program at rest -/

/-- Where the threads wait for the pub's next step. -/
inductive Place where
  | ordering
  | fetching
  | started
  | provided
  | served

def Place.stage : Place → Stage
  | .ordering => .ordering
  | .fetching => .preparing
  | .started => .preparing
  | .provided => .provided
  | .served => .served

def St.At (s : St Drink) : Place → Prop
  | .ordering => (∀ c, s.client c = .chooseDrink) ∧ s.waiter = .semWaitFirst ∧ s.bartender = .mqReceive
  | .fetching => (s.waiter = .getOrderedDrink ∧ s.bartender = .mqReceive) ∧ (s.order = [] ∨ s.toFetch ≠ [])
  | .started => s.waiter = .semWaitProvide ∧ s.bartender = .provideOrder
  | .provided => s.waiter = .serveOrder ∧ s.bartender = .returned
  | .served => AllReturned s

/-- No call has failed, nothing is in the queue, no expiry is being handled. -/
structure AtRest (s : St Drink) : Prop where
  alive : s.exited = none
  ui : s.main = .ui
  mqOpen : s.mqOpen = true
  mq : s.mq = ⟨mqBartenderAttr, []⟩
  notified : s.notified = 0
  place : ∃ pl, s.At pl

omit [DecidableEq Drink] in
theorem Serving.stage {s : St Drink} (hi : Serving s) {pl : Place} (h : s.At pl) : s.stage = pl.stage := by
  have hprov := hi.round.handOver.provided
  cases pl with
  | ordering =>
    obtain ⟨-, hw, -⟩ := h
    simp [St.stage, hw, WaiterPc.tookOrder, Place.stage]
  | fetching =>
    obtain ⟨⟨hw, hb⟩, -⟩ := h
    simp [St.stage, hw, hprov, hb, WaiterPc.tookOrder, BartenderPc.provided, Place.stage]
  | started =>
    obtain ⟨hw, hb⟩ := h
    simp [St.stage, hw, hprov, hb, WaiterPc.tookOrder, BartenderPc.provided, Place.stage]
  | provided =>
    obtain ⟨hw, hb⟩ := h
    have hserved : s.served = false := by
      by_contra hs
      have := hi.pub.served (by simpa using hs)
      rw [hw] at this; cases this
    simp [St.stage, hw, hprov, hb, hserved, WaiterPc.tookOrder, BartenderPc.provided, Place.stage]
  | served =>
    obtain ⟨-, hw, hb⟩ := h
    simp [St.stage, hw, hprov, hb, hi.round.handOver.served hw, WaiterPc.tookOrder, BartenderPc.provided, Place.stage]

/-- From `s` the program can show `o`, and nothing else, and come to rest. -/
def Shows (s : St Drink) (o : Option (Scene Drink)) : Prop :=
  ∃ s', Answers step StartsEmpty Ev.scene s o s' ∧ AtRest s'

theorem AtRest.shows {s : St Drink} (h : AtRest s) : Shows s none := ⟨s, .refl s, h⟩

theorem Shows.silent {s s' : St Drink} {e : Ev Drink} {o : Option (Scene Drink)} (hd : StartsEmpty s e)
    (h : step s e = some s') (he : e.scene = none) (hs : Shows s' o) : Shows s o := by
  obtain ⟨t, ht, hrest⟩ := hs
  exact ⟨t, .silent hd h he ht, hrest⟩

theorem Shows.shown {s s' : St Drink} {e : Ev Drink} {o : Option (Scene Drink)} (hd : StartsEmpty s e)
    (h : step s e = some s') (he : e.scene = o) (hs : Shows s' none) : Shows s o := by
  obtain ⟨t, ht, hrest⟩ := hs
  exact ⟨t, .shown hd h he ht, hrest⟩

/-- alambix_start creates and detaches one thread. -/
theorem creates {s : St Drink} (hx : s.exited = none) {t : Thread} {o : Option (Scene Drink)}
    (h : Shows { s with main := afterDetach t } o) : Shows { s with main := .pthreadCreate t } o := by
  refine .silent (e := .main .pthreadCreate) (startsEmpty_of rfl rfl trivial) (main_moves rfl hx) rfl ?_
  exact .silent (e := .main .pthreadDetach) (startsEmpty_of rfl rfl trivial) (main_moves rfl hx) rfl h

/-- A round begins. -/
theorem rest_starts {s : St Drink} (hr : AtRest s) (hat : s.At .served) (chosen : Client → List Drink) :
    Shows s (some (.start chosen)) := by
  obtain ⟨hx, hm, hopen, hmq, hnot, -⟩ := hr
  refine .shown (e := .main (.alambixStart chosen)) (startsEmpty_of rfl rfl trivial)
    (main_moves (guarded_of ⟨hm, hat⟩) hx) rfl ?_
  have hround : Shows (roundOf s chosen) none :=
    AtRest.shows ⟨hx, rfl, hopen, hmq, hnot, .ordering, fun _ => rfl, rfl, rfl⟩
  have hfour : ∀ t, Shows { newRound s chosen with main := afterDetach t } none →
      Shows { newRound s chosen with main := .pthreadCreate t } none := fun _ h => creates (s := newRound s chosen) hx h
  exact hfour (.client .client0) (hfour (.client .client1) (hfour .waiter (hfour .bartender hround)))

/-- A client with a drink left orders it, with nobody in its way. -/
theorem rest_orders {s : St Drink} (hi : Serving s) (hr : AtRest s) (hat : s.At .ordering) {c : Client} {d : Drink}
    (hd : (s.chosen c).head? = some d) : Shows s (some (.orderDrink c d)) := by
  obtain ⟨hx, hm, hopen, hmq, hnot, -⟩ := hr
  obtain ⟨hclient, hw, hb⟩ := hat
  have hfree : s.orderMutex = none := by
    cases hmx : s.orderMutex with
    | none => rfl
    | some x =>
      have := (hi.round.desk.clients x).holder.mpr hmx
      rw [hclient x] at this; cases this
  refine .silent (e := .client c (.chooseDrink d)) (startsEmpty_of rfl rfl trivial)
    (client_moves (guarded_of ⟨hclient c, hd⟩) hx hm) rfl ?_
  refine .silent (e := .client c (.mutexLock d)) (startsEmpty_of rfl rfl trivial)
    (client_moves (guarded_of ⟨Function.update_self .., hfree⟩) hx hm) rfl ?_
  refine .silent (e := .client c (.orderRead d)) (startsEmpty_of rfl rfl trivial)
    (client_moves (guarded_of (Function.update_self ..)) hx hm) rfl ?_
  refine .shown (e := .client c (.orderWrite d s.order)) (startsEmpty_of rfl rfl trivial)
    (client_moves (guarded_of (Function.update_self ..)) hx hm) rfl ?_
  refine .silent (e := .client c .mutexUnlock) (startsEmpty_of rfl rfl trivial)
    (client_moves (guarded_of (Function.update_self ..)) hx hm) rfl ?_
  refine AtRest.shows ⟨hx, hm, hopen, hmq, hnot, .ordering, fun x => ?_, hw, hb⟩
  by_cases hxc : x = c
  · simp [hxc]
  · simp [hxc, hclient x]

/-- Two clients with nothing left put their coins down, and the waiter takes the order. -/
theorem rest_takes {s : St Drink} (hr : AtRest s) (hat : s.At .ordering) (hc : ∀ c, s.chosen c = []) :
    Shows s (some (.takeOrder s.order)) := by
  obtain ⟨hx, hm, hopen, hmq, hnot, -⟩ := hr
  obtain ⟨hclient, hw, hb⟩ := hat
  refine .silent (e := .client .client0 .chooseNull) (startsEmpty_of rfl rfl trivial)
    (client_moves (guarded_of ⟨hclient _, hc _⟩) hx hm) rfl ?_
  refine .silent (e := .client .client0 .semPost) (startsEmpty_of rfl rfl trivial)
    (client_moves (guarded_of (by simp)) hx hm) rfl ?_
  refine .silent (e := .client .client1 .chooseNull) (startsEmpty_of rfl rfl trivial)
    (client_moves (guarded_of ⟨by simp [hclient], hc _⟩) hx hm) rfl ?_
  refine .silent (e := .client .client1 .semPost) (startsEmpty_of rfl rfl trivial)
    (client_moves (guarded_of (by simp)) hx hm) rfl ?_
  refine .silent (e := .waiter .semWaitFirst) (startsEmpty_of rfl rfl trivial)
    (waiter_moves (guarded_of ⟨hw, by simp⟩) hx hm) rfl ?_
  refine .silent (e := .waiter .semWaitSecond) (startsEmpty_of rfl rfl trivial)
    (waiter_moves (guarded_of ⟨rfl, by simp⟩) hx hm) rfl ?_
  refine .shown (e := .waiter (.takeOrder s.order))
    ⟨⟨answersExactly_of rfl, fun ds h => (Option.some.inj h).symm⟩, trivial⟩
    (waiter_moves (guarded_of rfl) hx hm) rfl ?_
  exact AtRest.shows ⟨hx, hm, hopen, hmq, hnot, .fetching, ⟨rfl, hb⟩, em _⟩

/-- The bartender asks whether the drink it started was the last one. -/
theorem rest_after_start {s : St Drink} (hx : s.exited = none) (hm : s.main = .ui) (hopen : s.mqOpen = true)
    (hmq : s.mq = ⟨mqBartenderAttr, []⟩) (hnot : s.notified = 0) (hw : s.waiter = .getOrderedDrink)
    (hb : s.bartender = .hasOrderedDrink) (hlen : s.taken.length = s.received.length + s.toFetch.length) :
    Shows s none := by
  cases hrest : s.toFetch with
  | nil =>
    have hlast : AnswersExactly s (.bartender (.hasOrderedDrink false)) := by
      intro more hmore
      obtain rfl := Option.some.inj hmore
      simp [hlen, hrest]
    refine .silent ⟨⟨hlast, takesOrder_of rfl⟩, trivial⟩ (bartender_moves (guarded_of hb) hx hm) rfl ?_
    refine .silent (e := .waiter .getNull) (startsEmpty_of rfl rfl trivial)
      (waiter_moves (guarded_of ⟨hw, hrest⟩) hx hm) rfl ?_
    exact AtRest.shows ⟨hx, hm, hopen, hmq, hnot, .started, rfl, rfl⟩
  | cons d rest =>
    have hmore : AnswersExactly s (.bartender (.hasOrderedDrink true)) := by
      intro more hmore
      obtain rfl := Option.some.inj hmore
      simp [hlen, hrest]
    refine .silent ⟨⟨hmore, takesOrder_of rfl⟩, trivial⟩ (bartender_moves (guarded_of hb) hx hm) rfl ?_
    exact AtRest.shows ⟨hx, hm, hopen, hmq, hnot, .fetching, ⟨hw, rfl⟩, .inr (by simp [hrest])⟩

/-- With the still free, the next drink goes from the list to the still. -/
theorem rest_stillStart {s : St Drink} (hi : Serving s) (hr : AtRest s) (hat : s.At .fetching) (hoff : s.still = false)
    {d : Drink} (hd : s.toFetch.head? = some d) : Shows s (some (.stillStart d)) := by
  obtain ⟨hx, hm, hopen, hmq, hnot, -⟩ := hr
  obtain ⟨⟨hw, hb⟩, -⟩ := hat
  obtain ⟨rest, hrest⟩ := List.head?_eq_some_iff.mp hd
  -- of what was fetched, nothing is in the waiter's hands or in the queue
  have hlen : s.taken.length = s.received.length + 1 + rest.length := by
    have := hi.round.line.taken_eq
    rw [hmq, hw, hrest] at this
    simp [this, WaiterPc.unsent]
    omega
  refine .silent (e := .waiter (.getOrderedDrink d)) (startsEmpty_of rfl rfl trivial)
    (waiter_moves (guarded_of ⟨hw, hd⟩) hx hm) rfl ?_
  refine .silent (e := .waiter (.mqSend d)) (startsEmpty_of rfl rfl trivial)
    (waiter_moves (guarded_of ⟨rfl, hopen, by simp [hmq, Mq.Sendable, mqBartenderAttr, mqMsgMax]⟩) hx hm) rfl ?_
  refine .silent (e := .bartender (.mqReceive d)) (startsEmpty_of rfl rfl trivial)
    (bartender_moves (guarded_of ⟨hb, hopen, by simp [hmq, Mq.Receivable, mqBartenderAttr]⟩) hx hm) rfl ?_
  refine .shown (e := .bartender (.stillStart d)) (startsEmpty_of rfl rfl trivial)
    (bartender_moves (guarded_of ⟨rfl, rfl, hoff⟩) hx hm) rfl ?_
  refine .silent (e := .bartender .timerSettime) (startsEmpty_of rfl rfl trivial)
    (bartender_moves (guarded_of rfl) hx hm) rfl ?_
  exact rest_after_start hx hm hopen (by simp only [hmq]; rfl) hnot rfl rfl (by simp [hlen, hrest])

/-- The order is provided, and the waiter comes for it. -/
theorem rest_provides {s : St Drink} (hr : AtRest s) (hat : s.At .started) : Shows s (some .provideOrder) := by
  obtain ⟨hx, hm, hopen, hmq, hnot, -⟩ := hr
  obtain ⟨hw, hb⟩ := hat
  refine .shown (e := .bartender .provideOrder) (startsEmpty_of rfl rfl trivial)
    (bartender_moves (guarded_of hb) hx hm) rfl ?_
  refine .silent (e := .bartender .semPost) (startsEmpty_of rfl rfl trivial)
    (bartender_moves (guarded_of rfl) hx hm) rfl ?_
  refine .silent (e := .waiter .semWaitProvide) (startsEmpty_of rfl rfl trivial)
    (waiter_moves (guarded_of ⟨hw, by simp⟩) hx hm) rfl ?_
  exact AtRest.shows ⟨hx, hm, hopen, hmq, hnot, .provided, rfl, rfl⟩

theorem rest_serves {s : St Drink} (hi : Serving s) (hr : AtRest s) (hat : s.At .provided) :
    Shows s (some .serveOrder) := by
  obtain ⟨hx, hm, hopen, hmq, hnot, -⟩ := hr
  obtain ⟨hw, hb⟩ := hat
  have hret := hi.round.desk.both_returned (by rw [hw]; rfl)
  refine .shown (e := .waiter .serveOrder) (startsEmpty_of rfl rfl trivial) (waiter_moves (guarded_of hw) hx hm) rfl ?_
  exact AtRest.shows ⟨hx, hm, hopen, hmq, hnot, .served, ⟨hret _, hret _⟩, rfl, hb⟩

/-- At rest, a still that runs waits for its timer. -/
theorem rest_stops {s : St Drink} (hi : Serving s) (hr : AtRest s) (hon : s.still = true) :
    Shows s (some .stillStop) := by
  obtain ⟨hx, hm, hopen, hmq, hnot, pl, hat⟩ := hr
  have hset : s.bartender.setting = 0 := by
    cases pl with
    | ordering => rw [hat.2.2]; rfl
    | fetching => rw [hat.1.2]; rfl
    | started | provided => rw [hat.2]; rfl
    | served => rw [hat.2.2]; rfl
  have harm : s.armed = true := by
    have hone := hi.still.stopper
    rw [hon, hset, hnot] at hone
    cases ha : s.armed with
    | true => rfl
    | false => rw [ha] at hone; cases hone
  refine .silent (e := .timer .expire) (startsEmpty_of rfl rfl trivial) (timer_moves (guarded_of harm) hx) rfl ?_
  refine .shown (e := .timer .stillStop) (startsEmpty_of rfl rfl trivial) (timer_moves (guarded_of (by simp)) hx) rfl ?_
  refine AtRest.shows ⟨hx, hm, hopen, hmq, hnot, pl, ?_⟩
  cases pl <;> exact hat

theorem rest_shows {s : St Drink} (hi : Serving s) (hr : AtRest s) {c : Scene Drink} {p : Pub Drink}
    (h : s.pub.next c = some p) : Shows s (some c) := by
  obtain ⟨pl, hat⟩ := hr.place
  have hstage : s.pub.stage = pl.stage := hi.stage hat
  cases c with
  | start chosen =>
    obtain ⟨hst, -⟩ := guarded_eq_some.mp h
    rw [hstage] at hst
    cases pl <;> cases hst
    exact rest_starts hr hat chosen
  | orderDrink c d =>
    obtain ⟨⟨hst, hd⟩, -⟩ := guarded_eq_some.mp h
    rw [hstage] at hst
    cases pl <;> cases hst
    refine rest_orders hi hr hat ?_
    simpa [St.pub, hat.1 c, ClientPc.inHand] using hd
  | takeOrder ds =>
    obtain ⟨⟨hst, ⟨h0, h1⟩, rfl⟩, -⟩ := guarded_eq_some.mp h
    rw [hstage] at hst
    cases pl <;> cases hst
    refine rest_takes hr hat fun c => ?_
    cases c with
    | client0 => exact (List.append_eq_nil_iff.mp h0).2
    | client1 => exact (List.append_eq_nil_iff.mp h1).2
  | stillStart d =>
    obtain ⟨⟨hst, hd, hoff⟩, -⟩ := guarded_eq_some.mp h
    rw [hstage] at hst
    cases pl <;> cases hst
    · refine rest_stillStart hi hr hat hoff ?_
      simpa [St.pub, St.unstarted, hat.1.1, hat.1.2, hr.mq, WaiterPc.unsent] using hd
    · -- everything was started
      obtain ⟨ht, hu, hq⟩ := hi.round.complete (by rw [hat.2]; rfl)
      simp [St.pub, St.unstarted, hat.2, ht, hu, hq] at hd
  | stillStop =>
    obtain ⟨hon, -⟩ := guarded_eq_some.mp h
    exact rest_stops hi hr hon
  | provideOrder =>
    obtain ⟨⟨hst, hmake, hne⟩, -⟩ := guarded_eq_some.mp h
    rw [hstage] at hst
    cases pl <;> cases hst
    · have hempty : s.toFetch = [] := (List.append_eq_nil_iff.mp hmake).2
      rcases hat.2 with ho | ht
      · exact absurd ho hne
      · exact absurd hempty ht
    · exact rest_provides hr hat
  | serveOrder =>
    obtain ⟨hst, -⟩ := guarded_eq_some.mp h
    rw [hstage] at hst
    cases pl <;> cases hst
    exact rest_serves hi hr hat

omit [DecidableEq Drink] in
theorem opened_atRest : AtRest (opened : St Drink) := ⟨rfl, rfl, rfl, rfl, rfl, .served, ⟨rfl, rfl⟩, rfl, rfl⟩

/-- The user waits for the pub to open, or the program is at rest. -/
def Waits (s : St Drink) : Prop := s = boot ∨ AtRest s

/-- From where the program waits it can show each step the pub can take, and wait again. -/
theorem waits_shows {s : St Drink} (hr : Reach step StartsEmpty boot s) (hw : Waits s) {c : Scene Drink}
    {p : Pub Drink} (h : s.pub.next c = some p) : ∃ s', Answers step StartsEmpty Ev.scene s (some c) s' ∧ Waits s' := by
  rcases hw with rfl | hrest
  · -- alambix_init finds no queue of that name
    have hinit : step (boot : St Drink) (.main (.alambixInit freshFs allSucceed)) = some opened := by
      rw [← afterInit_opened freshFs rfl]
      exact main_moves (guarded_of rfl) rfl
    have hempty : StartsEmpty (boot : St Drink) (.main (.alambixInit freshFs allSucceed)) := by
      refine startsEmpty_of rfl rfl ?_
      rw [Ev.emptyQueue, afterInit_opened freshFs rfl]
      rfl
    have hserving : Serving (opened : St Drink) := by
      rcases reach_serving (Reach.refl.step hempty hinit) with h | h | h
      · cases congrArg St.main h
      · exact absurd rfl h
      · exact h
    have hpub : (opened : St Drink).pub = (boot : St Drink).pub := rfl
    obtain ⟨s', hans, hrest⟩ := rest_shows hserving opened_atRest (hpub ▸ h)
    exact ⟨s', .silent hempty hinit rfl hans, .inr hrest⟩
  · rcases reach_serving hr with rfl | hx | hi
    · cases hrest.ui
    · exact absurd hrest.alive hx
    · obtain ⟨s', hans, hrest'⟩ := rest_shows hi hrest h
      exact ⟨s', hans, .inr hrest'⟩

/-- From before alambix_init, over any number of rounds, with calls that may fail and a user
    that may quit, what the program shows of the pub is exactly what the pub can do. -/
theorem shows_the_pub :
    Traces step StartsEmpty Ev.scene (boot : St Drink) = Traces Pub.next (fun _ _ => True) some closedPub := by
  rw [← boot_pub]
  exact maps_pub.traces_eq (.inl rfl) fun _ _ _ hr hw h => waits_shows hr hw h

end Alambix

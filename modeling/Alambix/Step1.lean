/-
  Alambix.Step1 — the program of `old_increments/Step1/Step1_semaphore`, before the order
  was handed over.

  There the waiter returns once the order is sent and the bartender once its last drink is
  in the still. The program of today goes on: alambix_provide_order, a post and a wait on
  sem_provide_drink, alambix_serve_order, and one more sem_destroy in alambix_destroy. The
  clients, the queue, the still, the timer, alambix_init and alambix_start are the same.

  - `St.step1` forgets, of a state of today's program, how far the hand-over is.
  - Today's program does what the old one does, and five statements more (`maps_step1`).
  - Wherever the old program could go on, today's can, after statements of the hand-over:
    before alambix_start they need the coin (`start_answered`).

  What `step1Step` takes over from today's definitions, every statement but those below, is
  the same text in both files, `sem` of the old one being `sem_order_drink`.

  Proved: without these five statements the two programs have the same runs, over any number
  of rounds, whatever the library answers, whatever fails and whenever the user quits
  (`hand_over_is_all_that_changed`).
-/

import Alambix.Releasing
import Alambix.Lib.Simulation

namespace Alambix

open Lib.Mqueue Lib.Transition

variable {Drink : Type} [DecidableEq Drink]

/-! ## The old program, where it differs -/

def step1WaiterThreadFct (s : St Drink) : WaiterEv Drink → Option (St Drink)
  | .getNull =>
    guarded (s.waiter = .getOrderedDrink ∧ s.toFetch = [])
      { s with waiter := .returned }
  | .semWaitProvide => none
  | .serveOrder => none
  | e => waiterThreadFct s e

def step1BartenderThreadFct (s : St Drink) : BartenderEv Drink → Option (St Drink)
  | .hasOrderedDrink more =>
    guarded (s.bartender = .hasOrderedDrink)
      { s with bartender := if more then .mqReceive else .returned }
  | .provideOrder => none
  | .semPost => none
  | e => bartenderThreadFct s e

/-- `semOrderDrink` is the one semaphore, `sem`. -/
def step1MainThread (s : St Drink) : MainEv Drink → Option (St Drink)
  | .semDestroyOrderDrink => guarded (s.main = .semDestroyOrderDrink) { s with main := .mqUnlink }
  | .semDestroyProvideDrink => none
  | e => mainThread s e

def step1Fire (s : St Drink) : Ev Drink → Option (St Drink)
  | .main e => step1MainThread s e
  | .client c e => clientThreadFct c s e
  | .waiter e => step1WaiterThreadFct s e
  | .bartender e => step1BartenderThreadFct s e
  | .timer e => timerDrinkPrepare s e

def step1Step (s : St Drink) (e : Ev Drink) : Option (St Drink) := if e.Runs s then step1Fire s e else none

/-- Before alambix_open. The fields of the hand-over stay as they are here. -/
def step1Boot : St Drink := { boot with provided := false, served := false }

/-! ## What today's program adds -/

/-- The statements both programs have. -/
def Ev.kept : Ev Drink → Option (Ev Drink)
  | .waiter .semWaitProvide => none
  | .waiter .serveOrder => none
  | .bartender .provideOrder => none
  | .bartender .semPost => none
  | .main .semDestroyProvideDrink => none
  | e => some e

def MainPc.step1 : MainPc → MainPc
  | .semDestroyProvideDrink => .mqUnlink
  | pc => pc

def WaiterPc.step1 : WaiterPc Drink → WaiterPc Drink
  | .semWaitProvide => .returned
  | .serveOrder => .returned
  | pc => pc

def BartenderPc.step1 : BartenderPc → BartenderPc
  | .provideOrder => .returned
  | .semPost => .returned
  | pc => pc

/-- The state without the hand-over. -/
def St.step1 (s : St Drink) : St Drink :=
  { s with
    main := s.main.step1, waiter := s.waiter.step1, bartender := s.bartender.step1
    semProvideDrink := 0, provided := false, served := false, history := [] }

omit [DecidableEq Drink] in
theorem step1_runs (s : St Drink) (e : Ev Drink) : e.Runs s.step1 ↔ e.Runs s := by
  have hspawned : ∀ t, s.main.step1.spawned t = s.main.spawned t := by
    intro t
    cases h : s.main <;> rfl
  cases e <;> simp [Ev.Runs, St.step1, hspawned]

omit [DecidableEq Drink] in
theorem boot_step1 : (boot : St Drink).step1 = step1Boot := rfl

/-! ## Each statement of both programs -/

theorem client_step1 (c : Client) (s : St Drink) (e : ClientEv Drink) :
    clientThreadFct c s.step1 e = (clientThreadFct c s e).map St.step1 := by
  cases e <;> exact guarded_map Iff.rfl rfl

omit [DecidableEq Drink] in
theorem timer_step1 (s : St Drink) (e : TimerEv) :
    timerDrinkPrepare s.step1 e = (timerDrinkPrepare s e).map St.step1 := by
  cases e <;> exact guarded_map Iff.rfl rfl

omit [DecidableEq Drink] in
/-- Where the waiter is at a statement of both programs it is at the same one. -/
theorem WaiterPc.step1_eq {pc q : WaiterPc Drink} (hq : q ≠ .semWaitProvide ∧ q ≠ .serveOrder ∧ q ≠ .returned) :
    pc.step1 = q ↔ pc = q := by
  obtain ⟨h1, h2, h3⟩ := hq
  cases pc with
  | semWaitProvide => simp only [step1, h3.symm, h1.symm]
  | serveOrder => simp only [step1, h3.symm, h2.symm]
  | _ => rfl

theorem BartenderPc.step1_eq {pc q : BartenderPc} (hq : q ≠ .provideOrder ∧ q ≠ .semPost ∧ q ≠ .returned) :
    pc.step1 = q ↔ pc = q := by
  obtain ⟨h1, h2, h3⟩ := hq
  cases pc with
  | provideOrder => simp only [step1, h3.symm, h1.symm]
  | semPost => simp only [step1, h3.symm, h2.symm]
  | _ => rfl

theorem waiter_step1 (s : St Drink) {e : WaiterEv Drink} (he : (Ev.waiter e).kept = some (.waiter e)) :
    step1WaiterThreadFct s.step1 e = (waiterThreadFct s e).map St.step1 := by
  cases e with
  | semWaitProvide | serveOrder => cases he
  | _ =>
    refine guarded_map ?_ rfl
    simp [St.step1, WaiterPc.step1_eq]

theorem bartender_step1 (s : St Drink) {e : BartenderEv Drink} (he : (Ev.bartender e).kept = some (.bartender e)) :
    step1BartenderThreadFct s.step1 e = (bartenderThreadFct s e).map St.step1 := by
  cases e with
  | provideOrder | semPost => cases he
  | hasOrderedDrink more =>
    cases more <;>
    · refine guarded_map ?_ rfl
      simp [St.step1, BartenderPc.step1_eq]
  | _ =>
    refine guarded_map ?_ rfl
    simp [St.step1, BartenderPc.step1_eq]

theorem MainPc.step1_eq {pc q : MainPc} (hq : q ≠ .semDestroyProvideDrink ∧ q ≠ .mqUnlink) :
    pc.step1 = q ↔ pc = q := by
  obtain ⟨h1, h2⟩ := hq
  cases pc with
  | semDestroyProvideDrink => simp only [step1, h1.symm, h2.symm]
  | _ => rfl

omit [DecidableEq Drink] in
theorem afterInit_step1 (s : St Drink) (fs : MqFs Drink) (w : InitWorld) :
    afterInit s.step1 fs w = (afterInit s fs w).step1 := by
  simp only [afterInit, St.step1]
  split <;> rfl

/-- The two statements whose place in the old program several places of today's stand for. -/
def MainEv.afterHandOver : MainEv Drink → Bool
  | .alambixStart _ => true
  | .mqUnlink => true
  | _ => false

theorem main_step1 (s : St Drink) {e : MainEv Drink} (he : (Ev.main e).kept = some (.main e))
    (ha : e.afterHandOver = false) : step1MainThread s.step1 e = (mainThread s e).map St.step1 := by
  cases e with
  | alambixStart | mqUnlink => cases ha
  | semDestroyProvideDrink => cases he
  | alambixInit fs w =>
    refine guarded_map ?_ (afterInit_step1 s fs w)
    simp [St.step1, MainPc.step1_eq]
  | pthreadCreate | pthreadCreateFail =>
    cases hm : s.main <;> simp [step1MainThread, mainThread, St.step1, MainPc.step1, hm]
  | pthreadDetach =>
    have hafter : ∀ t, (afterDetach t).step1 = afterDetach t := by rintro ((_ | _) | _ | _) <;> rfl
    cases hm : s.main <;> simp [step1MainThread, mainThread, St.step1, MainPc.step1, hm]
    exact (hafter _).symm
  | _ =>
    refine guarded_map ?_ rfl
    simp [St.step1, MainPc.step1_eq]

theorem fire_step1 (s : St Drink) {e : Ev Drink} (he : e.kept = some e)
    (ha : ∀ m, e = .main m → m.afterHandOver = false) : step1Fire s.step1 e = (fire s e).map St.step1 := by
  cases e with
  | main e => exact main_step1 s he (ha e rfl)
  | client c e => exact client_step1 c s e
  | waiter e => exact waiter_step1 s he
  | bartender e => exact bartender_step1 s he
  | timer e => exact timer_step1 s e

omit [DecidableEq Drink] in
theorem step1_returned {s : St Drink} (h : AllReturned s) : AllReturned s.step1 := by
  obtain ⟨hc, hw, hb⟩ := h
  exact ⟨hc, by rw [St.step1, hw]; rfl, by rw [St.step1, hb]; rfl⟩

theorem kept_step1 {s s' : St Drink} {e : Ev Drink} (he : e.kept = some e) (h : step s e = some s') :
    step1Step s.step1 e = some s'.step1 := by
  obtain ⟨hruns, h⟩ := step_eq_some.mp h
  rw [step1Step, if_pos ((step1_runs s e).mpr hruns)]
  by_cases ha : ∀ m, e = .main m → m.afterHandOver = false
  · rw [fire_step1 s he ha, h]
    rfl
  · obtain ⟨m, rfl, hm⟩ : ∃ m, e = .main m ∧ m.afterHandOver = true := by simpa using ha
    cases m with
    | alambixStart chosen =>
      obtain ⟨⟨hui, hret⟩, rfl⟩ := guarded_eq_some.mp h
      exact guarded_of ⟨by rw [St.step1, hui]; rfl, step1_returned hret⟩
    | mqUnlink =>
      obtain ⟨hpc, rfl⟩ := guarded_eq_some.mp h
      exact guarded_of (by rw [St.step1, hpc]; rfl)
    | _ => cases hm

/-- The hand-over is not seen. -/
theorem added_step1 {s s' : St Drink} {e : Ev Drink} (he : e.kept = none) (h : step s e = some s') :
    s'.step1 = s.step1 := by
  obtain ⟨-, h⟩ := step_eq_some.mp h
  cases e with
  | main e =>
    cases e with
    | semDestroyProvideDrink =>
      obtain ⟨hpc, rfl⟩ := guarded_eq_some.mp h
      simp [St.step1, hpc, MainPc.step1]
    | _ => cases he
  | client c e | timer e => cases he
  | waiter e =>
    cases e with
    | semWaitProvide =>
      obtain ⟨⟨hpc, -⟩, rfl⟩ := guarded_eq_some.mp h
      simp [St.step1, hpc, WaiterPc.step1]
    | serveOrder =>
      obtain ⟨hpc, rfl⟩ := guarded_eq_some.mp h
      simp [St.step1, hpc, WaiterPc.step1]
    | _ => cases he
  | bartender e =>
    cases e with
    | provideOrder | semPost =>
      obtain ⟨hpc, rfl⟩ := guarded_eq_some.mp h
      simp [St.step1, hpc, BartenderPc.step1]
    | _ => cases he

omit [DecidableEq Drink] in
theorem kept_or_added (e : Ev Drink) : e.kept = some e ∨ e.kept = none := by
  unfold Ev.kept
  split <;> simp

theorem maps_step1 :
    Maps step (fun _ _ => True) Ev.kept (boot : St Drink) step1Step (fun _ _ => True) some St.step1 := by
  intro s e s' _ _ h
  rcases kept_or_added e with he | he
  · rw [he]
    exact .shown trivial (kept_step1 he h) rfl (.refl _)
  · rw [he, added_step1 he h]
    exact .refl _

/-! ## Where the old program goes on -/

/-- Today's program can get from `s` to the statement `e`, showing nothing, and execute it. -/
def CanShow (s : St Drink) (e : Ev Drink) : Prop :=
  ∃ s', Answers step (fun _ _ => True) Ev.kept s (some e) s'

theorem CanShow.now {s s' : St Drink} {e : Ev Drink} (he : e.kept = some e) (h : step s e = some s') : CanShow s e :=
  ⟨s', .shown trivial h he (.refl _)⟩

theorem CanShow.later {s s' : St Drink} {e a : Ev Drink} (h : step s a = some s') (ha : a.kept = none)
    (hs : CanShow s' e) : CanShow s e := by
  obtain ⟨t, ht⟩ := hs
  exact ⟨t, .silent trivial h ha ht⟩

/-- With the bartender gone, the waiter finds the coin. -/
theorem waiter_catches_up_start {s : St Drink} (hi : TakesTurns s) (hx : s.exited = none) (hm : s.main = .ui)
    (hc : ∀ c, s.client c = .returned) (hb : s.bartender = .returned) (hw : s.waiter.step1 = .returned)
    (chosen : Client → List Drink) : CanShow s (.main (.alambixStart chosen)) := by
  have hcoin := hi.coin
  cases hpc : s.waiter with
  | returned => exact .now rfl (main_moves (guarded_of ⟨hm, ⟨hc _, hc _⟩, hpc, hb⟩) hx)
  | serveOrder =>
    refine .later (a := .waiter .serveOrder) (waiter_moves (guarded_of hpc) hx hm) rfl ?_
    exact .now rfl (main_moves (guarded_of ⟨hm, ⟨hc _, hc _⟩, rfl, hb⟩) hx)
  | semWaitProvide =>
    rw [hpc, hb] at hcoin
    simp only [WaiterPc.served, BartenderPc.posted] at hcoin
    refine .later (a := .waiter .semWaitProvide) (waiter_moves (guarded_of ⟨hpc, by omega⟩) hx hm) rfl ?_
    refine .later (a := .waiter .serveOrder) (waiter_moves (guarded_of rfl) hx hm) rfl ?_
    exact .now rfl (main_moves (guarded_of ⟨hm, ⟨hc _, hc _⟩, rfl, hb⟩) hx)
  | _ => rw [hpc] at hw; cases hw

/-- A round that is over in the old program ends in today's. -/
theorem start_answered {s : St Drink} (hi : TakesTurns s) (hx : s.exited = none) (hm : s.main = .ui)
    (hr : AllReturned s.step1) (chosen : Client → List Drink) : CanShow s (.main (.alambixStart chosen)) := by
  obtain ⟨⟨hc0, hc1⟩, hw, hb⟩ := hr
  have hc : ∀ c, s.client c = .returned := by
    intro c
    cases c <;> assumption
  have hb : s.bartender.step1 = .returned := hb
  cases hpc : s.bartender with
  | returned => exact waiter_catches_up_start hi hx hm hc hpc hw chosen
  | semPost =>
    have hpost : step s (.bartender .semPost) = _ := bartender_moves (guarded_of hpc) hx hm
    exact .later hpost rfl (waiter_catches_up_start (step_turns hi hpost) hx hm hc rfl hw chosen)
  | provideOrder =>
    have hprovide : step s (.bartender .provideOrder) = _ := bartender_moves (guarded_of hpc) hx hm
    have hi' := step_turns hi hprovide
    have hpost : step { s with bartender := .semPost, provided := true } (.bartender .semPost) = _ :=
      bartender_moves (guarded_of rfl) hx hm
    refine .later hprovide rfl (.later hpost rfl ?_)
    exact waiter_catches_up_start (step_turns hi' hpost) hx hm hc rfl hw chosen
  | _ => rw [hpc] at hb; cases hb

theorem step1_answered {s t : St Drink} {e : Ev Drink} (hi : TakesTurns s) (h : step1Step s.step1 e = some t) :
    CanShow s e := by
  have hruns : e.Runs s := by
    by_contra hno
    rw [step1Step, if_neg (mt (step1_runs s e).mp hno)] at h
    cases h
  rw [step1Step, if_pos ((step1_runs s e).mpr hruns)] at h
  rcases kept_or_added e with he | he
  · by_cases ha : ∀ m, e = .main m → m.afterHandOver = false
    · rw [fire_step1 s he ha] at h
      obtain ⟨s', hs, -⟩ := Option.map_eq_some_iff.mp h
      exact .now he (step_eq_some.mpr ⟨hruns, hs⟩)
    · obtain ⟨m, rfl, hm⟩ : ∃ m, e = .main m ∧ m.afterHandOver = true := by simpa using ha
      cases m with
      | alambixStart chosen =>
        obtain ⟨⟨hui, hret⟩, -⟩ := guarded_eq_some.mp h
        exact start_answered hi hruns ((MainPc.step1_eq (by simp)).mp hui) hret chosen
      | mqUnlink =>
        have hpc : s.main.step1 = .mqUnlink := (guarded_eq_some.mp h).1
        cases hm : s.main with
        | mqUnlink => exact .now rfl (step_eq_some.mpr ⟨hruns, guarded_of hm⟩)
        | semDestroyProvideDrink =>
          refine .later (a := .main .semDestroyProvideDrink) (main_moves (guarded_of hm) hruns) rfl ?_
          exact .now rfl (main_moves (guarded_of rfl) hruns)
        | _ => rw [hm] at hpc; cases hpc
      | _ => cases hm
  · -- the old program does not have the statement
    cases e with
    | main e => cases e <;> first | cases h | cases he
    | client c e | timer e => cases he
    | waiter e => cases e <;> first | cases h | cases he
    | bartender e => cases e <;> first | cases h | cases he

/-- Without the five statements of the hand-over, today's program runs exactly as the one
    before it: any number of rounds, any answers, any failing calls, quitting at any time. -/
theorem hand_over_is_all_that_changed :
    Traces step (fun _ _ => True) Ev.kept (boot : St Drink) =
      Traces step1Step (fun _ _ => True) some step1Boot := by
  rw [← boot_step1]
  refine maps_step1.traces_eq (P := fun _ => True) trivial fun s e t hr _ h => ?_
  have hi : TakesTurns s := hr.inv boot_turns fun _ _ _ hi _ hs => step_turns hi hs
  obtain ⟨s', hs'⟩ := step1_answered hi h
  exact ⟨s', hs', trivial⟩

end Alambix

/-
  Alambix.Releasing — who detaches the worker threads.

  alambix_start creates four threads and follows each pthread_create by a pthread_detach,
  but the last detach names `alambix_waiter_thread` again: the bartender is never detached
  (`detachArg`). The program (`Alambix.Program`) runs together with the table of its
  threads (`Alambix.Lib.Pthread`): its pthread_create and pthread_detach act on the table;
  a thread terminates at any time after its function has returned, and its identifier may
  be given out again once it is released.

  Proved, over any number of rounds and every schedule of the terminations:
  - `ReleaseInv`: the calls of the starts so far, thread by thread (`detachCalls`).
  - `released_once_iff`: as soon as one alambix_start has returned, a thread was not
    detached once, a detach was repeated, and a completed round leaves resources held.
  - `start_detaches`: each start detaches its clients once, its waiter twice and its
    bartender never; after the rounds there is one thread leaked for each (`rounds_leak`).
-/

import Alambix.Teardown
import Alambix.Lib.Pthread

namespace Alambix

open Lib Lib.Transition
open Function (update)

variable {Drink : Type}

/-- The variable given to the pthread_detach that follows the creation of `t`. -/
def detachArg : Thread → Thread
  | .client c => .client c
  | .waiter => .waiter
  | .bartender => .waiter

/-- The function of the thread has returned. -/
def St.returned (s : St Drink) : Thread → Prop
  | .client c => s.client c = .returned
  | .waiter => s.waiter = .returned
  | .bartender => s.bartender = .returned

structure Workers (Drink : Type) where
  prog : St Drink
  threads : Pthreads Thread
  /-- Calls of alambix_start that have returned. -/
  starts : Nat
  /-- The threads those calls created are the first `settled`. -/
  settled : Nat

inductive WorkersEv (Drink : Type) where
  /-- An event of the program; a pthread_create hands out the identifier `id`. -/
  | prog (e : Ev Drink) (id : Nat)
  | terminate (k : Nat)

/-- What an event of the program does to the table. -/
def threadsAfter (s : St Drink) (h : Pthreads Thread) (id : Nat) : Ev Drink → Option (Pthreads Thread)
  | .main .pthreadCreate =>
    match s.main with
    | .pthreadCreate t => guarded (h.Unused id) (h.create t id)
    | _ => none
  | .main .pthreadDetach =>
    match s.main with
    | .pthreadDetach t => some (h.detach (detachArg t))
    | _ => none
  | _ => some h

/-- alambix_start returns: its last statement. -/
def startReturns (s : St Drink) : Ev Drink → Bool
  | .main .pthreadDetach => decide (s.main = .pthreadDetach .bartender)
  | _ => false

variable [DecidableEq Drink]

instance (s : St Drink) : (t : Thread) → Decidable (s.returned t)
  | .client c => inferInstanceAs (Decidable (s.client c = .returned))
  | .waiter => inferInstanceAs (Decidable (s.waiter = .returned))
  | .bartender => inferInstanceAs (Decidable (s.bartender = .returned))

/-- The function of thread `k` has returned: it is of an earlier round, or of this one and
    at its end. -/
def Workers.mayTerminate (x : Workers Drink) (k : Nat) : Prop :=
  ∀ t, x.threads.holder t = k → x.prog.main.spawned t = true → x.prog.returned t

instance (x : Workers Drink) (k : Nat) : Decidable (x.mayTerminate k) := inferInstanceAs (Decidable (∀ _, _))

def workersStep (x : Workers Drink) : WorkersEv Drink → Option (Workers Drink)
  | .prog e id =>
    match step x.prog e, threadsAfter x.prog x.threads id e with
    | some s, some h =>
      some { prog := s, threads := h, starts := x.starts + (startReturns x.prog e).toNat
             settled := if startReturns x.prog e then h.next else x.settled }
    | _, _ => none
  | .terminate k =>
    guarded (x.prog.exited = none ∧ k < x.threads.next ∧ x.threads.terminated k = false ∧ x.mayTerminate k)
      { x with threads := x.threads.terminate k }

/-! ## The program under it -/

/-- The main thread is in alambix_start. -/
def MainPc.starting : MainPc → Bool
  | .pthreadCreate _ => true
  | .pthreadDetach _ => true
  | _ => false

/-- Threads the alambix_start in progress has created. -/
def MainPc.creates : MainPc → Nat
  | .pthreadCreate t => t.rank
  | .pthreadDetach t => t.rank + 1
  | _ => 0

/-- pthread_detach calls it has made. -/
def MainPc.detaches : MainPc → Nat
  | .pthreadCreate t => t.rank
  | .pthreadDetach t => t.rank
  | _ => 0

omit [DecidableEq Drink] in
theorem Thread.rank_inj {t u : Thread} (h : t.rank = u.rank) : t = u := by
  rcases t with (_ | _) | _ | _ <;> rcases u with (_ | _) | _ | _ <;> first | rfl | cases h

theorem step_returned {s s' : St Drink} {e : Ev Drink} (he : e.inRound = true) (h : step s e = some s') {t : Thread}
    (hr : s.returned t) : s'.returned t := by
  obtain ⟨-, h⟩ := step_eq_some.mp h
  cases e with
  | main e => cases he
  | timer e => rw [timer_touches h]; cases t <;> exact hr
  | waiter e =>
    cases t with
    | waiter =>
      have hpc : s.waiter = .returned := hr
      cases e <;> obtain ⟨hg, -⟩ := guarded_eq_some.mp h <;> simp [hpc] at hg
    | _ => rw [waiter_touches h]; exact hr
  | bartender e =>
    cases t with
    | bartender =>
      have hpc : s.bartender = .returned := hr
      cases e <;> obtain ⟨hg, -⟩ := guarded_eq_some.mp h <;> simp [hpc] at hg
    | _ => rw [bartender_touches h]; exact hr
  | client c e =>
    cases t with
    | client x =>
      by_cases hx : x = c
      · subst hx
        have hpc : s.client x = .returned := hr
        cases e <;> obtain ⟨hg, -⟩ := guarded_eq_some.mp h <;> simp [hpc] at hg
      · rw [client_touches h]
        show update s.client c (s'.client c) x = .returned
        rw [Function.update_of_ne hx]
        exact hr
    | _ => rw [client_touches h]; exact hr

/-- The waiter passes sem_provide_drink only after the bartender's post, and a bartender
    not yet created has done nothing. -/
structure TakesTurns (s : St Drink) : Prop where
  coin : s.semProvideDrink + s.waiter.served = s.bartender.posted
  uncreated : s.main.spawned .bartender = false → s.main = .alambixOpen ∨ s.bartender = .mqReceive

omit [DecidableEq Drink] in
theorem TakesTurns.waiter_runs {s : St Drink} (hi : TakesTurns s) (hm : s.main = .pthreadCreate .bartender) :
    ¬ s.returned .waiter := by
  intro hr
  have hr : s.waiter = .returned := hr
  have hcoin := hi.coin
  rcases hi.uncreated (by rw [hm]; rfl) with h | h
  · rw [hm] at h; cases h
  · rw [hr, h] at hcoin
    simp only [WaiterPc.served, BartenderPc.posted] at hcoin
    omega

omit [DecidableEq Drink] in
theorem boot_turns : TakesTurns (boot : St Drink) := ⟨rfl, fun _ => Or.inl rfl⟩

omit [DecidableEq Drink] in
theorem TakesTurns.frame {s s' : St Drink} (hi : TakesTurns s) (hp : s'.semProvideDrink = s.semProvideDrink)
    (hw : s'.waiter = s.waiter) (hb : s'.bartender = s.bartender) (hm : s'.main = s.main) : TakesTurns s' := by
  obtain ⟨h1, h2⟩ := hi
  constructor
  · rw [hp, hw, hb]; exact h1
  · rw [hm, hb]; exact h2

theorem waiter_turns {s s' : St Drink} {e : WaiterEv Drink} (hi : TakesTurns s) (h : waiterThreadFct s e = some s') :
    TakesTurns s' := by
  refine ⟨waiter_coin hi.coin h, ?_⟩
  rw [waiter_touches h]
  exact hi.uncreated

theorem bartender_turns {s s' : St Drink} {e : BartenderEv Drink} (hi : TakesTurns s)
    (hsp : s.main.spawned .bartender = true) (h : bartenderThreadFct s e = some s') : TakesTurns s' := by
  have hmain : s'.main = s.main := by rw [bartender_touches h]
  refine ⟨bartender_coin hi.coin h, ?_⟩
  rw [hmain, hsp]
  intro hno; cases hno

omit [DecidableEq Drink] in
theorem afterInit_main (s : St Drink) (fs : Mqueue.MqFs Drink) (w : InitWorld) :
    (afterInit s fs w).main = s.main ∨ (afterInit s fs w).main = .ui := by
  simp only [afterInit]
  split
  · exact Or.inl rfl
  · exact Or.inr rfl

theorem main_turns {s s' : St Drink} {e : MainEv Drink} (hi : TakesTurns s) (h : mainThread s e = some s') :
    TakesTurns s' := by
  obtain ⟨hcoin, hun⟩ := hi
  cases e with
  | alambixInit fs w =>
    obtain ⟨hm, rfl⟩ := guarded_eq_some.mp h
    refine ⟨hcoin, fun hsp => Or.inl ?_⟩
    rcases afterInit_main s fs w with h | h
    · exact h.trans hm
    · rw [h] at hsp; cases hsp
  | alambixStart chosen =>
    obtain ⟨⟨-, -, hw, hb⟩, rfl⟩ := guarded_eq_some.mp h
    rw [hw, hb] at hcoin
    simp only [WaiterPc.served, BartenderPc.posted] at hcoin
    refine ⟨?_, fun _ => Or.inr rfl⟩
    show s.semProvideDrink + 0 = 0
    omega
  | pthreadCreate =>
    obtain ⟨t, hm, rfl⟩ := pthreadCreate_eq_some.mp h
    refine ⟨hcoin, fun hsp => Or.inr ?_⟩
    rw [hm] at hun
    refine (hun ?_).resolve_left fun hui => by cases hui
    rcases t with (_ | _) | _ | _ <;> rfl
  | pthreadCreateFail =>
    obtain ⟨t, hm, rfl⟩ := pthreadCreateFail_eq_some.mp h
    exact ⟨hcoin, hun⟩
  | pthreadDetach =>
    obtain ⟨t, hm, rfl⟩ := pthreadDetach_eq_some.mp h
    refine ⟨hcoin, fun hsp => Or.inr ?_⟩
    rw [hm] at hun
    refine (hun ?_).resolve_left fun hui => by cases hui
    rcases t with (_ | _) | _ | _ <;> first | rfl | cases hsp
  | alambixClose code =>
    obtain ⟨hm, rfl⟩ := guarded_eq_some.mp h
    exact ⟨hcoin, hun⟩
  | _ =>
    obtain ⟨hm, rfl⟩ := guarded_eq_some.mp h
    exact ⟨hcoin, fun hsp => by cases hsp⟩

theorem step_turns {s s' : St Drink} {e : Ev Drink} (hi : TakesTurns s) (h : step s e = some s') : TakesTurns s' := by
  obtain ⟨hruns, h⟩ := step_eq_some.mp h
  cases e with
  | main e => exact main_turns hi h
  | client c e => rw [client_touches h]; exact hi.frame rfl rfl rfl rfl
  | waiter e => exact waiter_turns hi h
  | bartender e => exact bartender_turns hi hruns.2 h
  | timer e => rw [timer_touches h]; exact hi.frame rfl rfl rfl rfl

/-! ## What the main thread does to the threads of the round -/

/-- Neither a pthread_create that succeeds nor a pthread_detach. -/
def Ev.quiet : Ev Drink → Bool
  | .main .pthreadCreate => false
  | .main .pthreadDetach => false
  | _ => true

/-- A quiet event leaves the main thread where it is in alambix_start, or outside it; a
    thread that has returned stays so, unless a new round forgets it. -/
structure QuietStep (s s' : St Drink) : Prop where
  creates : s'.main.creates = s.main.creates
  detaches : s'.main.detaches = s.main.detaches
  starting : s'.main.starting = true → s'.main = s.main ∨ s'.main = .pthreadCreate (.client .client0)
  opening : s'.main = .alambixOpen → s.main = .alambixOpen
  returned : s.main ≠ .alambixOpen → ∀ t, s'.main.spawned t = true →
    s.main.spawned t = true ∧ (s.returned t → s'.returned t)

theorem main_quietStep {s s' : St Drink} {e : MainEv Drink} (hq : (Ev.main e).quiet = true)
    (h : mainThread s e = some s') : QuietStep s s' := by
  cases e with
  | alambixInit fs w =>
    obtain ⟨hm, rfl⟩ := guarded_eq_some.mp h
    have hmain := afterInit_main s fs w
    rw [hm] at hmain
    constructor
    · rcases hmain with h | h
      · rw [h, hm]
      · rw [h, hm]; rfl
    · rcases hmain with h | h
      · rw [h, hm]
      · rw [h, hm]; rfl
    · rcases hmain with h | h <;> rw [h] <;> nofun
    · exact fun _ => hm
    · exact fun hne => absurd hm hne
  | alambixStart chosen =>
    obtain ⟨⟨hm, -⟩, rfl⟩ := guarded_eq_some.mp h
    constructor
    · rw [hm]; rfl
    · rw [hm]; rfl
    · exact fun _ => Or.inr rfl
    · nofun
    · intro _ t hsp
      rcases t with (_ | _) | _ | _ <;> cases hsp
  | pthreadCreate => cases hq
  | pthreadDetach => cases hq
  | pthreadCreateFail =>
    obtain ⟨t, -, rfl⟩ := pthreadCreateFail_eq_some.mp h
    exact ⟨rfl, rfl, fun _ => Or.inl rfl, id, fun _ t hsp => ⟨hsp, by cases t <;> exact id⟩⟩
  | alambixClose code =>
    obtain ⟨-, rfl⟩ := guarded_eq_some.mp h
    exact ⟨rfl, rfl, fun _ => Or.inl rfl, id, fun _ t hsp => ⟨hsp, by cases t <;> exact id⟩⟩
  | _ =>
    obtain ⟨hm, rfl⟩ := guarded_eq_some.mp h
    constructor
    · rw [hm]; rfl
    · rw [hm]; rfl
    · nofun
    · nofun
    · intro _ t _
      rw [hm]
      exact ⟨rfl, by cases t <;> exact id⟩

theorem quietStep {s s' : St Drink} {e : Ev Drink} (hq : e.quiet = true) (h : step s e = some s') : QuietStep s s' := by
  by_cases he : e.inRound = true
  · have hm := step_main_unchanged he h
    refine ⟨by rw [hm], by rw [hm], fun _ => Or.inl hm, fun ho => hm ▸ ho, fun _ t hsp => ⟨hm ▸ hsp, ?_⟩⟩
    exact step_returned he h
  · cases e with
    | main e => exact main_quietStep hq (step_eq_some.mp h).2
    | _ => exact absurd rfl he

omit [DecidableEq Drink] in
theorem threadsAfter_quiet {s : St Drink} {h h' : Pthreads Thread} {id : Nat} {e : Ev Drink} (hq : e.quiet = true)
    (ha : threadsAfter s h id e = some h') : h' = h := by
  unfold threadsAfter at ha
  split at ha
  · cases hq
  · cases hq
  · exact (Option.some.inj ha).symm

omit [DecidableEq Drink] in
theorem startReturns_quiet {s : St Drink} {e : Ev Drink} (hq : e.quiet = true) : startReturns s e = false := by
  unfold startReturns
  split
  · cases hq
  · rfl

theorem prog_eq_some {x x' : Workers Drink} {e : Ev Drink} {id : Nat} (h : workersStep x (.prog e id) = some x') :
    ∃ s t, step x.prog e = some s ∧ threadsAfter x.prog x.threads id e = some t ∧
      x' = { prog := s, threads := t, starts := x.starts + (startReturns x.prog e).toNat
             settled := if startReturns x.prog e then t.next else x.settled } := by
  simp only [workersStep] at h
  split at h
  · rename_i s t hs ht
    exact ⟨s, t, hs, ht, (Option.some.inj h).symm⟩
  · cases h

/-- The events of the table: a thread terminates, alambix_start creates one, or calls
    pthread_detach, or the program does something else. -/
theorem workersStep_cases {x x' : Workers Drink} {e : WorkersEv Drink} (h : workersStep x e = some x') :
    (∃ k, k < x.threads.next ∧ x.mayTerminate k ∧ x' = { x with threads := x.threads.terminate k }) ∨
    (∃ t id, x.prog.main = .pthreadCreate t ∧ x.threads.Unused id ∧
      x' = { x with prog := { x.prog with main := .pthreadDetach t }, threads := x.threads.create t id }) ∨
    (∃ t, x.prog.main = .pthreadDetach t ∧
      x' = { prog := { x.prog with main := afterDetach t }, threads := x.threads.detach (detachArg t)
             starts := x.starts + (decide (t = .bartender)).toNat
             settled := if t = .bartender then x.threads.next else x.settled }) ∨
    (∃ s', QuietStep x.prog s' ∧ x' = { x with prog := s' }) := by
  cases e with
  | terminate k =>
    obtain ⟨⟨-, hk, -, hmay⟩, rfl⟩ := guarded_eq_some.mp h
    exact .inl ⟨k, hk, hmay, rfl⟩
  | prog e id =>
    obtain ⟨s, t, hs, ht, rfl⟩ := prog_eq_some h
    by_cases hq : e.quiet = true
    · obtain rfl := threadsAfter_quiet hq ht
      rw [startReturns_quiet hq]
      exact .inr (.inr (.inr ⟨s, quietStep hq hs, rfl⟩))
    · cases e with
      | main e =>
        obtain ⟨-, hs⟩ := step_eq_some.mp hs
        cases e with
        | pthreadCreate =>
          obtain ⟨u, hm, rfl⟩ := pthreadCreate_eq_some.mp hs
          simp only [threadsAfter, hm] at ht
          obtain ⟨hun, rfl⟩ := guarded_eq_some.mp ht
          exact .inr (.inl ⟨u, id, hm, hun, rfl⟩)
        | pthreadDetach =>
          obtain ⟨u, hm, rfl⟩ := pthreadDetach_eq_some.mp hs
          simp only [threadsAfter, hm, Option.some.injEq] at ht
          subst ht
          refine .inr (.inr (.inl ⟨u, hm, ?_⟩))
          simp [startReturns, hm, Pthreads.detach]
        | _ => exact absurd rfl hq
      | _ => exact absurd rfl hq

/-- The program under the table runs as `Alambix.Program` has it. -/
theorem workers_prog {ok : Workers Drink → WorkersEv Drink → Prop} {x₀ x : Workers Drink}
    (h : Reach workersStep ok x₀ x) : Reach step (fun _ _ => True) x₀.prog x.prog := by
  induction h with
  | refl => exact .refl
  | @step x x' e _ _ hs ih =>
    cases e with
    | terminate k =>
      obtain ⟨-, rfl⟩ := guarded_eq_some.mp hs
      exact ih
    | prog e id =>
      obtain ⟨s, t, hstep, -, rfl⟩ := prog_eq_some hs
      exact ih.step trivial hstep

/-! ## The calls of the starts so far -/

/-- The thread the `n`-th pthread_detach is meant for: the fourth of each start names the
    third thread again. -/
def detachTarget (n : Nat) : Nat := if n % 4 = 3 then n - 1 else n

/-- How many of the first `n` pthread_detach calls are meant for thread `k`. -/
def detachCalls (n k : Nat) : Nat :=
  (if k % 4 ≠ 3 ∧ k < n then 1 else 0) + (if k % 4 = 2 ∧ k + 1 < n then 1 else 0)

omit [DecidableEq Drink] in
theorem detachCalls_succ (n k : Nat) :
    detachCalls (n + 1) k = detachCalls n k + if k = detachTarget n then 1 else 0 := by
  unfold detachCalls detachTarget
  repeat' split
  all_goals omega

omit [DecidableEq Drink] in
theorem reached_succ (n k : Nat) :
    (k % 4 ≠ 3 ∧ k < n + 1) ↔ (k % 4 ≠ 3 ∧ k < n) ∨ k = detachTarget n := by
  unfold detachTarget
  repeat' split
  all_goals omega

structure ReleaseInv (x : Workers Drink) : Prop where
  next : x.threads.next = 4 * x.starts + x.prog.main.creates
  settled : x.settled = 4 * x.starts
  detaches : ∀ k, x.threads.detaches k = detachCalls (4 * x.starts + x.prog.main.detaches) k
  detached : ∀ k, x.threads.detached k = decide (k % 4 ≠ 3 ∧ k < 4 * x.starts + x.prog.main.detaches)
  repeated : x.threads.repeated = x.starts
  holder : ∀ t, x.prog.main.starting = true → x.prog.main.spawned t = true →
    x.threads.holder t = 4 * x.starts + t.rank ∧ x.threads.var t = x.threads.id (4 * x.starts + t.rank)
  alone : ∀ t, x.prog.main = .pthreadDetach t → x.threads.Alone (4 * x.starts + (detachArg t).rank)
  /-- The bartender is not yet created, so the waiter still holds its identifier. -/
  waiterAlone : x.prog.main = .pthreadCreate .bartender → x.threads.Alone (4 * x.starts + 2)
  terminated : ∀ k, x.threads.terminated k = true → k < x.threads.next ∧ x.mayTerminate k
  opening : x.prog.main = .alambixOpen → x.starts = 0

omit [DecidableEq Drink] in
/-- The calls so far, when the start in progress has made `n`. -/
theorem ReleaseInv.calls {x : Workers Drink} (hi : ReleaseInv x) {n : Nat} (hn : x.prog.main.detaches = n) (k : Nat) :
    x.threads.detaches k = detachCalls (4 * x.starts + n) k := by
  rw [← hn]; exact hi.detaches k

omit [DecidableEq Drink] in
theorem ReleaseInv.reached {x : Workers Drink} (hi : ReleaseInv x) {n : Nat} (hn : x.prog.main.detaches = n) (k : Nat) :
    x.threads.detached k = decide (k % 4 ≠ 3 ∧ k < 4 * x.starts + n) := by
  rw [← hn]; exact hi.detached k

omit [DecidableEq Drink] in
theorem terminate_releaseInv {x : Workers Drink} {k : Nat} (hi : ReleaseInv x) (hk : k < x.threads.next)
    (hmay : x.mayTerminate k) : ReleaseInv { x with threads := x.threads.terminate k } where
  next := hi.next
  settled := hi.settled
  detaches := hi.detaches
  detached := hi.detached
  repeated := hi.repeated
  holder := hi.holder
  alone := fun t hm => (hi.alone t hm).terminate k
  waiterAlone := fun hm => (hi.waiterAlone hm).terminate k
  terminated := by
    intro j hj
    by_cases hjk : j = k
    · subst hjk
      exact ⟨hk, hmay⟩
    · exact hi.terminated j (by simpa [Pthreads.terminate, hjk] using hj)
  opening := hi.opening

omit [DecidableEq Drink] in
theorem quiet_releaseInv {x : Workers Drink} {s' : St Drink} (hi : ReleaseInv x) (hq : QuietStep x.prog s') :
    ReleaseInv { x with prog := s' } where
  next := by rw [hq.creates]; exact hi.next
  settled := hi.settled
  detaches := by rw [hq.detaches]; exact hi.detaches
  detached := by rw [hq.detaches]; exact hi.detached
  repeated := hi.repeated
  holder := by
    intro t hst hsp
    rcases hq.starting hst with hm | hm
    · rw [hm] at hst hsp
      exact hi.holder t hst hsp
    · -- a new start has created nothing
      rw [hm] at hsp
      rcases t with (_ | _) | _ | _ <;> cases hsp
  alone := by
    intro t hm
    rcases hq.starting (by rw [hm]; rfl) with h | h
    · exact hi.alone t (h.symm.trans hm)
    · rw [hm] at h; cases h
  waiterAlone := by
    intro hm
    rcases hq.starting (by rw [hm]; rfl) with h | h
    · exact hi.waiterAlone (h.symm.trans hm)
    · rw [hm] at h; cases h
  terminated := by
    intro k hk
    obtain ⟨hlt, hmay⟩ := hi.terminated k hk
    refine ⟨hlt, fun t ht hsp => ?_⟩
    by_cases hopen : x.prog.main = .alambixOpen
    · have hnext := hi.next
      rw [hi.opening hopen, hopen] at hnext
      simp only [MainPc.creates] at hnext
      omega
    · obtain ⟨hold, hret⟩ := hq.returned hopen t hsp
      exact hret (hmay t ht hold)
  opening := fun hm => hi.opening (hq.opening hm)

omit [DecidableEq Drink] in
theorem create_releaseInv {x : Workers Drink} {t : Thread} {id : Nat} (hi : ReleaseInv x) (ht : TakesTurns x.prog)
    (hm : x.prog.main = .pthreadCreate t) (hun : x.threads.Unused id) :
    ReleaseInv { x with prog := { x.prog with main := .pthreadDetach t }, threads := x.threads.create t id } := by
  have hnext : x.threads.next = 4 * x.starts + t.rank := by rw [hi.next, hm]; rfl
  have hcalls := hi.calls (n := t.rank) (by rw [hm]; rfl)
  have hreach := hi.reached (n := t.rank) (by rw [hm]; rfl)
  have hbefore : ∀ u, u ≠ t → (MainPc.pthreadDetach t).spawned u = true →
      (MainPc.pthreadCreate t).spawned u = true := by
    intro u hne hsp
    have hrank : u.rank ≠ t.rank := fun h => hne (Thread.rank_inj h)
    simp only [MainPc.spawned, decide_eq_true_eq] at hsp ⊢
    omega
  constructor
  · show x.threads.next + 1 = 4 * x.starts + (t.rank + 1)
    omega
  · exact hi.settled
  · intro k
    show update x.threads.detaches x.threads.next 0 k = detachCalls (4 * x.starts + t.rank) k
    by_cases hk : k = x.threads.next
    · rw [hk, Function.update_self, hnext]
      simp [detachCalls]
    · rw [Function.update_of_ne hk]
      exact hcalls k
  · intro k
    show update x.threads.detached x.threads.next false k = decide (k % 4 ≠ 3 ∧ k < 4 * x.starts + t.rank)
    by_cases hk : k = x.threads.next
    · rw [hk, Function.update_self, hnext]
      simp
    · rw [Function.update_of_ne hk]
      exact hreach k
  · exact hi.repeated
  · intro u _ hsp
    show update x.threads.holder t x.threads.next u = 4 * x.starts + u.rank ∧
      update x.threads.var t id u = update x.threads.id x.threads.next id (4 * x.starts + u.rank)
    by_cases hu : u = t
    · subst hu
      rw [← hnext]
      simp
    · obtain ⟨hh, hv⟩ := hi.holder u (by rw [hm]; rfl) (by rw [hm]; exact hbefore u hu hsp)
      have hrank : u.rank ≠ t.rank := fun h => hu (Thread.rank_inj h)
      rw [Function.update_of_ne hu, Function.update_of_ne hu, Function.update_of_ne (by omega)]
      exact ⟨hh, hv⟩
  · intro u hu
    obtain rfl : t = u := by cases hu; rfl
    by_cases hb : t = .bartender
    · -- the waiter runs, so the bartender was given another identifier
      subst hb
      refine (hi.waiterAlone hm).create (by rw [hnext]; simp [Thread.rank]) ?_ hun
      by_contra hterm
      have hmay := (hi.terminated _ (by simpa using hterm)).2
      refine ht.waiter_runs hm (hmay .waiter ?_ (by rw [hm]; rfl))
      exact (hi.holder .waiter (by rw [hm]; rfl) (by rw [hm]; rfl)).1
    · have harg : (detachArg t).rank = t.rank := by
        rcases t with (_ | _) | _ | _ <;> first | rfl | exact absurd rfl hb
      rw [harg]
      show (x.threads.create t id).Alone (4 * x.starts + t.rank)
      rw [← hnext]
      exact Pthreads.create_alone hun
  · intro hm'
    cases hm'
  · intro k hk
    have hkn : k ≠ x.threads.next := by
      intro h
      have hk : update x.threads.terminated x.threads.next false k = true := hk
      rw [h, Function.update_self] at hk; cases hk
    obtain ⟨hlt, hmay⟩ := hi.terminated k (by simpa [Pthreads.create, hkn] using hk)
    refine ⟨Nat.lt_succ_of_lt hlt, fun u hu hsp => ?_⟩
    have hu : update x.threads.holder t x.threads.next u = k := hu
    by_cases hut : u = t
    · rw [hut, Function.update_self] at hu
      exact absurd hu.symm hkn
    · rw [Function.update_of_ne hut] at hu
      have := hmay u hu (by rw [hm]; exact hbefore u hut hsp)
      cases u <;> exact this
  · intro hm'
    cases hm'

/-- Where the main thread goes after the detach that follows the creation of `t`. -/
theorem afterDetach_counts (n : Nat) (t : Thread) :
    4 * (n + (decide (t = .bartender)).toNat) + (afterDetach t).creates = 4 * n + t.rank + 1 ∧
    4 * (n + (decide (t = .bartender)).toNat) + (afterDetach t).detaches = 4 * n + t.rank + 1 := by
  rcases t with (_ | _) | _ | _
  all_goals simp [afterDetach, MainPc.creates, MainPc.detaches, Thread.rank]
  omega

theorem afterDetach_spawned {t u : Thread} (h : (afterDetach t).spawned u = true) :
    (MainPc.pthreadDetach t).spawned u = true := by
  rcases t with (_ | _) | _ | _ <;> rcases u with (_ | _) | _ | _ <;> first | rfl | exact h

theorem detachTarget_eq (n : Nat) (t : Thread) : detachTarget (4 * n + t.rank) = 4 * n + (detachArg t).rank := by
  rcases t with (_ | _) | _ | _ <;> simp [detachTarget, detachArg, Thread.rank]

omit [DecidableEq Drink] in
theorem detach_releaseInv {x : Workers Drink} {t : Thread} (hi : ReleaseInv x) (hm : x.prog.main = .pthreadDetach t) :
    ReleaseInv { prog := { x.prog with main := afterDetach t }, threads := x.threads.detach (detachArg t)
                 starts := x.starts + (decide (t = .bartender)).toNat
                 settled := if t = .bartender then x.threads.next else x.settled } := by
  obtain ⟨hcreates, hdetaches⟩ := afterDetach_counts x.starts t
  have hnext : x.threads.next = 4 * x.starts + (t.rank + 1) := by rw [hi.next, hm]; rfl
  have harg : (MainPc.pthreadDetach t).spawned (detachArg t) = true := by rcases t with (_ | _) | _ | _ <;> rfl
  obtain ⟨hh, hv⟩ := hi.holder (detachArg t) (by rw [hm]; rfl) (by rw [hm]; exact harg)
  have hcalls := hi.calls (n := t.rank) (by rw [hm]; rfl)
  have hreach := hi.reached (n := t.rank) (by rw [hm]; rfl)
  have htarget : detachTarget (4 * x.starts + t.rank) = x.threads.holder (detachArg t) := by rw [detachTarget_eq, hh]
  have hlt : x.threads.holder (detachArg t) < x.threads.next := by
    rw [hh, hnext]
    rcases t with (_ | _) | _ | _ <;> simp [detachArg, Thread.rank]
  -- the detach reaches the thread it is meant for
  have heffect : (x.threads.detach (detachArg t)).detached =
      update x.threads.detached (x.threads.holder (detachArg t)) true :=
    Pthreads.detach_of_alone (by rw [hv, hh]) hlt (by rw [hh]; exact hi.alone t hm)
  constructor
  · show x.threads.next = 4 * (x.starts + (decide (t = .bartender)).toNat) + (afterDetach t).creates
    omega
  · show (if t = .bartender then x.threads.next else x.settled) = 4 * (x.starts + (decide (t = .bartender)).toNat)
    by_cases hb : t = .bartender
    · subst hb
      simp [hnext, Thread.rank]
      omega
    · simp [hb, hi.settled]
  · intro k
    show update x.threads.detaches (x.threads.holder (detachArg t)) _ k = detachCalls (4 * (x.starts + _) + _) k
    rw [hdetaches, detachCalls_succ, htarget, ← hcalls]
    by_cases hk : k = x.threads.holder (detachArg t)
    · subst hk
      simp
    · simp [hk]
  · intro k
    show (x.threads.detach (detachArg t)).detached k = decide (k % 4 ≠ 3 ∧ k < 4 * (x.starts + _) + _)
    have hsucc := reached_succ (4 * x.starts + t.rank) k
    rw [htarget] at hsucc
    rw [heffect, hdetaches]
    calc update x.threads.detached (x.threads.holder (detachArg t)) true k
        = decide ((k % 4 ≠ 3 ∧ k < 4 * x.starts + t.rank) ∨ k = x.threads.holder (detachArg t)) := by
          by_cases hk : k = x.threads.holder (detachArg t)
          · subst hk; simp
          · simp [hk, hreach]
      _ = decide (k % 4 ≠ 3 ∧ k < 4 * x.starts + t.rank + 1) := decide_eq_decide.mpr hsucc.symm
  · show x.threads.repeated + (x.threads.detached (x.threads.holder (detachArg t))).toNat =
      x.starts + (decide (t = .bartender)).toNat
    rw [hi.repeated, hreach, hh]
    congr 2
    rcases t with (_ | _) | _ | _ <;> simp [detachArg, Thread.rank]
  · intro u hst hsp
    have hb : t ≠ .bartender := by
      rintro rfl; cases hst
    obtain ⟨hu, hvu⟩ := hi.holder u (by rw [hm]; rfl) (by rw [hm]; exact afterDetach_spawned hsp)
    simp only [hb, decide_false, Bool.toNat_false, Nat.add_zero]
    exact ⟨hu, hvu⟩
  · intro u hu
    rcases t with (_ | _) | _ | _ <;> cases hu
  · intro hu
    obtain rfl : t = .waiter := by rcases t with (_ | _) | _ | _ <;> first | rfl | cases hu
    exact (hi.alone .waiter hm).detach
  · intro k hk
    obtain ⟨hlt, hmay⟩ := hi.terminated k hk
    refine ⟨hlt, fun u hu hsp => ?_⟩
    have := hmay u hu (by rw [hm]; exact afterDetach_spawned hsp)
    cases u <;> exact this
  · intro hu
    rcases t with (_ | _) | _ | _ <;> cases hu

theorem step_releaseInv {x x' : Workers Drink} {e : WorkersEv Drink} (hi : ReleaseInv x) (ht : TakesTurns x.prog)
    (h : workersStep x e = some x') : ReleaseInv x' := by
  rcases workersStep_cases h with ⟨k, hk, hmay, rfl⟩ | ⟨t, id, hm, hun, rfl⟩ | ⟨t, hm, rfl⟩ | ⟨s', hq, rfl⟩
  · exact terminate_releaseInv hi hk hmay
  · exact create_releaseInv hi ht hm hun
  · exact detach_releaseInv hi hm
  · exact quiet_releaseInv hi hq

/-! ## Every run -/

/-- The program before alambix_open; no thread created. -/
def noWorkers : Workers Drink := ⟨boot, .initial, 0, 0⟩

omit [DecidableEq Drink] in
theorem noWorkers_releaseInv : ReleaseInv (noWorkers : Workers Drink) where
  next := rfl
  settled := rfl
  detaches := fun k => by simp [noWorkers, Pthreads.initial, boot, MainPc.detaches, detachCalls]
  detached := fun k => by simp [noWorkers, Pthreads.initial, boot, MainPc.detaches]
  repeated := rfl
  holder := fun t hst => by cases hst
  alone := fun t hm => by cases hm
  waiterAlone := fun hm => by cases hm
  terminated := fun k hk => by cases hk
  opening := fun _ => rfl

theorem reach_releaseInv {ok : Workers Drink → WorkersEv Drink → Prop} {x : Workers Drink}
    (h : Reach workersStep ok noWorkers x) : ReleaseInv x := by
  have hturns : ∀ x, Reach workersStep ok (noWorkers : Workers Drink) x → TakesTurns x.prog := fun _ hx =>
    (workers_prog hx).inv (I := TakesTurns) boot_turns fun _ _ _ hi _ hs => step_turns hi hs
  exact h.inv_with hturns noWorkers_releaseInv fun _ _ _ ht hi _ hs => step_releaseInv hi ht hs

/-- The pthread_detach calls a start that has returned made for its thread `t`. -/
def Thread.startDetaches : Thread → Nat
  | .client _ => 1
  | .waiter => 2
  | .bartender => 0

theorem start_detaches {ok : Workers Drink → WorkersEv Drink → Prop} {x : Workers Drink}
    (h : Reach workersStep ok noWorkers x) {n : Nat} (hn : n < x.starts) (t : Thread) :
    x.threads.detaches (4 * n + t.rank) = t.startDetaches := by
  rw [(reach_releaseInv h).detaches]
  rcases t with (_ | _) | _ | _
  · show detachCalls _ (4 * n + 0) = 1
    rw [detachCalls, if_pos (by omega), if_neg (by omega)]
  · show detachCalls _ (4 * n + 1) = 1
    rw [detachCalls, if_pos (by omega), if_neg (by omega)]
  · show detachCalls _ (4 * n + 2) = 2
    rw [detachCalls, if_pos (by omega), if_pos (by omega)]
  · show detachCalls _ (4 * n + 3) = 0
    rw [detachCalls, if_neg (by omega), if_neg (by omega)]

omit [DecidableEq Drink] in
theorem countP_fourth (n : Nat) : ((List.range (4 * n)).countP fun k => decide (k % 4 = 3)) = n := by
  induction n with
  | zero => rfl
  | succ n ih =>
    rw [show 4 * (n + 1) = 4 * n + 1 + 1 + 1 + 1 by omega]
    simp only [List.range_succ, List.countP_append, List.countP_singleton, ih, decide_eq_true_eq]
    rw [if_neg (by omega), if_neg (by omega), if_neg (by omega), if_pos (by omega)]

/-- After any number of rounds whose threads have all terminated, one thread for each round
    still holds its resources. -/
theorem rounds_leak {ok : Workers Drink → WorkersEv Drink → Prop} {x : Workers Drink}
    (h : Reach workersStep ok noWorkers x) (hm : x.prog.main = .ui)
    (hall : ∀ k < x.threads.next, x.threads.terminated k = true) : x.threads.leaked = x.starts := by
  have hi := reach_releaseInv h
  have hnext : x.threads.next = 4 * x.starts := by rw [hi.next, hm]; rfl
  have hleak : ∀ k ∈ List.range x.threads.next,
      ((x.threads.terminated k && x.threads.held k) = true ↔ decide (k % 4 = 3) = true) := by
    intro k hk
    have hlt : k < x.threads.next := List.mem_range.mp hk
    rw [Pthreads.held, hall k hlt, hi.reached (n := 0) (by rw [hm]; rfl)]
    simp [show k < 4 * x.starts by omega]
  rw [Pthreads.leaked, List.countP_congr hleak, hnext, countP_fourth]

/-- In any run of the program: as soon as one alambix_start has returned, not every thread
    it created was detached once, a detach was repeated, and a round that has ended left a
    thread unreleased. -/
theorem released_once_iff {x : Workers Drink} (h : Reach workersStep (fun _ _ => True) noWorkers x) :
    ((∀ k < x.settled, x.threads.detaches k = 1) ↔ x.starts = 0) ∧
    (x.threads.repeated = 0 ↔ x.starts = 0) ∧
    (x.prog.main = .ui → (∀ k < x.threads.next, x.threads.terminated k = true) →
      (x.threads.leaked = 0 ↔ x.starts = 0)) := by
  have hi := reach_releaseInv h
  refine ⟨⟨fun hone => ?_, fun h0 k hk => ?_⟩, by rw [hi.repeated], fun hm hall => by rw [rounds_leak h hm hall]⟩
  · by_contra hs
    have hb := start_detaches h (Nat.pos_of_ne_zero hs) .bartender
    rw [hone _ (by rw [hi.settled]; simp only [Thread.rank]; omega)] at hb
    cases hb
  · rw [hi.settled, h0] at hk
    omega

/-- alambix_init, then these events; a pthread_create hands out its position among them. -/
def numbered (es : List (Ev Nat)) : List (WorkersEv Nat) :=
  .prog (.main (.alambixInit freshFs allSucceed)) 0 :: List.zipWith .prog es (List.range es.length)

/-- A round to its end; then the threads terminate. -/
def workersRound : List (WorkersEv Nat) :=
  numbered (startRound oneEach ++ orderProvided ++ [Ev.waiter .serveOrder]) ++
    ([.terminate 3, .terminate 2, .terminate 1, .terminate 0] : List (WorkersEv Nat))

theorem one_round_releases_three :
    ∃ x : Workers Nat, Reach workersStep (fun _ _ => True) noWorkers x ∧ x.starts = 1 ∧
      ¬ (∀ k < x.settled, x.threads.detaches k = 1) ∧ x.threads.repeated ≠ 0 ∧ x.threads.leaked ≠ 0 := by
  have hr : Reach workersStep (fun _ _ => True) (noWorkers : Workers Nat) _ := exec_get_reach workersRound (by decide)
  obtain ⟨h1, h2, h3⟩ := released_once_iff hr
  have hs : ((exec workersStep (fun _ _ => True) noWorkers workersRound).get (by decide)).starts = 1 := by decide
  exact ⟨_, hr, hs, fun h => absurd (h1.mp h) (by rw [hs]; decide), fun h => absurd (h2.mp h) (by rw [hs]; decide),
    fun h => absurd ((h3 (by decide) (by decide)).mp h) (by rw [hs]; decide)⟩

theorem bartender_is_never_detached :
    ∃ x : Workers Nat, Reach workersStep (fun _ _ => True) noWorkers x ∧ x.prog.main = .ui ∧
      (∀ k < x.threads.next, x.threads.terminated k = true) ∧ x.threads.detaches 2 = 2 ∧ x.threads.detaches 3 = 0 ∧
      x.threads.repeated = 1 ∧ x.threads.leaked = 1 :=
  ⟨_, exec_get_reach workersRound (by decide), by decide, by decide, by decide, by decide, by decide, by decide⟩

/-- The round ends before alambix_start's last detach. -/
def roundWithinStart : List (WorkersEv Nat) :=
  numbered ((startRound oneEach).take 8 ++ orderProvided ++ [Ev.waiter .serveOrder]) ++ [WorkersEv.terminate 2]

theorem released_waiter_is_detached_again :
    ∃ x : Workers Nat, Reach workersStep (fun _ _ => True) noWorkers x ∧
      x.prog.main = .pthreadDetach .bartender ∧ x.threads.held (x.threads.holder (detachArg .bartender)) = false :=
  ⟨_, exec_get_reach roundWithinStart (by decide), by decide, by decide⟩

end Alambix

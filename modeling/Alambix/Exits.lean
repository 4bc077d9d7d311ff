/-
  Alambix.Exits — what the end of the process leaves of the queue's name.

  The process ends in alambix_init, alambix_start, the waiter, the bartender, or main's
  return after alambix_destroy. Two of these paths unlink the name first: alambix_destroy,
  and the bartender's after a failed mq_receive. The others leave it to whichever thread
  happens to have unlinked it.

  Proved, for every run: a process that created the queue leaves no name behind exactly
  when its last statement comes after one of the two mq_unlink (`name_unlinked_iff`). A
  failed timer_settime leaves it (`failed_timer_leaves_the_queue`).
-/

import Alambix.Teardown

namespace Alambix

open Lib.Mqueue Lib.Transition

variable {Drink : Type}

/-- Main has executed the mq_unlink of alambix_destroy. -/
def MainPc.unlinked : MainPc → Bool
  | .mqClose => true
  | .alambixClose => true
  | _ => false

/-- The last statements that come after an mq_unlink, with the state they find. -/
def EndsUnlinked (s : St Drink) : Ev Drink → Prop
  | .main (.alambixClose _) => True
  | .bartender .exit => True
  | .bartender .timerSettimeFail => s.main.unlinked = true
  | .waiter (.exit _) => s.main.unlinked = true ∨ s.bartender = .failExit
  | _ => False

/-- The name of a queue the program created goes with one of the two mq_unlink. -/
structure NameInv (s : St Drink) : Prop where
  name : s.created = true → (s.linked = false ↔ s.main.unlinked = true ∨ s.bartender = .failExit)
  idle : s.main.spawned .bartender = false → s.bartender = .mqReceive ∨ s.bartender = .returned

theorem NameInv.frame {s s' : St Drink} (hi : NameInv s) (hm : s'.main = s.main) (hb : s'.bartender = s.bartender)
    (hl : s'.linked = s.linked) (hc : s'.created = s.created) : NameInv s' where
  name := by rw [hm, hb, hl, hc]; exact hi.name
  idle := by rw [hm, hb]; exact hi.idle

theorem boot_name : NameInv (boot : St Drink) where
  name := fun h => by cases h
  idle := fun _ => Or.inr rfl

/-- A queue alambix_init has created has a name when it ends. -/
theorem created_linked {fs : MqFs Drink} {w : InitWorld} (h : fs.next < (alambixInit fs w).2.next) :
    ((alambixInit fs w).2.names alambixBartenderMqName).isSome = true := by
  rw [alambixInit_eq] at h ⊢
  split at h
  · exact absurd h (by simp)
  · split at h
    · simp_all
    · split at h
      · exact absurd h (by simp)
      · split at h <;> simp_all

/-! ## Each event keeps it -/

theorem init_name {s : St Drink} (hi : NameInv s) (hm : s.main = .alambixOpen) (fs : MqFs Drink) (w : InitWorld) :
    NameInv (afterInit s fs w) := by
  have hidle := hi.idle (by rw [hm]; rfl)
  have hb : s.bartender ≠ .failExit := by rcases hidle with h | h <;> simp [h]
  refine ⟨fun hc => ?_, fun _ => hidle⟩
  have hlinked := created_linked (of_decide_eq_true hc)
  have hmain : (afterInit s fs w).main.unlinked = false := by
    simp only [afterInit, hm]
    split <;> rfl
  simp [afterInit, hlinked, hb] at hmain ⊢
  exact hmain

variable [DecidableEq Drink]

theorem main_name {s s' : St Drink} {e : MainEv Drink} (hi : NameInv s) (h : mainThread s e = some s') :
    NameInv s' := by
  obtain ⟨hname, hidle⟩ := hi
  cases e with
  | alambixInit fs w =>
    obtain ⟨hm, rfl⟩ := guarded_eq_some.mp h
    exact init_name ⟨hname, hidle⟩ hm fs w
  | alambixStart chosen =>
    obtain ⟨⟨hm, hr⟩, rfl⟩ := guarded_eq_some.mp h
    have hb : s.bartender = .returned := hr.2.2
    refine ⟨fun hc => ?_, fun _ => Or.inl rfl⟩
    simpa [hm, hb, MainPc.unlinked, newRound] using hname hc
  | pthreadCreate =>
    obtain ⟨t, hm, rfl⟩ := pthreadCreate_eq_some.mp h
    refine ⟨fun hc => by simpa [hm, MainPc.unlinked] using hname hc, fun hs => hidle ?_⟩
    rcases t with (_ | _) | _ | _ <;> simp_all [MainPc.spawned, Thread.rank]
  | pthreadCreateFail =>
    obtain ⟨t, hm, rfl⟩ := pthreadCreateFail_eq_some.mp h
    exact ⟨hname, hidle⟩
  | pthreadDetach =>
    obtain ⟨t, hm, rfl⟩ := pthreadDetach_eq_some.mp h
    refine ⟨fun hc => ?_, fun hs => hidle ?_⟩
    · have := hname hc
      rcases t with (_ | _) | _ | _ <;> simpa [hm, MainPc.unlinked, afterDetach] using this
    · rcases t with (_ | _) | _ | _ <;> simp_all [MainPc.spawned, Thread.rank, afterDetach]
  | mqUnlink =>
    obtain ⟨hm, rfl⟩ := guarded_eq_some.mp h
    exact ⟨fun _ => by simp [MainPc.unlinked], fun hs => by cases hs⟩
  | alambixClose code =>
    obtain ⟨hm, rfl⟩ := guarded_eq_some.mp h
    exact ⟨hname, hidle⟩
  | _ =>
    obtain ⟨hm, rfl⟩ := guarded_eq_some.mp h
    exact ⟨fun hc => by simpa [hm, MainPc.unlinked] using hname hc, fun hs => by cases hs⟩

theorem bartender_name {s s' : St Drink} {e : BartenderEv Drink} (hi : NameInv s)
    (hrun : s.main.spawned .bartender = true) (h : bartenderThreadFct s e = some s') : NameInv s' := by
  have hname := hi.name
  cases e with
  | mqUnlink =>
    obtain ⟨hpc, rfl⟩ := guarded_eq_some.mp h
    exact ⟨fun _ => by simp, fun hs => by simp [hrun] at hs⟩
  | exit =>
    obtain ⟨hpc, rfl⟩ := guarded_eq_some.mp h
    exact hi.frame rfl rfl rfl rfl
  | timerSettimeFail =>
    obtain ⟨hpc, rfl⟩ := guarded_eq_some.mp h
    exact hi.frame rfl rfl rfl rfl
  | hasOrderedDrink more =>
    obtain ⟨hpc, rfl⟩ := guarded_eq_some.mp h
    refine ⟨fun hc => ?_, fun hs => by simp [hrun] at hs⟩
    cases more <;> simpa [hpc] using hname hc
  | _ =>
    obtain ⟨hpc, rfl⟩ := guarded_eq_some.mp h
    exact ⟨fun hc => by simpa [hpc] using hname hc, fun hs => by simp [hrun] at hs⟩

theorem step_name {s s' : St Drink} {e : Ev Drink} (hi : NameInv s) (h : step s e = some s') : NameInv s' := by
  obtain ⟨hruns, h⟩ := step_eq_some.mp h
  cases e with
  | main e => exact main_name hi h
  | bartender e => exact bartender_name hi hruns.2 h
  | client c e => rw [client_touches h]; exact hi.frame rfl rfl rfl rfl
  | waiter e => rw [waiter_touches h]; exact hi.frame rfl rfl rfl rfl
  | timer e => rw [timer_touches h]; exact hi.frame rfl rfl rfl rfl

/-! ## The end of the process -/

/-- An event that ends the process, by the path it ends. -/
theorem ending_cases {s s' : St Drink} {e : Ev Drink} (h : step s e = some s') (hx : s'.exited ≠ none) :
    (∃ fs w, e = .main (.alambixInit fs w) ∧ s' = afterInit s fs w) ∨
    (∃ x, s' = { s with exited := x } ∧
      ((∃ t, e = .main .pthreadCreateFail ∧ s.main = .pthreadCreate t) ∨
      (∃ code, e = .main (.alambixClose code) ∧ s.main = .alambixClose) ∨
      (∃ d, e = .waiter (.exit d)) ∨
      (e = .bartender .exit ∧ s.bartender = .failExit) ∨
      (e = .bartender .timerSettimeFail ∧ s.bartender = .timerSettime))) := by
  obtain ⟨hruns, h⟩ := step_eq_some.mp h
  cases e with
  | main e =>
    have halive : s.exited = none := hruns
    cases e with
    | alambixInit fs w =>
      obtain ⟨-, rfl⟩ := guarded_eq_some.mp h
      exact .inl ⟨fs, w, rfl, rfl⟩
    | pthreadCreateFail =>
      obtain ⟨t, hm, rfl⟩ := pthreadCreateFail_eq_some.mp h
      exact .inr ⟨_, rfl, .inl ⟨t, rfl, hm⟩⟩
    | alambixClose code =>
      obtain ⟨hm, rfl⟩ := guarded_eq_some.mp h
      exact .inr ⟨_, rfl, .inr (.inl ⟨code, rfl, hm⟩)⟩
    | pthreadCreate => obtain ⟨t, -, rfl⟩ := pthreadCreate_eq_some.mp h; exact absurd halive hx
    | pthreadDetach => obtain ⟨t, -, rfl⟩ := pthreadDetach_eq_some.mp h; exact absurd halive hx
    | _ => obtain ⟨-, rfl⟩ := guarded_eq_some.mp h; exact absurd halive hx
  | waiter e =>
    cases e with
    | exit d =>
      obtain ⟨-, rfl⟩ := guarded_eq_some.mp h
      exact .inr ⟨_, rfl, .inr (.inr (.inl ⟨d, rfl⟩))⟩
    | _ => obtain ⟨-, rfl⟩ := guarded_eq_some.mp h; exact absurd hruns.1 hx
  | bartender e =>
    cases e with
    | exit =>
      obtain ⟨hpc, rfl⟩ := guarded_eq_some.mp h
      exact .inr ⟨_, rfl, .inr (.inr (.inr (.inl ⟨rfl, hpc⟩)))⟩
    | timerSettimeFail =>
      obtain ⟨hpc, rfl⟩ := guarded_eq_some.mp h
      exact .inr ⟨_, rfl, .inr (.inr (.inr (.inr ⟨rfl, hpc⟩)))⟩
    | _ => obtain ⟨-, rfl⟩ := guarded_eq_some.mp h; exact absurd hruns.1 hx
  | client c e => rw [client_touches h] at hx; exact absurd hruns.1 hx
  | timer e => rw [timer_touches h] at hx; exact absurd hruns hx

/-- In every run that ends the process: if alambix_init created the queue, its name is gone
    exactly when the process ends by alambix_close or by the bartender's exit after a
    failed mq_receive, or by another exit that happens to come after their mq_unlink. -/
theorem name_unlinked_iff {s s' : St Drink} {e : Ev Drink} (h : Reach step (fun _ _ => True) boot s)
    (hs : step s e = some s') (hx : s'.exited ≠ none) (hc : s'.created = true) :
    s'.linked = false ↔ EndsUnlinked s e := by
  have hi : NameInv s := h.inv boot_name fun _ _ _ hi _ hs => step_name hi hs
  rcases ending_cases hs hx with ⟨fs, w, rfl, rfl⟩ | ⟨x, rfl, hpath⟩
  · -- the queue alambix_init created keeps its name when timer_create fails
    have hlinked := created_linked (of_decide_eq_true hc)
    simp [EndsUnlinked, afterInit, hlinked]
  · refine (hi.name hc).trans ?_
    rcases hpath with ⟨t, rfl, hm⟩ | ⟨code, rfl, hm⟩ | ⟨d, rfl⟩ | ⟨rfl, hb⟩ | ⟨rfl, hb⟩
    · -- alambix_start creates the bartender last
      have hidle := hi.idle (by rw [hm]; rcases t with (_ | _) | _ | _ <;> rfl)
      rcases hidle with hb | hb <;> simp [EndsUnlinked, hm, hb, MainPc.unlinked]
    · simp [EndsUnlinked, hm, MainPc.unlinked]
    · exact Iff.rfl
    · simp [EndsUnlinked, hb]
    · simp [EndsUnlinked, hb]

/-- A first drink received and started; then timer_settime fails. -/
def timerFails : List (Ev Nat) :=
  startRound oneEach ++ orderPlaced ++
    [.waiter (.takeOrder [2, 1]), .waiter (.getOrderedDrink 2), .waiter (.mqSend 2), .bartender (.mqReceive 2),
      .bartender (.stillStart 2), .bartender .timerSettimeFail]

theorem failed_timer_leaves_the_queue :
    ∃ s : St Nat, Reach step (fun _ _ => True) boot s ∧ s.created = true ∧ s.exited = some exitFailure ∧
      s.linked = true := by
  have hr : Reach step (fun _ _ => True) (opened : St Nat) _ := exec_get_reach timerFails (by decide)
  exact ⟨_, (opened_reached trivial).trans hr, by decide, by decide, by decide⟩

theorem quitting_unlinks_the_name :
    ∃ s s' : St Nat, Reach step (fun _ _ => True) boot s ∧ step s (.main (.alambixClose 0)) = some s' ∧
      s'.exited = some 0 ∧ s'.linked = false := by
  obtain ⟨s, hr, hm, hx, hc⟩ : ∃ s : St Nat, Reach step (fun _ _ => True) opened s ∧ s.main = .alambixClose ∧
      s.exited = none ∧ s.created = true :=
    ⟨_, exec_get_reach quitAtOnce (by decide), by decide, by decide, by decide⟩
  have hs : step s (.main (.alambixClose 0)) = some { s with exited := some 0 } := step_eq_some.mpr ⟨hx, guarded_of hm⟩
  exact ⟨s, _, (opened_reached trivial).trans hr, hs, rfl,
    (name_unlinked_iff ((opened_reached trivial).trans hr) hs (by simp) hc).mpr trivial⟩

end Alambix

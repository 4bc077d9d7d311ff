/-
  Alambix.Children — the forked browsers, SIGCHLD and its handler.

  alambix_init installs `signal_sigchld_handler` (a message, one `wait(NULL)`, return) with
  an empty mask and SA_RESTART | SA_NOCLDSTOP. One process and its children: the main
  thread goes through alambix_help (`Alambix.Help`), a child may be stopped, continued and
  end at any time. The signal is one pending flag: raised again while it is raised, it is
  not queued. Any thread that is not in the handler may take it, so that several run the
  handler at once; `wait(NULL)` reaps one ended child, fails when there is no child at all
  and blocks otherwise.

  Proved:
  - `handler_never_blocks`: an activation at its wait always finds an ended child that no
    other activation, nor the pending signal, is counted on to consume.
  - `zombies_accounted`: the ended children not reaped are those the activations before
    their wait and the pending signal are going to reap, and one more for each child that
    ended while the signal was already pending.
  - `no_zombie_iff`: so an idle process has no zombie exactly when no child ended so.
    Two browsers closed together leave one for good (`two_deaths_leave_a_zombie`).
-/

import Alambix.Help

namespace Alambix

open Lib.Transition

/-- `action.sa_flags` is SA_RESTART | SA_NOCLDSTOP. -/
def saNoCldStop : Bool := true

structure Family where
  /-- The main thread. -/
  main : ProcPc
  next : Nat
  running : List Nat
  stopped : List Nat
  /-- Ended and not reaped. -/
  zombies : List Nat
  /-- SIGCHLD is pending. -/
  pending : Bool
  /-- The threads in signal_sigchld_handler: at its fprintf, its wait, its end. -/
  printing : List Nat
  waiting : List Nat
  returning : List Nat

inductive FamilyEv where
  | main (e : ProcEv)
  | stop (pid : Nat)
  | cont (pid : Nat)
  | die (pid : Nat)
  | deliver (thread : Nat)
  | fprintf (thread : Nat)
  | wait (thread pid : Nat)
  /-- `wait` fails: ECHILD. -/
  | waitFail (thread : Nat)
  | handlerReturn (thread : Nat)
  deriving DecidableEq, Repr

/-- The signal is blocked in the threads that run its handler. -/
def Family.inHandler (s : Family) : List Nat := s.printing ++ s.waiting ++ s.returning

/-- A child has stopped or gone on: SIGCHLD, unless the flags suppress it. -/
def Family.stateChange (s : Family) : Bool := s.pending || !saNoCldStop

def familyMain (s : Family) (e : ProcEv) : Option Family :=
  match procNext s.next s.main e with
  | none => none
  | some (pc, none) => some { s with main := pc }
  | some (pc, some _) => some { s with main := pc, running := s.next :: s.running, next := s.next + 1 }

def familyFire (s : Family) : FamilyEv → Option Family
  | .main e => familyMain s e
  | .stop pid =>
    guarded (pid ∈ s.running)
      { s with running := s.running.erase pid, stopped := pid :: s.stopped, pending := s.stateChange }
  | .cont pid =>
    guarded (pid ∈ s.stopped)
      { s with stopped := s.stopped.erase pid, running := pid :: s.running, pending := s.stateChange }
  | .die pid =>
    guarded (pid ∈ s.running ∨ pid ∈ s.stopped)
      { s with running := s.running.erase pid, stopped := s.stopped.erase pid, zombies := pid :: s.zombies,
               pending := true }
  | .deliver t =>
    guarded (s.pending = true ∧ t ∉ s.inHandler) { s with pending := false, printing := t :: s.printing }
  | .fprintf t => guarded (t ∈ s.printing) { s with printing := s.printing.erase t, waiting := t :: s.waiting }
  | .wait t pid =>
    guarded (t ∈ s.waiting ∧ pid ∈ s.zombies)
      { s with waiting := s.waiting.erase t, zombies := s.zombies.erase pid, returning := t :: s.returning }
  | .waitFail t =>
    guarded (t ∈ s.waiting ∧ s.running = [] ∧ s.stopped = [] ∧ s.zombies = [])
      { s with waiting := s.waiting.erase t, returning := t :: s.returning }
  | .handlerReturn t => guarded (t ∈ s.returning) { s with returning := s.returning.erase t }

/-- Nothing happens once the process has ended. -/
def familyStep (s : Family) (e : FamilyEv) : Option Family := if s.main = .ended then none else familyFire s e

/-- alambix_init has returned: no child yet. -/
def childless : Family := ⟨.main .ui, 1, [], [], [], false, [], [], []⟩

/-- The activations that have not performed their wait, and the one a pending signal will be. -/
def Family.expected (s : Family) : Nat := s.printing.length + s.waiting.length + s.pending.toNat

/-- No SIGCHLD is pending and no thread is in the handler. -/
def Family.Idle (s : Family) : Prop := s.pending = false ∧ s.inHandler = []

instance (s : Family) : Decidable s.Idle := inferInstanceAs (Decidable (_ ∧ _))

/-- A child ends while the signal of an earlier one is still pending. -/
def coalesces (s : Family) (e : FamilyEv) : Bool :=
  match e with
  | .die _ => s.pending
  | _ => false

/-! ## One event -/

theorem familyStep_eq_some {s s' : Family} {e : FamilyEv} :
    familyStep s e = some s' ↔ s.main ≠ .ended ∧ familyFire s e = some s' := by
  unfold familyStep
  split <;> simp_all

/-- The main thread touches none of what the signal reads. -/
theorem familyMain_touches {s s' : Family} {e : ProcEv} (h : familyMain s e = some s') :
    s' = { s with main := s'.main, next := s'.next, running := s'.running } := by
  unfold familyMain at h
  split at h
  · cases h
  · cases h; rfl
  · cases h; rfl

/-- What one event does to the zombies and to the waits to come: the two keep pace, but for
    a child that ends while the signal is pending. -/
theorem step_expected {s s' : Family} {e : FamilyEv} (hle : s.expected ≤ s.zombies.length)
    (h : familyStep s e = some s') :
    s'.zombies.length + s.expected = s.zombies.length + s'.expected + (coalesces s e).toNat := by
  obtain ⟨-, h⟩ := familyStep_eq_some.mp h
  unfold Family.expected at *
  cases e with
  | main e =>
    rw [familyMain_touches h]
    simp [coalesces]
  | stop pid | cont pid =>
    obtain ⟨-, rfl⟩ := guarded_eq_some.mp h
    simp [Family.stateChange, saNoCldStop, coalesces]
  | die pid =>
    obtain ⟨-, rfl⟩ := guarded_eq_some.mp h
    have hone := s.pending.toNat_le
    simp only [List.length_cons, Bool.toNat_true, coalesces]
    omega
  | deliver t =>
    obtain ⟨⟨hp, -⟩, rfl⟩ := guarded_eq_some.mp h
    simp only [hp, List.length_cons, Bool.toNat_true, Bool.toNat_false, coalesces]
    omega
  | fprintf t =>
    obtain ⟨ht, rfl⟩ := guarded_eq_some.mp h
    have hpos := List.length_pos_of_mem ht
    simp only [List.length_cons, List.length_erase_of_mem ht, Bool.toNat_false, coalesces]
    omega
  | wait t pid =>
    obtain ⟨⟨ht, hpid⟩, rfl⟩ := guarded_eq_some.mp h
    have hpos := List.length_pos_of_mem ht
    have hz := List.length_pos_of_mem hpid
    simp only [List.length_erase_of_mem ht, List.length_erase_of_mem hpid, Bool.toNat_false, coalesces]
    omega
  | waitFail t =>
    -- a thread at its wait has an ended child to reap
    obtain ⟨⟨ht, -, -, hz⟩, rfl⟩ := guarded_eq_some.mp h
    have hpos := List.length_pos_of_mem ht
    rw [hz] at hle
    simp only [List.length_nil] at hle
    omega
  | handlerReturn t =>
    obtain ⟨ht, rfl⟩ := guarded_eq_some.mp h
    simp [coalesces]

theorem step_reapable {s s' : Family} {e : FamilyEv} (hle : s.expected ≤ s.zombies.length)
    (h : familyStep s e = some s') : s'.expected ≤ s'.zombies.length := by
  have := step_expected hle h
  omega

/-! ## Every run -/

theorem reach_reapable {ok : Family → FamilyEv → Prop} {s : Family} (h : Reach familyStep ok childless s) :
    s.expected ≤ s.zombies.length :=
  h.inv (I := fun s => s.expected ≤ s.zombies.length) (Nat.zero_le _) fun _ _ _ hi _ hs => step_reapable hi hs

/-- Whatever children are forked, stopped, continued and end, and whatever threads take the
    signal: there are as many ended children as activations before their wait, and one more
    if the signal is pending; so no wait blocks. -/
theorem handler_never_blocks {s : Family} (h : Reach familyStep (fun _ _ => True) childless s) :
    s.printing.length + s.waiting.length + s.pending.toNat ≤ s.zombies.length ∧
    ∀ t ∈ s.waiting, s.main ≠ .ended → ∃ pid ∈ s.zombies, ∃ s', familyStep s (.wait t pid) = some s' := by
  have hle := reach_reapable h
  refine ⟨hle, fun t ht halive => ?_⟩
  have hpos := List.length_pos_of_mem ht
  have hz : 0 < s.zombies.length := by
    unfold Family.expected at hle
    omega
  obtain ⟨pid, hpid⟩ := List.exists_mem_of_length_pos hz
  exact ⟨pid, hpid, _, familyStep_eq_some.mpr ⟨halive, guarded_of ⟨ht, hpid⟩⟩⟩

/-- Two clicks on Help, two browsers. -/
def twoBrowsers : List FamilyEv :=
  [.main .click, .main .helpHtml, .main .fork, .main .testPidFils,
    .main .click, .main .helpHtml, .main .fork, .main .testPidFils]

/-- Each ends with no signal pending; two threads take a signal each. -/
def twoActivations : List FamilyEv :=
  twoBrowsers ++ ([.die 1, .deliver 0, .die 2, .deliver 3, .fprintf 0, .fprintf 3] : List FamilyEv)

theorem two_activations_never_block :
    ∃ s, Reach familyStep (fun _ _ => True) childless s ∧ s.waiting = [3, 0] ∧
      (s.printing.length + s.waiting.length + s.pending.toNat ≤ s.zombies.length ∧
        ∀ t ∈ s.waiting, s.main ≠ .ended → ∃ pid ∈ s.zombies, ∃ s', familyStep s (.wait t pid) = some s') := by
  have hr : Reach familyStep (fun _ _ => True) childless _ := exec_get_reach twoActivations (by decide)
  exact ⟨_, hr, by decide, handler_never_blocks hr⟩

theorem zombies_accounted {s : Family} {tr : List (Family × FamilyEv)}
    (hr : Run familyStep (fun _ _ => True) childless tr s) :
    s.zombies.length = s.expected + tr.countP fun x => coalesces x.1 x.2 := by
  induction hr with
  | nil => rfl
  | @snoc tr s s' e hr _ hs ih =>
    have hstep := step_expected (reach_reapable hr.reach) hs
    rw [List.countP_append, List.countP_singleton]
    cases hc : coalesces s e <;> simp only [hc, Bool.toNat_true, Bool.toNat_false] at hstep <;> simp <;> omega

/-- What a run has left unreaped stays so, whatever follows. -/
theorem zombies_stay {s : Family} {tr tr' : List (Family × FamilyEv)}
    (hr : Run familyStep (fun _ _ => True) childless (tr ++ tr') s) :
    (tr.countP fun x => coalesces x.1 x.2) ≤ s.zombies.length := by
  rw [zombies_accounted hr, List.countP_append]
  omega

theorem Family.Idle.expected {s : Family} (h : s.Idle) : s.expected = 0 := by
  obtain ⟨hp, hh⟩ := h
  simp only [inHandler, List.append_eq_nil_iff] at hh
  simp [Family.expected, hp, hh]

/-- An idle process has no zombie exactly when each child ended with no SIGCHLD pending. -/
theorem no_zombie_iff {s : Family} {tr : List (Family × FamilyEv)}
    (hr : Run familyStep (fun _ _ => True) childless tr s) (hidle : s.Idle) :
    s.zombies = [] ↔ ∀ x ∈ tr, coalesces x.1 x.2 = false := by
  have hcount := zombies_accounted hr
  rw [hidle.expected, Nat.zero_add] at hcount
  rw [← List.length_eq_zero_iff, hcount, List.countP_eq_zero]
  simp

theorem two_activations_reap_both :
    ∃ tr s, Run familyStep (fun _ _ => True) childless tr s ∧ s.Idle ∧ s.next = 3 ∧ s.zombies = [] := by
  have hreach : Reach familyStep (fun s e => coalesces s e = false) childless _ :=
    exec_get_reach (twoActivations ++ ([.wait 0 1, .wait 3 2, .handlerReturn 3, .handlerReturn 0] : List FamilyEv))
      (by decide)
  obtain ⟨tr, hr⟩ := hreach.run
  have hall : Run familyStep (fun _ _ => True) childless tr _ := hr.mono fun _ _ _ => trivial
  refine ⟨tr, _, hall, by decide, by decide, (no_zombie_iff hall (by decide)).mpr fun x hx => ?_⟩
  exact (hr.next_visited x hx).2.1

/-- Both browsers end before any thread takes the signal: one activation, one wait. -/
def oneActivation : List FamilyEv :=
  twoBrowsers ++ ([.die 1, .die 2, .deliver 0, .fprintf 0, .wait 0 1, .handlerReturn 0] : List FamilyEv)

theorem two_deaths_leave_a_zombie :
    ∃ s, Reach familyStep (fun _ _ => True) childless s ∧ s.Idle ∧ s.running = [] ∧ s.zombies = [2] :=
  ⟨_, exec_get_reach oneActivation (by decide), by decide, by decide, by decide⟩

end Alambix

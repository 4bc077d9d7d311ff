/-
  Alambix.Exemples.Sigchld — `Ex_17_fork_exec_wait_signal` and `Ex_18_fork_exec_wait_sigaction`.

  A process that loops until Ctrl+C clears `run`, its child, and two handlers: that of SIGINT
  clears `run`, that of SIGCHLD waits for a child. The programs differ in how the handlers are
  installed: signal() is SA_RESTART alone, Ex_18 adds SA_NOCLDSTOP for SIGCHLD, so that a child
  that stops or goes on raises nothing. A handler runs on top of what it interrupts, the other
  handler included, and blocks its own signal until it returns; a signal raised again while it
  is pending is not queued, and `wait` is restarted. The child stops, goes on and ends at any
  moment; `wait` passes over a child that has not ended.

  - `Caught`: the child lives, and a wait for it is under way or bound to come.

  Proved: `exits_iff`, `clean_exit_iff`, `handlers_finish_iff`.
-/

import Alambix.Lib.Transition

namespace Alambix.Ex17

open Lib.Transition

inductive Signal where
  | sigint
  | sigchld
  deriving DecidableEq, Repr

/-- In a handler: at its fprintf, at the statement after it, at its end. -/
inductive HandlerPc where
  | fprintf
  | body
  | ret
  deriving DecidableEq, Repr

inductive MainPc where
  | fork
  | forkError
  | fprintfPid
  | whileRun
  | fprintfExec
  | sleep
  | fprintfExit
  | exit
  | exited (status : Nat)
  deriving DecidableEq, Repr

inductive Child where
  | none
  | running
  | stopped
  /-- Ended, and not waited for. -/
  | zombie
  | reaped
  deriving DecidableEq, Repr

structure St where
  main : MainPc
  run : Bool
  /-- The handlers under way, the innermost first. -/
  handlers : List (Signal × HandlerPc)
  pending : Signal → Bool
  child : Child

inductive Ev where
  | ctrlC
  | stop
  | cont
  | die
  | deliver (sig : Signal)
  | fprintf (sig : Signal)
  /-- `run = 0`. -/
  | clearRun
  | wait
  /-- ECHILD. -/
  | waitFail
  | handlerReturn (sig : Signal)
  | fork
  | forkFail
  | main
  deriving DecidableEq, Repr

def Child.Alive (c : Child) : Prop := c = .running ∨ c = .stopped

instance (c : Child) : Decidable c.Alive := inferInstanceAs (Decidable (_ ∨ _))

def MainPc.isOver : MainPc → Bool
  | .exited _ => true
  | _ => false

def St.raise (s : St) (sig : Signal) : St := { s with pending := Function.update s.pending sig true }

/-- main's statements but for its fork. -/
def mainNext (run : Bool) : MainPc → Option MainPc
  | .fork => none
  | .forkError => some (.exited 1)
  | .fprintfPid => some .whileRun
  | .whileRun => some (if run then .fprintfExec else .fprintfExit)
  | .fprintfExec => some .sleep
  | .sleep => some .whileRun
  | .fprintfExit => some .exit
  | .exit => some (.exited 0)
  | .exited _ => none

-- whether SIGCHLD's handler is installed with SA_NOCLDSTOP: not in Ex_17, in Ex_18
variable (noCldStop : Bool)

/-- The child has stopped or gone on. -/
def St.stateChange (s : St) : St := if noCldStop then s else s.raise .sigchld

def fire (s : St) : Ev → Option St
  | .ctrlC => some (s.raise .sigint)
  | .stop => guarded (s.child = .running) ({ s with child := .stopped }.stateChange noCldStop)
  | .cont => guarded (s.child = .stopped) ({ s with child := .running }.stateChange noCldStop)
  | .die => guarded s.child.Alive ({ s with child := .zombie }.raise .sigchld)
  | .deliver sig =>
    guarded (s.pending sig = true ∧ sig ∉ s.handlers.map Prod.fst)
      { s with pending := Function.update s.pending sig false, handlers := (sig, .fprintf) :: s.handlers }
  | .fprintf sig =>
    guarded (s.handlers.head? = some (sig, .fprintf)) { s with handlers := (sig, .body) :: s.handlers.tail }
  | .clearRun =>
    guarded (s.handlers.head? = some (.sigint, .body))
      { s with run := false, handlers := (.sigint, .ret) :: s.handlers.tail }
  | .wait =>
    guarded (s.handlers.head? = some (.sigchld, .body) ∧ s.child = .zombie)
      { s with child := .reaped, handlers := (.sigchld, .ret) :: s.handlers.tail }
  | .waitFail =>
    guarded (s.handlers.head? = some (.sigchld, .body) ∧ (s.child = .none ∨ s.child = .reaped))
      { s with handlers := (.sigchld, .ret) :: s.handlers.tail }
  | .handlerReturn sig => guarded (s.handlers.head? = some (sig, .ret)) { s with handlers := s.handlers.tail }
  | .fork => guarded (s.main = .fork ∧ s.handlers = []) { s with main := .fprintfPid, child := .running }
  | .forkFail => guarded (s.main = .fork ∧ s.handlers = []) { s with main := .forkError }
  | .main => if s.handlers = [] then (mainNext s.run s.main).map fun pc => { s with main := pc } else none

/-- Nothing happens once the process has ended. -/
def step (s : St) (e : Ev) : Option St := if s.main.isOver then none else fire noCldStop s e

/-- Both handlers are installed. -/
def installed : St := ⟨.fork, true, [], fun _ => false, .none⟩

/-- The steps of the process itself: no Ctrl+C, nothing from the child. -/
def Ev.own : Ev → Bool
  | .ctrlC | .stop | .cont | .die => false
  | _ => true

/-- A signal is delivered, a handler makes a step. -/
def Ev.handles : Ev → Bool
  | .deliver _ | .fprintf _ | .clearRun | .wait | .waitFail | .handlerReturn _ => true
  | _ => false

def Own (_ : St) (e : Ev) : Prop := e.own = true

def Handles (_ : St) (e : Ev) : Prop := e.handles = true

/-- A wait is under way, or bound to come. -/
def St.Owed (s : St) : Prop :=
  s.pending .sigchld = true ∨ (.sigchld, .fprintf) ∈ s.handlers ∨ (.sigchld, .body) ∈ s.handlers

def St.Caught (s : St) : Prop := s.main.isOver = false ∧ s.child.Alive ∧ s.Owed

instance (s : St) : Decidable s.Owed := inferInstanceAs (Decidable (_ ∨ _ ∨ _))

instance (s : St) : Decidable s.Caught := inferInstanceAs (Decidable (_ ∧ _ ∧ _))

/-! ## One step -/

variable {noCldStop}

theorem step_eq_some {s s' : St} {e : Ev} :
    step noCldStop s e = some s' ↔ s.main.isOver = false ∧ fire noCldStop s e = some s' := by
  unfold step
  split <;> simp_all

theorem main_eq {s s' : St} (h : fire noCldStop s .main = some s') :
    s.handlers = [] ∧ ∃ pc, mainNext s.run s.main = some pc ∧ s' = { s with main := pc } := by
  simp only [fire] at h
  split at h
  · rename_i hnone
    obtain ⟨pc, hpc, rfl⟩ := Option.map_eq_some_iff.mp h
    exact ⟨hnone, pc, hpc, rfl⟩
  · cases h

/-- What the signal says of the child: SA_NOCLDSTOP or not, main, `run` and the handlers stay. -/
theorem stateChange_keeps (noCldStop : Bool) (s : St) :
    (s.stateChange noCldStop).main = s.main ∧ (s.stateChange noCldStop).run = s.run ∧
    (s.stateChange noCldStop).handlers = s.handlers ∧ (s.stateChange noCldStop).child = s.child := by
  unfold St.stateChange
  split <;> simp [St.raise]

theorem handlers_eq {s : St} {a : Signal × HandlerPc} (h : s.handlers.head? = some a) :
    s.handlers = a :: s.handlers.tail := by
  obtain ⟨hs, heq⟩ := List.head?_eq_some_iff.mp h
  rw [heq, List.tail_cons]

/-! ## What a step does to the wait -/

/-- No step of the process makes a wait bound to come: only the child does. -/
theorem own_owed {s s' : St} {e : Ev} (hown : e.own = true) (h : step noCldStop s e = some s') (howed : s'.Owed) :
    s.Owed := by
  obtain ⟨-, h⟩ := step_eq_some.mp h
  unfold St.Owed at *
  cases e with
  | ctrlC | stop | cont | die => cases hown
  | deliver sig =>
    obtain ⟨⟨hp, -⟩, rfl⟩ := guarded_eq_some.mp h
    cases sig <;> simp_all
  | fprintf sig =>
    obtain ⟨hhead, rfl⟩ := guarded_eq_some.mp h
    rw [handlers_eq hhead]
    cases sig <;> simp_all
  | clearRun | handlerReturn sig =>
    obtain ⟨hhead, rfl⟩ := guarded_eq_some.mp h
    rw [handlers_eq hhead]
    simp_all
  | wait | waitFail =>
    obtain ⟨⟨hhead, -⟩, rfl⟩ := guarded_eq_some.mp h
    exact Or.inr (.inr (handlers_eq hhead ▸ List.mem_cons_self))
  | fork | forkFail =>
    obtain ⟨-, rfl⟩ := guarded_eq_some.mp h
    exact howed
  | main =>
    obtain ⟨-, pc, -, rfl⟩ := main_eq h
    exact howed

/-- main goes on by its own statements alone. -/
theorem handles_main {s s' : St} {e : Ev} (hh : e.handles = true) (h : step noCldStop s e = some s') :
    s'.main = s.main := by
  obtain ⟨-, h⟩ := step_eq_some.mp h
  cases e with
  | ctrlC | stop | cont | die | fork | forkFail | main => cases hh
  | _ =>
    obtain ⟨-, rfl⟩ := guarded_eq_some.mp h
    rfl

theorem handles_child {s s' : St} {e : Ev} (hh : e.handles = true) (h : step noCldStop s e = some s') :
    s'.child = s.child ∨ s.child = .zombie ∧ s'.child = .reaped := by
  obtain ⟨-, h⟩ := step_eq_some.mp h
  cases e with
  | ctrlC | stop | cont | die | fork | forkFail | main => cases hh
  | wait =>
    obtain ⟨⟨-, hz⟩, rfl⟩ := guarded_eq_some.mp h
    exact Or.inr ⟨hz, rfl⟩
  | _ =>
    obtain ⟨-, rfl⟩ := guarded_eq_some.mp h
    exact Or.inl rfl

/-- A wait bound to come is still so after a step of the handlers that takes no child. -/
theorem handles_owed {s s' : St} {e : Ev} (hh : e.handles = true) (h : step noCldStop s e = some s')
    (hchild : s'.child = s.child) (hnone : s.child ≠ .none) (hreaped : s.child ≠ .reaped) (howed : s.Owed) :
    s'.Owed := by
  obtain ⟨-, h⟩ := step_eq_some.mp h
  unfold St.Owed at *
  cases e with
  | ctrlC | stop | cont | die | fork | forkFail | main => cases hh
  | deliver sig =>
    obtain ⟨⟨hp, -⟩, rfl⟩ := guarded_eq_some.mp h
    cases sig <;> simp_all
  | fprintf sig =>
    obtain ⟨hhead, rfl⟩ := guarded_eq_some.mp h
    rw [handlers_eq hhead] at howed
    cases sig <;> simp_all
  | clearRun | handlerReturn sig =>
    obtain ⟨hhead, rfl⟩ := guarded_eq_some.mp h
    rw [handlers_eq hhead] at howed
    simp_all
  | wait =>
    obtain ⟨⟨-, hz⟩, rfl⟩ := guarded_eq_some.mp h
    rw [hz] at hchild
    cases hchild
  | waitFail =>
    obtain ⟨⟨-, hno⟩, -⟩ := guarded_eq_some.mp h
    exact absurd hno (not_or.mpr ⟨hnone, hreaped⟩)

theorem Child.Alive.ne {c : Child} (h : c.Alive) : c ≠ .none ∧ c ≠ .zombie ∧ c ≠ .reaped := by
  rcases h with rfl | rfl <;> decide

/-- The handlers alone never bring a caught process further than its wait. -/
theorem handles_caught {s s' : St} {e : Ev} (hh : e.handles = true) (h : step noCldStop s e = some s')
    (hc : s.Caught) : s'.Caught := by
  obtain ⟨hover, halive, howed⟩ := hc
  have hchild : s'.child = s.child := (handles_child hh h).resolve_right fun hz => halive.ne.2.1 hz.1
  refine ⟨?_, hchild ▸ halive, handles_owed hh h hchild halive.ne.1 halive.ne.2.2 howed⟩
  rw [handles_main hh h]
  exact hover

/-! ## Every reachable state -/

structure Inv (s : St) : Prop where
  forking : s.main = .fork → s.child = .none
  quiet : s.child = .none → ¬ s.Owed
  reaping : s.child = .zombie → s.Owed

theorem installed_inv : Inv installed where
  forking := fun _ => rfl
  quiet := fun _ => by decide
  reaping := fun h => by cases h

theorem handles_inv {s s' : St} {e : Ev} (hi : Inv s) (hh : e.handles = true)
    (h : step noCldStop s e = some s') : Inv s' := by
  have hmain := handles_main hh h
  have howed : s'.Owed → s.Owed := own_owed (by cases e <;> first | rfl | cases hh) h
  rcases handles_child hh h with hchild | ⟨hz, hreaped⟩
  · refine ⟨fun hf => hchild ▸ hi.forking (hmain ▸ hf), fun hn ho => hi.quiet (hchild ▸ hn) (howed ho), fun hz => ?_⟩
    rw [hchild] at hz
    exact handles_owed hh h hchild (by rw [hz]; decide) (by rw [hz]; decide) (hi.reaping hz)
  · refine ⟨fun hf => ?_, fun hn => ?_, fun hz' => ?_⟩
    · rw [hmain] at hf
      rw [hi.forking hf] at hz
      cases hz
    · rw [hreaped] at hn; cases hn
    · rw [hreaped] at hz'; cases hz'

/-- A child that lives becomes `c`: main is past its fork. -/
theorem Inv.child_moves {s t : St} (hi : Inv s) (c : Child) (halive : s.child.Alive) (hmain : t.main = s.main)
    (hc : t.child = c) (hnone : c ≠ .none) (hz : c = .zombie → t.Owed) : Inv t where
  forking := fun hf => absurd (hi.forking (hmain ▸ hf)) halive.ne.1
  quiet := fun hn => absurd (hc.symm.trans hn) hnone
  reaping := fun h => hz (hc.symm.trans h)

theorem step_inv {s s' : St} {e : Ev} (hi : Inv s) (h : step noCldStop s e = some s') : Inv s' := by
  have hfire := (step_eq_some.mp h).2
  cases e with
  | ctrlC =>
    cases hfire
    exact ⟨hi.forking, hi.quiet, hi.reaping⟩
  | stop =>
    obtain ⟨hrun, rfl⟩ := guarded_eq_some.mp hfire
    obtain ⟨hm, -, -, hc⟩ := stateChange_keeps noCldStop { s with child := .stopped }
    exact hi.child_moves .stopped (.inl hrun) hm hc (by decide) nofun
  | cont =>
    obtain ⟨hstop, rfl⟩ := guarded_eq_some.mp hfire
    obtain ⟨hm, -, -, hc⟩ := stateChange_keeps noCldStop { s with child := .running }
    exact hi.child_moves .running (.inr hstop) hm hc (by decide) nofun
  | die =>
    obtain ⟨halive, rfl⟩ := guarded_eq_some.mp hfire
    exact hi.child_moves .zombie halive rfl rfl (by decide) fun _ => .inl rfl
  | fork =>
    obtain ⟨-, rfl⟩ := guarded_eq_some.mp hfire
    exact ⟨nofun, nofun, nofun⟩
  | forkFail =>
    obtain ⟨-, rfl⟩ := guarded_eq_some.mp hfire
    exact ⟨nofun, hi.quiet, hi.reaping⟩
  | main =>
    obtain ⟨-, pc, hpc, rfl⟩ := main_eq hfire
    refine ⟨fun hf => ?_, hi.quiet, hi.reaping⟩
    obtain rfl : pc = .fork := hf
    revert hpc
    cases s.main <;> simp [mainNext]
    split <;> simp
  | _ => exact handles_inv hi rfl h

theorem reach_inv {ok : St → Ev → Prop} {s : St} (hr : Reach (step noCldStop) ok installed s) : Inv s :=
  hr.inv installed_inv fun _ _ _ hi _ h => step_inv hi h

/-! ## What is left -/

def HandlerPc.left : HandlerPc → Nat
  | .fprintf => 3
  | .body => 2
  | .ret => 1

/-- main's statements once `run` is 0. -/
def MainPc.left : MainPc → Nat
  | .fork => 5
  | .fprintfPid => 4
  | .fprintfExec => 5
  | .sleep => 4
  | .whileRun => 3
  | .fprintfExit => 2
  | .forkError | .exit => 1
  | .exited _ => 0

def handlersLeft : List (Signal × HandlerPc) → Nat
  | [] => 0
  | (_, pc) :: hs => pc.left + handlersLeft hs

def St.left (s : St) : Nat :=
  s.main.left + handlersLeft s.handlers + 4 * ((s.pending .sigint).toNat + (s.pending .sigchld).toNat)

theorem handles_left {s s' : St} {e : Ev} (hh : e.handles = true) (h : step noCldStop s e = some s') :
    s'.left < s.left := by
  obtain ⟨-, h⟩ := step_eq_some.mp h
  unfold St.left
  cases e with
  | ctrlC | stop | cont | die | fork | forkFail | main => cases hh
  | deliver sig =>
    obtain ⟨⟨hp, -⟩, rfl⟩ := guarded_eq_some.mp h
    cases sig <;> simp [hp, handlersLeft, HandlerPc.left] <;> omega
  | fprintf sig | clearRun | handlerReturn sig =>
    obtain ⟨hhead, rfl⟩ := guarded_eq_some.mp h
    rw [handlers_eq hhead]
    simp [handlersLeft, HandlerPc.left]
  | wait | waitFail =>
    obtain ⟨⟨hhead, -⟩, rfl⟩ := guarded_eq_some.mp h
    rw [handlers_eq hhead]
    simp [handlersLeft, HandlerPc.left]

theorem main_left {s s' : St} (hrun : s.run = false) (h : step noCldStop s .main = some s') : s'.left < s.left := by
  obtain ⟨-, pc, hpc, rfl⟩ := main_eq (step_eq_some.mp h).2
  have hlt : pc.left < s.main.left := by
    rw [hrun] at hpc
    cases hmain : s.main <;> rw [hmain] at hpc <;> simp only [mainNext] at hpc <;> cases hpc <;> decide
  simp only [St.left]
  omega

/-- Once `run` is 0 every step of the process brings its end nearer. -/
theorem own_left {s s' : St} {e : Ev} (hown : e.own = true) (hrun : s.run = false)
    (h : step noCldStop s e = some s') : s'.left < s.left := by
  cases e with
  | ctrlC | stop | cont | die => cases hown
  | main => exact main_left hrun h
  | fork | forkFail =>
    obtain ⟨⟨hmain, -⟩, rfl⟩ := guarded_eq_some.mp (step_eq_some.mp h).2
    simp only [St.left, hmain, MainPc.left]
    omega
  | _ => exact handles_left rfl h

/-- `run` stays 0. -/
theorem step_run {s s' : St} {e : Ev} (hrun : s.run = false) (h : step noCldStop s e = some s') :
    s'.run = false := by
  obtain ⟨-, h⟩ := step_eq_some.mp h
  cases e with
  | ctrlC => cases h; exact hrun
  | stop | cont =>
    obtain ⟨-, rfl⟩ := guarded_eq_some.mp h
    rw [(stateChange_keeps _ _).2.1]
    exact hrun
  | clearRun =>
    obtain ⟨-, rfl⟩ := guarded_eq_some.mp h
    rfl
  | main =>
    obtain ⟨-, pc, -, rfl⟩ := main_eq h
    exact hrun
  | _ =>
    obtain ⟨-, rfl⟩ := guarded_eq_some.mp h
    exact hrun

theorem own_bound {s t : St} {tr : List (St × Ev)} (hrun : s.run = false) (htr : Run (step noCldStop) Own s tr t) :
    tr.length ≤ s.left := by
  have hlen := htr.length_le (μ := St.left) fun s' e s'' hs' hown h => by
    have hrun' : s'.run = false := hs'.inv hrun fun _ _ _ hrun _ h => step_run hrun h
    exact own_left hown hrun' h
  omega

/-! ## Where the process cannot go on -/

/-- At the handler's wait, with a child that has not ended. -/
def St.AtLiveWait (s : St) : Prop := s.handlers.head? = some (.sigchld, .body) ∧ s.child.Alive

theorem St.AtLiveWait.caught {s : St} (hover : s.main.isOver = false) (h : s.AtLiveWait) : s.Caught :=
  ⟨hover, h.2, .inr (.inr (List.mem_of_mem_head? h.1))⟩

theorem handler_can (noCldStop : Bool) {s : St} (hover : s.main.isOver = false) (hsome : s.handlers ≠ [])
    (hwait : ¬ s.AtLiveWait) : ∃ e s', Handles s e ∧ step noCldStop s e = some s' := by
  obtain ⟨⟨sig, pc⟩, hs, heq⟩ := List.exists_cons_of_ne_nil hsome
  have hhead : s.handlers.head? = some (sig, pc) := by rw [heq]; rfl
  cases pc with
  | fprintf => exact ⟨.fprintf sig, _, rfl, step_eq_some.mpr ⟨hover, guarded_of hhead⟩⟩
  | ret => exact ⟨.handlerReturn sig, _, rfl, step_eq_some.mpr ⟨hover, guarded_of hhead⟩⟩
  | body =>
    cases sig with
    | sigint => exact ⟨.clearRun, _, rfl, step_eq_some.mpr ⟨hover, guarded_of hhead⟩⟩
    | sigchld =>
      have hdead : ¬ s.child.Alive := fun halive => hwait ⟨hhead, halive⟩
      cases hchild : s.child with
      | zombie => exact ⟨.wait, _, rfl, step_eq_some.mpr ⟨hover, guarded_of ⟨hhead, hchild⟩⟩⟩
      | none => exact ⟨.waitFail, _, rfl, step_eq_some.mpr ⟨hover, guarded_of ⟨hhead, .inl hchild⟩⟩⟩
      | reaped => exact ⟨.waitFail, _, rfl, step_eq_some.mpr ⟨hover, guarded_of ⟨hhead, .inr hchild⟩⟩⟩
      | running => exact absurd (.inl hchild) hdead
      | stopped => exact absurd (.inr hchild) hdead

theorem main_can (noCldStop : Bool) {s : St} (hover : s.main.isOver = false) (hnone : s.handlers = []) :
    ∃ e s', Own s e ∧ step noCldStop s e = some s' := by
  by_cases hfork : s.main = .fork
  · exact ⟨.fork, _, rfl, step_eq_some.mpr ⟨hover, guarded_of ⟨hfork, hnone⟩⟩⟩
  obtain ⟨pc, hpc⟩ : ∃ pc, mainNext s.run s.main = some pc := by
    cases hmain : s.main <;> simp_all [mainNext, MainPc.isOver]
  have hfire : fire noCldStop s .main = some { s with main := pc } := by
    simp only [fire, hnone, if_true, hpc, Option.map_some]
  exact ⟨.main, _, rfl, step_eq_some.mpr ⟨hover, hfire⟩⟩

theorem own_of_handles {e : Ev} (h : e.handles = true) : e.own = true := by
  cases e <;> first | rfl | cases h

/-- main does nothing while a handler runs. -/
theorem handles_of_own {s s' : St} {e : Ev} (hown : e.own = true) (hsome : s.handlers ≠ [])
    (h : step noCldStop s e = some s') : e.handles = true := by
  obtain ⟨-, h⟩ := step_eq_some.mp h
  cases e with
  | ctrlC | stop | cont | die => cases hown
  | fork | forkFail => exact absurd (guarded_eq_some.mp h).1.2 hsome
  | main => exact absurd (main_eq h).1 hsome
  | _ => rfl

/-- Only a wait for a child that lives holds the process up. -/
theorem stuck_own {s : St} (hover : s.main.isOver = false) (h : Stuck (step noCldStop) Own s) : s.AtLiveWait := by
  by_contra hwait
  by_cases hnone : s.handlers = []
  · obtain ⟨e, s', hown, hs⟩ := main_can noCldStop hover hnone
    exact h e s' hown hs
  · obtain ⟨e, s', hh, hs⟩ := handler_can noCldStop hover hnone hwait
    exact h e s' (own_of_handles hh) hs

/-- The handlers have nothing more to do, or one waits for a child that lives. -/
theorem stuck_handles {s : St} (hover : s.main.isOver = false) (h : Stuck (step noCldStop) Handles s) :
    s.AtLiveWait ∨ s.handlers = [] ∧ ∀ sig, s.pending sig = false := by
  by_cases hwait : s.AtLiveWait
  · exact Or.inl hwait
  by_cases hnone : s.handlers = []
  · refine Or.inr ⟨hnone, fun sig => ?_⟩
    by_contra hp
    exact h (.deliver sig) _ rfl (step_eq_some.mpr ⟨hover, guarded_of ⟨by simpa using hp, by simp [hnone]⟩⟩)
  · obtain ⟨e, s', hh, hs⟩ := handler_can noCldStop hover hnone hwait
    exact absurd hs (h e s' hh)

/-! ## The clean exit -/

/-- A caught process runs into its wait, whatever else its handlers do. -/
theorem caught_waits (noCldStop : Bool) {s : St} (hc : s.Caught) :
    ∃ t, Reach (step noCldStop) Handles s t ∧ Stuck (step noCldStop) Handles t ∧ t.main.isOver = false ∧
      t.AtLiveWait := by
  obtain ⟨t, hr, hstuck⟩ : ∃ t, Reach (step noCldStop) Handles s t ∧ Stuck (step noCldStop) Handles t :=
    exists_stuck St.left s fun _ _ _ _ hh h => handles_left hh h
  have htc : t.Caught := hr.inv hc fun _ _ _ hc hh h => handles_caught hh h hc
  obtain ⟨hover, -, howed⟩ := htc
  refine ⟨t, hr, hstuck, hover, (stuck_handles hover hstuck).resolve_right fun ⟨hnone, hquiet⟩ => ?_⟩
  simp [St.Owed, hnone, hquiet] at howed

theorem caught_hangs (noCldStop : Bool) {s : St} (hc : s.Caught) :
    ∃ t, Reach (step noCldStop) Own s t ∧ Stuck (step noCldStop) Own t ∧ t.main.isOver = false := by
  obtain ⟨t, hr, hstuck, hover, hwait⟩ := caught_waits noCldStop hc
  have hsome : t.handlers ≠ [] := by
    rw [handlers_eq hwait.1]
    exact List.cons_ne_nil _ _
  exact ⟨t, hr.mono fun _ _ => own_of_handles, fun e s' hown h => hstuck e s' (handles_of_own hown hsome h) h, hover⟩

/-- Ex_17: the child is stopped, then Ctrl+C. -/
def stoppedThenCtrlC : List Ev :=
  [.fork, .main, .main, .main, .stop, .deliver .sigchld, .fprintf .sigchld, .ctrlC, .deliver .sigint, .fprintf .sigint,
    .clearRun]

theorem stopped_child_catches :
    ∃ s, Reach (step false) (fun _ _ => True) installed s ∧ s.run = false ∧ s.Caught :=
  ⟨_, exec_get_reach stoppedThenCtrlC (by decide), by decide, by decide⟩

/-- The process catches itself by no step of its own. -/
theorem own_alive {s s' : St} {e : Ev} (hi : Inv s) (hown : e.own = true) (h : step noCldStop s e = some s')
    (halive : s'.child.Alive) (howed : s'.Owed) : s.child.Alive ∧ s.Owed := by
  have howed₀ := own_owed hown h howed
  obtain ⟨-, hfire⟩ := step_eq_some.mp h
  refine ⟨?_, howed₀⟩
  cases e with
  | ctrlC | stop | cont | die => cases hown
  | fork =>
    obtain ⟨⟨hmain, -⟩, -⟩ := guarded_eq_some.mp hfire
    exact absurd howed₀ (hi.quiet (hi.forking hmain))
  | wait =>
    obtain ⟨-, rfl⟩ := guarded_eq_some.mp hfire
    exact absurd rfl halive.ne.2.2
  | main =>
    obtain ⟨-, pc, -, rfl⟩ := main_eq hfire
    exact halive
  | _ =>
    obtain ⟨-, rfl⟩ := guarded_eq_some.mp hfire
    exact halive

theorem own_uncaught {s s' : St} {e : Ev} (hi : Inv s) (hown : e.own = true) (h : step noCldStop s e = some s')
    (hc : s'.Caught) : s.Caught :=
  ⟨(step_eq_some.mp h).1, own_alive hi hown h hc.2.1 hc.2.2⟩

theorem run_uncaught {s t : St} (hi : Inv s) (hc : ¬ s.Caught) (hr : Reach (step noCldStop) Own s t) :
    Inv t ∧ ¬ t.Caught :=
  hr.inv (I := fun s => Inv s ∧ ¬ s.Caught) ⟨hi, hc⟩ fun _ _ _ hs hown h =>
    ⟨step_inv hs.1 h, fun hc' => hs.2 (own_uncaught hs.1 hown h hc')⟩

/-- From a state that is not caught the process cannot get stuck before its end. -/
theorem uncaught_exits {s t : St} (hi : Inv s) (hc : ¬ s.Caught) (hr : Reach (step noCldStop) Own s t)
    (hstuck : Stuck (step noCldStop) Own t) : t.main.isOver = true := by
  have ht := (run_uncaught hi hc hr).2
  by_contra hover
  have hover : t.main.isOver = false := by simpa using hover
  exact ht ((stuck_own hover hstuck).caught hover)

/-- Once Ctrl+C has cleared `run`, the process comes to rest within a bounded number of its own
    steps, in either program; it rests nowhere but at main's exit exactly when it is not caught. -/
theorem exits_iff {s : St} (hr : Reach (step noCldStop) (fun _ _ => True) installed s) (hrun : s.run = false) :
    (∃ bound, ∀ tr t, Run (step noCldStop) Own s tr t → tr.length ≤ bound) ∧
    ((∀ t, Reach (step noCldStop) Own s t → Stuck (step noCldStop) Own t → t.main.isOver = true) ↔ ¬ s.Caught) := by
  constructor
  · exact ⟨s.left, fun tr t htr => own_bound hrun htr⟩
  · constructor
    · intro hexits hc
      obtain ⟨t, ht, hstuck, hover⟩ := caught_hangs noCldStop hc
      rw [hexits t ht hstuck] at hover
      cases hover
    · exact fun hc t ht hstuck => uncaught_exits (reach_inv hr) hc ht hstuck

theorem stopped_child_holds_the_exit :
    ∃ s, Reach (step false) (fun _ _ => True) installed s ∧ s.run = false ∧
      ¬ ∀ t, Reach (step false) Own s t → Stuck (step false) Own t → t.main.isOver = true := by
  obtain ⟨s, hr, hrun, hc⟩ := stopped_child_catches
  exact ⟨s, hr, hrun, fun hexits => (exits_iff hr hrun).2.mp hexits hc⟩

/-- With SA_NOCLDSTOP a wait is bound to come only after the child has ended. -/
theorem step_ended {s s' : St} {e : Ev} (hinv : Inv s) (hi : s.Owed → ¬ s.child.Alive)
    (h : step true s e = some s') : s'.Owed → ¬ s'.child.Alive := by
  have hfire := (step_eq_some.mp h).2
  cases e with
  | ctrlC =>
    cases hfire
    exact hi
  | stop =>
    obtain ⟨hrun, rfl⟩ := guarded_eq_some.mp hfire
    exact fun howed _ => hi howed (.inl hrun)
  | cont =>
    obtain ⟨hstop, rfl⟩ := guarded_eq_some.mp hfire
    exact fun howed _ => hi howed (.inr hstop)
  | die =>
    obtain ⟨-, rfl⟩ := guarded_eq_some.mp hfire
    exact fun _ halive => absurd rfl halive.ne.2.1
  | _ =>
    intro howed halive
    obtain ⟨halive₀, howed₀⟩ := own_alive hinv rfl h halive howed
    exact hi howed₀ halive₀

theorem never_caught {s : St} (hr : Reach (step true) (fun _ _ => True) installed s) : ¬ s.Caught := by
  have hended : s.Owed → ¬ s.child.Alive :=
    hr.inv_with (J := Inv) (I := fun s => s.Owed → ¬ s.child.Alive) (fun _ hr => reach_inv hr)
      (fun _ h => absurd h (by decide)) fun _ _ _ hinv hi _ h => step_ended hinv hi h
  exact fun hc => hended hc.2.2 hc.2.1

/-- That the process comes to its exit, and in bounded time, whenever Ctrl+C has cleared `run`,
    whatever the child has done before: this is what SA_NOCLDSTOP is for. -/
theorem clean_exit_iff (noCldStop : Bool) :
    (∀ s, Reach (step noCldStop) (fun _ _ => True) installed s → s.run = false →
      (∃ bound, ∀ tr t, Run (step noCldStop) Own s tr t → tr.length ≤ bound) ∧
      ∀ t, Reach (step noCldStop) Own s t → Stuck (step noCldStop) Own t → t.main.isOver = true) ↔
    noCldStop = true := by
  constructor
  · intro hexits
    cases noCldStop with
    | true => rfl
    | false =>
      obtain ⟨s, hr, hrun, hc⟩ := stopped_child_catches
      obtain ⟨t, ht, hstuck, hover⟩ := caught_hangs false hc
      rw [(hexits s hr hrun).2 t ht hstuck] at hover
      cases hover
  · rintro rfl s hr hrun
    exact ⟨⟨s.left, fun tr t htr => own_bound hrun htr⟩,
      fun t ht hstuck => uncaught_exits (reach_inv hr) (never_caught hr) ht hstuck⟩

/-! ## The zombies -/

/-- The handlers come to rest within a bounded number of their steps; they are then sure to have
    returned, and to have left no zombie, exactly when the process was not caught. -/
theorem handlers_finish_iff {s : St} (hr : Reach (step noCldStop) (fun _ _ => True) installed s)
    (hover : s.main.isOver = false) :
    (∃ bound, ∀ tr t, Run (step noCldStop) Handles s tr t → tr.length ≤ bound) ∧
    ((∀ t, Reach (step noCldStop) Handles s t → Stuck (step noCldStop) Handles t →
      t.handlers = [] ∧ t.child ≠ .zombie) ↔ ¬ s.Caught) := by
  constructor
  · refine ⟨s.left, fun tr t htr => ?_⟩
    have hlen := htr.length_le (μ := St.left) fun _ _ _ _ hh h => handles_left hh h
    omega
  · constructor
    · intro hfinish hc
      obtain ⟨t, ht, hstuck, -, hwait⟩ := caught_waits noCldStop hc
      have heq := handlers_eq hwait.1
      rw [(hfinish t ht hstuck).1] at heq
      cases heq
    · intro hc t ht hstuck
      obtain ⟨hinv, hc'⟩ := run_uncaught (reach_inv hr) hc (ht.mono fun _ _ => own_of_handles)
      have hover' : t.main.isOver = false :=
        ht.inv (I := fun s => s.main.isOver = false) hover fun _ _ _ ho hh h => handles_main hh h ▸ ho
      rcases stuck_handles hover' hstuck with hwait | ⟨hnone, hquiet⟩
      · exact absurd (hwait.caught hover') hc'
      · refine ⟨hnone, fun hz => ?_⟩
        have howed := hinv.reaping hz
        simp [St.Owed, hnone, hquiet] at howed

theorem ended_child_is_reaped :
    ∃ s, Reach (step true) (fun _ _ => True) installed s ∧ s.child = .zombie ∧
      ∀ t, Reach (step true) Handles s t → Stuck (step true) Handles t → t.handlers = [] ∧ t.child ≠ .zombie := by
  have hr : Reach (step true) (fun _ _ => True) installed _ := exec_get_reach [.fork, .stop, .cont, .die] (by decide)
  exact ⟨_, hr, by decide, (handlers_finish_iff hr (by decide)).2.mpr (by decide)⟩

end Alambix.Ex17

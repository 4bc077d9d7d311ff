/-
  Alambix.Help — the Help button: alambix_help, and the processes it makes.

  A process is its number in the order of creation; the user starts process 0. Each is at a
  statement of `main` or of alambix_help, has become the browser, or has ended (`ProcPc`).
  `procNext` is one statement of one process:
  - the parent of a fork returns from alambix_help, the child goes on at its execvp;
  - an execvp that succeeds replaces the program by the browser; one that fails returns,
    and alambix_help with it: no exit follows, the child is in its caller's loop.
  A user may click Help, or quit, in any process whose interface runs. All of them share
  the name of the bartender's queue, which the first to quit unlinks.

  Proved:
  - `one_alambix_iff`: over every run, the first process stays the only one in Alambix's
    own code exactly as long as no execvp fails.
  - `name_is_kept`: without a failing execvp the queue keeps its name until the first
    process unlinks it itself; with one, a child that quits takes it away
    (`a_failed_execvp_duplicates_the_program`).
-/

import Alambix.Program

namespace Alambix

open Lib.Transition
open Function (update)

inductive ProcPc where
  /-- In `main`: `ui` is alambix_open's loop, the caller of alambix_help. -/
  | main (pc : MainPc)
  | helpHtml
  | fork
  /-- `fork` has returned this in `pid_fils`. -/
  | forked (pidFils : Int)
  | execvp
  | browser
  | ended
  deriving DecidableEq, Repr

inductive ProcEv where
  | click
  | helpHtml
  | fork
  | forkFail
  | testPidFils
  | execvp
  | execvpFail
  | quit
  /-- The next statement of alambix_destroy, or alambix_close and the return from `main`. -/
  | teardown
  | browserExit
  deriving DecidableEq, Repr

/-- The two tests of `pid_fils`: the message on -1, execvp on 0, then the end of alambix_help. -/
def afterFork (pidFils : Int) : ProcPc :=
  if pidFils = -1 then .main .ui else if pidFils = 0 then .execvp else .main .ui

/-- The statements after alambix_open. -/
def afterTeardown : MainPc → Option ProcPc
  | .semDestroyOrderDrink => some (.main .semDestroyProvideDrink)
  | .semDestroyProvideDrink => some (.main .mqUnlink)
  | .mqUnlink => some (.main .mqClose)
  | .mqClose => some (.main .alambixClose)
  | .alambixClose => some .ended
  | _ => none

/-- One statement of a process: where it goes, and where the child it forks begins, the
    child's number being `child`. -/
def procNext (child : Nat) : ProcPc → ProcEv → Option (ProcPc × Option ProcPc)
  | .main .ui, .click => some (.helpHtml, none)
  | .helpHtml, .helpHtml => some (.fork, none)
  | .fork, .fork => some (.forked child, some (.forked 0))
  | .fork, .forkFail => some (.forked (-1), none)
  | .forked pidFils, .testPidFils => some (afterFork pidFils, none)
  | .execvp, .execvp => some (.browser, none)
  | .execvp, .execvpFail => some (.main .ui, none)
  | .main .ui, .quit => some (.main .semDestroyOrderDrink, none)
  | .main pc, .teardown => (afterTeardown pc).map (·, none)
  | .browser, .browserExit => some (.ended, none)
  | _, _ => none

/-- In Alambix's own code, the child's way from fork to execvp left out. -/
def ProcPc.runsAlambix : ProcPc → Bool
  | .main _ => true
  | .helpHtml => true
  | .fork => true
  | .forked pidFils => decide (pidFils ≠ 0)
  | .execvp => false
  | .browser => false
  | .ended => false

structure Procs where
  pc : Nat → ProcPc
  /-- The number of the next process. -/
  next : Nat
  /-- The bartender's queue has its name. -/
  linked : Bool

def Procs.unlinks (s : Procs) (p : Nat) (e : ProcEv) : Bool := decide (e = .teardown ∧ s.pc p = .main .mqUnlink)

/-- Process `x.1` does `x.2`. -/
def procsStep (s : Procs) (x : Nat × ProcEv) : Option Procs :=
  if x.1 < s.next then
    match procNext s.next (s.pc x.1) x.2 with
    | none => none
    | some (pc, none) => some { s with pc := update s.pc x.1 pc, linked := s.linked && !s.unlinks x.1 x.2 }
    | some (pc, some child) => some { s with pc := update (update s.pc x.1 pc) s.next child, next := s.next + 1 }
  else none

/-- The user has started the program; its interface runs. -/
def oneProcess : Procs := ⟨fun _ => .main .ui, 1, true⟩

/-- The processes in Alambix's own code: the first one, until it has ended. -/
def OneAlambix (s : Procs) : Prop := ∀ p < s.next, (s.pc p).runsAlambix = true ↔ p = 0 ∧ s.pc 0 ≠ .ended

/-! ## One statement -/

theorem procNext_child {n : Nat} {pc pc' child : ProcPc} {e : ProcEv} (h : procNext n pc e = some (pc', some child)) :
    pc = .fork ∧ e = .fork ∧ pc' = .forked n ∧ child = .forked 0 := by
  unfold procNext at h
  split at h <;> simp_all

/-- Only a failing execvp brings a process into Alambix's own code, and only its end takes
    one out. -/
theorem procNext_runs {n : Nat} {pc pc' : ProcPc} {e : ProcEv} (h : procNext n pc e = some (pc', none)) :
    (e = .execvpFail ∧ pc.runsAlambix = false ∧ pc'.runsAlambix = true) ∨
    (e ≠ .execvpFail ∧ (pc'.runsAlambix = pc.runsAlambix ∧ (pc' = .ended ↔ pc = .ended) ∨ pc' = .ended)) := by
  unfold procNext at h
  split at h
  case h_5 pidFils =>
    obtain ⟨rfl, -⟩ := Prod.mk.inj (Option.some.inj h)
    unfold afterFork
    by_cases h1 : pidFils = -1
    · simp [h1, ProcPc.runsAlambix]
    · by_cases h0 : pidFils = 0 <;> simp [h1, h0, ProcPc.runsAlambix]
  case h_9 m =>
    cases m <;> simp [afterTeardown] at h <;> subst h <;> simp [ProcPc.runsAlambix]
  all_goals simp at h
  all_goals subst h; simp [ProcPc.runsAlambix]

/-- What a statement does to the processes. -/
theorem procsStep_cases {s s' : Procs} {p : Nat} {e : ProcEv} (h : procsStep s (p, e) = some s') :
    p < s.next ∧
    ((∃ pc, procNext s.next (s.pc p) e = some (pc, none) ∧
        s' = { s with pc := update s.pc p pc, linked := s.linked && !s.unlinks p e }) ∨
      (e = .fork ∧ s.pc p = .fork ∧
        s' = { s with pc := update (update s.pc p (.forked s.next)) s.next (.forked 0), next := s.next + 1 })) := by
  unfold procsStep at h
  split at h
  · rename_i hp
    refine ⟨hp, ?_⟩
    split at h
    · cases h
    · rename_i pc hpc
      exact .inl ⟨pc, hpc, (Option.some.inj h).symm⟩
    · rename_i pc child hpc
      obtain ⟨hfork, he, rfl, rfl⟩ := procNext_child hpc
      exact .inr ⟨he, hfork, (Option.some.inj h).symm⟩
  · cases h

theorem oneAlambix_iff {s : Procs} (hn : 0 < s.next) :
    OneAlambix s ↔ ((s.pc 0).runsAlambix = true ∨ s.pc 0 = .ended) ∧
      ∀ p, 0 < p → p < s.next → (s.pc p).runsAlambix = false := by
  constructor
  · intro h
    constructor
    · by_cases he : s.pc 0 = .ended
      · exact Or.inr he
      · exact Or.inl ((h 0 hn).mpr ⟨rfl, he⟩)
    · intro p hp0 hp
      have hne : p ≠ 0 := by omega
      simpa [hne] using h p hp
  · rintro ⟨hfirst, hothers⟩ p hp
    by_cases hp0 : p = 0
    · subst hp0
      rcases hfirst with hr | he
      · have : s.pc 0 ≠ .ended := by intro he; rw [he] at hr; cases hr
        simp [hr, this]
      · simp [he, ProcPc.runsAlambix]
    · simp [hothers p (by omega) hp, hp0]

/-- A statement that brings no process into Alambix's code, nor back into it. -/
theorem update_oneAlambix {s : Procs} {p : Nat} {pc : ProcPc} (l : Bool) (hn : 0 < s.next) (h1 : OneAlambix s)
    (hp : p < s.next) (hpc : pc.runsAlambix = (s.pc p).runsAlambix ∧ (pc = .ended ↔ s.pc p = .ended) ∨ pc = .ended) :
    OneAlambix { s with pc := update s.pc p pc, linked := l } := by
  obtain ⟨hfirst, hothers⟩ := (oneAlambix_iff hn).mp h1
  rw [oneAlambix_iff (by exact hn)]
  constructor
  · show (update s.pc p pc 0).runsAlambix = true ∨ update s.pc p pc 0 = .ended
    by_cases hp0 : p = 0
    · subst hp0
      rw [Function.update_self]
      rcases hpc with ⟨hsame, hend⟩ | rfl
      · rw [hsame, hend]; exact hfirst
      · exact Or.inr rfl
    · rw [Function.update_of_ne (Ne.symm hp0)]
      exact hfirst
  · intro q hq0 hq
    show (update s.pc p pc q).runsAlambix = false
    by_cases hqp : q = p
    · subst hqp
      rw [Function.update_self]
      rcases hpc with ⟨hsame, -⟩ | rfl
      · rw [hsame]; exact hothers q hq0 hq
      · rfl
    · rw [Function.update_of_ne hqp]
      exact hothers q hq0 hq

theorem fork_oneAlambix {s : Procs} {p : Nat} (hn : 0 < s.next) (h1 : OneAlambix s) (hp : p < s.next)
    (hfork : s.pc p = .fork) :
    OneAlambix { s with pc := update (update s.pc p (.forked s.next)) s.next (.forked 0), next := s.next + 1 } := by
  obtain ⟨-, hothers⟩ := (oneAlambix_iff hn).mp h1
  have hp0 : p = 0 := ((h1 p hp).mp (by rw [hfork]; rfl)).1
  have hne : (0 : Nat) ≠ s.next := by omega
  subst hp0
  rw [oneAlambix_iff (Nat.succ_pos _)]
  constructor
  · left
    show (update (update s.pc 0 (.forked s.next)) s.next (.forked 0) 0).runsAlambix = true
    rw [Function.update_of_ne hne, Function.update_self]
    -- the parent has a child's number, which is not 0
    simp only [ProcPc.runsAlambix, decide_eq_true_eq]
    omega
  · intro q hq0 hq
    show (update (update s.pc 0 (.forked s.next)) s.next (.forked 0) q).runsAlambix = false
    by_cases hqn : q = s.next
    · subst hqn
      rw [Function.update_self]
      rfl
    · have hqlt : q < s.next + 1 := hq
      rw [Function.update_of_ne hqn, Function.update_of_ne (by omega)]
      exact hothers q hq0 (by omega)

/-- One statement keeps Alambix single exactly when it is no failing execvp. -/
theorem step_oneAlambix {s s' : Procs} {x : Nat × ProcEv} (hn : 0 < s.next) (h1 : OneAlambix s)
    (h : procsStep s x = some s') : OneAlambix s' ↔ x.2 ≠ .execvpFail := by
  obtain ⟨p, e⟩ := x
  obtain ⟨hp, ⟨pc, hpc, rfl⟩ | ⟨rfl, hfork, rfl⟩⟩ := procsStep_cases h
  · rcases procNext_runs hpc with ⟨rfl, hno, hyes⟩ | ⟨he, hruns⟩
    · -- the child is back in its caller's loop
      have hp0 : p ≠ 0 := by
        rintro rfl
        rcases ((oneAlambix_iff hn).mp h1).1 with h | h
        · rw [hno] at h; cases h
        · rw [h] at hpc; cases hpc
      refine iff_of_false (fun h1' => ?_) (fun h => h rfl)
      exact hp0 ((h1' p hp).mp (by simpa using hyes)).1
    · exact iff_of_true (update_oneAlambix _ hn h1 hp hruns) he
  · exact iff_of_true (fork_oneAlambix hn h1 hp hfork) (by simp)

theorem step_next {s s' : Procs} {x : Nat × ProcEv} (h : procsStep s x = some s') : s.next ≤ s'.next := by
  obtain ⟨-, ⟨pc, -, rfl⟩ | ⟨-, -, rfl⟩⟩ := procsStep_cases (p := x.1) (e := x.2) h
  · exact Nat.le_refl _
  · exact Nat.le_succ _

theorem reach_next {ok : Procs → Nat × ProcEv → Prop} {s : Procs} (h : Reach procsStep ok oneProcess s) :
    0 < s.next :=
  h.inv (I := fun s => 0 < s.next) Nat.one_pos fun _ _ _ hi _ hs => Nat.lt_of_lt_of_le hi (step_next hs)

/-! ## Every run -/

theorem oneProcess_oneAlambix : OneAlambix oneProcess := by
  rw [oneAlambix_iff (by decide)]
  exact ⟨Or.inl rfl, fun p h0 h1 => absurd h1 (Nat.not_lt.mpr h0)⟩

theorem reach_oneAlambix {s : Procs} (h : Reach procsStep (fun _ x => x.2 ≠ .execvpFail) oneProcess s) :
    OneAlambix s :=
  h.inv_with (J := fun s => 0 < s.next) (fun _ hs => reach_next hs) oneProcess_oneAlambix
    fun _ _ _ hn h1 hok hs => (step_oneAlambix hn h1 hs).mpr hok

/-- Whatever is clicked, in whatever process, and whatever becomes of each fork: the first
    process stays the only one in Alambix's own code exactly as long as no execvp returns. -/
theorem one_alambix_iff {s : Procs} {tr : List (Procs × (Nat × ProcEv))}
    (hr : Run procsStep (fun _ _ => True) oneProcess tr s) :
    (∀ t ∈ visited tr s, OneAlambix t) ↔ ∀ x ∈ tr, x.2.2 ≠ .execvpFail :=
  hr.safe_iff (J := fun s => 0 < s.next) (fun _ hs => reach_next hs) oneProcess_oneAlambix
    fun _ _ _ hn h1 _ hs => step_oneAlambix hn h1 hs

/-- The user clicks Help; the child becomes the browser. -/
def helpShown : List (Nat × ProcEv) :=
  [(0, .click), (0, .helpHtml), (0, .fork), (1, .testPidFils), (0, .testPidFils), (1, .execvp)]

theorem browser_is_no_alambix :
    ∃ tr s, Run procsStep (fun _ _ => True) oneProcess tr s ∧ s.pc 1 = .browser ∧ ∀ t ∈ visited tr s, OneAlambix t := by
  have hreach : Reach procsStep (fun _ x => x.2 ≠ .execvpFail) oneProcess _ := exec_get_reach helpShown (by decide)
  obtain ⟨tr, hr⟩ := hreach.run
  have hall : Run procsStep (fun _ _ => True) oneProcess tr _ := hr.mono fun _ _ _ => trivial
  refine ⟨tr, _, hall, by decide, (one_alambix_iff hall).mpr fun x hx => ?_⟩
  exact (hr.next_visited x hx).2.1

/-- No browser is installed; the child quits. -/
def helpFails : List (Nat × ProcEv) :=
  [(0, .click), (0, .helpHtml), (0, .fork), (1, .testPidFils), (0, .testPidFils), (1, .execvpFail), (1, .quit),
    (1, .teardown), (1, .teardown), (1, .teardown)]

/-- The child is a second Alambix; quitting it takes the queue's name away from the first,
    whose interface runs. -/
theorem a_failed_execvp_duplicates_the_program :
    ∃ s, Reach procsStep (fun _ _ => True) oneProcess s ∧ ¬ OneAlambix s ∧
      s.pc 0 = .main .ui ∧ s.pc 1 = .main .mqClose ∧ s.linked = false := by
  refine ⟨_, exec_get_reach helpFails (by decide), fun h => ?_, by decide, by decide, by decide⟩
  exact absurd ((h 1 (by decide)).mp (by decide)).1 (by decide)

/-! ## The queue's name -/

/-- Past its own mq_unlink. -/
def ProcPc.unlinked : ProcPc → Bool
  | .main .mqClose => true
  | .main .alambixClose => true
  | .ended => true
  | _ => false

theorem procNext_unlinked {n : Nat} {pc pc' : ProcPc} {e : ProcEv} (h : procNext n pc e = some (pc', none))
    (hpc : pc.unlinked = true ∨ e = .teardown ∧ pc = .main .mqUnlink) : pc'.unlinked = true := by
  rcases hpc with hpc | ⟨rfl, rfl⟩
  · cases pc with
    | main m =>
      cases m <;> simp [ProcPc.unlinked] at hpc <;> cases e <;> simp [procNext, afterTeardown] at h <;>
        subst h <;> rfl
    | ended => cases h
    | _ => cases hpc
  · cases h
    rfl

theorem procs_name {s s' : Procs} {x : Nat × ProcEv} (h1 : OneAlambix s)
    (hi : s.linked = false → (s.pc 0).unlinked = true) (h : procsStep s x = some s') (hl : s'.linked = false) :
    (s'.pc 0).unlinked = true := by
  obtain ⟨p, e⟩ := x
  obtain ⟨hp, ⟨pc, hpc, rfl⟩ | ⟨rfl, hfork, rfl⟩⟩ := procsStep_cases h
  · simp only [Bool.and_eq_false_iff, Bool.not_eq_false', Procs.unlinks, decide_eq_true_eq] at hl
    show (update s.pc p pc 0).unlinked = true
    by_cases hp0 : p = 0
    · subst hp0
      rw [Function.update_self]
      exact procNext_unlinked hpc (hl.imp hi id)
    · rw [Function.update_of_ne (Ne.symm hp0)]
      rcases hl with hl | ⟨-, hm⟩
      · exact hi hl
      · exact absurd ((h1 p hp).mp (by rw [hm]; rfl)).1 hp0
  · -- the parent was at its fork, so it has unlinked nothing
    have hp0 : p = 0 := ((h1 p hp).mp (by rw [hfork]; rfl)).1
    subst hp0
    have hun := hi hl
    rw [hfork] at hun; cases hun

/-- As long as no execvp fails, only the first process takes the queue's name away. -/
theorem name_is_kept {s : Procs} (h : Reach procsStep (fun _ x => x.2 ≠ .execvpFail) oneProcess s)
    (hl : s.linked = false) : (s.pc 0).unlinked = true :=
  h.inv_with (I := fun s => s.linked = false → (s.pc 0).unlinked = true) (fun _ hs => reach_oneAlambix hs) nofun
    (fun _ _ _ h1 hi _ hs => procs_name h1 hi hs) hl

end Alambix

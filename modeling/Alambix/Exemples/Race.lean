/-
  Alambix.Exemples.Race — `Ex_05_fork_exec_wait/Angers_GP.c`: a race of processes.

  main forks the racers, whatever fork answers; each runs its laps and exits. Then main waits
  as many times, each wait giving the pid of some racer that has ended, or -1 when there is
  no child any more; these are the values of `leaderboard`, and with its rank each of them is
  handed to printf. `nbRacers` is 5 in the source. `leaderboard` is an array of int and the
  format says `%ld`: which characters come out, for -1 above all, is left open.

  - `RaceInv`: the racers forked are those on the leaderboard, those that have ended and
    those still running, each of them once.

  Proved: `everyone_is_ranked`.
-/

import Alambix.Lib.Transition
import Mathlib.Data.List.Perm.Basic

namespace Alambix.AngersGP

open Lib.Transition

/-- In its three loops, at index `i`. -/
inductive MainPc where
  | fork (i : Nat)
  | wait (i : Nat)
  | printf (i : Nat)
  | returned
  deriving DecidableEq, Repr

structure St where
  main : MainPc
  running : List Nat
  /-- Ended, and main has not waited for them. -/
  zombies : List Nat
  leaderboard : List Int
  /-- What printf was given, call by call. -/
  printfArgs : List (Nat × Int)
  /-- The racers that fork has made, and those wait has given. -/
  forked : List Nat
  reaped : List Nat

inductive Ev where
  | fork (pid : Nat)
  | forkFail
  /-- A racer has run its laps. -/
  | exit (pid : Nat)
  | wait (pid : Nat)
  /-- ECHILD. -/
  | waitFail
  /-- With these arguments. -/
  | printf (rank : Nat) (pid : Int)
  deriving DecidableEq, Repr

variable (nbRacers : Nat)

def atPrintf (i : Nat) : MainPc := if i < nbRacers then .printf i else .returned

def atWait (i : Nat) : MainPc := if i < nbRacers then .wait i else atPrintf nbRacers 0

def atFork (i : Nat) : MainPc := if i < nbRacers then .fork i else atWait nbRacers 0

def step (s : St) : Ev → Option St
  | .fork pid =>
    match s.main with
    | .fork i =>
      guarded (pid ∉ s.running ++ s.zombies)
        { s with main := atFork nbRacers (i + 1), running := pid :: s.running, forked := pid :: s.forked }
    | _ => none
  | .forkFail =>
    match s.main with
    | .fork i => some { s with main := atFork nbRacers (i + 1) }
    | _ => none
  | .exit pid => guarded (pid ∈ s.running) { s with running := s.running.erase pid, zombies := pid :: s.zombies }
  | .wait pid =>
    match s.main with
    | .wait i =>
      guarded (pid ∈ s.zombies)
        { s with main := atWait nbRacers (i + 1), zombies := s.zombies.erase pid
                 leaderboard := s.leaderboard ++ [(pid : Int)], reaped := s.reaped ++ [pid] }
    | _ => none
  | .waitFail =>
    match s.main with
    | .wait i =>
      guarded (s.running = [] ∧ s.zombies = [])
        { s with main := atWait nbRacers (i + 1), leaderboard := s.leaderboard ++ [-1] }
    | _ => none
  | .printf rank pid =>
    match s.main with
    | .printf i =>
      guarded (rank = i + 1 ∧ s.leaderboard[i]? = some pid)
        { s with main := atPrintf nbRacers (i + 1), printfArgs := s.printfArgs ++ [(rank, pid)] }
    | _ => none

def launched : St := ⟨atFork nbRacers 0, [], [], [], [], [], []⟩

/-! ## The invariant -/

/-- How many racers were forked, how many waited for, and how often printf was called, when main is here. -/
def MainPc.Reached (pc : MainPc) (forked board calls : Nat) : Prop :=
  match pc with
  | .fork i => i < nbRacers ∧ forked ≤ i ∧ board = 0 ∧ calls = 0
  | .wait i => i < nbRacers ∧ forked ≤ nbRacers ∧ board = i ∧ calls = 0
  | .printf i => i < nbRacers ∧ forked ≤ nbRacers ∧ board = nbRacers ∧ calls = i
  | .returned => forked ≤ nbRacers ∧ board = nbRacers ∧ calls = nbRacers

theorem atPrintf_reached {i forked : Nat} (h : i ≤ nbRacers) (hf : forked ≤ nbRacers) :
    (atPrintf nbRacers i).Reached nbRacers forked nbRacers i := by
  unfold atPrintf
  split
  · rename_i hlt
    exact ⟨hlt, hf, rfl, rfl⟩
  · exact ⟨hf, rfl, by omega⟩

theorem atWait_reached {i forked : Nat} (h : i ≤ nbRacers) (hf : forked ≤ nbRacers) :
    (atWait nbRacers i).Reached nbRacers forked i 0 := by
  unfold atWait
  split
  · rename_i hlt
    exact ⟨hlt, hf, rfl, rfl⟩
  · obtain rfl : i = nbRacers := by omega
    exact atPrintf_reached _ (Nat.zero_le _) hf

theorem atFork_reached {i forked : Nat} (h : i ≤ nbRacers) (hf : forked ≤ i) :
    (atFork nbRacers i).Reached nbRacers forked 0 0 := by
  unfold atFork
  split
  · rename_i hlt
    exact ⟨hlt, hf, rfl, rfl⟩
  · exact atWait_reached _ (Nat.zero_le _) (by omega)

structure RaceInv (s : St) : Prop where
  reached : s.main.Reached nbRacers s.forked.length s.leaderboard.length s.printfArgs.length
  /-- Each racer is in one place. -/
  racers : (s.reaped ++ (s.zombies ++ s.running)).Perm s.forked
  nodup : s.forked.Nodup
  board : ∃ k, s.leaderboard = s.reaped.map Nat.cast ++ List.replicate k (-1 : Int) ∧
    (0 < k → s.zombies = [] ∧ s.running = [])
  printfArgs : s.printfArgs = (s.leaderboard.take s.printfArgs.length).mapIdx fun i pid => (i + 1, pid)

theorem launched_inv : RaceInv nbRacers (launched nbRacers) where
  reached := atFork_reached nbRacers (Nat.zero_le _) (Nat.le_refl _)
  racers := .refl _
  nodup := .nil
  board := ⟨0, rfl, fun h => absurd h (Nat.lt_irrefl _)⟩
  printfArgs := rfl

variable {nbRacers}

/-! What each call of main does. -/

theorem fork_eq {s s' : St} {pid : Nat} (h : step nbRacers s (.fork pid) = some s') :
    ∃ i, s.main = .fork i ∧ pid ∉ s.running ++ s.zombies ∧
      s' = { s with main := atFork nbRacers (i + 1), running := pid :: s.running, forked := pid :: s.forked } := by
  cases hmain : s.main with
  | fork i =>
    simp only [step, hmain] at h
    obtain ⟨hfresh, rfl⟩ := guarded_eq_some.mp h
    exact ⟨i, rfl, hfresh, rfl⟩
  | _ => simp [step, hmain] at h

theorem forkFail_eq {s s' : St} (h : step nbRacers s .forkFail = some s') :
    ∃ i, s.main = .fork i ∧ s' = { s with main := atFork nbRacers (i + 1) } := by
  cases hmain : s.main with
  | fork i => exact ⟨i, rfl, by simpa [step, hmain] using h.symm⟩
  | _ => simp [step, hmain] at h

theorem wait_eq {s s' : St} {pid : Nat} (h : step nbRacers s (.wait pid) = some s') :
    ∃ i, s.main = .wait i ∧ pid ∈ s.zombies ∧
      s' = { s with main := atWait nbRacers (i + 1), zombies := s.zombies.erase pid
                    leaderboard := s.leaderboard ++ [(pid : Int)], reaped := s.reaped ++ [pid] } := by
  cases hmain : s.main with
  | wait i =>
    simp only [step, hmain] at h
    obtain ⟨hmem, rfl⟩ := guarded_eq_some.mp h
    exact ⟨i, rfl, hmem, rfl⟩
  | _ => simp [step, hmain] at h

theorem waitFail_eq {s s' : St} (h : step nbRacers s .waitFail = some s') :
    ∃ i, s.main = .wait i ∧ s.running = [] ∧ s.zombies = [] ∧
      s' = { s with main := atWait nbRacers (i + 1), leaderboard := s.leaderboard ++ [-1] } := by
  cases hmain : s.main with
  | wait i =>
    simp only [step, hmain] at h
    obtain ⟨⟨hrun, hzom⟩, rfl⟩ := guarded_eq_some.mp h
    exact ⟨i, rfl, hrun, hzom, rfl⟩
  | _ => simp [step, hmain] at h

theorem printf_eq {s s' : St} {rank : Nat} {pid : Int} (h : step nbRacers s (.printf rank pid) = some s') :
    ∃ i, s.main = .printf i ∧ rank = i + 1 ∧ s.leaderboard[i]? = some pid ∧
      s' = { s with main := atPrintf nbRacers (i + 1), printfArgs := s.printfArgs ++ [(rank, pid)] } := by
  cases hmain : s.main with
  | printf i =>
    simp only [step, hmain] at h
    obtain ⟨⟨hrank, hpid⟩, rfl⟩ := guarded_eq_some.mp h
    exact ⟨i, rfl, hrank, hpid, rfl⟩
  | _ => simp [step, hmain] at h

/-- Before the first wait nobody has been waited for. -/
theorem RaceInv.forking {s : St} (hi : RaceInv nbRacers s) {i : Nat} (h : s.main = .fork i) :
    i < nbRacers ∧ s.forked.length ≤ i ∧ s.leaderboard = [] ∧ s.printfArgs = [] ∧ s.reaped = [] := by
  have hreached := hi.reached
  rw [h] at hreached
  obtain ⟨hlt, hforked, hboard, hargs⟩ := hreached
  have hboard := List.length_eq_zero_iff.mp hboard
  obtain ⟨k, hk, -⟩ := hi.board
  rw [hboard] at hk
  have hreaped := (List.append_eq_nil_iff.mp hk.symm).1
  exact ⟨hlt, hforked, hboard, List.length_eq_zero_iff.mp hargs, List.map_eq_nil_iff.mp hreaped⟩

theorem fork_inv {s s' : St} {pid : Nat} (hi : RaceInv nbRacers s) (h : step nbRacers s (.fork pid) = some s') :
    RaceInv nbRacers s' := by
  obtain ⟨i, hmain, hfresh, rfl⟩ := fork_eq h
  obtain ⟨hlt, hforked, hboard, hargs, hreaped⟩ := hi.forking hmain
  refine
    { reached := ?_
      racers := ?_
      nodup := ?_
      board := ⟨0, by simp [hboard, hreaped], fun h => absurd h (Nat.lt_irrefl _)⟩
      printfArgs := by simp [hargs] }
  · simp only [hboard, hargs, List.length_nil]
    exact atFork_reached _ hlt (by simpa using hforked)
  · have hmoved : (s.reaped ++ (s.zombies ++ pid :: s.running)).Perm
        (pid :: (s.reaped ++ (s.zombies ++ s.running))) := by
      rw [hreaped]
      exact List.perm_middle
    exact hmoved.trans (hi.racers.cons pid)
  · refine List.nodup_cons.mpr ⟨fun hmem => hfresh ?_, hi.nodup⟩
    have hmem := hi.racers.mem_iff.mpr hmem
    simpa [hreaped, or_comm] using hmem

theorem wait_inv {s s' : St} {pid : Nat} (hi : RaceInv nbRacers s) (h : step nbRacers s (.wait pid) = some s') :
    RaceInv nbRacers s' := by
  obtain ⟨i, hmain, hmem, rfl⟩ := wait_eq h
  have hreached := hi.reached
  rw [hmain] at hreached
  obtain ⟨hlt, hforked, hboard, hargs⟩ := hreached
  obtain ⟨k, hk, hnone⟩ := hi.board
  -- there is a child, so no wait has failed
  have hk0 : k = 0 := by
    by_contra hk0
    rw [(hnone (by omega)).1] at hmem
    cases hmem
  subst hk0
  refine
    { reached := ?_
      racers := ?_
      nodup := hi.nodup
      board := ⟨0, by simp [hk], fun h => absurd h (Nat.lt_irrefl _)⟩
      printfArgs := by simp [List.length_eq_zero_iff.mp hargs] }
  · simp only [List.length_append, List.length_singleton, hboard, hargs]
    exact atWait_reached _ hlt hforked
  · have hzom := (List.perm_cons_erase hmem).symm
    have hmoved : (s.reaped ++ [pid] ++ (s.zombies.erase pid ++ s.running)).Perm
        (s.reaped ++ (s.zombies ++ s.running)) := by
      rw [List.append_assoc]
      exact (hzom.append_right s.running).append_left s.reaped
    exact hmoved.trans hi.racers

theorem waitFail_inv {s s' : St} (hi : RaceInv nbRacers s) (h : step nbRacers s .waitFail = some s') :
    RaceInv nbRacers s' := by
  obtain ⟨i, hmain, hrun, hzom, rfl⟩ := waitFail_eq h
  have hreached := hi.reached
  rw [hmain] at hreached
  obtain ⟨hlt, hforked, hboard, hargs⟩ := hreached
  obtain ⟨k, hk, -⟩ := hi.board
  refine { hi with
    reached := ?_
    board := ⟨k + 1, ?_, fun _ => ⟨hzom, hrun⟩⟩
    printfArgs := by simp [List.length_eq_zero_iff.mp hargs] }
  · simp only [List.length_append, List.length_singleton, hboard, hargs]
    exact atWait_reached _ hlt hforked
  · rw [hk, List.append_assoc, List.replicate_succ']

theorem printf_inv {s s' : St} {rank : Nat} {pid : Int} (hi : RaceInv nbRacers s)
    (h : step nbRacers s (.printf rank pid) = some s') : RaceInv nbRacers s' := by
  obtain ⟨i, hmain, rfl, hpid, rfl⟩ := printf_eq h
  have hreached := hi.reached
  rw [hmain] at hreached
  obtain ⟨hlt, hforked, hboard, hargs⟩ := hreached
  refine { hi with
    reached := ?_
    printfArgs := ?_ }
  · simp only [List.length_append, List.length_singleton, hboard, hargs]
    exact atPrintf_reached _ hlt hforked
  · have hlen : (s.leaderboard.take i).length = i := by
      rw [List.length_take, hboard]
      omega
    have htake : s.leaderboard.take (i + 1) = s.leaderboard.take i ++ [pid] := by
      rw [List.take_add_one, hpid]
      rfl
    have hold := hi.printfArgs
    rw [hargs] at hold
    rw [List.length_append, List.length_singleton, hargs, htake, List.mapIdx_append, ← hold]
    simp [hlen]

theorem exit_inv {s s' : St} {pid : Nat} (hi : RaceInv nbRacers s) (h : step nbRacers s (.exit pid) = some s') :
    RaceInv nbRacers s' := by
  obtain ⟨hmem, rfl⟩ := guarded_eq_some.mp h
  obtain ⟨k, hk, hnone⟩ := hi.board
  refine { hi with racers := ?_, board := ⟨k, hk, fun hpos => ?_⟩ }
  · have hrun := (List.perm_cons_erase hmem).symm
    have hmoved : (s.reaped ++ (pid :: s.zombies ++ s.running.erase pid)).Perm
        (s.reaped ++ (s.zombies ++ s.running)) := by
      refine List.Perm.append_left _ (List.Perm.trans ?_ (hrun.append_left s.zombies))
      exact List.perm_middle.symm
    exact hmoved.trans hi.racers
  · rw [(hnone hpos).2] at hmem
    cases hmem

theorem step_inv {s s' : St} {e : Ev} (hi : RaceInv nbRacers s) (h : step nbRacers s e = some s') :
    RaceInv nbRacers s' := by
  cases e with
  | fork pid => exact fork_inv hi h
  | exit pid => exact exit_inv hi h
  | wait pid => exact wait_inv hi h
  | waitFail => exact waitFail_inv hi h
  | printf rank pid => exact printf_inv hi h
  | forkFail =>
    obtain ⟨i, hmain, rfl⟩ := forkFail_eq h
    obtain ⟨hlt, hforked, hboard, hargs, -⟩ := hi.forking hmain
    refine { hi with reached := ?_ }
    simp only [hboard, hargs, List.length_nil]
    exact atFork_reached _ hlt (Nat.le_succ_of_le hforked)

theorem reach_inv {s : St} (h : Reach (step nbRacers) (fun _ _ => True) (launched nbRacers) s) :
    RaceInv nbRacers s :=
  h.inv (launched_inv nbRacers) fun _ _ _ hi _ hs => step_inv hi hs

/-! ## The race ends -/

variable (nbRacers) in
/-- Twice the forks, and the waits and the lines that main has still to do. -/
def MainPc.left : MainPc → Nat
  | .fork i => 4 * nbRacers - 2 * i
  | .wait i => 2 * nbRacers - i
  | .printf i => nbRacers - i
  | .returned => 0

theorem atPrintf_left {i : Nat} (h : i ≤ nbRacers) : (atPrintf nbRacers i).left nbRacers = nbRacers - i := by
  unfold atPrintf
  split
  · rfl
  · simp only [MainPc.left]
    omega

theorem atWait_left {i : Nat} (h : i ≤ nbRacers) : (atWait nbRacers i).left nbRacers = 2 * nbRacers - i := by
  unfold atWait
  split
  · rfl
  · rw [atPrintf_left (Nat.zero_le _)]
    omega

theorem atFork_left {i : Nat} (h : i ≤ nbRacers) : (atFork nbRacers i).left nbRacers = 4 * nbRacers - 2 * i := by
  unfold atFork
  split
  · rfl
  · rw [atWait_left (Nat.zero_le _)]
    omega

variable (nbRacers) in
/-- A racer that runs has still to exit: its fork was counted twice. -/
def St.left (s : St) : Nat := s.main.left nbRacers + s.running.length

theorem step_left {s s' : St} {e : Ev} (hi : RaceInv nbRacers s) (h : step nbRacers s e = some s') :
    s'.left nbRacers < s.left nbRacers := by
  have hreached := hi.reached
  cases e with
  | fork pid =>
    obtain ⟨i, hmain, -, rfl⟩ := fork_eq h
    rw [hmain] at hreached
    have hnow : s.main.left nbRacers = 4 * nbRacers - 2 * i := by rw [hmain]; rfl
    have hleft := atFork_left hreached.1
    have := hreached.1
    simp only [St.left, hnow, hleft, List.length_cons]
    omega
  | forkFail =>
    obtain ⟨i, hmain, rfl⟩ := forkFail_eq h
    rw [hmain] at hreached
    have hnow : s.main.left nbRacers = 4 * nbRacers - 2 * i := by rw [hmain]; rfl
    have hleft := atFork_left hreached.1
    have := hreached.1
    simp only [St.left, hnow, hleft]
    omega
  | exit pid =>
    obtain ⟨hmem, rfl⟩ := guarded_eq_some.mp h
    have := List.length_pos_of_mem hmem
    simp only [St.left, List.length_erase_of_mem hmem]
    omega
  | wait pid =>
    obtain ⟨i, hmain, -, rfl⟩ := wait_eq h
    rw [hmain] at hreached
    have hnow : s.main.left nbRacers = 2 * nbRacers - i := by rw [hmain]; rfl
    have hleft := atWait_left hreached.1
    have := hreached.1
    simp only [St.left, hnow, hleft]
    omega
  | waitFail =>
    obtain ⟨i, hmain, -, -, rfl⟩ := waitFail_eq h
    rw [hmain] at hreached
    have hnow : s.main.left nbRacers = 2 * nbRacers - i := by rw [hmain]; rfl
    have hleft := atWait_left hreached.1
    have := hreached.1
    simp only [St.left, hnow, hleft]
    omega
  | printf rank pid =>
    obtain ⟨i, hmain, -, -, rfl⟩ := printf_eq h
    rw [hmain] at hreached
    have hnow : s.main.left nbRacers = nbRacers - i := by rw [hmain]; rfl
    have hleft := atPrintf_left hreached.1
    have := hreached.1
    simp only [St.left, hnow, hleft]
    omega

theorem can_step {s : St} (hi : RaceInv nbRacers s) (h : s.main ≠ .returned) :
    ∃ e s', step nbRacers s e = some s' := by
  cases hmain : s.main with
  | returned => exact absurd hmain h
  | fork i => exact ⟨.forkFail, { s with main := atFork nbRacers (i + 1) }, by simp [step, hmain]⟩
  | printf i =>
    have hreached := hi.reached
    rw [hmain] at hreached
    obtain ⟨hlt, -, hboard, -⟩ := hreached
    obtain ⟨pid, hget⟩ : ∃ pid, s.leaderboard[i]? = some pid := ⟨_, List.getElem?_eq_getElem (by omega)⟩
    refine ⟨.printf (i + 1) pid,
      { s with main := atPrintf nbRacers (i + 1), printfArgs := s.printfArgs ++ [(i + 1, pid)] }, ?_⟩
    simp only [step, hmain]
    exact guarded_of ⟨trivial, hget⟩
  | wait i =>
    -- main waits for a racer that still runs, and that one waits for nobody
    cases hrun : s.running with
    | cons pid rest => exact ⟨.exit pid, _, guarded_of (by rw [hrun]; exact List.mem_cons_self)⟩
    | nil =>
      cases hzom : s.zombies with
      | cons pid rest =>
        refine ⟨.wait pid, { s with
          main := atWait nbRacers (i + 1), zombies := s.zombies.erase pid
          leaderboard := s.leaderboard ++ [(pid : Int)], reaped := s.reaped ++ [pid] }, ?_⟩
        simp only [step, hmain]
        exact guarded_of (by rw [hzom]; exact List.mem_cons_self)
      | nil =>
        refine ⟨.waitFail,
          { s with main := atWait nbRacers (i + 1), leaderboard := s.leaderboard ++ [-1] }, ?_⟩
        simp only [step, hmain]
        exact guarded_of ⟨hrun, hzom⟩

/-- Where main has returned, every racer has been waited for. -/
theorem all_reaped {s : St} (hi : RaceInv nbRacers s) (h : s.main = .returned) :
    s.running = [] ∧ s.zombies = [] ∧
      s.leaderboard = s.reaped.map Nat.cast ++ List.replicate (nbRacers - s.reaped.length) (-1 : Int) := by
  have hreached := hi.reached
  rw [h] at hreached
  obtain ⟨hforked, hboard, -⟩ := hreached
  obtain ⟨k, hk, hnone⟩ := hi.board
  have hlen : s.reaped.length + k = nbRacers := by
    have := congrArg List.length hk
    simpa [hboard] using this.symm
  have hracers := hi.racers.length_eq
  simp only [List.length_append] at hracers
  have hempty : s.zombies.length = 0 ∧ s.running.length = 0 := by
    by_cases hpos : 0 < k
    · simp [hnone hpos]
    · omega
  refine ⟨List.length_eq_zero_iff.mp hempty.2, List.length_eq_zero_iff.mp hempty.1, ?_⟩
  rw [hk]
  congr 2
  omega

/-- Whatever fork answers and in whatever order the racers run, the program ends. The
    leaderboard then has each racer that was made once, and -1 for each that was not, and
    printf was called once for each of its values, with its rank. -/
theorem everyone_is_ranked :
    (∀ tr s, Run (step nbRacers) (fun _ _ => True) (launched nbRacers) tr s → tr.length ≤ 4 * nbRacers) ∧
    (∀ s, Reach (step nbRacers) (fun _ _ => True) (launched nbRacers) s → Stuck (step nbRacers) (fun _ _ => True) s →
      s.main = .returned ∧ s.running = [] ∧ s.zombies = [] ∧
      (∃ order : List Nat, order.Perm s.forked ∧ order.Nodup ∧
        s.leaderboard = order.map Nat.cast ++ List.replicate (nbRacers - order.length) (-1 : Int)) ∧
      s.leaderboard.length = nbRacers ∧
      s.printfArgs = s.leaderboard.mapIdx fun i pid => (i + 1, pid)) := by
  constructor
  · intro tr s hr
    have hlen := hr.length_le (μ := St.left nbRacers) fun _ _ _ hs _ h => step_left (reach_inv hs) h
    have hall : (launched nbRacers).left nbRacers = 4 * nbRacers := by
      simp [St.left, launched, atFork_left (Nat.zero_le _)]
    omega
  · intro s hs hstuck
    have hi := reach_inv hs
    have hmain : s.main = .returned := by
      by_contra hmain
      obtain ⟨e, s', h⟩ := can_step hi hmain
      exact hstuck e s' trivial h
    obtain ⟨hrun, hzom, hboard⟩ := all_reaped hi hmain
    have horder : s.reaped.Perm s.forked := by simpa [hrun, hzom] using hi.racers
    have hreached := hi.reached
    rw [hmain] at hreached
    obtain ⟨-, hlen, hargs⟩ := hreached
    refine ⟨hmain, hrun, hzom, ⟨s.reaped, horder, horder.nodup_iff.mpr hi.nodup, hboard⟩, hlen, ?_⟩
    rw [hi.printfArgs, hargs, List.take_of_length_le (by omega)]

end Alambix.AngersGP

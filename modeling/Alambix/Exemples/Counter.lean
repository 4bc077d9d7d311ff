/-
  Alambix.Exemples.Counter — `exemple_sync/Ex_05`: two threads increment a counter, one
  hundred thousand times each, under a mutex.

  `counter++` is a load and a store; between the two any other thread may run. main prints
  the counter after it has joined both. (If pthread_create fails, main joins a thread that
  is none: not modelled.)

  - `CounterInv`: the counter is the number of stores so far; what a thread has loaded and
    not stored is still its value, since that thread holds the mutex.

  Proved: `no_increment_is_lost`.
-/

import Alambix.Lib.Transition

namespace Alambix.Ex05

open Lib.Transition
open Function (update)

inductive Thread where
  | thread1
  | thread2
  deriving DecidableEq, Repr

/-- The bound of the loop of inc; twice as much is an int. -/
def increments : Nat := 100000

inductive Pc where
  | notCreated
  /-- In round `i` of the loop. -/
  | lock (i : Nat)
  | load (i : Nat)
  | store (i : Nat) (loaded : Nat)
  | unlock (i : Nat)
  | returned
  deriving DecidableEq, Repr

inductive MainPc where
  | pthreadCreate (t : Thread)
  | pthreadJoin (t : Thread)
  | printf
  | returned
  deriving DecidableEq, Repr

structure St where
  main : MainPc
  inc : Thread → Pc
  mutex : Option Thread
  counter : Nat
  printed : List Nat

inductive Ev where
  | pthreadCreate (t : Thread)
  | pthreadJoin (t : Thread)
  | printf (value : Nat)
  | lock (t : Thread)
  | load (t : Thread)
  | store (t : Thread)
  | unlock (t : Thread)
  deriving DecidableEq, Repr

def afterCreate : Thread → MainPc
  | .thread1 => .pthreadCreate .thread2
  | .thread2 => .pthreadJoin .thread1

def afterJoin : Thread → MainPc
  | .thread1 => .pthreadJoin .thread2
  | .thread2 => .printf

def afterUnlock (i : Nat) : Pc := if i + 1 < increments then .lock (i + 1) else .returned

/-- One call of inc, or of main. -/
def step (s : St) : Ev → Option St
  | .pthreadCreate t =>
    guarded (s.main = .pthreadCreate t) { s with main := afterCreate t, inc := update s.inc t (.lock 0) }
  | .pthreadJoin t =>
    guarded (s.main = .pthreadJoin t ∧ s.inc t = .returned) { s with main := afterJoin t }
  | .printf v => guarded (s.main = .printf ∧ v = s.counter) { s with main := .returned, printed := s.printed ++ [v] }
  | .lock t =>
    match s.inc t with
    | .lock i => guarded (s.mutex = none) { s with inc := update s.inc t (.load i), mutex := some t }
    | _ => none
  | .load t =>
    match s.inc t with
    | .load i => some { s with inc := update s.inc t (.store i s.counter) }
    | _ => none
  | .store t =>
    match s.inc t with
    | .store i loaded => some { s with inc := update s.inc t (.unlock i), counter := loaded + 1 }
    | _ => none
  | .unlock t =>
    match s.inc t with
    | .unlock i => some { s with inc := update s.inc t (afterUnlock i), mutex := none }
    | _ => none

def launched : St := ⟨.pthreadCreate .thread1, fun _ => .notCreated, none, 0, []⟩

/-! ## The invariant -/

/-- The increments that a thread has stored. -/
def Pc.done : Pc → Nat
  | .notCreated => 0
  | .lock i => i
  | .load i => i
  | .store i _ => i
  | .unlock i => i + 1
  | .returned => increments

def Pc.holds : Pc → Bool
  | .load _ => true
  | .store _ _ => true
  | .unlock _ => true
  | _ => false

def Pc.running : Pc → Bool
  | .lock i => i < increments
  | .load i => i < increments
  | .store i _ => i < increments
  | .unlock i => i < increments
  | _ => true

/-- main has created this thread. -/
def MainPc.created : MainPc → Thread → Bool
  | .pthreadCreate .thread1, _ => false
  | .pthreadCreate .thread2, t => t = .thread1
  | _, _ => true

def MainPc.joined : MainPc → Thread → Bool
  | .pthreadJoin .thread2, t => t = .thread1
  | .printf, _ => true
  | .returned, _ => true
  | _, _ => false

def St.total (s : St) : Nat := (s.inc .thread1).done + (s.inc .thread2).done

structure CounterInv (s : St) : Prop where
  mutex : ∀ t, (s.inc t).holds = true ↔ s.mutex = some t
  counter : s.counter = s.total
  loaded : ∀ t i loaded, s.inc t = .store i loaded → loaded = s.counter
  running : ∀ t, (s.inc t).running = true
  created : ∀ t, s.main.created t = true ↔ s.inc t ≠ .notCreated
  joined : ∀ t, s.main.joined t = true → s.inc t = .returned
  printed : s.printed = if s.main = .returned then [2 * increments] else []

theorem launched_inv : CounterInv launched where
  mutex t := by simp [launched, Pc.holds]
  counter := rfl
  loaded t i l h := by cases h
  running t := rfl
  created t := by simp [launched, MainPc.created]
  joined t h := by cases h
  printed := rfl

theorem total_update (s : St) (t : Thread) (pc : Pc) :
    (update s.inc t pc .thread1).done + (update s.inc t pc .thread2).done + (s.inc t).done = s.total + pc.done := by
  cases t <;> simp [St.total] <;> omega

/-- A thread goes on: it takes the mutex, keeps it or gives it back, and the counter keeps pace. -/
theorem CounterInv.moves {s : St} {t : Thread} {pc : Pc} {mutex : Option Thread} {counter : Nat} (hi : CounterInv s)
    (hpc : s.inc t ≠ .returned ∧ s.inc t ≠ .notCreated ∧ pc ≠ .notCreated) (hrun : pc.running = true)
    (hmutex : ∀ u, u ≠ t → (mutex = some u ↔ s.mutex = some u)) (hown : pc.holds = true ↔ mutex = some t)
    (hcounter : counter + (s.inc t).done = s.counter + pc.done)
    (hkeep : counter = s.counter ∨ s.mutex = some t)
    (hloaded : ∀ i loaded, pc = .store i loaded → loaded = counter) :
    CounterInv { s with inc := update s.inc t pc, mutex := mutex, counter := counter } where
  mutex u := by
    by_cases hu : u = t
    · subst hu
      simpa using hown
    · simpa [hu, hmutex u hu] using hi.mutex u
  counter := by
    have htotal := total_update s t pc
    have := hi.counter
    simp only [St.total] at htotal this ⊢
    omega
  loaded u i l h := by
    by_cases hu : u = t
    · subst hu
      exact hloaded i l (by simpa using h)
    · have hstore : s.inc u = .store i l := by simpa [hu] using h
      rcases hkeep with hkeep | hheld
      · rw [hkeep]
        exact hi.loaded u i l hstore
      · -- the counter changes, so the mutex is with `t`
        have hother := (hi.mutex u).mp (by rw [hstore]; rfl)
        exact absurd (Option.some.inj (hother.symm.trans hheld)) hu
  running u := by
    by_cases hu : u = t
    · subst hu
      simpa using hrun
    · simpa [hu] using hi.running u
  created u := by
    by_cases hu : u = t
    · subst hu
      simp [hpc.2.2, (hi.created u).mpr hpc.2.1]
    · simpa [hu] using hi.created u
  joined u h := by
    by_cases hu : u = t
    · subst hu
      exact absurd (hi.joined u h) hpc.1
    · simpa [hu] using hi.joined u h
  printed := hi.printed

/-! What each call of inc does. -/

theorem lock_eq {s s' : St} {t : Thread} (h : step s (.lock t) = some s') :
    ∃ i, s.inc t = .lock i ∧ s.mutex = none ∧ s' = { s with inc := update s.inc t (.load i), mutex := some t } := by
  cases hpc : s.inc t with
  | lock i =>
    simp only [step, hpc] at h
    obtain ⟨hfree, rfl⟩ := guarded_eq_some.mp h
    exact ⟨i, rfl, hfree, rfl⟩
  | _ => simp [step, hpc] at h

theorem load_eq {s s' : St} {t : Thread} (h : step s (.load t) = some s') :
    ∃ i, s.inc t = .load i ∧ s' = { s with inc := update s.inc t (.store i s.counter) } := by
  cases hpc : s.inc t with
  | load i => exact ⟨i, rfl, by simpa [step, hpc] using h.symm⟩
  | _ => simp [step, hpc] at h

theorem store_eq {s s' : St} {t : Thread} (h : step s (.store t) = some s') :
    ∃ i loaded, s.inc t = .store i loaded ∧
      s' = { s with inc := update s.inc t (.unlock i), counter := loaded + 1 } := by
  cases hpc : s.inc t with
  | store i loaded => exact ⟨i, loaded, rfl, by simpa [step, hpc] using h.symm⟩
  | _ => simp [step, hpc] at h

theorem unlock_eq {s s' : St} {t : Thread} (h : step s (.unlock t) = some s') :
    ∃ i, s.inc t = .unlock i ∧ s' = { s with inc := update s.inc t (afterUnlock i), mutex := none } := by
  cases hpc : s.inc t with
  | unlock i => exact ⟨i, rfl, by simpa [step, hpc] using h.symm⟩
  | _ => simp [step, hpc] at h

theorem afterUnlock_done {i : Nat} (h : i < increments) : (afterUnlock i).done = i + 1 := by
  unfold afterUnlock
  split
  · rfl
  · simp only [Pc.done]
    omega

theorem afterUnlock_pc (i : Nat) :
    (afterUnlock i).running = true ∧ (afterUnlock i).holds = false ∧ afterUnlock i ≠ .notCreated ∧
      ∀ j loaded, afterUnlock i ≠ .store j loaded := by
  unfold afterUnlock
  split <;> simp_all [Pc.running, Pc.holds]

/-- A thread that is in its loop. -/
theorem inLoop {s : St} (hi : CounterInv s) {t : Thread} {pc : Pc} {i : Nat} (hpc : s.inc t = pc)
    (h : pc = .lock i ∨ pc = .load i ∨ (∃ loaded, pc = .store i loaded) ∨ pc = .unlock i) : i < increments := by
  have hrun := hi.running t
  rw [hpc] at hrun
  rcases h with rfl | rfl | ⟨loaded, rfl⟩ | rfl <;> simpa [Pc.running] using hrun

theorem inc_inv {s s' : St} {t : Thread} {e : Ev} (hi : CounterInv s)
    (he : e = .lock t ∨ e = .load t ∨ e = .store t ∨ e = .unlock t) (h : step s e = some s') : CounterInv s' := by
  rcases he with rfl | rfl | rfl | rfl
  · obtain ⟨i, hpc, hfree, rfl⟩ := lock_eq h
    have hrun := inLoop hi hpc (.inl rfl)
    refine hi.moves (by simp [hpc]) (by simpa [Pc.running] using hrun) (fun u hu => ?_) (by simp [Pc.holds])
      (by simp [hpc, Pc.done]) (.inl rfl) nofun
    simp [hfree, Ne.symm hu]
  · obtain ⟨i, hpc, rfl⟩ := load_eq h
    have hrun := inLoop hi hpc (.inr (.inl rfl))
    have hheld := (hi.mutex t).mp (by rw [hpc]; rfl)
    exact hi.moves (by simp [hpc]) (by simpa [Pc.running] using hrun) (fun _ _ => Iff.rfl)
      (by simp [Pc.holds, hheld]) (by simp [hpc, Pc.done]) (.inl rfl)
      fun j l hl => by cases hl; rfl
  · obtain ⟨i, loaded, hpc, rfl⟩ := store_eq h
    have hrun := inLoop hi hpc (.inr (.inr (.inl ⟨loaded, rfl⟩)))
    have hheld := (hi.mutex t).mp (by rw [hpc]; rfl)
    have hsame := hi.loaded t i loaded hpc
    refine hi.moves (by simp [hpc]) (by simpa [Pc.running] using hrun) (fun _ _ => Iff.rfl)
      (by simp [Pc.holds, hheld]) ?_ (.inr hheld) nofun
    simp only [hpc, Pc.done]
    omega
  · obtain ⟨i, hpc, rfl⟩ := unlock_eq h
    have hrun := inLoop hi hpc (.inr (.inr (.inr rfl)))
    have hheld := (hi.mutex t).mp (by rw [hpc]; rfl)
    obtain ⟨hrun', hholds, hnot, hstore⟩ := afterUnlock_pc i
    refine hi.moves (by simp [hpc, hnot]) hrun' (fun u hu => ?_) (by simp [hholds])
      (by rw [hpc, afterUnlock_done hrun]; rfl) (.inl rfl) fun j l hl => absurd hl (hstore j l)
    simp [hheld, Ne.symm hu]

theorem CounterInv.notCreated_of {s : St} (hi : CounterInv s) {t : Thread} (hmain : s.main = .pthreadCreate t) :
    s.inc t = .notCreated := by
  by_contra hpc
  have hcreated := (hi.created t).mpr hpc
  rw [hmain] at hcreated
  cases t <;> cases hcreated

theorem create_inv {s s' : St} {t : Thread} (hi : CounterInv s) (h : step s (.pthreadCreate t) = some s') :
    CounterInv s' := by
  obtain ⟨hmain, rfl⟩ := guarded_eq_some.mp h
  have hpc := hi.notCreated_of hmain
  refine
    { mutex := fun u => ?_
      counter := ?_
      loaded := fun u i l hl => ?_
      running := fun u => ?_
      created := fun u => ?_
      joined := fun u hu => by cases t <;> cases hu
      printed := ?_ }
  · by_cases hu : u = t
    · subst hu
      simpa [hpc, Pc.holds] using hi.mutex u
    · simpa [hu] using hi.mutex u
  · have htotal := total_update s t (.lock 0)
    have := hi.counter
    simp only [hpc, Pc.done, St.total] at htotal this ⊢
    omega
  · by_cases hu : u = t
    · subst hu
      simp at hl
    · exact hi.loaded u i l (by simpa [hu] using hl)
  · by_cases hu : u = t
    · subst hu
      simp [Pc.running, increments]
    · simpa [hu] using hi.running u
  · have hold := hi.created u
    rw [hmain] at hold
    cases t <;> cases u <;> simp_all [afterCreate, MainPc.created]
  · have hold := hi.printed
    cases t <;> simp_all [afterCreate]

theorem join_inv {s s' : St} {t : Thread} (hi : CounterInv s) (h : step s (.pthreadJoin t) = some s') :
    CounterInv s' := by
  obtain ⟨⟨hmain, hret⟩, rfl⟩ := guarded_eq_some.mp h
  refine { hi with created := fun u => ?_, joined := fun u hu => ?_, printed := ?_ }
  · have hold := hi.created u
    rw [hmain] at hold
    cases t <;> simp_all [afterJoin, MainPc.created]
  · have hold := hi.joined u
    rw [hmain] at hold
    cases t <;> cases u <;> simp_all [afterJoin, MainPc.joined]
  · have hold := hi.printed
    cases t <;> simp_all [afterJoin]

theorem printf_inv {s s' : St} {v : Nat} (hi : CounterInv s) (h : step s (.printf v) = some s') : CounterInv s' := by
  obtain ⟨⟨hmain, rfl⟩, rfl⟩ := guarded_eq_some.mp h
  have hret : ∀ u, s.inc u = .returned := fun u => hi.joined u (by rw [hmain]; rfl)
  refine { hi with created := fun u => ?_, joined := fun u _ => hret u, printed := ?_ }
  · simp [MainPc.created, hret u]
  · have hbefore : s.printed = [] := by simpa [hmain] using hi.printed
    have hvalue : s.counter = 2 * increments := by
      rw [hi.counter, St.total, hret, hret]
      exact (Nat.two_mul _).symm
    simp [hbefore, hvalue]

theorem step_inv {s s' : St} {e : Ev} (hi : CounterInv s) (h : step s e = some s') : CounterInv s' := by
  cases e with
  | lock t => exact inc_inv (t := t) hi (.inl rfl) h
  | load t => exact inc_inv (t := t) hi (.inr (.inl rfl)) h
  | store t => exact inc_inv (t := t) hi (.inr (.inr (.inl rfl))) h
  | unlock t => exact inc_inv (t := t) hi (.inr (.inr (.inr rfl))) h
  | pthreadCreate t => exact create_inv hi h
  | pthreadJoin t => exact join_inv hi h
  | printf v => exact printf_inv hi h

theorem reach_inv {s : St} (h : Reach step (fun _ _ => True) launched s) : CounterInv s :=
  h.inv launched_inv fun _ _ _ hi _ hs => step_inv hi hs

/-! ## The program ends -/

/-- The calls that main, or a thread, has still to make. -/
def MainPc.left : MainPc → Nat
  | .pthreadCreate .thread1 => 5
  | .pthreadCreate .thread2 => 4
  | .pthreadJoin .thread1 => 3
  | .pthreadJoin .thread2 => 2
  | .printf => 1
  | .returned => 0

def Pc.left : Pc → Nat
  | .notCreated => 4 * increments
  | .lock i => 4 * (increments - i)
  | .load i => 4 * (increments - i) - 1
  | .store i _ => 4 * (increments - i) - 2
  | .unlock i => 4 * (increments - i) - 3
  | .returned => 0

def St.left (s : St) : Nat := s.main.left + ((s.inc .thread1).left + (s.inc .thread2).left)

theorem left_update (s : St) (t : Thread) (pc : Pc) :
    (update s.inc t pc .thread1).left + (update s.inc t pc .thread2).left + (s.inc t).left =
      (s.inc .thread1).left + (s.inc .thread2).left + pc.left := by
  cases t <;> simp <;> omega

theorem afterUnlock_left {i : Nat} (h : i < increments) : (afterUnlock i).left < (Pc.unlock i).left := by
  unfold afterUnlock
  split <;> simp only [Pc.left] <;> omega

/-- A thread goes on. -/
theorem left_moves {s : St} {t : Thread} {pc : Pc} {mutex : Option Thread} {counter : Nat}
    (h : pc.left < (s.inc t).left) :
    ({ s with inc := update s.inc t pc, mutex := mutex, counter := counter } : St).left < s.left := by
  have := left_update s t pc
  simp only [St.left]
  omega

theorem step_left {s s' : St} {e : Ev} (hi : CounterInv s) (h : step s e = some s') : s'.left < s.left := by
  cases e with
  | lock t =>
    obtain ⟨i, hpc, -, rfl⟩ := lock_eq h
    have := inLoop hi hpc (.inl rfl)
    exact left_moves (by rw [hpc]; simp only [Pc.left]; omega)
  | load t =>
    obtain ⟨i, hpc, rfl⟩ := load_eq h
    have := inLoop hi hpc (.inr (.inl rfl))
    exact left_moves (by rw [hpc]; simp only [Pc.left]; omega)
  | store t =>
    obtain ⟨i, loaded, hpc, rfl⟩ := store_eq h
    have := inLoop hi hpc (.inr (.inr (.inl ⟨loaded, rfl⟩)))
    exact left_moves (by rw [hpc]; simp only [Pc.left]; omega)
  | unlock t =>
    obtain ⟨i, hpc, rfl⟩ := unlock_eq h
    exact left_moves (by rw [hpc]; exact afterUnlock_left (inLoop hi hpc (.inr (.inr (.inr rfl)))))
  | pthreadCreate t =>
    obtain ⟨hmain, rfl⟩ := guarded_eq_some.mp h
    have hpc : (Pc.lock 0).left ≤ (s.inc t).left := by
      rw [hi.notCreated_of hmain]
      exact Nat.le_refl _
    have := left_update s t (.lock 0)
    cases t <;> simp only [St.left, hmain, afterCreate, MainPc.left] <;> omega
  | pthreadJoin t =>
    obtain ⟨⟨hmain, -⟩, rfl⟩ := guarded_eq_some.mp h
    cases t <;> simp only [St.left, hmain, afterJoin, MainPc.left] <;> omega
  | printf v =>
    obtain ⟨⟨hmain, -⟩, rfl⟩ := guarded_eq_some.mp h
    simp only [St.left, hmain, MainPc.left]
    omega

/-- The thread that holds the mutex waits for nobody. -/
theorem holder_steps {s : St} {t : Thread} (h : (s.inc t).holds = true) : ∃ e s', step s e = some s' := by
  cases hpc : s.inc t with
  | load i => exact ⟨.load t, { s with inc := update s.inc t (.store i s.counter) }, by simp [step, hpc]⟩
  | store i loaded =>
    exact ⟨.store t, { s with inc := update s.inc t (.unlock i), counter := loaded + 1 }, by simp [step, hpc]⟩
  | unlock i => exact ⟨.unlock t, { s with inc := update s.inc t (afterUnlock i), mutex := none }, by simp [step, hpc]⟩
  | _ => rw [hpc] at h; cases h

theorem can_step {s : St} (hi : CounterInv s) (h : s.main ≠ .returned) : ∃ e s', step s e = some s' := by
  cases hmain : s.main with
  | pthreadCreate t => exact ⟨.pthreadCreate t, _, guarded_of hmain⟩
  | printf => exact ⟨.printf s.counter, _, guarded_of ⟨hmain, rfl⟩⟩
  | returned => exact absurd hmain h
  | pthreadJoin t =>
    cases hpc : s.inc t with
    | returned => exact ⟨.pthreadJoin t, _, guarded_of ⟨hmain, hpc⟩⟩
    | notCreated =>
      have hcreated := (hi.created t).mp (by rw [hmain]; cases t <;> rfl)
      exact absurd hpc hcreated
    | lock i =>
      cases hmutex : s.mutex with
      | none =>
        refine ⟨.lock t, { s with inc := update s.inc t (.load i), mutex := some t }, ?_⟩
        simp only [step, hpc]
        exact guarded_of hmutex
      | some u => exact holder_steps ((hi.mutex u).mpr hmutex)
    | load i | store i loaded | unlock i => exact holder_steps (t := t) (by rw [hpc]; rfl)

/-- However the two threads are scheduled the program ends, and prints the number of
    increments. -/
theorem no_increment_is_lost :
    (∀ tr s, Run step (fun _ _ => True) launched tr s → tr.length ≤ 8 * increments + 5) ∧
    (∀ s, Reach step (fun _ _ => True) launched s → Stuck step (fun _ _ => True) s →
      s.main = .returned ∧ s.printed = [2 * increments]) := by
  constructor
  · intro tr s hr
    have hlen := hr.length_le (μ := St.left) fun _ _ _ hs _ h => step_left (reach_inv hs) h
    have hall : launched.left = 8 * increments + 5 := by
      simp only [St.left, launched, MainPc.left, Pc.left]
      omega
    omega
  · intro s hs hstuck
    have hi := reach_inv hs
    have hmain : s.main = .returned := by
      by_contra hmain
      obtain ⟨e, s', h⟩ := can_step hi hmain
      exact hstuck e s' trivial h
    exact ⟨hmain, by simpa [hmain] using hi.printed⟩

end Alambix.Ex05

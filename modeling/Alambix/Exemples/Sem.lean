/-
  Alambix.Exemples.Sem — `exemple_sync/Ex_13_sem`: processes that take turns by a named
  semaphore.

  Every process runs the same main: it opens `/sem_example` with one permit, holds the
  semaphore three times, closes it and unlinks the name. `ι` are the processes that are
  ever launched; `main` has one event per call, and what a process does while it holds the
  semaphore is between its sem_wait and its sem_post.

  A process that has finished takes the name away from those still at work; the next one to
  be launched gets a semaphore of its own.

  - `SemInv`: each object has one permit, and a process that has not unlinked has the object
    the name stands for, unless another process has finished.
  - Two processes in at once means that a third one has finished (`second_needs_third`).

  Proved:
  - `turns_iff_two`: the processes take turns exactly if at most two are ever launched.
  - `sem_never_blocks`: however many there are, none waits for ever.
-/

import Alambix.Lib.Semaphore
import Alambix.Lib.Transition
import Mathlib.Algebra.Order.BigOperators.Group.Finset
import Mathlib.Data.Fintype.BigOperators

namespace Alambix.Ex13

open Lib Lib.Transition
open Function (update)

def semName : String := "/sem_example"

/-! ## The program -/

inductive Pc where
  | semOpen
  /-- In round `i` of the loop. -/
  | semWait (i : Nat)
  | semPost (i : Nat)
  | semClose
  | semUnlink
  | returned
  | exited
  deriving DecidableEq, Repr

structure St (ι : Type) where
  pc : ι → Pc
  /-- The object `sem` points to. -/
  sem : ι → Nat
  fs : SemFs

inductive Ev (ι : Type) where
  | semOpen (p : ι)
  | semOpenFail (p : ι)
  | semWait (p : ι) (i : Nat)
  | semPost (p : ι) (i : Nat)
  | semClose (p : ι)
  | semUnlink (p : ι)

variable {ι : Type}

/-- After the sem_post of round `i`. -/
def afterPost (i : Nat) : Pc := if i + 1 < 3 then .semWait (i + 1) else .semClose

def step [DecidableEq ι] (s : St ι) : Ev ι → Option (St ι)
  | .semOpen p =>
    guarded (s.pc p = .semOpen)
      { pc := update s.pc p (.semWait 0), sem := update s.sem p (s.fs.opened semName)
        fs := s.fs.semOpen semName 1 }
  | .semOpenFail p => guarded (s.pc p = .semOpen) { s with pc := update s.pc p .exited }
  | .semWait p i =>
    guarded (s.pc p = .semWait i ∧ 0 < s.fs.value (s.sem p))
      { s with pc := update s.pc p (.semPost i), fs := s.fs.semWait (s.sem p) }
  | .semPost p i =>
    guarded (s.pc p = .semPost i)
      { s with pc := update s.pc p (afterPost i), fs := s.fs.semPost (s.sem p) }
  | .semClose p => guarded (s.pc p = .semClose) { s with pc := update s.pc p .semUnlink }
  | .semUnlink p =>
    -- an error (the name is gone already) is only reported
    guarded (s.pc p = .semUnlink) { s with pc := update s.pc p .returned, fs := s.fs.semUnlink semName }

/-- Nobody has begun, and nobody has used the name before. -/
def launched : St ι := ⟨fun _ => .semOpen, fun _ => 0, .empty⟩

/-- It holds the semaphore. -/
def Pc.holds : Pc → Bool
  | .semPost _ => true
  | _ => false

/-- The process has the semaphore open, or has closed it and not unlinked its name. -/
def Pc.atWork : Pc → Bool
  | .semWait _ => true
  | .semPost _ => true
  | .semClose => true
  | .semUnlink => true
  | _ => false

def St.Holds (s : St ι) (id : Nat) (p : ι) : Prop := (s.pc p).holds = true ∧ s.sem p = id

theorem Pc.atWork_of_holds {pc : Pc} (h : pc.holds = true) : pc.atWork = true := by
  cases pc <;> first | rfl | cases h

theorem afterPost_holds (i : Nat) : (afterPost i).holds = false := by
  unfold afterPost
  split <;> rfl

/-! ## The invariant -/

structure SemInv (s : St ι) : Prop where
  bound : ∀ p, (s.pc p).atWork = true → s.sem p < s.fs.next
  permit : ∀ id < s.fs.next, OnePermit (s.fs.value id) (s.Holds id)
  named : ∀ p, (s.pc p).atWork = true → s.fs.names semName = some (s.sem p) ∨ ∃ q, q ≠ p ∧ s.pc q = .returned

theorem launched_inv : SemInv (launched : St ι) where
  bound p h := by cases h
  permit id h := by cases h
  named p h := by cases h

variable [DecidableEq ι]

/-- A process moves on, and touches neither the objects nor the name. -/
theorem SemInv.moves {s : St ι} {p : ι} {pc : Pc} (hi : SemInv s) (hwork : pc.atWork = true → (s.pc p).atWork = true)
    (hold : pc.holds = (s.pc p).holds) (hret : s.pc p ≠ .returned) : SemInv { s with pc := update s.pc p pc } where
  bound q h := by
    by_cases hq : q = p
    · subst hq
      exact hi.bound q (hwork (by simpa using h))
    · exact hi.bound q (by simpa [hq] using h)
  permit id hid := by
    refine (hi.permit id hid).congr fun q => ?_
    by_cases hq : q = p
    · subst hq
      simp [St.Holds, hold]
    · simp [St.Holds, hq]
  named q h := by
    have hq' : (s.pc q).atWork = true := by
      by_cases hq : q = p
      · subst hq
        exact hwork (by simpa using h)
      · simpa [hq] using h
    refine (hi.named q hq').imp id ?_
    rintro ⟨r, hr, hret'⟩
    have hrp : r ≠ p := fun hrp => hret (hrp ▸ hret')
    exact ⟨r, hr, by simpa [hrp] using hret'⟩

theorem open_inv {s s' : St ι} {p : ι} (hi : SemInv s) (h : step s (.semOpen p) = some s') : SemInv s' := by
  obtain ⟨hpc, rfl⟩ := guarded_eq_some.mp h
  have hnot : ∀ {q}, (s.pc q).atWork = true ∨ s.pc q = .returned → q ≠ p := by
    rintro q hq rfl
    rw [hpc] at hq
    rcases hq with hq | hq <;> cases hq
  have hholds : ∀ id q, St.Holds ⟨update s.pc p (.semWait 0), update s.sem p (s.fs.opened semName),
      s.fs.semOpen semName 1⟩ id q ↔ s.Holds id q := by
    intro id q
    by_cases hq : q = p
    · subst hq
      simp [St.Holds, hpc, Pc.holds]
    · simp [St.Holds, hq]
  rcases s.fs.semOpen_cases semName 1 with ⟨hname, hfs⟩ | ⟨hname, hopened, hnames, hvalue, hnext⟩
  · -- the object is there
    refine ⟨fun q hq => ?_, fun id hid => ?_, fun q hq => ?_⟩
    · simp only [hfs]
      by_cases hqp : q = p
      · subst hqp
        simpa using s.fs.bound _ _ hname
      · simpa [hqp] using hi.bound q (by simpa [hqp] using hq)
    · simp only [hfs] at hid ⊢
      exact (hi.permit id hid).congr (hholds id)
    · simp only [hfs]
      by_cases hqp : q = p
      · subst hqp
        exact .inl (by simpa using hname)
      · refine (hi.named q (by simpa [hqp] using hq)).imp (by simp [hqp]) ?_
        rintro ⟨r, hr, hret⟩
        exact ⟨r, hr, by simpa [hnot (.inr hret)] using hret⟩
  · -- the name is free: a new object
    refine ⟨fun q hq => ?_, fun id hid => ?_, fun q hq => ?_⟩
    · simp only [hnext]
      by_cases hqp : q = p
      · subst hqp
        simp [hopened]
      · have := hi.bound q (by simpa [hqp] using hq)
        simpa [hqp] using Nat.lt_succ_of_lt this
    · simp only [hnext, hvalue] at hid ⊢
      by_cases hnew : id = s.fs.next
      · subst hnew
        refine .inl ⟨by simp, fun q hq => ?_⟩
        obtain ⟨hq, hsem⟩ := (hholds _ q).mp hq
        have := hi.bound q (Pc.atWork_of_holds hq)
        omega
      · rw [Function.update_of_ne hnew]
        exact (hi.permit id (by omega)).congr (hholds id)
    · simp only [hnames, hopened]
      by_cases hqp : q = p
      · subst hqp
        exact .inl (by simp)
      · obtain ⟨r, hr, hret⟩ := (hi.named q (by simpa [hqp] using hq)).resolve_left (by simp [hname])
        exact .inr ⟨r, hr, by simpa [hnot (.inr hret)] using hret⟩

/-- A process at work takes or gives back its permit. -/
theorem SemInv.turns {s : St ι} {p : ι} {pc : Pc} {fs : SemFs} (hi : SemInv s) (hp : (s.pc p).atWork = true)
    (hnames : fs.names = s.fs.names) (hnext : fs.next = s.fs.next)
    (hvalue : ∀ id ≠ s.sem p, fs.value id = s.fs.value id)
    (hpermit : OnePermit (fs.value (s.sem p))
      fun q => (if q = p then pc.holds = true else (s.pc q).holds = true) ∧ s.sem q = s.sem p) :
    SemInv { s with pc := update s.pc p pc, fs := fs } where
  bound q h := by
    simp only [hnext]
    by_cases hq : q = p
    · subst hq
      exact hi.bound q hp
    · exact hi.bound q (by simpa [hq] using h)
  permit id hid := by
    simp only [hnext] at hid
    by_cases hown : id = s.sem p
    · subst hown
      refine hpermit.congr fun q => ?_
      by_cases hq : q = p <;> simp [St.Holds, hq]
    · simp only [hvalue id hown]
      refine (hi.permit id hid).congr fun q => ?_
      by_cases hq : q = p
      · subst hq
        simp [St.Holds, Ne.symm hown]
      · simp [St.Holds, hq]
  named q h := by
    simp only [hnames]
    have hq' : (s.pc q).atWork = true := by
      by_cases hq : q = p
      · subst hq
        exact hp
      · simpa [hq] using h
    refine (hi.named q hq').imp id ?_
    rintro ⟨r, hr, hret⟩
    have hrp : r ≠ p := by
      rintro rfl
      rw [hret] at hp; cases hp
    exact ⟨r, hr, by simpa [hrp] using hret⟩

theorem wait_inv {s s' : St ι} {p : ι} {i : Nat} (hi : SemInv s) (h : step s (.semWait p i) = some s') :
    SemInv s' := by
  obtain ⟨⟨hpc, hpos⟩, rfl⟩ := guarded_eq_some.mp h
  have hwork : (s.pc p).atWork = true := by rw [hpc]; rfl
  refine hi.turns hwork rfl rfl (fun id hid => by simp [SemFs.semWait, hid]) ?_
  have hpermit := (hi.permit _ (hi.bound p hwork)).wait hpos (p := p) fun q => Iff.rfl
  simp only [SemFs.semWait, Function.update_self]
  refine hpermit.congr fun q => ?_
  by_cases hq : q = p
  · simp [hq, Pc.holds]
  · simp [hq, St.Holds]

theorem post_inv {s s' : St ι} {p : ι} {i : Nat} (hi : SemInv s) (h : step s (.semPost p i) = some s') :
    SemInv s' := by
  obtain ⟨hpc, rfl⟩ := guarded_eq_some.mp h
  have hwork : (s.pc p).atWork = true := by rw [hpc]; rfl
  have hholds : s.Holds (s.sem p) p := ⟨by rw [hpc]; rfl, rfl⟩
  have hgives := afterPost_holds i
  refine hi.turns hwork rfl rfl (fun id hid => by simp [SemFs.semPost, hid]) ?_
  have hpermit := (hi.permit _ (hi.bound p hwork)).post hholds fun q => Iff.rfl
  simp only [SemFs.semPost, Function.update_self]
  refine hpermit.congr fun q => ?_
  by_cases hq : q = p
  · simp [hq, hgives]
  · simp [hq, St.Holds]

theorem unlink_inv {s s' : St ι} {p : ι} (hi : SemInv s) (h : step s (.semUnlink p) = some s') : SemInv s' := by
  obtain ⟨hpc, rfl⟩ := guarded_eq_some.mp h
  have hother : ∀ {q}, (update s.pc p .returned q).atWork = true → q ≠ p := by
    rintro q hq rfl
    simp [Pc.atWork] at hq
  refine ⟨fun q hq => ?_, fun id hid => ?_, fun q hq => ?_⟩
  · exact hi.bound q (by simpa [hother hq] using hq)
  · refine (hi.permit id hid).congr fun q => ?_
    by_cases hq : q = p
    · subst hq
      simp [St.Holds, hpc, Pc.holds]
    · simp [St.Holds, hq]
  · exact .inr ⟨p, (hother hq).symm, by simp⟩

theorem step_inv {s s' : St ι} {e : Ev ι} (hi : SemInv s) (h : step s e = some s') : SemInv s' := by
  cases e with
  | semOpen p => exact open_inv hi h
  | semWait p i => exact wait_inv hi h
  | semPost p i => exact post_inv hi h
  | semUnlink p => exact unlink_inv hi h
  | semOpenFail p =>
    obtain ⟨hpc, rfl⟩ := guarded_eq_some.mp h
    exact hi.moves (by intro hw; cases hw) (by rw [hpc]; rfl) (by rw [hpc]; nofun)
  | semClose p =>
    obtain ⟨hpc, rfl⟩ := guarded_eq_some.mp h
    exact hi.moves (fun _ => by rw [hpc]; rfl) (by rw [hpc]; rfl) (by rw [hpc]; nofun)

theorem reach_inv {s : St ι} (h : Reach step (fun _ _ => True) launched s) : SemInv s :=
  h.inv launched_inv fun _ _ _ hi _ hs => step_inv hi hs

/-! ## Taking turns -/

/-- Never two processes hold the semaphore. -/
def TakeTurns (s : St ι) : Prop := ∀ p q, (s.pc p).holds = true → (s.pc q).holds = true → p = q

omit [DecidableEq ι] in
/-- Two processes in at once: a third one has finished. -/
theorem second_needs_third {s : St ι} (hi : SemInv s) {p q : ι} (hp : (s.pc p).holds = true)
    (hq : (s.pc q).holds = true) (hne : p ≠ q) : ∃ r, s.pc r = .returned ∧ r ≠ p ∧ r ≠ q := by
  have hpw := Pc.atWork_of_holds hp
  have hqw := Pc.atWork_of_holds hq
  have hthird : ∀ {x}, s.pc x = .returned → x ≠ p ∧ x ≠ q := by
    intro x hx
    constructor <;> rintro rfl
    · rw [hx] at hp; cases hp
    · rw [hx] at hq; cases hq
  rcases hi.named p hpw with hnp | ⟨r, -, hr⟩
  · rcases hi.named q hqw with hnq | ⟨r, -, hr⟩
    · -- the same object, and it has one permit
      have hsem : s.sem q = s.sem p := Option.some.inj (hnq.symm.trans hnp)
      exact absurd ((hi.permit _ (hi.bound p hpw)).unique ⟨hp, rfl⟩ ⟨hq, hsem⟩) hne
    · exact ⟨r, hr, hthird hr⟩
  · exact ⟨r, hr, hthird hr⟩

/-! A process that nobody disturbs runs to its end. -/

theorem turn {s : St ι} {p : ι} {i : Nat} (hpc : s.pc p = .semWait i) (hpos : 0 < s.fs.value (s.sem p)) :
    Reach step (fun _ _ => True) s { s with pc := update s.pc p (afterPost i) } := by
  have hwait : step s (.semWait p i) = _ := guarded_of ⟨hpc, hpos⟩
  have hpost : step { s with pc := update s.pc p (.semPost i), fs := s.fs.semWait (s.sem p) } (.semPost p i) = _ :=
    guarded_of (Function.update_self ..)
  simp only [SemFs.semPost_semWait hpos, Function.update_idem] at hpost
  exact (Reach.refl.step trivial hwait).step trivial hpost

theorem runs_alone {s : St ι} {p : ι} (hpc : s.pc p = .semWait 0) (hpos : 0 < s.fs.value (s.sem p)) :
    Reach step (fun _ _ => True) s { s with pc := update s.pc p .returned, fs := s.fs.semUnlink semName } := by
  have h0 := turn hpc hpos
  have h1 := turn (s := { s with pc := update s.pc p (.semWait 1) }) (Function.update_self ..) hpos
  have h2 := turn (s := { s with pc := update s.pc p (.semWait 2) }) (Function.update_self ..) hpos
  have hclose : step { s with pc := update s.pc p .semClose } (.semClose p) = _ := guarded_of (Function.update_self ..)
  have hunlink : step { s with pc := update s.pc p .semUnlink } (.semUnlink p) = _ :=
    guarded_of (Function.update_self ..)
  simp only [Function.update_idem] at h1 h2 hclose hunlink
  exact (((h0.trans h1).trans h2).step trivial hclose).step trivial hunlink

/-- `p` and `q` share the semaphore; `p` finishes, and `r` makes its own. -/
theorem newcomer_collides {s : St ι} {p q r : ι} (hpq : p ≠ q) (hqr : q ≠ r) (hpr : p ≠ r)
    (hp : s.pc p = .semWait 0) (hq : s.pc q = .semWait 0) (hr : s.pc r = .semOpen) (hsem : s.sem q = s.sem p)
    (hpos : 0 < s.fs.value (s.sem p)) (hbound : s.sem p < s.fs.next) :
    ∃ s', Reach step (fun _ _ => True) s s' ∧ (s'.pc q).holds = true ∧ (s'.pc r).holds = true := by
  let gone : St ι := { s with pc := update s.pc p .returned, fs := s.fs.semUnlink semName }
  have hname : gone.fs.names semName = none := by simp [gone, SemFs.semUnlink]
  obtain ⟨hopened, -, hvalue, -⟩ := SemFs.semOpen_unbound hname 1
  have hnew : gone.sem q ≠ gone.fs.next := by
    have : s.sem q < s.fs.next := hsem ▸ hbound
    exact Nat.ne_of_lt this
  have hopen : step gone (.semOpen r) = _ := guarded_of (by simpa [gone, hpr.symm] using hr)
  let apart : St ι :=
    { pc := update gone.pc r (.semWait 0), sem := update gone.sem r (gone.fs.opened semName)
      fs := gone.fs.semOpen semName 1 }
  have hsemq : apart.sem q = s.sem p := by simp [apart, gone, hqr, hsem]
  have hsemr : apart.sem r = gone.fs.next := by simp [apart, hopened]
  have hvq : apart.fs.value (apart.sem q) = s.fs.value (s.sem p) := by
    simp only [apart, hvalue] at hsemq ⊢
    rw [hsemq, Function.update_of_ne (hsem ▸ hnew)]
    rfl
  have hwaitq : step apart (.semWait q 0) = _ :=
    guarded_of ⟨by simp [apart, gone, hqr, hpq.symm, hq], by rw [hvq]; exact hpos⟩
  have hvr : (apart.fs.semWait (apart.sem q)).value (apart.sem r) = 1 := by
    have hne : apart.sem r ≠ apart.sem q := by rw [hsemr, hsemq]; exact (hsem ▸ hnew).symm
    simp only [SemFs.semWait, Function.update_of_ne hne]
    simp only [apart, hvalue]
    simp [hopened]
  have hwaitr : step { apart with pc := update apart.pc q (.semPost 0), fs := apart.fs.semWait (apart.sem q) }
      (.semWait r 0) = _ :=
    guarded_of ⟨by simp [apart, hqr.symm], by simp only [hvr]; decide⟩
  refine ⟨_, (((runs_alone hp hpos).step trivial hopen).step trivial hwaitq).step trivial hwaitr, ?_, ?_⟩
  · simp [hqr, Pc.holds]
  · simp [Pc.holds]

theorem three_collide {p q r : ι} (hpq : p ≠ q) (hqr : q ≠ r) (hpr : p ≠ r) :
    ∃ s : St ι, Reach step (fun _ _ => True) launched s ∧ (s.pc q).holds = true ∧ (s.pc r).holds = true := by
  obtain ⟨hopened, hname, hvalue, hnext⟩ := SemFs.semOpen_unbound (show SemFs.empty.names semName = none from rfl) 1
  obtain ⟨hsame, hfs⟩ := SemFs.semOpen_bound hname 1
  let one : St ι :=
    { pc := update launched.pc p (.semWait 0), sem := update launched.sem p (SemFs.empty.opened semName)
      fs := SemFs.empty.semOpen semName 1 }
  let both : St ι :=
    { pc := update one.pc q (.semWait 0), sem := update one.sem q (one.fs.opened semName)
      fs := one.fs.semOpen semName 1 }
  have hopenp : step launched (.semOpen p) = some one := guarded_of rfl
  have hopenq : step one (.semOpen q) = some both := guarded_of (by simp [one, launched, hpq.symm])
  have hsemp : both.sem p = SemFs.empty.next := by simpa [both, one, hpq] using hopened
  have hsemq : both.sem q = SemFs.empty.next := by simp [both, one, hsame]
  have hfs' : both.fs = SemFs.empty.semOpen semName 1 := hfs
  obtain ⟨s, hs, hq, hr⟩ := newcomer_collides (s := both) hpq hqr hpr (by simp [both, one, hpq]) (by simp [both])
    (by simp [both, one, launched, hqr.symm, hpr.symm]) (by rw [hsemp, hsemq])
    (by rw [hsemp, hfs', hvalue]; simp) (by rw [hsemp, hfs', hnext]; simp)
  exact ⟨s, ((Reach.refl.step trivial hopenp).step trivial hopenq).trans hs, hq, hr⟩

/-- However the processes are scheduled and launched, they take turns; but only if no more
    than two of them are ever launched. -/
theorem turns_iff_two :
    (∀ s : St ι, Reach step (fun _ _ => True) launched s → TakeTurns s) ↔
      ¬ ∃ p q r : ι, p ≠ q ∧ q ≠ r ∧ p ≠ r := by
  constructor
  · rintro hturns ⟨p, q, r, hpq, hqr, hpr⟩
    obtain ⟨s, hs, hq, hr⟩ := three_collide hpq hqr hpr
    exact hqr (hturns s hs q r hq hr)
  · intro htwo s hs p q hp hq
    by_contra hne
    obtain ⟨r, -, hrp, hrq⟩ := second_needs_third (reach_inv hs) hp hq hne
    exact htwo ⟨p, q, r, hne, hrq.symm, hrp.symm⟩

/-! ## Nobody waits for ever -/

def Pc.ended : Pc → Bool
  | .returned => true
  | .exited => true
  | _ => false

/-- At least the calls the process has still to make. -/
def Pc.left : Pc → Nat
  | .semOpen => 11
  | .semWait i => 2 * (3 - i) + 4
  | .semPost i => 2 * (3 - i) + 3
  | .semClose => 2
  | .semUnlink => 1
  | .returned => 0
  | .exited => 0

theorem afterPost_left (i : Nat) : (afterPost i).left < (Pc.semPost i).left := by
  unfold afterPost
  split <;> simp only [Pc.left] <;> omega

/-- Each event is one process going on. -/
theorem step_moves {s s' : St ι} {e : Ev ι} (h : step s e = some s') :
    ∃ p pc, s'.pc = update s.pc p pc ∧ pc.left < (s.pc p).left := by
  cases e with
  | semWait p i =>
    obtain ⟨⟨hpc, -⟩, rfl⟩ := guarded_eq_some.mp h
    exact ⟨p, _, rfl, by rw [hpc]; simp [Pc.left]⟩
  | semPost p i =>
    obtain ⟨hpc, rfl⟩ := guarded_eq_some.mp h
    exact ⟨p, _, rfl, by rw [hpc]; exact afterPost_left i⟩
  | semOpen p | semOpenFail p | semClose p | semUnlink p =>
    obtain ⟨hpc, rfl⟩ := guarded_eq_some.mp h
    exact ⟨p, _, rfl, by rw [hpc]; decide⟩

/-- A process that waits waits for one that holds the semaphore, and that one waits for nobody. -/
theorem can_step {s : St ι} (hi : SemInv s) {p : ι} (hp : (s.pc p).ended = false) : ∃ e s', step s e = some s' := by
  cases hpc : s.pc p with
  | semOpen => exact ⟨.semOpen p, _, guarded_of hpc⟩
  | semWait i =>
    by_cases h0 : s.fs.value (s.sem p) = 0
    · obtain ⟨q, hq, -⟩ := (hi.permit _ (hi.bound p (by rw [hpc]; rfl))).held h0
      cases hqc : s.pc q with
      | semPost j => exact ⟨.semPost q j, _, guarded_of hqc⟩
      | _ => rw [hqc] at hq; cases hq
    · exact ⟨.semWait p i, _, guarded_of ⟨hpc, Nat.pos_of_ne_zero h0⟩⟩
  | semPost i => exact ⟨.semPost p i, _, guarded_of hpc⟩
  | semClose => exact ⟨.semClose p, _, guarded_of hpc⟩
  | semUnlink => exact ⟨.semUnlink p, _, guarded_of hpc⟩
  | returned | exited => rw [hpc] at hp; cases hp

def St.left [Fintype ι] (s : St ι) : Nat := ∑ p, (s.pc p).left

theorem step_left [Fintype ι] {s s' : St ι} {e : Ev ι} (h : step s e = some s') : s'.left < s.left := by
  obtain ⟨p, pc, hs', hless⟩ := step_moves h
  unfold St.left
  rw [hs']
  refine Finset.sum_lt_sum (fun q _ => ?_) ⟨p, Finset.mem_univ p, by simpa using hless⟩
  by_cases hq : q = p
  · subst hq
    simpa using hless.le
  · simp [hq]

/-- Whatever is shared and whatever fails: a run is over after at most eleven calls of each
    process, and it goes on until all of them have ended. -/
theorem sem_never_blocks [Fintype ι] :
    (∀ tr (s : St ι), Run step (fun _ _ => True) launched tr s → tr.length ≤ 11 * Fintype.card ι) ∧
    (∀ s : St ι, Reach step (fun _ _ => True) launched s → Stuck step (fun _ _ => True) s →
      ∀ p, (s.pc p).ended = true) := by
  constructor
  · intro tr s hr
    have hlen := hr.length_le (μ := St.left) fun _ _ _ _ _ h => step_left h
    have hall : (launched : St ι).left = 11 * Fintype.card ι := by
      simp [St.left, launched, Pc.left, Nat.mul_comm]
    omega
  · intro s hs hstuck p
    by_contra hp
    obtain ⟨e, s', h⟩ := can_step (reach_inv hs) (by simpa using hp)
    exact hstuck e s' trivial h

end Alambix.Ex13

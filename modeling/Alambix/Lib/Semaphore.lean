/-
  Alambix.Lib.Semaphore — POSIX named semaphores.

  `SemFs` is the name space: names bound to semaphore objects, and the value of every
  object ever created. `semOpen` (with O_CREAT) binds an unbound name to a fresh object with
  the initial value given and opens a bound one as it is. `semUnlink` unbinds the name; the
  object stays, with the processes that have it open.

  `OnePermit`: a semaphore with one permit, which is free or held by exactly one party.
  Waiting takes it and posting gives it back.
-/

import Mathlib.Logic.Function.Basic

namespace Alambix.Lib

structure SemFs where
  names : String → Option Nat
  value : Nat → Nat
  /-- The identity of the next object created. -/
  next : Nat
  bound : ∀ n id, names n = some id → id < next

namespace SemFs

theorem empty_bound : ∀ (_ : String) (id : Nat), (none : Option Nat) = some id → id < 0 := by
  intro _ id h
  cases h

/-- A system on which nothing is named. -/
def empty : SemFs := ⟨fun _ => none, fun _ => 0, 0, empty_bound⟩

variable (fs : SemFs)

/-- The object sem_open returns. -/
def opened (name : String) : Nat := (fs.names name).getD fs.next

def semOpen (name : String) (value : Nat) : SemFs :=
  match h : fs.names name with
  | some _ => fs
  | none =>
    { names := Function.update fs.names name (some fs.next)
      value := Function.update fs.value fs.next value
      next := fs.next + 1
      bound := by
        intro n id hn
        by_cases e : n = name
        · subst e
          simp at hn
          omega
        · rw [Function.update_of_ne e] at hn
          have := fs.bound n id hn
          omega }

/-- A wait that returns. -/
def semWait (id : Nat) : SemFs := { fs with value := Function.update fs.value id (fs.value id - 1) }

def semPost (id : Nat) : SemFs := { fs with value := Function.update fs.value id (fs.value id + 1) }

def semUnlink (name : String) : SemFs :=
  { fs with
    names := Function.update fs.names name none
    bound := by
      intro n id hn
      by_cases e : n = name
      · subst e
        simp at hn
      · rw [Function.update_of_ne e] at hn
        exact fs.bound n id hn }

variable {fs}


variable (fs) in
/-- An open binds the name to the object it returns. -/
theorem semOpen_cases (name : String) (value : Nat) :
    (fs.names name = some (fs.opened name) ∧ fs.semOpen name value = fs) ∨
    (fs.names name = none ∧ fs.opened name = fs.next ∧
      (fs.semOpen name value).names = Function.update fs.names name (some fs.next) ∧
      (fs.semOpen name value).value = Function.update fs.value fs.next value ∧
      (fs.semOpen name value).next = fs.next + 1) := by
  unfold semOpen opened
  split
  · rename_i id h
    exact .inl ⟨by rw [h]; rfl, rfl⟩
  · rename_i h
    exact .inr ⟨h, by rw [h]; rfl, rfl, rfl, rfl⟩

theorem semOpen_bound {name : String} {id : Nat} (h : fs.names name = some id) (value : Nat) :
    fs.opened name = id ∧ fs.semOpen name value = fs := by
  rcases fs.semOpen_cases name value with ⟨hname, hfs⟩ | ⟨hname, -⟩
  · exact ⟨Option.some.inj (hname.symm.trans h), hfs⟩
  · rw [hname] at h; cases h

theorem semOpen_unbound {name : String} (h : fs.names name = none) (value : Nat) :
    fs.opened name = fs.next ∧
      (fs.semOpen name value).names name = some fs.next ∧
      (fs.semOpen name value).value = Function.update fs.value fs.next value ∧
      (fs.semOpen name value).next = fs.next + 1 := by
  rcases fs.semOpen_cases name value with ⟨hname, -⟩ | ⟨-, hopened, hnames, hvalue, hnext⟩
  · rw [h] at hname; cases hname
  · exact ⟨hopened, by rw [hnames]; simp, hvalue, hnext⟩

theorem semPost_semWait {id : Nat} (h : 0 < fs.value id) : (fs.semWait id).semPost id = fs := by
  have hvalue : fs.value id - 1 + 1 = fs.value id := by omega
  simp [semWait, semPost, hvalue]

end SemFs

/-! ## One permit -/

variable {ι : Type}

/-- The permit is free, or one party has it. -/
def OnePermit (value : Nat) (has : ι → Prop) : Prop :=
  (value = 1 ∧ ∀ p, ¬ has p) ∨ (value = 0 ∧ ∃ p, ∀ q, has q ↔ q = p)

namespace OnePermit

variable {value : Nat} {has has' : ι → Prop}

theorem unique (h : OnePermit value has) {p q : ι} (hp : has p) (hq : has q) : p = q := by
  obtain ⟨-, hno⟩ | ⟨-, r, hr⟩ := h
  · exact absurd hp (hno p)
  · rw [(hr p).mp hp, (hr q).mp hq]

theorem congr (h : OnePermit value has) (hsame : ∀ q, has' q ↔ has q) : OnePermit value has' := by
  rwa [show has' = has from funext fun q => propext (hsame q)]

/-- Where the permit is not free somebody has it. -/
theorem held (h : OnePermit value has) (h0 : value = 0) : ∃ p, has p := by
  obtain ⟨h1, -⟩ | ⟨-, p, hp⟩ := h
  · omega
  · exact ⟨p, (hp p).mpr rfl⟩

theorem wait (h : OnePermit value has) (hpos : 0 < value) {p : ι} (hsame : ∀ q, has' q ↔ q = p ∨ has q) :
    OnePermit (value - 1) has' := by
  obtain ⟨h1, hno⟩ | ⟨h0, -⟩ := h
  · exact .inr ⟨by omega, p, fun q => by rw [hsame, or_iff_left (hno q)]⟩
  · omega

theorem post (h : OnePermit value has) {p : ι} (hp : has p) (hsame : ∀ q, has' q ↔ q ≠ p ∧ has q) :
    OnePermit (value + 1) has' := by
  refine .inl ⟨?_, fun q hq => ?_⟩
  · obtain ⟨-, hno⟩ | ⟨h0, -⟩ := h
    · exact absurd hp (hno p)
    · omega
  · obtain ⟨hne, hq⟩ := (hsame q).mp hq
    exact hne (h.unique hq hp)

end OnePermit

end Alambix.Lib

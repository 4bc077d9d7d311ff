/-
  Alambix.Exemples.Watchdog — `exemple_watchdog/watchdog.c`: a callback called when nobody has
  cancelled or renewed it for its delay.

  A watchdog is a block of memory with its timer, its delay in seconds and its callback; the
  address of the block is the timer's sival_ptr. watchdog_start arms the timer once,
  watchdog_cancel disarms it, watchdog_destroy deletes it and frees the block. When the timer
  expires the library starts a thread in which watchdog_function reads the callback at that
  address: the thread may come to it at any later time, and malloc may have given the
  address to another watchdog by then.

  The application makes these calls in any order, from any threads, with pointers that it got
  and has not destroyed. `timer` tells the watchdogs of a run apart.

  - `Inv`: a timer that exists has its watchdog at its sival_ptr, and is armed for the delay
    after the last watchdog_start.
  - `raised`: the threads started for a watchdog, whether they have called it or not.

  Proved, for any number of watchdogs:
  - `finds_its_watchdog_iff`: exactly when every thread finds its own watchdog.
  - `starts_accounted`: what has become of each watchdog_start.
  - `fed_in_time`: no call for a watchdog that is cancelled or renewed within its delay.
-/

import Alambix.Lib.Timer
import Alambix.Lib.Transition

namespace Alambix.ExWatchdog

open Lib Lib.Transition
open Function (update)

abbrev Addr := Nat

def nsPerSec : Nat := 1000000000

/-- `struct watchdog_t`. -/
structure Watchdog (Callback : Type) where
  timer : Nat
  delay : UInt32
  callback : Callback

structure PosixTimer where
  setting : Timer
  sivalPtr : Addr

/-- A thread that the expiry of a timer starts: what it is given, and when it happened. -/
structure Notification where
  timer : Nat
  sivalPtr : Addr
  startedAt : Nat
  expiredAt : Nat
  deriving DecidableEq, Repr

structure St (Callback : Type) where
  now : Nat
  exited : Bool
  /-- The blocks that malloc has given and free has not taken back. -/
  heap : Addr → Option (Watchdog Callback)
  timers : Nat → Option PosixTimer
  /-- The next timer. -/
  next : Nat
  /-- The threads that have not read their watchdog. -/
  notified : List Notification
  /-- What watchdog_function found at its address, `none` where that had been freed. -/
  calls : List (Notification × Option (Watchdog Callback))
  /-- Each watchdog as it was created. -/
  made : Nat → Option (Watchdog Callback)
  /-- How often, and when last, it was started. -/
  starts : Nat → Nat
  startedAt : Nat → Nat
  /-- The starts that were renewed, cancelled or deleted before the timer expired, or had a
      delay of zero. -/
  dropped : Nat → Nat

inductive Ev (Callback : Type) where
  | watchdogCreate (this : Addr) (delay : UInt32) (callback : Callback)
  | watchdogStart (this : Addr)
  | watchdogCancel (this : Addr)
  /-- The two calls of watchdog_destroy. -/
  | timerDelete (this : Addr)
  | free (this : Addr)
  /-- malloc, timer_create or timer_settime fails. -/
  | exitFailure
  | elapse (ns : Nat)
  | expire (t : Nat)
  | watchdogFunction (n : Notification)

variable {Callback : Type}

/-- Before the first call. -/
def launched : St Callback where
  now := 0
  exited := false
  heap := fun _ => none
  timers := fun _ => none
  next := 0
  notified := []
  calls := []
  made := fun _ => none
  starts := fun _ => 0
  startedAt := fun _ => 0
  dropped := fun _ => 0

/-- The watchdog at this address, and its timer. -/
def St.live (s : St Callback) (this : Addr) : Option (Watchdog Callback × PosixTimer) :=
  (s.heap this).bind fun w => (s.timers w.timer).map fun k => (w, k)

/-! ## The calls -/

def watchdogCreate (s : St Callback) (this : Addr) (delay : UInt32) (callback : Callback) : Option (St Callback) :=
  guarded ((s.heap this).isNone = true)
    { s with heap := update s.heap this (some ⟨s.next, delay, callback⟩)
             timers := update s.timers s.next (some ⟨.created, this⟩)
             made := update s.made s.next (some ⟨s.next, delay, callback⟩)
             next := s.next + 1 }

def watchdogStart (s : St Callback) (this : Addr) : Option (St Callback) :=
  (s.live this).map fun (w, k) =>
    { s with timers := update s.timers w.timer (some ⟨.settime s.now ⟨0, nsPerSec * w.delay.toNat⟩, k.sivalPtr⟩)
             starts := update s.starts w.timer (s.starts w.timer + 1)
             startedAt := update s.startedAt w.timer s.now
             dropped := update s.dropped w.timer
               (s.dropped w.timer + k.setting.armed.toNat + if w.delay.toNat = 0 then 1 else 0) }

def watchdogCancel (s : St Callback) (this : Addr) : Option (St Callback) :=
  (s.live this).map fun (w, k) =>
    { s with timers := update s.timers w.timer (some ⟨.settime s.now ⟨0, 0⟩, k.sivalPtr⟩)
             dropped := update s.dropped w.timer (s.dropped w.timer + k.setting.armed.toNat) }

def timerDelete (s : St Callback) (this : Addr) : Option (St Callback) :=
  (s.live this).map fun (w, k) =>
    { s with timers := update s.timers w.timer none
             dropped := update s.dropped w.timer (s.dropped w.timer + k.setting.armed.toNat) }

/-- The second call of watchdog_destroy. -/
def free (s : St Callback) (this : Addr) : Option (St Callback) :=
  (s.heap this).bind fun w =>
    guarded ((s.timers w.timer).isNone = true) { s with heap := update s.heap this none }

def expire (s : St Callback) (t : Nat) : Option (St Callback) :=
  (s.timers t).bind fun k =>
    guarded (k.setting.Due s.now)
      { s with timers := update s.timers t (some ⟨k.setting.expire, k.sivalPtr⟩)
               notified := s.notified ++ [⟨t, k.sivalPtr, s.startedAt t, s.now⟩] }

/-- `this->callback(this)`. -/
def watchdogFunction (s : St Callback) (n : Notification) : Option (St Callback) :=
  guarded (n ∈ s.notified)
    { s with notified := s.notified.erase n, calls := s.calls ++ [(n, s.heap n.sivalPtr)] }

def fire (s : St Callback) : Ev Callback → Option (St Callback)
  | .watchdogCreate this delay callback => watchdogCreate s this delay callback
  | .watchdogStart this => watchdogStart s this
  | .watchdogCancel this => watchdogCancel s this
  | .timerDelete this => timerDelete s this
  | .free this => free s this
  | .exitFailure => some { s with exited := true }
  | .elapse ns => some { s with now := s.now + ns }
  | .expire t => expire s t
  | .watchdogFunction n => watchdogFunction s n

def step (s : St Callback) (e : Ev Callback) : Option (St Callback) := if s.exited then none else fire s e

theorem fire_of_step {s s' : St Callback} {e : Ev Callback} (h : step s e = some s') : fire s e = some s' := by
  unfold step at h
  split at h
  · cases h
  · exact h

/-- Where a table holds something after an update. -/
theorem of_update {β : Type} {f : Nat → Option β} {a x : Nat} {o : Option β} {b : β} (h : update f a o x = some b) :
    x = a ∧ o = some b ∨ x ≠ a ∧ f x = some b := by
  by_cases hx : x = a
  · subst hx
    exact .inl ⟨rfl, by simpa using h⟩
  · exact .inr ⟨hx, by simpa [hx] using h⟩

/-! ## What each call does -/

theorem live_eq {s : St Callback} {this : Addr} {w : Watchdog Callback} {k : PosixTimer} :
    s.live this = some (w, k) ↔ s.heap this = some w ∧ s.timers w.timer = some k := by
  simp only [St.live, Option.bind_eq_some_iff, Option.map_eq_some_iff, Prod.mk.injEq]
  constructor
  · rintro ⟨w', hw, k', hk, rfl, rfl⟩
    exact ⟨hw, hk⟩
  · rintro ⟨hw, hk⟩
    exact ⟨w, hw, k, hk, rfl, rfl⟩

theorem start_eq {s s' : St Callback} {this : Addr} (h : watchdogStart s this = some s') :
    ∃ w k, s.heap this = some w ∧ s.timers w.timer = some k ∧
      s' = { s with
        timers := update s.timers w.timer (some ⟨.settime s.now ⟨0, nsPerSec * w.delay.toNat⟩, k.sivalPtr⟩)
        starts := update s.starts w.timer (s.starts w.timer + 1)
        startedAt := update s.startedAt w.timer s.now
        dropped := update s.dropped w.timer
          (s.dropped w.timer + k.setting.armed.toNat + if w.delay.toNat = 0 then 1 else 0) } := by
  obtain ⟨⟨w, k⟩, hlive, rfl⟩ := Option.map_eq_some_iff.mp h
  obtain ⟨hw, hk⟩ := live_eq.mp hlive
  exact ⟨w, k, hw, hk, rfl⟩

theorem cancel_eq {s s' : St Callback} {this : Addr} (h : watchdogCancel s this = some s') :
    ∃ w k, s.heap this = some w ∧ s.timers w.timer = some k ∧
      s' = { s with timers := update s.timers w.timer (some ⟨.settime s.now ⟨0, 0⟩, k.sivalPtr⟩)
                    dropped := update s.dropped w.timer (s.dropped w.timer + k.setting.armed.toNat) } := by
  obtain ⟨⟨w, k⟩, hlive, rfl⟩ := Option.map_eq_some_iff.mp h
  obtain ⟨hw, hk⟩ := live_eq.mp hlive
  exact ⟨w, k, hw, hk, rfl⟩

theorem delete_eq {s s' : St Callback} {this : Addr} (h : timerDelete s this = some s') :
    ∃ w k, s.heap this = some w ∧ s.timers w.timer = some k ∧
      s' = { s with timers := update s.timers w.timer none
                    dropped := update s.dropped w.timer (s.dropped w.timer + k.setting.armed.toNat) } := by
  obtain ⟨⟨w, k⟩, hlive, rfl⟩ := Option.map_eq_some_iff.mp h
  obtain ⟨hw, hk⟩ := live_eq.mp hlive
  exact ⟨w, k, hw, hk, rfl⟩

theorem free_eq {s s' : St Callback} {this : Addr} (h : free s this = some s') :
    ∃ w, s.heap this = some w ∧ s.timers w.timer = none ∧ s' = { s with heap := update s.heap this none } := by
  obtain ⟨w, hw, h⟩ := Option.bind_eq_some_iff.mp h
  obtain ⟨hk, rfl⟩ := guarded_eq_some.mp h
  exact ⟨w, hw, Option.isNone_iff_eq_none.mp hk, rfl⟩

theorem expire_eq {s s' : St Callback} {t : Nat} (h : expire s t = some s') :
    ∃ k, s.timers t = some k ∧ k.setting.Due s.now ∧
      s' = { s with timers := update s.timers t (some ⟨k.setting.expire, k.sivalPtr⟩)
                    notified := s.notified ++ [⟨t, k.sivalPtr, s.startedAt t, s.now⟩] } := by
  obtain ⟨k, hk, h⟩ := Option.bind_eq_some_iff.mp h
  obtain ⟨hdue, rfl⟩ := guarded_eq_some.mp h
  exact ⟨k, hk, hdue, rfl⟩

/-! ## The invariant -/

/-- The delay of this timer's watchdog, in nanoseconds. -/
def St.delayNs (s : St Callback) (t : Nat) : Nat := (s.made t).elim 0 fun w => nsPerSec * w.delay.toNat

structure Inv (s : St Callback) : Prop where
  made : ∀ t w, s.made t = some w → w.timer = t ∧ t < s.next
  heap : ∀ a w, s.heap a = some w → s.made w.timer = some w
  /-- A watchdog is at one address. -/
  apart : ∀ a b w w', s.heap a = some w → s.heap b = some w' → w.timer = w'.timer → a = b
  timers : ∀ t k, s.timers t = some k → ∃ w, s.heap k.sivalPtr = some w ∧ w.timer = t
  oneShot : ∀ t k, s.timers t = some k → k.setting.interval = 0
  deadline : ∀ t k d, s.timers t = some k → k.setting.deadline = some d → d = s.startedAt t + s.delayNs t

theorem launched_inv : Inv (launched : St Callback) where
  made _ _ h := by cases h
  heap _ _ h := by cases h
  apart _ _ _ _ h := by cases h
  timers _ _ h := by cases h
  oneShot _ _ h := by cases h
  deadline _ _ _ h := by cases h

theorem Inv.bookkeeping {s : St Callback} (hi : Inv s) (starts dropped : Nat → Nat) :
    Inv { s with starts := starts, dropped := dropped } := { hi with }

/-- A timer that exists is set, or expires. -/
theorem Inv.set {s : St Callback} (hi : Inv s) {t : Nat} {k : PosixTimer} (hk : s.timers t = some k) (setting : Timer)
    (startedAt : Nat → Nat) (notified : List Notification) (hshot : setting.interval = 0)
    (hstart : ∀ u, u ≠ t → startedAt u = s.startedAt u)
    (hdue : ∀ d, setting.deadline = some d → d = startedAt t + s.delayNs t) :
    Inv { s with timers := update s.timers t (some ⟨setting, k.sivalPtr⟩), startedAt := startedAt
                 notified := notified } where
  made := hi.made
  heap := hi.heap
  apart := hi.apart
  timers u l hl := by
    rcases of_update hl with ⟨rfl, hnew⟩ | ⟨-, hold⟩
    · obtain rfl := Option.some.inj hnew
      exact hi.timers u k hk
    · exact hi.timers u l hold
  oneShot u l hl := by
    rcases of_update hl with ⟨rfl, hnew⟩ | ⟨-, hold⟩
    · obtain rfl := Option.some.inj hnew
      exact hshot
    · exact hi.oneShot u l hold
  deadline u l d hl hd := by
    rcases of_update hl with ⟨rfl, hnew⟩ | ⟨hu, hold⟩
    · obtain rfl := Option.some.inj hnew
      exact hdue d hd
    · exact (hi.deadline u l d hold hd).trans (congrArg (· + s.delayNs u) (hstart u hu).symm)

theorem create_inv {s s' : St Callback} {this : Addr} {delay : UInt32} {callback : Callback} (hi : Inv s)
    (h : watchdogCreate s this delay callback = some s') : Inv s' := by
  obtain ⟨hfree, rfl⟩ := guarded_eq_some.mp h
  have hfree : s.heap this = none := Option.isNone_iff_eq_none.mp hfree
  -- the new timer is none of those there are, the block none of the others
  have hmade : ∀ t w, s.made t = some w → t ≠ s.next := fun t w hm => Nat.ne_of_lt (hi.made t w hm).2
  have hblock : ∀ a w, s.heap a = some w → w.timer ≠ s.next := fun a w hw => hmade _ w (hi.heap a w hw)
  have haddr : ∀ a w, s.heap a = some w → a ≠ this := fun a w hw he => by rw [he, hfree] at hw; cases hw
  refine
    { made := fun t w hm => ?_
      heap := fun a w hw => ?_
      apart := fun a b w w' hw hw' ht => ?_
      timers := fun t k hk => ?_
      oneShot := fun t k hk => ?_
      deadline := fun t k d hk hd => ?_ }
  · rcases of_update hm with ⟨rfl, hnew⟩ | ⟨-, hold⟩
    · obtain rfl := Option.some.inj hnew
      exact ⟨rfl, Nat.lt_succ_self _⟩
    · exact ⟨(hi.made t w hold).1, Nat.lt_succ_of_lt (hi.made t w hold).2⟩
  · rcases of_update hw with ⟨rfl, hnew⟩ | ⟨-, hold⟩
    · obtain rfl := Option.some.inj hnew
      exact Function.update_self ..
    · exact (Function.update_of_ne (hblock a w hold) ..).trans (hi.heap a w hold)
  · rcases of_update hw with ⟨rfl, hnew⟩ | ⟨-, hold⟩ <;> rcases of_update hw' with ⟨rfl, hnew'⟩ | ⟨-, hold'⟩
    · rfl
    · obtain rfl := Option.some.inj hnew
      exact absurd ht.symm (hblock b w' hold')
    · obtain rfl := Option.some.inj hnew'
      exact absurd ht (hblock a w hold)
    · exact hi.apart a b w w' hold hold' ht
  · rcases of_update hk with ⟨rfl, hnew⟩ | ⟨-, hold⟩
    · obtain rfl := Option.some.inj hnew
      exact ⟨_, Function.update_self .., rfl⟩
    · obtain ⟨w, hw, ht⟩ := hi.timers t k hold
      exact ⟨w, (Function.update_of_ne (haddr _ w hw) ..).trans hw, ht⟩
  · rcases of_update hk with ⟨rfl, hnew⟩ | ⟨-, hold⟩
    · obtain rfl := Option.some.inj hnew
      rfl
    · exact hi.oneShot t k hold
  · rcases of_update hk with ⟨rfl, hnew⟩ | ⟨ht, hold⟩
    · obtain rfl := Option.some.inj hnew
      cases hd
    · refine (hi.deadline t k d hold hd).trans ?_
      simp only [St.delayNs, Function.update_of_ne ht]

theorem delete_inv {s s' : St Callback} {this : Addr} (hi : Inv s) (h : timerDelete s this = some s') : Inv s' := by
  obtain ⟨w, k, -, -, rfl⟩ := delete_eq h
  have hold : ∀ t l, update s.timers w.timer none t = some l → s.timers t = some l := fun t l hl => by
    rcases of_update hl with ⟨-, hnew⟩ | ⟨-, hold⟩
    · cases hnew
    · exact hold
  exact { hi with
    timers := fun t l hl => hi.timers t l (hold t l hl)
    oneShot := fun t l hl => hi.oneShot t l (hold t l hl)
    deadline := fun t l d hl hd => hi.deadline t l d (hold t l hl) hd }

theorem free_inv {s s' : St Callback} {this : Addr} (hi : Inv s) (h : free s this = some s') : Inv s' := by
  obtain ⟨w, hw, hk, rfl⟩ := free_eq h
  have hold : ∀ a v, update s.heap this none a = some v → s.heap a = some v := fun a v hv => by
    rcases of_update hv with ⟨-, hnew⟩ | ⟨-, hold⟩
    · cases hnew
    · exact hold
  refine { hi with
    heap := fun a v hv => hi.heap a v (hold a v hv)
    apart := fun a b v v' hv hv' => hi.apart a b v v' (hold a v hv) (hold b v' hv')
    timers := fun t l hl => ?_ }
  obtain ⟨v, hv, ht⟩ := hi.timers t l hl
  refine ⟨v, ?_, ht⟩
  -- the block freed is one whose timer is gone
  have hne : l.sivalPtr ≠ this := fun he => by
    rw [he, hw] at hv
    rw [← ht, ← Option.some.inj hv, hk] at hl
    cases hl
  exact (Function.update_of_ne hne ..).trans hv

theorem step_inv {s s' : St Callback} {e : Ev Callback} (hi : Inv s) (h : step s e = some s') : Inv s' := by
  have h := fire_of_step h
  cases e with
  | watchdogCreate this delay callback => exact create_inv hi h
  | watchdogStart this =>
    obtain ⟨w, k, hw, hk, rfl⟩ := start_eq h
    refine (hi.set hk _ (update s.startedAt w.timer s.now) _ rfl (fun u hu => Function.update_of_ne hu ..)
      (fun d hd => ?_)).bookkeeping _ _
    have hmade := hi.heap this w hw
    rw [Function.update_self, St.delayNs, hmade]
    simp only [Timer.settime] at hd
    split at hd
    · cases hd
    · exact (Option.some.inj hd).symm
  | watchdogCancel this =>
    obtain ⟨w, k, hw, hk, rfl⟩ := cancel_eq h
    exact (hi.set hk _ _ _ rfl (fun _ _ => rfl) (fun _ hd => by cases hd)).bookkeeping _ _
  | timerDelete this => exact delete_inv hi h
  | free this => exact free_inv hi h
  | exitFailure =>
    obtain rfl := Option.some.inj h
    exact { hi with }
  | elapse ns =>
    obtain rfl := Option.some.inj h
    exact { hi with }
  | expire t =>
    obtain ⟨k, hk, -, rfl⟩ := expire_eq h
    have hshot : k.setting.expire.interval = 0 := hi.oneShot t k hk
    refine (hi.set hk _ _ _ hshot (fun _ _ => rfl) fun d hd => ?_).bookkeeping _ _
    rw [Timer.expire, if_pos (hi.oneShot t k hk)] at hd
    cases hd
  | watchdogFunction n =>
    obtain ⟨-, rfl⟩ := guarded_eq_some.mp h
    exact { hi with }

theorem reach_inv {s : St Callback} (h : Reach step (fun _ _ => True) launched s) : Inv s :=
  h.inv launched_inv fun _ _ _ hi _ hs => step_inv hi hs

/-! ## Finding the watchdog -/

/-- What the thread found is its own watchdog. -/
def Finds (s : St Callback) (n : Notification) (found : Option (Watchdog Callback)) : Prop :=
  ∃ w, s.made n.timer = some w ∧ found = some w

/-- Every thread has found its own watchdog, or would find it now. -/
structure Sound (s : St Callback) : Prop where
  notified : ∀ n ∈ s.notified, Finds s n (s.heap n.sivalPtr)
  calls : ∀ c ∈ s.calls, Finds s c.1 c.2

theorem launched_sound : Sound (launched : St Callback) := ⟨fun _ h => (by cases h), fun _ h => (by cases h)⟩

/-- A block is freed only when no thread is going to read it. -/
def FreesUnread (s : St Callback) (e : Ev Callback) : Prop :=
  ∀ this w, e = .free this → s.heap this = some w → ∀ n ∈ s.notified, n.timer ≠ w.timer

theorem create_sound {s s' : St Callback} {this : Addr} {delay : UInt32} {callback : Callback} (hi : Inv s)
    (hp : Sound s) (h : watchdogCreate s this delay callback = some s') : Sound s' := by
  obtain ⟨hfree, rfl⟩ := guarded_eq_some.mp h
  have hfree : s.heap this = none := Option.isNone_iff_eq_none.mp hfree
  have hmade : ∀ t w, s.made t = some w → update s.made s.next (some ⟨s.next, delay, callback⟩) t = some w :=
    fun t w hm => (Function.update_of_ne (Nat.ne_of_lt (hi.made t w hm).2) ..).trans hm
  refine ⟨fun n hn => ?_, fun c hc => ?_⟩
  · obtain ⟨w, hm, hw⟩ := hp.notified n hn
    refine ⟨w, hmade _ w hm, (Function.update_of_ne (fun he => ?_) ..).trans hw⟩
    rw [he, hfree] at hw
    cases hw
  · obtain ⟨w, hm, hw⟩ := hp.calls c hc
    exact ⟨w, hmade _ w hm, hw⟩

theorem expire_sound {s s' : St Callback} {t : Nat} (hi : Inv s) (hp : Sound s) (h : expire s t = some s') :
    Sound s' := by
  obtain ⟨k, hk, -, rfl⟩ := expire_eq h
  refine ⟨fun n hn => ?_, hp.calls⟩
  rcases List.mem_append.mp hn with hn | hn
  · exact hp.notified n hn
  · obtain rfl := List.mem_singleton.mp hn
    obtain ⟨w, hw, rfl⟩ := hi.timers t k hk
    exact ⟨w, hi.heap _ w hw, hw⟩

theorem free_sound_iff {s s' : St Callback} {this : Addr} (hi : Inv s) (hp : Sound s) (h : free s this = some s') :
    Sound s' ↔ FreesUnread s (.free this) := by
  obtain ⟨w, hw, -, rfl⟩ := free_eq h
  constructor
  · rintro hp' _ v ⟨rfl⟩ hv n hn ht
    obtain rfl := Option.some.inj (hw.symm.trans hv)
    -- the thread's watchdog is at its address, and that is the one freed
    obtain ⟨u, hu, hfound⟩ := hp.notified n hn
    have hptr : n.sivalPtr = this := hi.apart _ _ u w hfound hw ((hi.made _ u hu).1.trans ht)
    obtain ⟨_, -, hgone⟩ := hp'.notified n hn
    rw [hptr] at hgone
    have hnone : update s.heap this none this = none := Function.update_self ..
    cases hnone.symm.trans hgone
  · intro hunread
    refine ⟨fun n hn => ?_, hp.calls⟩
    obtain ⟨u, hu, hfound⟩ := hp.notified n hn
    refine ⟨u, hu, (Function.update_of_ne (fun hptr => ?_) ..).trans hfound⟩
    rw [hptr, hw] at hfound
    have ht : n.timer = w.timer := by rw [Option.some.inj hfound, (hi.made _ u hu).1]
    exact hunread this w rfl hw n hn ht

theorem step_sound_iff {s s' : St Callback} {e : Ev Callback} (hi : Inv s) (hp : Sound s)
    (h : step s e = some s') : Sound s' ↔ FreesUnread s e := by
  have h := fire_of_step h
  -- but for free, the condition holds of every event
  have hall : (∀ this, e ≠ .free this) → FreesUnread s e := fun hne this _ he => absurd he (hne this)
  cases e with
  | free this => exact free_sound_iff hi hp h
  | watchdogCreate this delay callback => exact iff_of_true (create_sound hi hp h) (hall nofun)
  | expire t => exact iff_of_true (expire_sound hi hp h) (hall nofun)
  | watchdogStart this =>
    obtain ⟨w, k, -, -, rfl⟩ := start_eq h
    exact iff_of_true ⟨hp.notified, hp.calls⟩ (hall nofun)
  | watchdogCancel this =>
    obtain ⟨w, k, -, -, rfl⟩ := cancel_eq h
    exact iff_of_true ⟨hp.notified, hp.calls⟩ (hall nofun)
  | timerDelete this =>
    obtain ⟨w, k, -, -, rfl⟩ := delete_eq h
    exact iff_of_true ⟨hp.notified, hp.calls⟩ (hall nofun)
  | exitFailure | elapse ns =>
    obtain rfl := Option.some.inj h
    exact iff_of_true ⟨hp.notified, hp.calls⟩ (hall nofun)
  | watchdogFunction n =>
    obtain ⟨hn, rfl⟩ := guarded_eq_some.mp h
    refine iff_of_true ⟨fun m hm => hp.notified m (List.mem_of_mem_erase hm), fun c hc => ?_⟩ (hall nofun)
    rcases List.mem_append.mp hc with hc | hc
    · exact hp.calls c hc
    · obtain rfl := List.mem_singleton.mp hc
      exact hp.notified n hn

/-- In every run, whatever the calls and their order: the threads find their own watchdogs
    all along if and only if no watchdog_destroy frees one that a thread is still to read. -/
theorem finds_its_watchdog_iff {tr : List (St Callback × Ev Callback)} {s : St Callback}
    (hr : Run step (fun _ _ => True) launched tr s) :
    (∀ u ∈ visited tr s, Sound u) ↔ ∀ x ∈ tr, FreesUnread x.1 x.2 :=
  hr.safe_iff (fun _ h => reach_inv h) launched_sound fun _ _ _ hi hp _ h => step_sound_iff hi hp h

/-- The calls of `exemple_watchdog/main.c`; the timer has expired after four of its six
    seconds, and the thread gets to its watchdog after watchdog_destroy. -/
def late : List (Ev Unit) :=
  [.watchdogCreate 0 4 (), .watchdogStart 0, .elapse (4 * nsPerSec), .expire 0, .elapse (2 * nsPerSec),
    .timerDelete 0, .free 0, .watchdogFunction ⟨0, 0, 0, 4 * nsPerSec⟩]

theorem late_can : (exec step (fun _ _ => True) (launched : St Unit) late).isSome = true := by decide +kernel

theorem late_finds_nothing : ¬ ∀ u ∈ visited (traceOf step launched late)
    ((exec step (fun _ _ => True) (launched : St Unit) late).get late_can), Sound u := fun hsound => by
  have hunread := (finds_its_watchdog_iff (exec_get_run late late_can)).mp hsound
  have hfree := hunread ((traceOf step launched late).get ⟨6, by decide +kernel⟩) (List.get_mem ..)
  exact hfree 0 ⟨0, 4, ()⟩ rfl rfl ⟨0, 0, 0, 4 * nsPerSec⟩ (by decide +kernel) rfl

/-! ## What becomes of a start -/

def St.armed (s : St Callback) (t : Nat) : Bool := (s.timers t).elim false fun k => k.setting.armed

/-- The threads that the expiry of this timer has started. -/
def St.raised (s : St Callback) (t : Nat) : Nat :=
  (s.notified.countP fun n => n.timer = t) + s.calls.countP fun c => c.1.timer = t

/-- Every start is accounted for. -/
def Books (s : St Callback) : Prop := ∀ t, s.starts t = s.raised t + (s.armed t).toNat + s.dropped t

theorem armed_of {s : St Callback} {t : Nat} {k : PosixTimer} (h : s.timers t = some k) :
    s.armed t = k.setting.armed := by
  rw [St.armed, h]
  rfl

/-- A timer is set: what it was armed for is dropped. -/
theorem set_books {s s' : St Callback} {t started n : Nat} {k : PosixTimer} {o : Option PosixTimer} (hb : Books s)
    (hk : s.timers t = some k) (hraised : ∀ u, s'.raised u = s.raised u)
    (htimers : s'.timers = update s.timers t o) (hstarts : s'.starts = update s.starts t (s.starts t + started))
    (hdropped : s'.dropped = update s.dropped t (s.dropped t + k.setting.armed.toNat + n))
    (hnew : started = (o.elim false fun k => k.setting.armed).toNat + n) : Books s' := by
  intro u
  have hb := hb u
  rw [hraised, hstarts, hdropped, St.armed, htimers]
  by_cases hu : u = t
  · subst hu
    rw [armed_of hk] at hb
    simp only [Function.update_self]
    omega
  · simp only [Function.update_of_ne hu]
    exact hb

/-- A start arms the timer, or is dropped at once. -/
theorem settime_started (now delay : Nat) :
    (Timer.settime now ⟨0, nsPerSec * delay⟩).armed.toNat + (if delay = 0 then 1 else 0) = 1 := by
  by_cases hd : delay = 0
  · simp [Timer.armed_settime, hd]
  · have hne : nsPerSec * delay ≠ 0 := Nat.mul_ne_zero (by decide) hd
    simp [Timer.armed_settime, hd, hne]

theorem create_books {s s' : St Callback} {this : Addr} {delay : UInt32} {callback : Callback} (hi : Inv s)
    (hb : Books s) (h : watchdogCreate s this delay callback = some s') : Books s' := by
  obtain ⟨-, rfl⟩ := guarded_eq_some.mp h
  intro u
  have hb := hb u
  by_cases hu : u = s.next
  · subst hu
    -- there was no such timer
    have hnone : s.timers s.next = none := by
      cases hk : s.timers s.next with
      | none => rfl
      | some k =>
        obtain ⟨w, hw, ht⟩ := hi.timers _ k hk
        have := (hi.made _ w (hi.heap _ w hw)).2
        omega
    have hbefore : s.armed s.next = false := by rw [St.armed, hnone]; rfl
    rw [hbefore] at hb
    simpa [St.armed, St.raised] using hb
  · simpa [St.armed, St.raised, hu] using hb

theorem expire_books {s s' : St Callback} {t : Nat} (hi : Inv s) (hb : Books s) (h : expire s t = some s') :
    Books s' := by
  obtain ⟨k, hk, hdue, rfl⟩ := expire_eq h
  intro u
  have hb := hb u
  by_cases hu : u = t
  · subst hu
    have hbefore : s.armed u = true := (armed_of hk).trans hdue.armed
    have hafter : k.setting.expire.armed = false := Timer.armed_expire_oneShot (hi.oneShot u k hk)
    rw [hbefore] at hb
    simp [St.armed, St.raised, hafter, List.countP_append] at hb ⊢
    omega
  · simpa [St.armed, St.raised, hu, Ne.symm hu, List.countP_append] using hb

theorem call_raised {s s' : St Callback} {n : Notification} (h : watchdogFunction s n = some s') (t : Nat) :
    s'.raised t = s.raised t := by
  obtain ⟨hn, rfl⟩ := guarded_eq_some.mp h
  have hperm := (List.perm_cons_erase hn).countP_eq fun m => decide (m.timer = t)
  simp only [St.raised, List.countP_append, List.countP_singleton] at hperm ⊢
  rw [hperm, List.countP_cons]
  omega

theorem step_books {s s' : St Callback} {e : Ev Callback} (hi : Inv s) (hb : Books s)
    (h : step s e = some s') : Books s' := by
  have h := fire_of_step h
  cases e with
  | watchdogStart this =>
    obtain ⟨w, k, hw, hk, rfl⟩ := start_eq h
    exact set_books hb hk (fun _ => rfl) rfl rfl rfl (settime_started s.now w.delay.toNat).symm
  | watchdogCancel this =>
    obtain ⟨w, k, hw, hk, rfl⟩ := cancel_eq h
    exact set_books (n := 0) hb hk (fun _ => rfl) rfl (Function.update_eq_self ..).symm rfl rfl
  | timerDelete this =>
    obtain ⟨w, k, hw, hk, rfl⟩ := delete_eq h
    exact set_books (n := 0) hb hk (fun _ => rfl) rfl (Function.update_eq_self ..).symm rfl rfl
  | watchdogCreate this delay callback => exact create_books hi hb h
  | free this =>
    obtain ⟨w, -, -, rfl⟩ := free_eq h
    exact hb
  | exitFailure | elapse ns =>
    obtain rfl := Option.some.inj h
    exact hb
  | expire t => exact expire_books hi hb h
  | watchdogFunction n =>
    intro t
    have hraised := call_raised h t
    obtain ⟨-, rfl⟩ := guarded_eq_some.mp h
    rw [hraised]
    exact hb t

/-- Each watchdog_start has started one thread, or is the one the timer is armed for, or has
    been dropped: none is answered twice. -/
theorem starts_accounted {s : St Callback} (h : Reach step (fun _ _ => True) launched s) (t : Nat) :
    s.starts t = s.raised t + (s.armed t).toNat + s.dropped t :=
  h.inv_with (fun _ h => reach_inv h) (fun _ => rfl) (fun _ _ _ hi hb _ hs => step_books hi hb hs) t

/-- A watchdog is renewed before it expires, and cancelled. -/
def renewed : List (Ev Unit) :=
  [.watchdogCreate 0 4 (), .watchdogStart 0, .elapse (3 * nsPerSec), .watchdogStart 0, .elapse (3 * nsPerSec),
    .watchdogCancel 0]

theorem renewed_can : (exec step (fun _ _ => True) (launched : St Unit) renewed).isSome = true := by decide +kernel

theorem renewed_drops_two :
    ((exec step (fun _ _ => True) (launched : St Unit) renewed).get renewed_can).dropped 0 = 2 := by
  have hbooks := starts_accounted (exec_get_reach renewed renewed_can) 0
  have hstarts : ((exec step (fun _ _ => True) (launched : St Unit) renewed).get renewed_can).starts 0 = 2 := by
    decide +kernel
  have hraised : ((exec step (fun _ _ => True) (launched : St Unit) renewed).get renewed_can).raised 0 = 0 := by
    decide +kernel
  have harmed : ((exec step (fun _ _ => True) (launched : St Unit) renewed).get renewed_can).armed 0 = false := by
    decide +kernel
  rw [hstarts, hraised, harmed] at hbooks
  exact (Nat.zero_add _).symm.trans hbooks.symm

/-! ## Renewed in time -/

/-- Only the expiry of a timer that has been armed for its delay starts a thread. -/
theorem step_raised {s s' : St Callback} {e : Ev Callback} {t : Nat} (hi : Inv s)
    (hfed : s.armed t = true → s.now < s.startedAt t + s.delayNs t) (h : step s e = some s') :
    s'.raised t = s.raised t := by
  have h := fire_of_step h
  cases e with
  | expire u =>
    obtain ⟨k, hk, hdue, rfl⟩ := expire_eq h
    have hu : u ≠ t := fun hu => by
      subst hu
      have hearly := hfed ((armed_of hk).trans hdue.armed)
      obtain ⟨d, hd, hle⟩ := hdue
      have := hi.deadline u k d hk hd
      omega
    simp [St.raised, List.countP_append, hu]
  | watchdogFunction n => exact call_raised h t
  | watchdogCreate this delay callback =>
    obtain ⟨-, rfl⟩ := guarded_eq_some.mp h
    rfl
  | watchdogStart this =>
    obtain ⟨w, k, -, -, rfl⟩ := start_eq h
    rfl
  | watchdogCancel this =>
    obtain ⟨w, k, -, -, rfl⟩ := cancel_eq h
    rfl
  | timerDelete this =>
    obtain ⟨w, k, -, -, rfl⟩ := delete_eq h
    rfl
  | free this =>
    obtain ⟨w, -, -, rfl⟩ := free_eq h
    rfl
  | exitFailure | elapse ns =>
    obtain rfl := Option.some.inj h
    rfl

/-- While a watchdog is never armed for its whole delay since the last watchdog_start, be it
    because it is renewed or cancelled in time, no thread is started for it. -/
theorem fed_in_time {s s' : St Callback} {tr : List (St Callback × Ev Callback)} {t : Nat}
    (hs : Reach step (fun _ _ => True) launched s) (hr : Run step (fun _ _ => True) s tr s')
    (hfed : ∀ u ∈ visited tr s', u.armed t = true → u.now < u.startedAt t + u.delayNs t) :
    s'.raised t = s.raised t := by
  have hC : ∀ x ∈ tr, x.1.armed t = true → x.1.now < x.1.startedAt t + x.1.delayNs t := fun x hx =>
    hfed x.1 (List.mem_append_left _ (List.mem_map_of_mem hx))
  have hkept := hr.safe_of (J := Inv) (P := fun u => u.raised t = s.raised t)
    (C := fun u _ => u.armed t = true → u.now < u.startedAt t + u.delayNs t)
    (fun u hu => reach_inv (hs.trans hu)) hC rfl
    fun _ _ _ hi hp _ hc h => (step_raised hi hc h).trans hp
  exact hkept s' (Run.mem_visited_last tr s')

theorem renewed_is_silent :
    ((exec step (fun _ _ => True) (launched : St Unit) renewed).get renewed_can).raised 0 = 0 :=
  fed_in_time (t := 0) .refl (exec_get_run renewed renewed_can) (by decide +kernel)

end Alambix.ExWatchdog

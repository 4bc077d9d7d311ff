/-
  Alambix.Init — alambix_init's message queue and timer (`alambix_bix.c`).

  One `InitPc` for each system call whose result decides what follows: the exclusive
  mq_open, and on EEXIST mq_unlink and the mq_open again (with NULL attributes and without
  O_EXCL), then timer_create. `initStep` is one call; `alambixInit` runs it to the end
  with no other process acting meanwhile.

  Proved: `alambix_init` exits or leaves a queue the threads can use exactly when it does
  not come back from the recovery path with something else than the queue it asked for
  (`init_usable_iff`). After a crash it does not: the reopened queue has the system's
  message size and every mq_receive of the bartender fails
  (`recovered_queue_refuses_the_bartender`).
-/

import Alambix.Lib.Mqueue

namespace Alambix

open Lib.Mqueue

def alambixBartenderMqName : String := "/alambix_bartender_mq"
def mqMsgMax : Nat := 10
def mqMsgSize : Nat := 48
def exitFailure : Int := 1

def mqBartenderAttr : MqAttr := ⟨mqMsgMax, mqMsgSize⟩

inductive InitPc where
  | mqOpenExcl
  | mqUnlink
  | mqReopen
  /-- The descriptor is the global `mq`; `none` is -1. -/
  | timerCreate (mq : Option Nat)
  | returned (mq : Option Nat)
  | exited (code : Int)
  deriving DecidableEq, Repr

/-- What the environment makes of each call: `none` lets it through. -/
structure InitWorld where
  openExcl : Option Fault
  unlink : Option Fault
  reopen : Option Fault
  timer : Option Fault

variable {Msg : Type}

/-- One system call of `alambix_init`. -/
def initStep (fs : MqFs Msg) (fault : Option Fault) : InitPc → Option (InitPc × MqFs Msg)
  | .mqOpenExcl =>
    match fs.mqOpen alambixBartenderMqName true (some mqBartenderAttr) fault with
    | .ok (mq, fs') => some (.timerCreate (some mq), fs')
    | .error errno => if errno = .EEXIST then some (.mqUnlink, fs) else some (.exited (-1), fs)
  | .mqUnlink => some (.mqReopen, fs.mqUnlink alambixBartenderMqName fault)
  | .mqReopen =>
    -- the result is not checked: -1 goes on to the timer
    match fs.mqOpen alambixBartenderMqName false none fault with
    | .ok (mq, fs') => some (.timerCreate (some mq), fs')
    | .error _ => some (.timerCreate none, fs)
  | .timerCreate mq => some (if fault.isSome then .exited exitFailure else .returned mq, fs)
  | .returned _ => none
  | .exited _ => none

def InitWorld.fault (w : InitWorld) : InitPc → Option Fault
  | .mqOpenExcl => w.openExcl
  | .mqUnlink => w.unlink
  | .mqReopen => w.reopen
  | .timerCreate _ => w.timer
  | .returned _ => none
  | .exited _ => none

def initRun (w : InitWorld) : Nat → InitPc × MqFs Msg → InitPc × MqFs Msg
  | 0, x => x
  | n + 1, x =>
    match initStep x.2 (w.fault x.1) x.1 with
    | some y => initRun w n y
    | none => x

/-- `alambix_init`: at most four calls. -/
def alambixInit (fs : MqFs Msg) (w : InitWorld) : InitPc × MqFs Msg := initRun w 4 (.mqOpenExcl, fs)

/-! ## What it leaves -/

/-- The end of `alambix_init`, by the name before it and the outcome of each call. -/
theorem alambixInit_eq (fs : MqFs Msg) (w : InitWorld) :
    alambixInit fs w =
      if w.openExcl.isSome then (.exited (-1), fs)
      else match fs.names alambixBartenderMqName with
        | none =>
          (if w.timer.isSome then .exited exitFailure else .returned (some fs.next),
            fs.create alambixBartenderMqName mqBartenderAttr)
        | some id =>
          if w.unlink.isSome then
            (if w.timer.isSome then .exited exitFailure
              else .returned (if w.reopen.isSome then none else some id), fs)
          else if w.reopen.isSome then
            (if w.timer.isSome then .exited exitFailure else .returned none, fs.unbind alambixBartenderMqName)
          else
            (if w.timer.isSome then .exited exitFailure else .returned (some fs.next),
              (fs.unbind alambixBartenderMqName).create alambixBartenderMqName defaultAttr) := by
  obtain ⟨a, b, c, d⟩ := w
  cases a with
  | some e =>
    have he : e.val ≠ .EEXIST := e.property
    simp [alambixInit, initRun, initStep, InitWorld.fault, MqFs.mqOpen, he]
  | none =>
    cases hn : fs.names alambixBartenderMqName with
    | none =>
      cases d <;> simp [alambixInit, initRun, initStep, InitWorld.fault, MqFs.mqOpen, hn]
    | some id =>
      cases b <;> cases c <;> cases d <;>
        simp [alambixInit, initRun, initStep, InitWorld.fault, MqFs.mqOpen, MqFs.mqUnlink, hn]

/-- What the threads rely on: `alambix_init` exited, or `mq` is a descriptor of an empty
    queue with the attributes asked for, so that no later mq_send or mq_receive of
    MQ_MSG_SIZE bytes fails with EBADF or EMSGSIZE, whatever the queue then holds. -/
def InitUsable (r : InitPc × MqFs Msg) : Prop :=
  match r.1 with
  | .exited _ => True
  | .returned mq =>
    ∃ q, r.2.obj? mq = some q ∧ q.msgs = [] ∧ q.attr.mqMaxmsg = mqMsgMax ∧ q.attr.mqMsgsize = mqMsgSize ∧
      ∀ msgs : List Msg, sendErrno (some (Mq.mk q.attr msgs)) mqMsgSize = none ∧
        receiveErrno (some (Mq.mk q.attr msgs)) mqMsgSize = none
  | _ => False

theorem usable_returned (fs : MqFs Msg) (mq : Option Nat) :
    InitUsable (.returned mq, fs) ↔ fs.obj? mq = some ⟨mqBartenderAttr, []⟩ := by
  constructor
  · rintro ⟨⟨attr, msgs⟩, hq, rfl, hmax, hsize, -⟩
    rw [hq]
    obtain ⟨m, k⟩ := attr
    simp only at hmax hsize
    subst hmax hsize
    rfl
  · intro hq
    refine ⟨_, hq, rfl, rfl, rfl, fun msgs => ?_⟩
    simp [sendErrno, receiveErrno, mqBartenderAttr]

/-- The name as it is before the run, and the outcomes of the calls, with which
    `alambix_init` keeps its promise: one of the checked calls fails and it exits, or the
    name is free, or the recovery cannot unlink and reopens a queue that happens to be
    empty and to have the right attributes. -/
def InitGoesWell (fs : MqFs Msg) (w : InitWorld) : Prop :=
  w.openExcl.isSome ∨ w.timer.isSome ∨ fs.names alambixBartenderMqName = none ∨
    (w.unlink.isSome ∧ w.reopen.isSome = false ∧
      ∃ id, fs.names alambixBartenderMqName = some id ∧ fs.objs id = ⟨mqBartenderAttr, []⟩)

theorem init_usable_iff (fs : MqFs Msg) (w : InitWorld) : InitUsable (alambixInit fs w) ↔ InitGoesWell fs w := by
  have hattr : defaultAttr ≠ mqBartenderAttr := by decide
  rw [alambixInit_eq]
  unfold InitGoesWell
  by_cases ho : w.openExcl.isSome
  · simp [ho, InitUsable]
  by_cases ht : w.timer.isSome
  · simp only [ho, ht, if_true, if_false, Bool.false_eq_true, true_or, or_true, iff_true]
    split
    · trivial
    · split
      · trivial
      · split <;> trivial
  cases hn : fs.names alambixBartenderMqName with
  | none => simp [ho, ht, usable_returned, MqFs.obj?]
  | some id =>
    by_cases hu : w.unlink.isSome
    · by_cases hr : w.reopen.isSome <;> simp [ho, ht, hu, hr, usable_returned, MqFs.obj?]
    · by_cases hr : w.reopen.isSome
      · simp [ho, ht, hu, hr, usable_returned, MqFs.obj?]
      · have : (fs.unbind alambixBartenderMqName).next = fs.next := rfl
        have hobj : ((fs.unbind alambixBartenderMqName).create alambixBartenderMqName defaultAttr).objs fs.next =
            ⟨defaultAttr, []⟩ := by rw [← this]; exact MqFs.create_objs _ _ _
        simp [ho, ht, hu, hr, usable_returned, MqFs.obj?, hobj, hattr]

/-! ## After a crash -/

/-- A run that crashed left its queue behind. -/
def crashedFs : MqFs Msg where
  names := fun n => if n = alambixBartenderMqName then some 0 else none
  objs := fun _ => ⟨mqBartenderAttr, []⟩
  next := 1
  bound := by intro n id h; split at h <;> simp_all

def allSucceed : InitWorld := ⟨none, none, none, none⟩

/-- Every call succeeds, and the bartender's first mq_receive fails with EMSGSIZE. -/
theorem recovered_queue_refuses_the_bartender :
    (alambixInit (crashedFs : MqFs String) allSucceed).1 = .returned (some 1) ∧
      receiveErrno ((alambixInit (crashedFs : MqFs String) allSucceed).2.obj? (some 1)) mqMsgSize = some .EMSGSIZE ∧
      ¬ InitUsable (alambixInit (crashedFs : MqFs String) allSucceed) := by
  refine ⟨rfl, rfl, ?_⟩
  rw [init_usable_iff]
  simp [InitGoesWell, allSucceed, crashedFs]

end Alambix

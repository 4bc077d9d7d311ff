/-
  Alambix.Lib.Mqueue — POSIX message queues: the queue object and the name space.

  A queue object (`Mq`) has its attributes, fixed at creation, and its messages, oldest
  first (every message is sent with the same priority, so receiving is FIFO). A call
  blocks, fails with an errno, or returns; `Sendable` / `Receivable` say when it returns
  at once, and `sendErrno` / `receiveErrno` which of EBADF and EMSGSIZE it must fail with.

  `MqFs` is the name space: names bound to objects, and every object ever created. Each
  operation is one atomic system call:
  - `mqOpen` (always with O_CREAT): an unbound name gets a fresh empty object with the
    attributes given, or the system's defaults for NULL; a bound one fails with EEXIST
    under O_EXCL and is opened as it is otherwise.
  - `mqUnlink` unbinds the name; the object and its descriptors stay.
  A call may also fail for a reason of the environment (permissions, memory, descriptors:
  `Fault`). EEXIST is not one of them: the name decides it.
-/

import Mathlib.Logic.Function.Basic

namespace Alambix.Lib.Mqueue

inductive Errno where
  | EEXIST
  | ENOENT
  | EBADF
  | EMSGSIZE
  | EACCES
  | EINVAL
  | EMFILE
  | ENFILE
  | ENOMEM
  | ENOSPC
  | EAGAIN
  deriving DecidableEq, Repr

/-- An error the environment can give a call at any time. -/
abbrev Fault := { e : Errno // e ≠ .EEXIST }

structure MqAttr where
  mqMaxmsg : Nat
  mqMsgsize : Nat
  deriving DecidableEq, Repr

/-- The attributes Linux gives a queue created with NULL attributes. -/
def defaultAttr : MqAttr := ⟨10, 8192⟩

structure Mq (Msg : Type) where
  attr : MqAttr
  msgs : List Msg
  deriving DecidableEq, Repr

variable {Msg : Type}

/-! ## Sending and receiving -/

namespace Mq

/-- `mq_send` with this length returns at once. -/
def Sendable (q : Mq Msg) (len : Nat) : Prop := len ≤ q.attr.mqMsgsize ∧ q.msgs.length < q.attr.mqMaxmsg

/-- `mq_receive` with this length returns the message `m` at once. -/
def Receivable (q : Mq Msg) (len : Nat) (m : Msg) : Prop := q.attr.mqMsgsize ≤ len ∧ q.msgs.head? = some m

instance (q : Mq Msg) (len : Nat) : Decidable (q.Sendable len) := inferInstanceAs (Decidable (_ ∧ _))

instance [DecidableEq Msg] (q : Mq Msg) (len : Nat) (m : Msg) : Decidable (q.Receivable len m) :=
  inferInstanceAs (Decidable (_ ∧ _))

def send (q : Mq Msg) (m : Msg) : Mq Msg := { q with msgs := q.msgs ++ [m] }

def receive (q : Mq Msg) : Mq Msg := { q with msgs := q.msgs.tail }

@[simp] theorem send_attr (q : Mq Msg) (m : Msg) : (q.send m).attr = q.attr := rfl
@[simp] theorem send_msgs (q : Mq Msg) (m : Msg) : (q.send m).msgs = q.msgs ++ [m] := rfl
@[simp] theorem receive_attr (q : Mq Msg) : q.receive.attr = q.attr := rfl
@[simp] theorem receive_msgs (q : Mq Msg) : q.receive.msgs = q.msgs.tail := rfl

/-- The received message was the oldest one. -/
theorem Receivable.msgs {q : Mq Msg} {len : Nat} {m : Msg} (h : q.Receivable len m) :
    q.msgs = m :: q.receive.msgs := by
  obtain ⟨-, h⟩ := h
  cases hq : q.msgs with
  | nil => simp [hq] at h
  | cons a l => simpa [hq] using h

end Mq

/-! ## The name space -/

structure MqFs (Msg : Type) where
  names : String → Option Nat
  objs : Nat → Mq Msg
  /-- The identity of the next object created. -/
  next : Nat
  bound : ∀ n id, names n = some id → id < next

namespace MqFs

variable (fs : MqFs Msg)

/-- The name bound to a fresh empty object. -/
def create (name : String) (attr : MqAttr) : MqFs Msg where
  names := Function.update fs.names name (some fs.next)
  objs := Function.update fs.objs fs.next ⟨attr, []⟩
  next := fs.next + 1
  bound := by
    intro n id h
    by_cases e : n = name
    · subst e; simp at h; omega
    · rw [Function.update_of_ne e] at h
      have := fs.bound n id h
      omega

/-- The name unbound. -/
def unbind (name : String) : MqFs Msg where
  names := Function.update fs.names name none
  objs := fs.objs
  next := fs.next
  bound := by
    intro n id h
    by_cases e : n = name
    · subst e; simp at h
    · rw [Function.update_of_ne e] at h
      exact fs.bound n id h

/-- The object `id` replaced, its messages sent or received. -/
def setObj (id : Nat) (q : Mq Msg) : MqFs Msg := { fs with objs := Function.update fs.objs id q }

/-- `mq_open(name, O_RDWR | O_CREAT [| O_EXCL], mode, attr)`. -/
def mqOpen (name : String) (oExcl : Bool) (attr : Option MqAttr) (fault : Option Fault) :
    Except Errno (Nat × MqFs Msg) :=
  match fault with
  | some e => .error e.val
  | none =>
    match fs.names name with
    | some id => if oExcl then .error .EEXIST else .ok (id, fs)
    | none => .ok (fs.next, fs.create name (attr.getD defaultAttr))

/-- `mq_unlink(name)`; its result is ignored by every caller here. -/
def mqUnlink (name : String) (fault : Option Fault) : MqFs Msg :=
  match fault with
  | some _ => fs
  | none => fs.unbind name

@[simp] theorem create_names (name : String) (attr : MqAttr) : (fs.create name attr).names name = some fs.next := by
  simp [create]
@[simp] theorem create_objs (name : String) (attr : MqAttr) : (fs.create name attr).objs fs.next = ⟨attr, []⟩ := by
  simp [create]
theorem create_objs_ne (name : String) (attr : MqAttr) {id : Nat} (h : id ≠ fs.next) :
    (fs.create name attr).objs id = fs.objs id := by
  simp [create, h]
@[simp] theorem create_next (name : String) (attr : MqAttr) : (fs.create name attr).next = fs.next + 1 := rfl
@[simp] theorem unbind_names (name : String) : (fs.unbind name).names name = none := by simp [unbind]
@[simp] theorem unbind_objs (name : String) : (fs.unbind name).objs = fs.objs := rfl
@[simp] theorem unbind_next (name : String) : (fs.unbind name).next = fs.next := rfl

end MqFs

/-! ## Errors of a descriptor -/

/-- What a descriptor (`none`: -1) refers to. -/
def MqFs.obj? (fs : MqFs Msg) (mqdes : Option Nat) : Option (Mq Msg) := mqdes.map fs.objs

/-- The error `mq_send` must fail with, whatever the queue holds. -/
def sendErrno (q : Option (Mq Msg)) (len : Nat) : Option Errno :=
  match q with
  | none => some .EBADF
  | some q => if q.attr.mqMsgsize < len then some .EMSGSIZE else none

/-- The error `mq_receive` must fail with, whatever the queue holds. -/
def receiveErrno (q : Option (Mq Msg)) (len : Nat) : Option Errno :=
  match q with
  | none => some .EBADF
  | some q => if len < q.attr.mqMsgsize then some .EMSGSIZE else none

end Alambix.Lib.Mqueue

/-
  Alambix.Instances — several programs running on one machine.

  Every instance runs the program of `Alambix.Program`; its queue is an object of the one
  name space. The calls of alambix_init (`initStep`), the mq_unlink and mq_close of
  alambix_destroy and of the error paths, every mq_send and mq_receive, and an abrupt exit
  of one instance may fall between any two statements of another. A drink carries the
  instance whose order it is in; those that were in a queue before carry none.

  - `Machine.reopens`: the mq_open without O_EXCL of the recovery path, where it finds the
    name bound. It is the only call that can open somebody else's queue (`step_opens`).
  - `alone_runs_alambixInit`: an instance whose calls nobody interrupts runs `alambixInit`.
  - `Clean`: every instance's queue is its own and holds its own drinks.

  Proved, for any number of instances and any state of the name space before: in every run
  no two live instances hold one queue exactly when every such mq_open opens a queue no
  live instance holds; and if it also holds no instance's drinks, no bartender ever receives
  a drink of another instance (`queues_apart_iff`). The recovery does not see to it:
  `recovery_opens_the_other_queue`.
-/

import Alambix.Delivery

namespace Alambix

open Lib.Mqueue Lib.Transition
open Function (update)

/-- A drink and the instance whose waiter sends it. -/
structure Parcel (Drink : Type) where
  sender : Option Nat
  drink : Drink
  deriving DecidableEq, Repr

structure Instance (Drink : Type) where
  /-- Where alambix_init is. -/
  init : InitPc
  prog : St (Parcel Drink)

structure Machine (Drink : Type) where
  fs : MqFs (Parcel Drink)
  inst : Nat → Instance Drink

variable {Drink : Type}

/-! ## The machine's steps -/

namespace Instance

/-- Before its first statement. -/
def launched : Instance Drink := ⟨.mqOpenExcl, boot⟩

/-- The queue a live instance has an open descriptor of. -/
def holds (x : Instance Drink) : Option Nat :=
  if x.prog.exited.isSome then none
  else match x.init with
    | .timerCreate mq => mq
    | .returned mq => if x.prog.mqOpen then mq else none
    | _ => none

/-- The descriptor alambix_init left in `mq`. -/
def mqdes (x : Instance Drink) : Option Nat :=
  match x.init with
  | .returned mq => mq
  | _ => none

/-- The instance after a call of alambix_init. -/
def afterCall (x : Instance Drink) : InitPc → Instance Drink
  | .returned mq => ⟨.returned mq, { x.prog with main := .ui, mqOpen := mq.isSome }⟩
  | .exited code => ⟨.exited code, { x.prog with exited := some code }⟩
  | pc => ⟨pc, x.prog⟩

/-- The program as it runs on the name space: its queue is the object behind `mq`. -/
def view (x : Instance Drink) (fs : MqFs (Parcel Drink)) : St (Parcel Drink) :=
  match x.mqdes with
  | some id => { x.prog with mq := fs.objs id }
  | none => x.prog

end Instance

/-- A statement that unlinks the name. -/
def Ev.unlinks : Ev Drink → Bool
  | .main .mqUnlink => true
  | .bartender .mqUnlink => true
  | _ => false

def Ev.callsInit : Ev Drink → Bool
  | .main (.alambixInit _ _) => true
  | _ => false

/-- The name space after a statement that left the queue `q`. -/
def writeBack (fs : MqFs (Parcel Drink)) (mqdes : Option Nat) (q : Mq (Parcel Drink)) (unlinks : Bool) :
    MqFs (Parcel Drink) :=
  let fs := match mqdes with
    | some id => fs.setObj id q
    | none => fs
  if unlinks then fs.unbind alambixBartenderMqName else fs

/-- An order of instance `i` is of drinks its own waiter is to send. -/
def Labelled (i : Nat) (e : Ev (Parcel Drink)) : Prop := ∀ ds ∈ e.takes, ∀ d ∈ ds, d.sender = some i

instance (i : Nat) (e : Ev (Parcel Drink)) : Decidable (Labelled i e) :=
  inferInstanceAs (Decidable (∀ ds ∈ e.takes, ∀ d ∈ ds, d.sender = some i))

inductive MachineEv (Drink : Type) where
  /-- The next call of instance `i`'s alambix_init. -/
  | init (i : Nat) (fault : Option Fault)
  /-- The next statement of one of its threads. -/
  | prog (i : Nat) (e : Ev (Parcel Drink))
  /-- Its abrupt exit. -/
  | kill (i : Nat)

def killed : Int := 137

def machineStep [DecidableEq Drink] (m : Machine Drink) : MachineEv Drink → Option (Machine Drink)
  | .init i fault =>
    if (m.inst i).prog.exited = none then
      (initStep m.fs fault (m.inst i).init).map fun r => ⟨r.2, update m.inst i ((m.inst i).afterCall r.1)⟩
    else none
  | .prog i e =>
    if e.callsInit = false ∧ Labelled i e then
      (step ((m.inst i).view m.fs) e).map fun s =>
        ⟨writeBack m.fs (m.inst i).mqdes s.mq e.unlinks, update m.inst i { m.inst i with prog := s }⟩
    else none
  | .kill i =>
    guarded ((m.inst i).prog.exited = none)
      { m with inst := update m.inst i { m.inst i with prog := { (m.inst i).prog with exited := some killed } } }

/-- The recovery's mq_open, without O_EXCL, of a name that is bound: by whom, to what. -/
def Machine.reopens (m : Machine Drink) : MachineEv Drink → Option (Nat × Nat)
  | .init i none =>
    match (m.inst i).init, m.fs.names alambixBartenderMqName with
    | .mqReopen, some id => some (i, id)
    | _, _ => none
  | _ => none

/-- No two live instances hold descriptors of one queue. -/
def Apart (m : Machine Drink) : Prop :=
  ∀ i j id, (m.inst i).holds = some id → (m.inst j).holds = some id → i = j

/-- Not sent by an instance other than `i`. -/
def Mine (i : Nat) (d : Parcel Drink) : Prop := ∀ j, d.sender = some j → j = i

/-- No bartender has received a drink of another instance. -/
def OwnDrinks (m : Machine Drink) : Prop := ∀ i, ∀ d ∈ (m.inst i).prog.received, Mine i d

/-- The queue reopened is held by no live instance. -/
def ReopensUnheld (m : Machine Drink) (e : MachineEv Drink) : Prop :=
  ∀ r ∈ m.reopens e, ∀ j, (m.inst j).holds ≠ some r.2

/-- And it holds no other instance's drinks. -/
def ReopensUnused (m : Machine Drink) (e : MachineEv Drink) : Prop :=
  ReopensUnheld m e ∧ ∀ r ∈ m.reopens e, ∀ d ∈ (m.fs.objs r.2).msgs, Mine r.1 d

/-- Where runs begin: nothing launched, any name space. -/
structure Start (m : Machine Drink) : Prop where
  launched : ∀ i, m.inst i = .launched
  stale : ∀ id, ∀ d ∈ (m.fs.objs id).msgs, d.sender = none

theorem reopens_below {m : Machine Drink} {e : MachineEv Drink} {i id : Nat} (h : m.reopens e = some (i, id)) :
    id < m.fs.next := by
  unfold Machine.reopens at h
  split at h
  · split at h
    · rename_i id' _ hn
      cases h
      exact m.fs.bound _ _ hn
    · cases h
  · cases h

/-! ## What a call can open -/

theorem launched_holds : (Instance.launched : Instance Drink).holds = none := rfl

/-- What one call of alambix_init opens: nothing, a new queue, or the queue of the name. -/
theorem init_opens {Msg : Type} {fs fs' : MqFs Msg} {fault : Option Fault} {pc pc' : InitPc}
    (h : initStep fs fault pc = some (pc', fs')) :
    (∃ attr, pc' = .timerCreate (some fs.next) ∧ fs' = fs.create alambixBartenderMqName attr ∧
      fs.names alambixBartenderMqName = none) ∨
    (∃ id, pc = .mqReopen ∧ fault = none ∧ fs.names alambixBartenderMqName = some id ∧
      pc' = .timerCreate (some id) ∧ fs' = fs) ∨
    ((∀ id, pc = .mqReopen → fault = none → fs.names alambixBartenderMqName ≠ some id) ∧
      (fs' = fs ∨ fs' = fs.unbind alambixBartenderMqName) ∧
      ((∃ mq, pc = .timerCreate mq ∧ pc' = .returned mq) ∨ pc' = .mqUnlink ∨ pc' = .mqReopen ∨
        pc' = .timerCreate none ∨ ∃ code, pc' = .exited code)) := by
  cases pc with
  | mqOpenExcl =>
    cases fault with
    | some e =>
      have he : e.val ≠ .EEXIST := e.property
      simp [initStep, MqFs.mqOpen, he] at h
      obtain ⟨rfl, rfl⟩ := h
      simp
    | none =>
      cases hn : fs.names alambixBartenderMqName with
      | none =>
        simp [initStep, MqFs.mqOpen, hn] at h
        obtain ⟨rfl, rfl⟩ := h
        exact .inl ⟨_, rfl, rfl, rfl⟩
      | some id =>
        simp [initStep, MqFs.mqOpen, hn] at h
        obtain ⟨rfl, rfl⟩ := h
        simp
  | mqUnlink =>
    cases fault <;> simp [initStep, MqFs.mqUnlink] at h <;> obtain ⟨rfl, rfl⟩ := h <;> simp
  | mqReopen =>
    cases fault with
    | some e =>
      simp [initStep, MqFs.mqOpen] at h
      obtain ⟨rfl, rfl⟩ := h
      simp
    | none =>
      cases hn : fs.names alambixBartenderMqName with
      | none =>
        simp [initStep, MqFs.mqOpen, hn] at h
        obtain ⟨rfl, rfl⟩ := h
        exact .inl ⟨_, rfl, rfl, rfl⟩
      | some id =>
        simp [initStep, MqFs.mqOpen, hn] at h
        obtain ⟨rfl, rfl⟩ := h
        exact .inr (.inl ⟨id, rfl, rfl, rfl, rfl, rfl⟩)
  | timerCreate mq =>
    simp only [initStep, Option.some.injEq, Prod.mk.injEq] at h
    obtain ⟨hpc, rfl⟩ := h
    refine .inr (.inr ⟨by simp, .inl rfl, ?_⟩)
    split at hpc
    · exact .inr (.inr (.inr (.inr ⟨_, hpc.symm⟩)))
    · exact .inl ⟨mq, rfl, hpc.symm⟩
  | returned mq => cases h
  | exited code => cases h

theorem holds_afterCall (x : Instance Drink) (pc : InitPc) (hx : x.prog.exited = none) :
    (x.afterCall pc).holds =
      match pc with
      | .timerCreate mq => mq
      | .returned mq => mq
      | _ => none := by
  cases pc with
  | returned mq => cases mq <;> simp [Instance.afterCall, Instance.holds, hx]
  | _ => simp [Instance.afterCall, Instance.holds, hx]

theorem afterCall_prog (x : Instance Drink) (pc : InitPc) :
    (x.afterCall pc).prog.received = x.prog.received ∧ (x.afterCall pc).prog.toFetch = x.prog.toFetch ∧
      (x.afterCall pc).prog.waiter = x.prog.waiter := by
  cases pc <;> exact ⟨rfl, rfl, rfl⟩

/-! ## The name space and one instance's view of it -/

/-- The drinks the waiter has still to send. -/
def St.outgoing (s : St Drink) : List Drink := s.toFetch ++ s.waiter.unsent

theorem view_exited (x : Instance Drink) (fs : MqFs (Parcel Drink)) : (x.view fs).exited = x.prog.exited := by
  unfold Instance.view; split <;> rfl

theorem view_mqOpen (x : Instance Drink) (fs : MqFs (Parcel Drink)) : (x.view fs).mqOpen = x.prog.mqOpen := by
  unfold Instance.view; split <;> rfl

theorem view_received (x : Instance Drink) (fs : MqFs (Parcel Drink)) : (x.view fs).received = x.prog.received := by
  unfold Instance.view; split <;> rfl

theorem view_outgoing (x : Instance Drink) (fs : MqFs (Parcel Drink)) : (x.view fs).outgoing = x.prog.outgoing := by
  unfold Instance.view; split <;> rfl

theorem view_mq {x : Instance Drink} {id : Nat} (h : x.mqdes = some id) (fs : MqFs (Parcel Drink)) :
    (x.view fs).mq = fs.objs id := by
  simp [Instance.view, h]

theorem writeBack_next (fs : MqFs (Parcel Drink)) (mqdes : Option Nat) (q : Mq (Parcel Drink)) (u : Bool) :
    (writeBack fs mqdes q u).next = fs.next := by
  unfold writeBack
  cases mqdes <;> cases u <;> rfl

theorem writeBack_objs (fs : MqFs (Parcel Drink)) (mqdes : Option Nat) (q : Mq (Parcel Drink)) (u : Bool) (id : Nat) :
    (writeBack fs mqdes q u).objs id = if mqdes = some id then q else fs.objs id := by
  unfold writeBack
  cases mqdes with
  | none => cases u <;> rfl
  | some id' =>
    by_cases h : id' = id
    · subst h
      cases u <;> simp [MqFs.setObj]
    · have h' : id ≠ id' := fun e => h e.symm
      cases u <;> simp [MqFs.setObj, h, h']

/-- An open descriptor of a live instance. -/
theorem holds_of_mqdes {x : Instance Drink} {id : Nat} (h : x.mqdes = some id) (hx : x.prog.exited = none)
    (ho : x.prog.mqOpen = true) : x.holds = some id := by
  unfold Instance.mqdes at h
  split at h
  · rename_i mq hm
    simp [Instance.holds, hm, hx, ho, h]
  · cases h

/-- A statement opens nothing. -/
theorem holds_after (x : Instance Drink) {s : St (Parcel Drink)} (hx : x.prog.exited = none)
    (ho : s.mqOpen = true → x.prog.mqOpen = true) :
    ({ x with prog := s } : Instance Drink).holds = none ∨ ({ x with prog := s } : Instance Drink).holds = x.holds := by
  cases hs : s.exited with
  | some code => exact .inl (by simp [Instance.holds, hs])
  | none =>
    cases hi : x.init with
    | returned mq =>
      by_cases hopen : s.mqOpen = true
      · exact .inr (by simp [Instance.holds, hs, hx, hi, hopen, ho hopen])
      · exact .inl (by simp [Instance.holds, hs, hopen])
    | _ => exact .inr (by simp [Instance.holds, hs, hx, hi])

/-! ## The invariant -/

/-- Queues held exist. -/
def Below (m : Machine Drink) : Prop := ∀ i id, (m.inst i).holds = some id → id < m.fs.next

structure Clean (m : Machine Drink) : Prop where
  below : Below m
  closed : ∀ i, (m.inst i).mqdes = none → (m.inst i).prog.mqOpen = false
  apart : Apart m
  queue : ∀ i id, (m.inst i).holds = some id → ∀ d ∈ (m.fs.objs id).msgs, Mine i d
  outgoing : ∀ i, ∀ d ∈ (m.inst i).prog.outgoing, Mine i d
  received : OwnDrinks m

theorem Start.clean {m : Machine Drink} (h0 : Start m) : Clean m where
  below i id h := by rw [h0.launched, launched_holds] at h; cases h
  closed i _ := by rw [h0.launched]; rfl
  apart i j id h := by rw [h0.launched, launched_holds] at h; cases h
  queue i id h := by rw [h0.launched, launched_holds] at h; cases h
  outgoing i d h := by rw [h0.launched] at h; cases h
  received i d h := by rw [h0.launched] at h; cases h

/-! ## What a statement of the program does to its queue -/

/-- What a statement of the program does to its queue and to what goes in and out of it. -/
structure QueueEffect (s s' : St Drink) (e : Ev Drink) : Prop where
  mqOpen : s'.mqOpen = true → s.mqOpen = true
  closed : s.mqOpen = false → s'.mq = s.mq
  msgs : ∀ d ∈ s'.mq.msgs, d ∈ s.mq.msgs ∨ d ∈ s.outgoing
  received : ∀ d ∈ s'.received, d ∈ s.received ∨ (s.mqOpen = true ∧ d ∈ s.mq.msgs)
  outgoing : ∀ d ∈ s'.outgoing, d ∈ s.outgoing ∨ ∃ ds ∈ e.takes, d ∈ ds

/-- Statements that leave the queue and the waiter's drinks alone. -/
theorem QueueEffect.same {s s' : St Drink} {e : Ev Drink} (ho : s'.mqOpen = true → s.mqOpen = true) (hq : s'.mq = s.mq)
    (hr : ∀ d ∈ s'.received, d ∈ s.received) (hf : ∀ d ∈ s'.outgoing, d ∈ s.outgoing) : QueueEffect s s' e where
  mqOpen := ho
  closed _ := hq
  msgs _ hd := Or.inl (hq ▸ hd)
  received d hd := Or.inl (hr d hd)
  outgoing d hd := Or.inl (hf d hd)

variable [DecidableEq Drink]

theorem waiter_effect {s s' : St Drink} {e : WaiterEv Drink} (h : waiterThreadFct s e = some s') :
    QueueEffect s s' (.waiter e) := by
  cases e with
  | takeOrder ds =>
    obtain ⟨hpc, rfl⟩ := guarded_eq_some.mp h
    refine ⟨id, fun _ => rfl, fun d hd => .inl hd, fun d hd => .inl hd, fun d hd => .inr ⟨ds, rfl, ?_⟩⟩
    simpa [St.outgoing, WaiterPc.unsent] using hd
  | getOrderedDrink d =>
    obtain ⟨⟨hpc, hd⟩, rfl⟩ := guarded_eq_some.mp h
    obtain ⟨rest, hrest⟩ := List.head?_eq_some_iff.mp hd
    refine .same id rfl (fun _ h => h) fun x hx => ?_
    simp only [St.outgoing, WaiterPc.unsent, hrest, List.tail_cons, List.mem_append, List.mem_singleton] at hx
    rw [St.outgoing, hrest]
    rcases hx with hx | rfl
    · exact List.mem_append_left _ (List.mem_cons_of_mem _ hx)
    · exact List.mem_append_left _ List.mem_cons_self
  | mqSend d =>
    obtain ⟨⟨hpc, hopen, -⟩, rfl⟩ := guarded_eq_some.mp h
    refine ⟨id, fun hc => by simp [hopen] at hc, fun x hx => ?_, fun d hd => .inl hd, fun x hx => ?_⟩
    · rcases List.mem_append.mp hx with hx | hx
      · exact .inl hx
      · exact .inr (by simp [St.outgoing, hpc, WaiterPc.unsent, List.mem_singleton.mp hx])
    · exact .inl (by simp [St.outgoing, WaiterPc.unsent] at hx ⊢; exact .inl hx)
  | mqClose d =>
    obtain ⟨hpc, rfl⟩ := guarded_eq_some.mp h
    exact .same (fun h => by cases h) rfl (fun _ h => h) fun x hx => by
      simpa [St.outgoing, hpc, WaiterPc.unsent] using hx
  | _ =>
    obtain ⟨hpc, rfl⟩ := guarded_eq_some.mp h
    exact .same id rfl (fun _ h => h) fun x hx => by simp_all [St.outgoing, WaiterPc.unsent]

theorem bartender_effect {s s' : St Drink} {e : BartenderEv Drink} (h : bartenderThreadFct s e = some s') :
    QueueEffect s s' (.bartender e) := by
  cases e with
  | mqReceive d =>
    obtain ⟨⟨hpc, hopen, hrcv⟩, rfl⟩ := guarded_eq_some.mp h
    refine ⟨id, fun hc => by simp [hopen] at hc, fun x hx => ?_, fun x hx => ?_, fun x hx => .inl hx⟩
    · exact .inl (List.mem_of_mem_tail hx)
    · rcases List.mem_append.mp hx with hx | hx
      · exact .inl hx
      · exact .inr ⟨hopen, by rw [hrcv.msgs, List.mem_singleton.mp hx]; exact List.mem_cons_self⟩
  | mqClose =>
    obtain ⟨hpc, rfl⟩ := guarded_eq_some.mp h
    exact .same (fun h => by cases h) rfl (fun _ h => h) fun _ h => h
  | _ =>
    obtain ⟨-, rfl⟩ := guarded_eq_some.mp h
    exact .same id rfl (fun _ h => h) fun _ h => h

theorem main_effect {s s' : St Drink} {e : MainEv Drink} (hinit : (Ev.main e).callsInit = false)
    (h : mainThread s e = some s') : QueueEffect s s' (.main e) := by
  cases e with
  | alambixInit fs w => cases hinit
  | alambixStart chosen =>
    obtain ⟨-, rfl⟩ := guarded_eq_some.mp h
    exact .same id rfl (fun _ h => by cases h) fun _ h => by cases h
  | pthreadCreate =>
    obtain ⟨t, -, rfl⟩ := pthreadCreate_eq_some.mp h
    exact .same id rfl (fun _ h => h) fun _ h => h
  | pthreadCreateFail =>
    obtain ⟨t, -, rfl⟩ := pthreadCreateFail_eq_some.mp h
    exact .same id rfl (fun _ h => h) fun _ h => h
  | pthreadDetach =>
    obtain ⟨t, -, rfl⟩ := pthreadDetach_eq_some.mp h
    exact .same id rfl (fun _ h => h) fun _ h => h
  | mqClose =>
    obtain ⟨-, rfl⟩ := guarded_eq_some.mp h
    exact .same (fun h => by cases h) rfl (fun _ h => h) fun _ h => h
  | _ =>
    obtain ⟨-, rfl⟩ := guarded_eq_some.mp h
    exact .same id rfl (fun _ h => h) fun _ h => h

theorem step_effect {s s' : St Drink} {e : Ev Drink} (hinit : e.callsInit = false) (h : step s e = some s') :
    QueueEffect s s' e := by
  obtain ⟨-, h⟩ := step_eq_some.mp h
  cases e with
  | main e => exact main_effect hinit h
  | waiter e => exact waiter_effect h
  | bartender e => exact bartender_effect h
  | client c e => rw [client_touches h]; exact .same id rfl (fun _ h => h) fun _ h => h
  | timer e => rw [timer_touches h]; exact .same id rfl (fun _ h => h) fun _ h => h

/-! ## The machine's events -/

theorem init_step {m m' : Machine Drink} {i : Nat} {fault : Option Fault}
    (h : machineStep m (.init i fault) = some m') :
    (m.inst i).prog.exited = none ∧ ∃ pc, initStep m.fs fault (m.inst i).init = some (pc, m'.fs) ∧
      m'.inst = update m.inst i ((m.inst i).afterCall pc) := by
  simp only [machineStep] at h
  split at h
  · rename_i hx
    obtain ⟨⟨pc, fs⟩, hcall, rfl⟩ := Option.map_eq_some_iff.mp h
    exact ⟨hx, pc, hcall, rfl⟩
  · cases h

theorem prog_step {m m' : Machine Drink} {i : Nat} {e : Ev (Parcel Drink)}
    (h : machineStep m (.prog i e) = some m') :
    ∃ s, step ((m.inst i).view m.fs) e = some s ∧ e.callsInit = false ∧ Labelled i e ∧
      m' = ⟨writeBack m.fs (m.inst i).mqdes s.mq e.unlinks, update m.inst i { m.inst i with prog := s }⟩ := by
  simp only [machineStep] at h
  split at h
  · rename_i hc
    obtain ⟨s, hs, rfl⟩ := Option.map_eq_some_iff.mp h
    exact ⟨s, hs, hc.1, hc.2, rfl⟩
  · cases h

theorem init_step_of {m : Machine Drink} {i : Nat} {fault : Option Fault} {r : InitPc × MqFs (Parcel Drink)}
    (hx : (m.inst i).prog.exited = none) (h : initStep m.fs fault (m.inst i).init = some r) :
    machineStep m (.init i fault) = some ⟨r.2, update m.inst i ((m.inst i).afterCall r.1)⟩ := by
  simp [machineStep, hx, h]

theorem initRun_reached (w : InitWorld) (i : Nat) (n : Nat) (m : Machine Drink)
    (hx : (m.inst i).prog.exited = none ∨ ∃ code, (m.inst i).init = .exited code) :
    ∃ m', Reach machineStep (fun _ e => ∃ fault, e = .init i fault) m m' ∧
      ((m'.inst i).init, m'.fs) = initRun w n ((m.inst i).init, m.fs) ∧ ∀ j, j ≠ i → m'.inst j = m.inst j := by
  induction n generalizing m with
  | zero => exact ⟨m, .refl, rfl, fun _ _ => rfl⟩
  | succ n ih =>
    cases hcall : initStep m.fs (w.fault (m.inst i).init) (m.inst i).init with
    | none => exact ⟨m, .refl, by simp [initRun, hcall], fun _ _ => rfl⟩
    | some r =>
      have halive : (m.inst i).prog.exited = none := by
        rcases hx with hx | ⟨code, hcode⟩
        · exact hx
        · rw [hcode] at hcall; cases hcall
      have hstep := init_step_of halive hcall
      have hnext : ((m.inst i).afterCall r.1).init = r.1 := by cases r.1 <;> rfl
      have hx' : ((m.inst i).afterCall r.1).prog.exited = none ∨
          ∃ code, ((m.inst i).afterCall r.1).init = .exited code := by
        cases hr : r.1 with
        | exited code => exact .inr ⟨code, rfl⟩
        | _ => exact .inl halive
      obtain ⟨m', hreach, hend, hother⟩ := ih ⟨r.2, update m.inst i ((m.inst i).afterCall r.1)⟩ (by simpa using hx')
      refine ⟨m', (Reach.step .refl ⟨_, rfl⟩ hstep).trans hreach, ?_, fun j hj => ?_⟩
      · rw [hend]
        simp [initRun, hcall, hnext]
      · rw [hother j hj]
        exact Function.update_of_ne hj _ _

/-- The calls of one instance's alambix_init, when nobody else acts meanwhile, are
    `alambixInit`. -/
theorem alone_runs_alambixInit {m : Machine Drink} {i : Nat} (hi : m.inst i = .launched) (w : InitWorld) :
    ∃ m', Reach machineStep (fun _ e => ∃ fault, e = .init i fault) m m' ∧
      ((m'.inst i).init, m'.fs) = alambixInit m.fs w ∧ ∀ j, j ≠ i → m'.inst j = m.inst j := by
  obtain ⟨m', hreach, hend, hother⟩ := initRun_reached w i 4 m (Or.inl (by rw [hi]; rfl))
  rw [hi] at hend
  exact ⟨m', hreach, hend, hother⟩

/-! ## Who holds what -/

/-- One event changes one instance; it opens nothing, or a new queue, or reopens. -/
theorem step_opens {m m' : Machine Drink} {e : MachineEv Drink} (h : machineStep m e = some m') :
    ∃ i, (∀ j, j ≠ i → m'.inst j = m.inst j) ∧
      ((m.reopens e = none ∧ m'.fs.next = m.fs.next ∧
          ((m'.inst i).holds = none ∨ (m'.inst i).holds = (m.inst i).holds)) ∨
        (m.reopens e = none ∧ (m'.inst i).holds = some m.fs.next ∧ m'.fs.next = m.fs.next + 1) ∨
        (∃ id, m.reopens e = some (i, id) ∧ (m.inst i).holds = none ∧ (m'.inst i).holds = some id ∧
          m'.fs = m.fs)) := by
  cases e with
  | init i fault =>
    obtain ⟨hx, pc, hcall, hinst⟩ := init_step h
    have hafter := holds_afterCall (m.inst i) pc hx
    rw [← Function.update_self i ((m.inst i).afterCall pc) m.inst, ← hinst] at hafter
    refine ⟨i, fun j hj => by rw [hinst, Function.update_of_ne hj], ?_⟩
    rcases init_opens hcall with ⟨attr, rfl, hfs, hname⟩ | ⟨id, hpc, rfl, hname, rfl, hfs⟩ | ⟨hno, hfs, hpc⟩
    · refine .inr (.inl ⟨?_, hafter, by rw [hfs]; rfl⟩)
      cases fault <;> simp [Machine.reopens, hname]
    · refine .inr (.inr ⟨id, by simp [Machine.reopens, hpc, hname], ?_, hafter, hfs⟩)
      simp [Instance.holds, hpc]
    · have hre : m.reopens (.init i fault) = none := by
        cases fault with
        | some e => rfl
        | none =>
          simp only [Machine.reopens]
          split
          · rename_i id hi hn
            exact absurd hn (hno id hi rfl)
          · rfl
      refine .inl ⟨hre, by rcases hfs with hfs | hfs <;> rw [hfs]; rfl, ?_⟩
      rcases hpc with ⟨mq, hmq, rfl⟩ | rfl | rfl | rfl | ⟨code, rfl⟩
      · exact .inr (by rw [hafter]; simp [Instance.holds, hmq, hx])
      · exact .inl hafter
      · exact .inl hafter
      · exact .inl hafter
      · exact .inl hafter
  | prog i e =>
    obtain ⟨s, hs, hinit, -, rfl⟩ := prog_step h
    have hx : (m.inst i).prog.exited = none := by
      rw [← view_exited _ m.fs]
      exact alive_of_step hs
    have ho := (step_effect hinit hs).mqOpen
    rw [view_mqOpen] at ho
    refine ⟨i, fun j hj => Function.update_of_ne hj _ _, .inl ⟨rfl, writeBack_next _ _ _ _, ?_⟩⟩
    simpa using holds_after (m.inst i) hx ho
  | kill i =>
    obtain ⟨hx, rfl⟩ := guarded_eq_some.mp h
    refine ⟨i, fun j hj => Function.update_of_ne hj _ _, .inl ⟨rfl, rfl, .inl ?_⟩⟩
    simp [Instance.holds]

theorem step_below {m m' : Machine Drink} {e : MachineEv Drink} (hb : Below m) (h : machineStep m e = some m') :
    Below m' := by
  obtain ⟨i, hother, hcase⟩ := step_opens h
  intro j id hj
  by_cases hji : j = i
  · subst hji
    rcases hcase with ⟨-, hnext, hnone | hsame⟩ | ⟨-, hnew, hnext⟩ | ⟨id', hre, -, hold, hfs⟩
    · rw [hnone] at hj; cases hj
    · rw [hnext]; exact hb j id (hsame ▸ hj)
    · rw [hnew] at hj
      cases hj
      omega
    · rw [hold] at hj
      cases hj
      rw [hfs]
      exact reopens_below hre
  · have hold := hb j id (hother j hji ▸ hj)
    rcases hcase with ⟨-, hnext, -⟩ | ⟨-, -, hnext⟩ | ⟨-, -, -, -, hfs⟩
    · omega
    · omega
    · rw [hfs]; exact hold

/-- One event keeps the instances apart exactly when it does not reopen a queue that is held. -/
theorem step_apart_iff {m m' : Machine Drink} {e : MachineEv Drink} (hb : Below m) (ha : Apart m)
    (h : machineStep m e = some m') : Apart m' ↔ ReopensUnheld m e := by
  obtain ⟨i, hother, hcase⟩ := step_opens h
  -- it is enough to look at the instance that moved
  have hapart : Apart m' ↔ ∀ j, j ≠ i → ∀ id, (m'.inst i).holds = some id → (m.inst j).holds ≠ some id := by
    constructor
    · intro ha' j hj id hi hjid
      exact hj (ha' j i id (hother j hj ▸ hjid) hi)
    · intro hno j k id hj hk
      by_cases hji : j = i
      · by_cases hki : k = i
        · rw [hji, hki]
        · subst hji
          rw [hother k hki] at hk
          exact absurd hk (hno k hki id hj)
      · rw [hother j hji] at hj
        by_cases hki : k = i
        · subst hki
          exact absurd hj (hno j hji id hk)
        · rw [hother k hki] at hk
          exact ha j k id hj hk
  rw [hapart]
  rcases hcase with ⟨hre, -, hopen⟩ | ⟨hre, hnew, -⟩ | ⟨id, hre, hfree, hold, -⟩
  · refine ⟨fun _ r hr => (by rw [hre] at hr; cases hr), fun _ j hj id hi hjid => ?_⟩
    rcases hopen with hnone | hsame
    · rw [hnone] at hi; cases hi
    · exact hj (ha j i id hjid (hsame ▸ hi))
  · refine ⟨fun _ r hr => (by rw [hre] at hr; cases hr), fun _ j hj id hi hjid => ?_⟩
    rw [hnew] at hi
    cases hi
    have := hb j _ hjid
    omega
  · constructor
    · intro hno r hr j hjid
      rw [hre] at hr
      cases hr
      by_cases hji : j = i
      · rw [hji, hfree] at hjid; cases hjid
      · exact hno j hji id hold hjid
    · intro hun j hj id' hi hjid
      rw [hold] at hi
      cases hi
      exact hun _ hre j hjid

/-! ## Whose drinks are where -/

theorem init_queue {m m' : Machine Drink} {i : Nat} {fault : Option Fault} (hi : Clean m)
    (hu : ReopensUnused m (.init i fault)) (h : machineStep m (.init i fault) = some m') :
    ∀ j id, (m'.inst j).holds = some id → ∀ d ∈ (m'.fs.objs id).msgs, Mine j d := by
  obtain ⟨hx, pc, hcall, hinst⟩ := init_step h
  have hafter := holds_afterCall (m.inst i) pc hx
  rw [← Function.update_self i ((m.inst i).afterCall pc) m.inst, ← hinst] at hafter
  have hobjs : ∀ id, id < m.fs.next → m'.fs.objs id = m.fs.objs id := by
    intro id hid
    rcases init_opens hcall with ⟨attr, -, hfs, -⟩ | ⟨-, -, -, -, -, hfs⟩ | ⟨-, hfs | hfs, -⟩
    · rw [hfs, MqFs.create_objs_ne _ _ _ (by omega)]
    · rw [hfs]
    · rw [hfs]
    · rw [hfs]; rfl
  intro j id hj
  by_cases hji : j = i
  · subst hji
    rcases init_opens hcall with ⟨attr, rfl, hfs, -⟩ | ⟨id', hpc, rfl, hname, rfl, hfs⟩ | ⟨-, -, hpc⟩
    · rw [hafter] at hj
      cases hj
      rw [hfs, MqFs.create_objs]
      intro d hd; cases hd
    · rw [hafter] at hj
      cases hj
      rw [hfs]
      exact hu.2 (j, id) (by simp [Machine.reopens, hpc, hname])
    · rcases hpc with ⟨mq, hmq, rfl⟩ | rfl | rfl | rfl | ⟨code, rfl⟩
      · rw [hafter] at hj
        have hold : (m.inst j).holds = some id := by simp [Instance.holds, hmq, hx, hj]
        rw [hobjs id (hi.below j id hold)]
        exact hi.queue j id hold
      all_goals rw [hafter] at hj; cases hj
  · rw [hinst, Function.update_of_ne hji] at hj
    rw [hobjs id (hi.below j id hj)]
    exact hi.queue j id hj

/-- What a statement of an instance leaves in its queue is its own; it cannot reach the
    queue of another. -/
theorem prog_queue {m m' : Machine Drink} {i : Nat} {e : Ev (Parcel Drink)} (hi : Clean m)
    (h : machineStep m (.prog i e) = some m') :
    ∀ j id, (m'.inst j).holds = some id → ∀ d ∈ (m'.fs.objs id).msgs, Mine j d := by
  obtain ⟨s, hs, hinit, -, rfl⟩ := prog_step h
  have heff := step_effect hinit hs
  have hx : (m.inst i).prog.exited = none := by
    rw [← view_exited _ m.fs]
    exact alive_of_step hs
  have hopen := heff.mqOpen
  rw [view_mqOpen] at hopen
  intro j id hj
  have hold : (m.inst j).holds = some id := by
    by_cases hji : j = i
    · subst hji
      simp only [Function.update_self] at hj
      rcases holds_after (m.inst j) hx hopen with h' | h'
      · rw [h'] at hj; cases hj
      · rwa [h'] at hj
    · simpa only [Function.update_of_ne hji] using hj
  have hqueue := hi.queue j id hold
  simp only [writeBack_objs]
  split
  · rename_i hdes
    have hview := view_mq hdes m.fs
    cases ho : (m.inst i).prog.mqOpen with
    | false =>
      rw [heff.closed (by rw [view_mqOpen, ho]), hview]
      exact hqueue
    | true =>
      -- an open descriptor of `i` behind which lies the queue of `j`
      obtain rfl := hi.apart i j id (holds_of_mqdes hdes hx ho) hold
      intro d hd
      rcases heff.msgs d hd with hd | hd
      · rw [hview] at hd
        exact hqueue d hd
      · rw [view_outgoing] at hd
        exact hi.outgoing i d hd
  · exact hqueue

theorem prog_drinks {m m' : Machine Drink} {i : Nat} {e : Ev (Parcel Drink)} (hi : Clean m)
    (h : machineStep m (.prog i e) = some m') :
    (∀ d ∈ (m'.inst i).prog.outgoing, Mine i d) ∧ ∀ d ∈ (m'.inst i).prog.received, Mine i d := by
  obtain ⟨s, hs, hinit, hlab, rfl⟩ := prog_step h
  have heff := step_effect hinit hs
  have hx : (m.inst i).prog.exited = none := by
    rw [← view_exited _ m.fs]
    exact alive_of_step hs
  simp only [Function.update_self]
  refine ⟨fun d hd => ?_, fun d hd => ?_⟩
  · rcases heff.outgoing d hd with hd | ⟨ds, hds, hd⟩
    · rw [view_outgoing] at hd
      exact hi.outgoing i d hd
    · intro j hj
      rw [hlab ds hds d hd] at hj
      exact (Option.some.inj hj).symm
  · rcases heff.received d hd with hd | ⟨ho, hd⟩
    · rw [view_received] at hd
      exact hi.received i d hd
    · rw [view_mqOpen] at ho
      cases hdes : (m.inst i).mqdes with
      | some id =>
        rw [view_mq hdes] at hd
        exact hi.queue i id (holds_of_mqdes hdes hx ho) d hd
      | none =>
        rw [hi.closed i hdes] at ho
        cases ho

theorem step_closed {m m' : Machine Drink} {e : MachineEv Drink}
    (hc : ∀ i, (m.inst i).mqdes = none → (m.inst i).prog.mqOpen = false) (h : machineStep m e = some m') :
    ∀ i, (m'.inst i).mqdes = none → (m'.inst i).prog.mqOpen = false := by
  intro j
  cases e with
  | init i fault =>
    obtain ⟨-, pc, hcall, hinst⟩ := init_step h
    rw [hinst]
    by_cases hji : j = i
    · subst hji
      rw [Function.update_self]
      have hold : (m.inst j).prog.mqOpen = false := by
        apply hc j
        unfold Instance.mqdes
        cases hpc : (m.inst j).init with
        | returned mq => rw [hpc] at hcall; cases hcall
        | _ => rfl
      cases pc with
      | returned mq =>
        intro hm
        have hm : mq = none := hm
        rw [hm]; rfl
      | _ => exact fun _ => hold
    · rw [Function.update_of_ne hji]
      exact hc j
  | prog i e =>
    obtain ⟨s, hs, hinit, -, rfl⟩ := prog_step h
    have hopen := (step_effect hinit hs).mqOpen
    rw [view_mqOpen] at hopen
    by_cases hji : j = i
    · subst hji
      simp only [Function.update_self]
      intro hm
      have hold := hc j hm
      by_contra ho
      rw [hopen (by simpa using ho)] at hold
      cases hold
    · simpa only [Function.update_of_ne hji] using hc j
  | kill i =>
    obtain ⟨-, rfl⟩ := guarded_eq_some.mp h
    by_cases hji : j = i
    · subst hji
      simp only [Function.update_self]
      exact hc j
    · simpa only [Function.update_of_ne hji] using hc j

theorem step_clean {m m' : Machine Drink} {e : MachineEv Drink} (hi : Clean m) (hu : ReopensUnused m e)
    (h : machineStep m e = some m') : Clean m' := by
  have hbelow := step_below hi.below h
  have hapart := (step_apart_iff hi.below hi.apart h).mpr hu.1
  have hclosed := step_closed hi.closed h
  cases e with
  | init i fault =>
    have hqueue := init_queue hi hu h
    obtain ⟨-, pc, -, hinst⟩ := init_step h
    obtain ⟨hrec, hfetch, hpc⟩ := afterCall_prog (m.inst i) pc
    refine ⟨hbelow, hclosed, hapart, hqueue, fun j => ?_, fun j => ?_⟩ <;> rw [hinst] <;> by_cases hji : j = i
    · subst hji
      rw [Function.update_self, St.outgoing, hfetch, hpc]
      exact hi.outgoing j
    · rw [Function.update_of_ne hji]
      exact hi.outgoing j
    · subst hji
      rw [Function.update_self, hrec]
      exact hi.received j
    · rw [Function.update_of_ne hji]
      exact hi.received j
  | prog i e =>
    have hqueue := prog_queue hi h
    obtain ⟨hout, hrec⟩ := prog_drinks hi h
    obtain ⟨s, -, -, -, rfl⟩ := prog_step h
    refine ⟨hbelow, hclosed, hapart, hqueue, fun j => ?_, fun j => ?_⟩ <;> by_cases hji : j = i
    · subst hji; exact hout
    · simpa only [Function.update_of_ne hji] using hi.outgoing j
    · subst hji; exact hrec
    · simpa only [Function.update_of_ne hji] using hi.received j
  | kill i =>
    obtain ⟨-, rfl⟩ := guarded_eq_some.mp h
    refine ⟨hbelow, hclosed, hapart, fun j id hj => ?_, fun j => ?_, fun j => ?_⟩ <;> by_cases hji : j = i
    · subst hji
      simp [Instance.holds] at hj
    · simp only [Function.update_of_ne hji] at hj
      exact hi.queue j id hj
    · subst hji
      simp only [Function.update_self]
      exact hi.outgoing j
    · simpa only [Function.update_of_ne hji] using hi.outgoing j
    · subst hji
      simp only [Function.update_self]
      exact hi.received j
    · simpa only [Function.update_of_ne hji] using hi.received j

/-! ## Any number of instances -/

/-- In every run of the instances: no two live ones hold one queue, in any state, exactly
    when every mq_open without O_EXCL that finds the name bound finds a queue no live
    instance holds. If that queue also holds no drinks of another instance, no bartender
    receives a drink sent by the waiter of another. -/
theorem queues_apart_iff {m₀ m : Machine Drink} (h0 : Start m₀) {tr : List (Machine Drink × MachineEv Drink)}
    (hr : Run machineStep (fun _ _ => True) m₀ tr m) :
    ((∀ t ∈ visited tr m, Apart t) ↔ ∀ x ∈ tr, ReopensUnheld x.1 x.2) ∧
    ((∀ x ∈ tr, ReopensUnused x.1 x.2) → ∀ t ∈ visited tr m, Apart t ∧ OwnDrinks t) := by
  constructor
  · refine hr.safe_iff (J := Below) (fun m hm => ?_) h0.clean.apart fun m e m' hb ha _ hs => step_apart_iff hb ha hs
    exact hm.inv h0.clean.below fun _ _ _ hb _ hs => step_below hb hs
  · intro hu t ht
    have hclean := hr.safe_of (J := fun _ => True) (P := Clean) (fun _ _ => trivial) hu h0.clean
      fun _ _ _ _ hi _ hu hs => step_clean hi hu hs
    exact ⟨(hclean t ht).apart, (hclean t ht).received⟩

/-- The name bound to the empty queue of a program that crashed. -/
def afterCrash : Machine Nat := ⟨crashedFs, fun _ => .launched⟩

theorem afterCrash_start : Start afterCrash := ⟨fun _ => rfl, fun _ _ h => by cases h⟩

/-- Instance 1 creates its queue between the mq_unlink of instance 0 and its mq_open. -/
def recoveryRace : List (MachineEv Nat) :=
  [.init 0 none, .init 0 none, .init 1 none, .init 0 none, .init 0 none, .init 1 none]

/-- A round with one drink of instance 1's, up to its mq_send. -/
def oneDrinkSent : List (Ev (Parcel Nat)) :=
  (startRound fun c => if c = .client0 then [⟨some 1, 7⟩] else []) ++ orderOne .client0 ⟨some 1, 7⟩ [] ++
    [.client .client1 .chooseNull, .client .client1 .semPost, .waiter .semWaitFirst, .waiter .semWaitSecond,
      .waiter (.takeOrder [⟨some 1, 7⟩]), .waiter (.getOrderedDrink ⟨some 1, 7⟩), .waiter (.mqSend ⟨some 1, 7⟩)]

/-- The bartender of instance 0 receives it. -/
def otherDrink : List (MachineEv Nat) :=
  recoveryRace ++ oneDrinkSent.map (.prog 1) ++ (startRound fun _ => []).map (.prog 0) ++
    [.prog 0 (.bartender (.mqReceive ⟨some 1, 7⟩))]

theorem recovery_opens_the_other_queue :
    ∃ m, Reach machineStep (fun _ _ => True) afterCrash m ∧ (m.inst 0).holds = some 1 ∧ (m.inst 1).holds = some 1 ∧
      (m.inst 0).prog.received = [⟨some 1, 7⟩] ∧ ¬ Apart m ∧ ¬ OwnDrinks m := by
  have hr : Reach machineStep (fun _ _ => True) afterCrash _ := exec_get_reach otherDrink (by decide)
  refine ⟨_, hr, by decide, by decide, by decide, fun ha => ?_, fun ho => ?_⟩
  · exact absurd (ha 0 1 1 (by decide) (by decide)) (by decide)
  · exact absurd (ho 0 ⟨some 1, 7⟩ (by decide) 1 rfl) (by decide)

/-- Both recover, one after the other. -/
def recoverInTurn : List (MachineEv Nat) :=
  [.init 0 none, .init 0 none, .init 0 none, .init 0 none, .init 1 none, .init 1 none, .init 1 none, .init 1 none]

theorem recovering_in_turn_keeps_apart :
    ∃ tr m, Run machineStep (fun _ _ => True) afterCrash tr m ∧ (m.inst 0).holds = some 1 ∧ (m.inst 1).holds = some 2 ∧
      (∀ t ∈ visited tr m, Apart t) ∧ ∀ t ∈ visited tr m, Apart t ∧ OwnDrinks t := by
  have hreach : Reach machineStep (fun m e => m.reopens e = none) afterCrash _ :=
    exec_get_reach recoverInTurn (by decide)
  obtain ⟨tr, hrun⟩ := hreach.run
  have hfree := fun x hx => (hrun.next_visited x hx).2.1
  have hr : Run machineStep (fun _ _ => True) afterCrash tr _ := hrun.mono fun _ _ _ => trivial
  have hunheld : ∀ x ∈ tr, ReopensUnheld x.1 x.2 := fun x hx r hre => by
    rw [hfree x hx] at hre; cases hre
  have hunused : ∀ x ∈ tr, ReopensUnused x.1 x.2 := fun x hx => ⟨hunheld x hx, fun r hre => by
    rw [hfree x hx] at hre; cases hre⟩
  obtain ⟨hiff, himp⟩ := queues_apart_iff afterCrash_start hr
  exact ⟨tr, _, hr, by decide, by decide, hiff.mpr hunheld, himp hunused⟩

end Alambix

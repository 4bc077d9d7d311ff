/-
  Alambix.Exemples.Mq — `Exemple_3/Ex_15_mq`: a receiver prints what senders type.

  Actors. The receiver opens `/ex_15_mq` (creating it if it is not there), prints every
  message it receives, and after one that begins with "quit" closes and unlinks the queue.
  A sender opens the queue (it must be there), asks for the size of its messages, and sends
  what fgets reads from its standard input, a whole message of that size padded with zeros;
  it stops after a text that begins with "quit". `ι` are the senders. At the end of its
  input fgets reads nothing, and the sender goes on sending empty texts.

  The queue holds ten messages of 48 bytes, unless an earlier run has left one of its own;
  each message carries who sent it, which the program does not see.

  - `ChatInv`: what a sender has read so far is what was received from it, what of it is in
    the queue and what it has in its hands, piece by piece as fgets reads (of each piece a
    message says what comes before its first zero byte); and the receiver has stopped exactly
    when it has received a "quit".
  - `Echo`: one program that reads pieces of a text and prints them, until a "quit".

  Proved, for a queue that was not there before, the first two for inputs without a zero byte:
  - `chat_prints_what_was_typed`: any number of senders, whatever fails.
  - `chat_echoes`: with one sender, what is printed is exactly what `Echo` prints.
  - `chat_ends_iff`: with one sender and no failing call, when the two stop.
-/

import Alambix.Lib.CString
import Alambix.Lib.Lines
import Alambix.Lib.Mqueue
import Alambix.Lib.Simulation

namespace Alambix.Ex15

open Lib Lib.Mqueue Lib.Transition
open Function (update)

def nul : UInt8 := 0

def newline : UInt8 := 10

/-- MQ_MSG_QUIT. -/
def quit : List UInt8 := [113, 117, 105, 116]

def mqMsgMax : Nat := 10

def mqMsgSize : Nat := 48

/-- `strncmp(buffer, MQ_MSG_QUIT, strlen(MQ_MSG_QUIT)) == 0`. -/
def isQuit (buffer : List UInt8) : Bool := quit.isPrefixOf buffer

/-! ## The programs -/

inductive SenderPc where
  | mqOpen
  | fgets
  | mqSend (text : List UInt8)
  | returned
  /-- With what it had read and not sent. -/
  | exited (unsent : List (List UInt8))
  deriving DecidableEq, Repr

inductive ReceiverPc where
  | mqOpen
  | mqReceive
  | mqUnlink
  | returned
  | exited
  deriving DecidableEq, Repr

/-- A message and its sender; `none` for one of an earlier run. -/
abbrev Msg (ι : Type) := Option ι × List UInt8

structure St (ι : Type) where
  sender : ι → SenderPc
  stdin : ι → List UInt8
  receiver : ReceiverPc
  /-- The receiver's. -/
  buffer : List UInt8
  mq : Mq (Msg ι)
  /-- The name of the queue exists. -/
  linked : Bool
  /-- What follows each "> "; `none` where the buffer has no end. -/
  printed : List (Option (List UInt8))
  received : List (Msg ι)

inductive Ev (ι : Type) where
  | receiverOpen
  | receiverOpenFail
  | mqReceive (msg : Msg ι) (printed : Option (List UInt8))
  | mqReceiveFail
  | mqUnlink
  | senderOpen (i : ι)
  /-- mq_open or mq_getattr fails. -/
  | senderOpenFail (i : ι)
  | fgets (i : ι)
  | mqSend (i : ι) (text : List UInt8)
  | mqSendFail (i : ι) (text : List UInt8)

variable {ι : Type}

/-- The sender's buffer: cleared, then read into. -/
def block (size : Nat) (text : List UInt8) : List UInt8 := text ++ List.replicate (size - text.length) nul

/-- The receiver's buffer after an mq_receive of this message. -/
def received (buffer msg : List UInt8) : List UInt8 := msg ++ buffer.drop msg.length

def step [DecidableEq ι] (s : St ι) : Ev ι → Option (St ι)
  | .receiverOpen =>
    guarded (s.receiver = .mqOpen)
      { s with receiver := .mqReceive, linked := true
               mq := if s.linked then s.mq else ⟨⟨mqMsgMax, mqMsgSize⟩, []⟩ }
  | .receiverOpenFail => guarded (s.receiver = .mqOpen) { s with receiver := .exited }
  | .mqReceive m out =>
    guarded (s.receiver = .mqReceive ∧ s.mq.Receivable mqMsgSize m ∧ out = cString nul (received s.buffer m.2))
      { s with receiver := if isQuit (received s.buffer m.2) then .mqUnlink else .mqReceive
               buffer := received s.buffer m.2, mq := s.mq.receive
               printed := s.printed ++ [out], received := s.received ++ [m] }
  | .mqReceiveFail => guarded (s.receiver = .mqReceive) { s with receiver := .exited, linked := false }
  | .mqUnlink => guarded (s.receiver = .mqUnlink) { s with receiver := .returned, linked := false }
  | .senderOpen i =>
    guarded (s.sender i = .mqOpen ∧ s.linked = true) { s with sender := update s.sender i .fgets }
  | .senderOpenFail i => guarded (s.sender i = .mqOpen) { s with sender := update s.sender i (.exited []) }
  | .fgets i =>
    guarded (s.sender i = .fgets)
      { s with sender := update s.sender i (.mqSend (Lib.fgets newline (s.mq.attr.mqMsgsize - 1) (s.stdin i)).1)
               stdin := update s.stdin i (Lib.fgets newline (s.mq.attr.mqMsgsize - 1) (s.stdin i)).2 }
  | .mqSend i text =>
    guarded (s.sender i = .mqSend text ∧ s.mq.Sendable s.mq.attr.mqMsgsize)
      { s with sender := update s.sender i (if isQuit (block s.mq.attr.mqMsgsize text) then .returned else .fgets)
               mq := s.mq.send (some i, block s.mq.attr.mqMsgsize text) }
  | .mqSendFail i text =>
    guarded (s.sender i = .mqSend text) { s with sender := update s.sender i (.exited [text]) }

/-- Nothing has begun and the queue is not there; the senders will be typed these texts. -/
def launched (typed : ι → List UInt8) (buffer : List UInt8) : St ι where
  sender := fun _ => .mqOpen
  stdin := typed
  receiver := .mqOpen
  buffer := buffer
  mq := ⟨⟨mqMsgMax, mqMsgSize⟩, []⟩
  linked := false
  printed := []
  received := []

/-! ## What a message says -/

/-- The text of a message. -/
def said (msg : Msg ι) : List UInt8 := (cString nul msg.2).getD []

/-- With a zero byte after it the text fits a message, as one that fgets has read does. -/
def Fits (text : List UInt8) : Prop := text.length < mqMsgSize

theorem block_split {text : List UInt8} (h : Fits text) :
    ∃ rest, block mqMsgSize text = text ++ nul :: rest := by
  obtain ⟨n, hn⟩ : ∃ n, mqMsgSize - text.length = n + 1 := by
    have hlen : text.length < mqMsgSize := h
    exact ⟨mqMsgSize - text.length - 1, by omega⟩
  exact ⟨List.replicate n nul, by rw [block, hn, List.replicate_succ]⟩

/-- Whatever the receiver's buffer held. -/
theorem cString_received {text : List UInt8} (h : Fits text) (buffer : List UInt8) :
    cString nul (received buffer (block mqMsgSize text)) = some (upTo nul text) := by
  obtain ⟨rest, hrest⟩ := block_split h
  rw [received, hrest, List.append_assoc]
  exact cString_terminated _ _

theorem said_block {text : List UInt8} (h : Fits text) (tag : Option ι) :
    said (tag, block mqMsgSize text) = upTo nul text := by
  obtain ⟨rest, hrest⟩ := block_split h
  rw [said, hrest, cString_terminated]
  rfl

/-- The terminator is no part of "quit". -/
theorem isQuit_terminated {text : List UInt8} (rest : List UInt8) : isQuit (text ++ nul :: rest) = isQuit text := by
  have hq : ∀ (q : List UInt8) (t : List UInt8), nul ∉ q → q.isPrefixOf (t ++ nul :: rest) = q.isPrefixOf t := by
    intro q
    induction q with
    | nil => intro t _; simp
    | cons a q ih =>
      intro t hnul
      cases t with
      | nil =>
        have ha : (a == nul) = false := by
          rw [beq_eq_false_iff_ne]
          rintro rfl
          exact hnul (by simp)
        simp [List.isPrefixOf, ha]
      | cons b t => simp [List.isPrefixOf, ih t fun h => hnul (List.mem_cons_of_mem _ h)]
  exact hq quit text (by decide)

theorem isQuit_upTo (text : List UInt8) : isQuit (upTo nul text) = isQuit text := by
  rcases upTo_cases nul text with h | ⟨rest, h⟩
  · rw [h]
  · exact ((congrArg isQuit h).trans (isQuit_terminated rest)).symm

theorem isQuit_block {text : List UInt8} (h : Fits text) : isQuit (block mqMsgSize text) = isQuit text := by
  obtain ⟨rest, hrest⟩ := block_split h
  rw [hrest, isQuit_terminated]

theorem isQuit_received {text : List UInt8} (h : Fits text) (buffer : List UInt8) :
    isQuit (received buffer (block mqMsgSize text)) = isQuit text := by
  obtain ⟨rest, hrest⟩ := block_split h
  rw [received, hrest, List.append_assoc]
  exact isQuit_terminated _

/-! ## The invariant -/

/-- What a sender has read and not sent. -/
def SenderPc.inHand : SenderPc → List (List UInt8)
  | .mqSend text => [text]
  | .exited unsent => unsent
  | _ => []

@[simp] theorem SenderPc.inHand_sent (b : Bool) : (if b = true then returned else fgets).inHand = [] := by
  cases b <;> rfl

def SenderPc.opened : SenderPc → Bool
  | .mqOpen => false
  | .exited _ => false
  | _ => true

def ReceiverPc.stopped : ReceiverPc → Bool
  | .mqUnlink => true
  | .returned => true
  | _ => false

/-- Every message of the run, the oldest first. -/
def St.messages (s : St ι) : List (Msg ι) := s.received ++ s.mq.msgs

variable [DecidableEq ι]

/-- The texts of one sender in these messages. -/
def textsOf (i : ι) (msgs : List (Msg ι)) : List (List UInt8) := (msgs.filter fun m => m.1 = some i).map said

@[simp] theorem textsOf_append (i : ι) (l l' : List (Msg ι)) : textsOf i (l ++ l') = textsOf i l ++ textsOf i l' := by
  simp [textsOf]

theorem textsOf_sent (i j : ι) {text : List UInt8} (h : Fits text) :
    textsOf i [(some j, block mqMsgSize text)] = if j = i then [upTo nul text] else [] := by
  by_cases hj : j = i
  · subst hj
    simp [textsOf, said_block h]
  · simp [textsOf, hj]

/-- A message of a sender of this run. -/
def Typed (m : Msg ι) : Prop := ∃ i text, Fits text ∧ m = (some i, block mqMsgSize text)

omit [DecidableEq ι] in
theorem Typed.received {m : Msg ι} (h : Typed m) (buffer : List UInt8) :
    cString nul (received buffer m.2) = some (said m) ∧ isQuit (Ex15.received buffer m.2) = isQuit (said m) := by
  obtain ⟨i, text, hfits, rfl⟩ := h
  rw [said_block hfits, isQuit_upTo]
  exact ⟨cString_received hfits buffer, isQuit_received hfits buffer⟩

structure ChatInv (typed : ι → List UInt8) (s : St ι) : Prop where
  attr : s.mq.attr = ⟨mqMsgMax, mqMsgSize⟩
  early : s.receiver = .mqOpen → s.linked = false ∧ s.mq.msgs = [] ∧ ∀ i, (s.sender i).opened = false
  fits : ∀ i text, s.sender i = .mqSend text → Fits text
  reads : ∀ i, ∃ sent, textsOf i s.messages = sent.map (upTo nul) ∧
    Reads newline (mqMsgSize - 1) (typed i) (sent ++ (s.sender i).inHand) (s.stdin i)
  messages : ∀ m ∈ s.messages, Typed m
  printed : s.printed = s.received.map fun m => some (said m)
  running : s.receiver.stopped = false → ∀ m ∈ s.received, isQuit (said m) = false
  stopped : s.receiver.stopped = true →
    ∃ before m, s.received = before ++ [m] ∧ isQuit (said m) = true ∧ ∀ x ∈ before, isQuit (said x) = false
  quits : ∀ i, s.sender i = .returned ↔ ∃ text ∈ textsOf i s.messages, isQuit text = true

theorem launched_inv (typed : ι → List UInt8) (buffer : List UInt8) : ChatInv typed (launched typed buffer) where
  attr := rfl
  early _ := ⟨rfl, rfl, fun _ => rfl⟩
  fits i text h := by cases h
  reads i := ⟨[], rfl, .refl _⟩
  messages m h := by cases h
  printed := rfl
  running _ m h := by cases h
  stopped h := by cases h
  quits i := by simp [launched, St.messages, textsOf]

theorem receive_inv {typed : ι → List UInt8} {s s' : St ι} {m : Msg ι} {out : Option (List UInt8)}
    (hi : ChatInv typed s) (h : step s (.mqReceive m out) = some s') : ChatInv typed s' := by
  obtain ⟨⟨hpc, hrcv, rfl⟩, rfl⟩ := guarded_eq_some.mp h
  have hsame : (s.received ++ [m]) ++ s.mq.receive.msgs = s.received ++ s.mq.msgs := by
    rw [hrcv.msgs]
    simp
  have htyped : Typed m := hi.messages m (by rw [St.messages, hrcv.msgs]; simp)
  obtain ⟨hout, hquit⟩ := htyped.received s.buffer
  have hbefore := hi.running (by rw [hpc]; rfl)
  refine
    { attr := hi.attr
      early := ?_
      fits := hi.fits
      reads := fun i => by simpa only [St.messages, hsame] using hi.reads i
      messages := fun x hx => hi.messages x (by simpa only [St.messages, hsame] using hx)
      printed := by simp [hi.printed, hout]
      running := ?_
      stopped := ?_
      quits := fun i => by simpa only [St.messages, hsame] using hi.quits i }
  · simp only [hquit]
    split <;> nofun
  · intro hrun x hx
    have hq : isQuit (said m) = false := by
      by_contra hq
      simp only [hquit, if_pos (by simpa using hq)] at hrun
      cases hrun
    rcases List.mem_append.mp hx with hx | hx
    · exact hbefore x hx
    · rw [List.mem_singleton.mp hx]
      exact hq
  · intro hstop
    refine ⟨s.received, m, rfl, ?_, hbefore⟩
    by_contra hq
    simp only [hquit, if_neg hq] at hstop
    cases hstop

/-- A sender reads, or goes on without sending. -/
theorem sender_inv {typed : ι → List UInt8} {s : St ι} {i : ι} {pc : SenderPc} {stdin : List UInt8}
    (hi : ChatInv typed s) (hearly : s.receiver = .mqOpen → pc.opened = false)
    (hfits : ∀ text, pc = .mqSend text → Fits text)
    (hreads : ∃ sent, textsOf i s.messages = sent.map (upTo nul) ∧
      Reads newline (mqMsgSize - 1) (typed i) (sent ++ pc.inHand) stdin)
    (hret : s.sender i ≠ .returned ∧ pc ≠ .returned) :
    ChatInv typed { s with sender := update s.sender i pc, stdin := update s.stdin i stdin } where
  attr := hi.attr
  early hm := by
    obtain ⟨hl, hq, hs⟩ := hi.early hm
    refine ⟨hl, hq, fun j => ?_⟩
    by_cases hj : j = i
    · subst hj
      simpa using hearly hm
    · simpa [hj] using hs j
  fits j text h := by
    by_cases hj : j = i
    · subst hj
      exact hfits text (by simpa using h)
    · exact hi.fits j text (by simpa [hj] using h)
  reads j := by
    by_cases hj : j = i
    · subst hj
      simpa [St.messages] using hreads
    · simpa [St.messages, hj] using hi.reads j
  messages := hi.messages
  printed := hi.printed
  running := hi.running
  stopped := hi.stopped
  quits j := by
    have hquits := hi.quits j
    by_cases hj : j = i
    · subst hj
      simp only [Function.update_self]
      exact ⟨fun h => absurd h hret.2, fun h => absurd (hquits.mpr h) hret.1⟩
    · simpa [St.messages, hj] using hquits

theorem send_inv {typed : ι → List UInt8} {s s' : St ι} {i : ι} {text : List UInt8} (hi : ChatInv typed s)
    (h : step s (.mqSend i text) = some s') : ChatInv typed s' := by
  obtain ⟨⟨hpc, -⟩, rfl⟩ := guarded_eq_some.mp h
  have hfits := hi.fits i text hpc
  have hsize : s.mq.attr.mqMsgsize = mqMsgSize := by rw [hi.attr]
  obtain ⟨sent, hsent, hreads⟩ := hi.reads i
  rw [hpc] at hreads
  have hnot : ¬ ∃ t ∈ textsOf i s.messages, isQuit t = true := fun hq => by
    have := (hi.quits i).mpr hq
    rw [hpc] at this; cases this
  refine
    { attr := hi.attr
      early := fun hm => ?_
      fits := fun j t ht => ?_
      reads := fun j => ?_
      messages := fun m hm => ?_
      printed := hi.printed
      running := hi.running
      stopped := hi.stopped
      quits := fun j => ?_ }
  · have := (hi.early hm).2.2 i
    rw [hpc] at this; cases this
  · by_cases hj : j = i
    · subst hj
      simp only [Function.update_self] at ht
      split at ht <;> cases ht
    · exact hi.fits j t (by simpa [hj] using ht)
  · by_cases hj : j = i
    · subst hj
      refine ⟨sent ++ [text], ?_, ?_⟩
      · rw [List.map_append, ← hsent]
        simp [St.messages, hsize, textsOf_sent _ _ hfits]
      · simp only [Function.update_self, SenderPc.inHand_sent, List.append_nil]
        exact hreads
    · simpa [St.messages, hsize, textsOf_sent _ _ hfits, hj, Ne.symm hj] using hi.reads j
  · simp only [St.messages, Mq.send_msgs, hsize, ← List.append_assoc] at hm
    rcases List.mem_append.mp hm with hm | hm
    · exact hi.messages m hm
    · exact ⟨i, text, hfits, List.mem_singleton.mp hm⟩
  · by_cases hj : j = i
    · subst hj
      have hlast : (∃ t ∈ textsOf j s.messages ++ [upTo nul text], isQuit t = true) ↔ isQuit text = true := by
        rw [← isQuit_upTo text]
        constructor
        · rintro ⟨t, ht, htq⟩
          rcases List.mem_append.mp ht with ht | ht
          · exact absurd ⟨t, ht, htq⟩ hnot
          · rwa [← List.mem_singleton.mp ht]
        · exact fun hq => ⟨upTo nul text, by simp, hq⟩
      have hpc' : (if isQuit text = true then SenderPc.returned else SenderPc.fgets) = .returned ↔
          isQuit text = true := by
        split <;> simp_all
      simp only [Function.update_self, St.messages, Mq.send_msgs, hsize, ← List.append_assoc, textsOf_append,
        textsOf_sent _ _ hfits, if_true]
      rw [isQuit_block hfits, hpc', ← textsOf_append]
      exact hlast.symm
    · simpa [St.messages, hsize, textsOf_sent _ _ hfits, hj, Ne.symm hj] using hi.quits j

omit [DecidableEq ι] in
theorem fgets_fits (text : List UInt8) : Fits (Lib.fgets newline (mqMsgSize - 1) text).1 := by
  have := fgets_length newline (mqMsgSize - 1) text
  have hsize : mqMsgSize = 48 := rfl
  unfold Fits
  omega

/-- A sender opens the queue, or fails to, or fails to send. -/
theorem sender_moves_inv {typed : ι → List UInt8} {s : St ι} {i : ι} {pc : SenderPc} (hi : ChatInv typed s)
    (hearly : s.receiver = .mqOpen → pc.opened = false) (hhand : pc.inHand = (s.sender i).inHand)
    (hpc : (∀ text, pc ≠ .mqSend text) ∧ pc ≠ .returned) (hret : s.sender i ≠ .returned) :
    ChatInv typed { s with sender := update s.sender i pc } := by
  have hmoved := sender_inv hi hearly (fun text h => absurd h (hpc.1 text))
    (by rw [hhand]; exact hi.reads i) ⟨hret, hpc.2⟩
  rwa [Function.update_eq_self] at hmoved

theorem step_inv {typed : ι → List UInt8} {s s' : St ι} {e : Ev ι} (hi : ChatInv typed s)
    (h : step s e = some s') : ChatInv typed s' := by
  cases e with
  | mqReceive m out => exact receive_inv hi h
  | mqSend i text => exact send_inv hi h
  | fgets i =>
    obtain ⟨hpc, rfl⟩ := guarded_eq_some.mp h
    have hsize : s.mq.attr.mqMsgsize = mqMsgSize := by rw [hi.attr]
    obtain ⟨sent, hsent, hreads⟩ := hi.reads i
    rw [hpc] at hreads
    simp only [hsize]
    refine sender_inv hi (fun hm => ?_) (fun text ht => ?_) ⟨sent, hsent, ?_⟩
      ⟨by rw [hpc]; nofun, nofun⟩
    · have := (hi.early hm).2.2 i
      rw [hpc] at this; cases this
    · obtain rfl := SenderPc.mqSend.inj ht
      exact fgets_fits _
    · simpa [SenderPc.inHand] using hreads.snoc
  | senderOpen i =>
    obtain ⟨⟨hpc, hlink⟩, rfl⟩ := guarded_eq_some.mp h
    refine sender_moves_inv hi (fun hm => ?_) (by rw [hpc]; rfl) ⟨nofun, nofun⟩ (by rw [hpc]; nofun)
    rw [(hi.early hm).1] at hlink; cases hlink
  | senderOpenFail i =>
    obtain ⟨hpc, rfl⟩ := guarded_eq_some.mp h
    exact sender_moves_inv hi (fun _ => rfl) (by rw [hpc]; rfl) ⟨nofun, nofun⟩ (by rw [hpc]; nofun)
  | mqSendFail i text =>
    obtain ⟨hpc, rfl⟩ := guarded_eq_some.mp h
    exact sender_moves_inv hi (fun _ => rfl) (by rw [hpc]; rfl) ⟨nofun, nofun⟩ (by rw [hpc]; nofun)
  | receiverOpen =>
    obtain ⟨hpc, rfl⟩ := guarded_eq_some.mp h
    obtain ⟨hlink, hq, -⟩ := hi.early hpc
    have hmq : (if s.linked then s.mq else ⟨⟨mqMsgMax, mqMsgSize⟩, []⟩) = s.mq := by
      have hattr := hi.attr
      cases hmq : s.mq with
      | mk attr msgs => simp_all
    simp only [hmq]
    exact { hi with
      early := nofun
      running := fun _ => hi.running (by rw [hpc]; rfl)
      stopped := nofun }
  | receiverOpenFail | mqReceiveFail =>
    obtain ⟨hpc, rfl⟩ := guarded_eq_some.mp h
    exact { hi with
      early := nofun
      running := fun _ => hi.running (by rw [hpc]; rfl)
      stopped := nofun }
  | mqUnlink =>
    obtain ⟨hpc, rfl⟩ := guarded_eq_some.mp h
    exact { hi with
      early := nofun
      running := nofun
      stopped := fun _ => hi.stopped (by rw [hpc]; rfl) }

theorem reach_inv {typed : ι → List UInt8} {buffer : List UInt8} {s : St ι}
    (h : Reach step (fun _ _ => True) (launched typed buffer) s) : ChatInv typed s :=
  h.inv (launched_inv typed buffer) fun _ _ _ hi _ hs => step_inv hi hs

/-- Where nothing is cut off, what was sent is what was read. -/
theorem ChatInv.reads_clean {typed : ι → List UInt8} {s : St ι} (hi : ChatInv typed s) {i : ι}
    (hclean : nul ∉ typed i) :
    Reads newline (mqMsgSize - 1) (typed i) (textsOf i s.messages ++ (s.sender i).inHand) (s.stdin i) := by
  obtain ⟨sent, hsent, hreads⟩ := hi.reads i
  have hwhole : ∀ text ∈ sent, upTo nul text = id text := fun text ht =>
    upTo_eq fun hm => hclean (hreads.mem_text (List.mem_append_left _ ht) hm)
  rw [hsent, List.map_congr_left hwhole, List.map_id]
  exact hreads

/-- Any number of senders, in any order of steps, whatever fails: each "> " is followed by
    the text of the message received, which is some sender's; those of one sender are the
    pieces that fgets reads of what was typed to it, from its beginning, in order and without
    a gap; and the receiver stops at the first text that begins with "quit". -/
theorem chat_prints_what_was_typed {typed : ι → List UInt8} (hclean : ∀ i, nul ∉ typed i) (buffer : List UInt8)
    {s : St ι} (h : Reach step (fun _ _ => True) (launched typed buffer) s) :
    s.printed = s.received.map (fun m => some (said m)) ∧
    (∀ m ∈ s.received, ∃ i, m.1 = some i) ∧
    (∀ i, ∃ rest, Reads newline (mqMsgSize - 1) (typed i) (textsOf i s.received) rest ∧
      (textsOf i s.received).flatten ++ rest = typed i) ∧
    (s.receiver.stopped = true ↔ ∃ m ∈ s.received, isQuit (said m) = true) ∧
    (∀ m ∈ s.received.dropLast, isQuit (said m) = false) := by
  have hi := reach_inv h
  refine ⟨hi.printed, fun m hm => ?_, fun i => ?_, ?_, ?_⟩
  · obtain ⟨i, text, -, rfl⟩ := hi.messages m (List.mem_append_left _ hm)
    exact ⟨i, rfl⟩
  · have hreads := hi.reads_clean (hclean i)
    rw [St.messages, textsOf_append, List.append_assoc] at hreads
    exact ⟨_, hreads.take, hreads.take.flatten⟩
  · constructor
    · intro hstop
      obtain ⟨before, m, hrec, hq, -⟩ := hi.stopped hstop
      exact ⟨m, by simp [hrec], hq⟩
    · rintro ⟨m, hm, hq⟩
      by_contra hrun
      rw [hi.running (by simpa using hrun) m hm] at hq
      cases hq
  · cases hstop : s.receiver.stopped with
    | true =>
      obtain ⟨before, m, hrec, -, hbefore⟩ := hi.stopped hstop
      simpa [hrec] using hbefore
    | false => exact fun m hm => hi.running hstop m (List.dropLast_subset _ hm)

def hi : List UInt8 := [104, 105, newline]

/-- One types "hi", the other "quit". -/
def two : Bool → List UInt8
  | true => hi
  | false => quit ++ [newline]

/-- The second one's text overtakes the first one's. -/
def overtaking : List (Ev Bool) :=
  [.receiverOpen, .senderOpen true, .senderOpen false, .fgets true, .fgets false, .mqSend false (quit ++ [newline]),
    .mqSend true hi, .mqReceive (some false, block mqMsgSize (quit ++ [newline])) (some (quit ++ [newline]))]

theorem overtakes : (exec step (fun _ _ => True) (launched two []) overtaking).isSome = true := by decide +kernel

theorem hi_is_lost :
    ((exec step (fun _ _ => True) (launched two []) overtaking).get overtakes).receiver.stopped = true ∧
    ∃ rest, Reads newline (mqMsgSize - 1) hi
      (textsOf true ((exec step (fun _ _ => True) (launched two []) overtaking).get overtakes).received) rest ∧
      (textsOf true ((exec step (fun _ _ => True) (launched two []) overtaking).get overtakes).received).flatten ++
        rest = hi :=
  ⟨by decide +kernel,
    (chat_prints_what_was_typed (by decide) [] (exec_get_reach overtaking overtakes)).2.2.1 true⟩

/-! ## With one sender -/

/-- What a program that reads pieces of a text and prints them has still to do. -/
structure Echo where
  rest : List UInt8
  done : Bool

def Echo.next (p : Echo) (out : Option (List UInt8)) : Option Echo :=
  guarded (p.done = false ∧ out = some (Lib.fgets newline (mqMsgSize - 1) p.rest).1)
    { rest := (Lib.fgets newline (mqMsgSize - 1) p.rest).2
      done := isQuit (Lib.fgets newline (mqMsgSize - 1) p.rest).1 }

/-- What the receiver prints. -/
def Ev.prints : Ev ι → Option (Option (List UInt8))
  | .mqReceive _ out => some out
  | _ => none

/-- The texts sent and not received, and the one in the sender's hands. -/
def St.ahead (s : St Unit) : List (List UInt8) := textsOf () s.mq.msgs ++ (s.sender ()).inHand

def St.echo (s : St Unit) : Echo := ⟨s.ahead.flatten ++ s.stdin (), s.receiver.stopped⟩

theorem silent_echo {s s' : St Unit} {e : Ev Unit} {typed : Unit → List UInt8} (hi : ChatInv typed s)
    (hclean : nul ∉ typed ()) (he : e.prints = none) (h : step s e = some s') : s'.echo = s.echo := by
  have hsize : s.mq.attr.mqMsgsize = mqMsgSize := by rw [hi.attr]
  cases e with
  | mqReceive m out => cases he
  | mqSend i text =>
    obtain ⟨⟨hpc, -⟩, rfl⟩ := guarded_eq_some.mp h
    have hfits := hi.fits i text hpc
    have hhand : (s.sender ()).inHand = [text] := by rw [hpc]; rfl
    have hwhole : upTo nul text = text := by
      refine upTo_eq fun hm => hclean ((hi.reads_clean hclean).mem_text (List.mem_append_right _ ?_) hm)
      rw [hhand]
      exact List.mem_singleton_self text
    simp [St.echo, St.ahead, hhand, hsize, textsOf_sent _ _ hfits, hwhole]
  | fgets i =>
    obtain ⟨hpc, rfl⟩ := guarded_eq_some.mp h
    simp [St.echo, St.ahead, hpc, SenderPc.inHand, fgets_append]
  | mqSendFail i text =>
    obtain ⟨hpc, rfl⟩ := guarded_eq_some.mp h
    simp [St.echo, St.ahead, hpc, SenderPc.inHand]
  | senderOpen i =>
    obtain ⟨⟨hpc, -⟩, rfl⟩ := guarded_eq_some.mp h
    simp [St.echo, St.ahead, hpc, SenderPc.inHand]
  | senderOpenFail i =>
    obtain ⟨hpc, rfl⟩ := guarded_eq_some.mp h
    simp [St.echo, St.ahead, hpc, SenderPc.inHand]
  | receiverOpen =>
    obtain ⟨hpc, rfl⟩ := guarded_eq_some.mp h
    obtain ⟨hlink, hq, -⟩ := hi.early hpc
    simp [St.echo, St.ahead, hpc, hlink, hq, ReceiverPc.stopped]
  | receiverOpenFail | mqReceiveFail | mqUnlink =>
    obtain ⟨hpc, rfl⟩ := guarded_eq_some.mp h
    simp [St.echo, St.ahead, hpc, ReceiverPc.stopped]

/-- The text received is the next piece of what is ahead. -/
theorem receive_echo {s s' : St Unit} {m : Msg Unit} {out : Option (List UInt8)} {typed : Unit → List UInt8}
    (hi : ChatInv typed s) (hclean : nul ∉ typed ()) (h : step s (.mqReceive m out) = some s') :
    s.echo.next out = some s'.echo := by
  obtain ⟨⟨hpc, hrcv, rfl⟩, rfl⟩ := guarded_eq_some.mp h
  have htyped : Typed m := hi.messages m (by rw [St.messages, hrcv.msgs]; simp)
  obtain ⟨hout, hquit⟩ := htyped.received s.buffer
  have hhead : textsOf () s.mq.msgs = said m :: textsOf () s.mq.receive.msgs := by
    obtain ⟨i, text, -, rfl⟩ := htyped
    rw [hrcv.msgs]
    simp [textsOf]
  have hreads := hi.reads_clean hclean
  rw [St.messages, textsOf_append, List.append_assoc, hhead, List.cons_append] at hreads
  have hnext := hreads.drop.head
  have hrest : s.echo.rest =
      (said m :: (textsOf () s.mq.receive.msgs ++ (s.sender ()).inHand)).flatten ++ s.stdin () := by
    rw [St.echo, St.ahead, hhead]
    rfl
  refine guarded_eq_some.mpr ⟨⟨?_, ?_⟩, ?_⟩
  · simp [St.echo, hpc, ReceiverPc.stopped]
  · rw [hout, hrest, hnext]
  · rw [hrest, hnext]
    simp only [St.echo, St.ahead, hquit]
    cases isQuit (said m) <;> rfl

theorem maps_echo {typed : Unit → List UInt8} (hclean : nul ∉ typed ()) (buffer : List UInt8) :
    Maps step (fun _ _ => True) Ev.prints (launched typed buffer) Echo.next (fun _ _ => True) some St.echo := by
  intro s e s' hr _ h
  have hi := reach_inv hr
  cases he : e.prints with
  | none =>
    rw [silent_echo hi hclean he h]
    exact .refl _
  | some out =>
    cases e with
    | mqReceive m out' =>
      obtain rfl := Option.some.inj he
      exact .of_step trivial (receive_echo hi hclean h)
    | _ => cases he

/-- Nothing is under way. -/
def Quiet (s : St Unit) : Prop := s.receiver = .mqReceive ∧ s.sender () = .fgets ∧ s.mq.msgs = []

/-- The program between two texts. -/
def Between (s : St Unit) : Prop :=
  s.receiver.stopped = true ∨ Quiet s ∨ s.receiver = .mqOpen ∧ s.sender () = .mqOpen

theorem can_openReceiver {s : St Unit} (h : s.receiver = .mqOpen) (hempty : s.mq.msgs = []) :
    ∃ s', step s .receiverOpen = some s' ∧ s'.receiver = .mqReceive ∧ s'.linked = true ∧ s'.mq.msgs = [] ∧
      s'.sender = s.sender ∧ s'.stdin = s.stdin :=
  ⟨_, guarded_of h, rfl, rfl, by split <;> simp [hempty], rfl, rfl⟩

theorem can_openSender {s : St Unit} (h : s.sender () = .mqOpen) (hlink : s.linked = true) :
    ∃ s', step s (.senderOpen ()) = some s' ∧ s'.sender () = .fgets ∧ s'.receiver = s.receiver ∧ s'.mq = s.mq ∧
      s'.stdin = s.stdin :=
  ⟨_, guarded_of ⟨h, hlink⟩, by simp, rfl, rfl, rfl⟩

theorem can_read {s : St Unit} (h : s.sender () = .fgets) :
    ∃ s', step s (.fgets ()) = some s' ∧ s'.mq = s.mq ∧ s'.receiver = s.receiver ∧
      s'.sender () = .mqSend (Lib.fgets newline (s.mq.attr.mqMsgsize - 1) (s.stdin ())).1 :=
  ⟨_, guarded_of h, rfl, rfl, by simp⟩

theorem can_send {s : St Unit} {text : List UInt8} (h : s.sender () = .mqSend text)
    (hroom : s.mq.Sendable s.mq.attr.mqMsgsize) :
    ∃ s', step s (.mqSend () text) = some s' ∧ s'.receiver = s.receiver ∧
      s'.mq = s.mq.send (some (), block s.mq.attr.mqMsgsize text) ∧
      s'.sender () = if isQuit (block s.mq.attr.mqMsgsize text) then .returned else .fgets :=
  ⟨_, guarded_of ⟨h, hroom⟩, rfl, rfl, by simp⟩

theorem can_receive {s : St Unit} {m : Msg Unit} (h : s.receiver = .mqReceive) (hrcv : s.mq.Receivable mqMsgSize m) :
    ∃ s', step s (.mqReceive m (cString nul (received s.buffer m.2))) = some s' ∧ s'.mq = s.mq.receive ∧
      s'.sender = s.sender ∧ s'.receiver = if isQuit (received s.buffer m.2) then .mqUnlink else .mqReceive :=
  ⟨_, guarded_of ⟨h, hrcv, rfl⟩, rfl, rfl, rfl⟩

/-- One text from the sender's input to the receiver's output. -/
theorem quiet_shows {typed : Unit → List UInt8} {s : St Unit} (hi : ChatInv typed s) (hclean : nul ∉ typed ())
    (hq : Quiet s) :
    ∃ s', Answers step (fun _ _ => True) Ev.prints s
      (some (some (Lib.fgets newline (mqMsgSize - 1) (s.stdin ())).1)) s' ∧ Between s' := by
  obtain ⟨hrcv, hsnd, hempty⟩ := hq
  have hfits := fgets_fits (s.stdin ())
  have hwhole : upTo nul (Lib.fgets newline (mqMsgSize - 1) (s.stdin ())).1 =
      (Lib.fgets newline (mqMsgSize - 1) (s.stdin ())).1 := by
    refine upTo_eq fun hm => hclean ?_
    rw [← (hi.reads_clean hclean).snoc.flatten]
    simp [hm]
  obtain ⟨s₁, hread, hmq₁, hrcv₁, hsnd₁⟩ := can_read hsnd
  rw [hi.attr] at hsnd₁
  obtain ⟨s₂, hsend, hrcv₂, hmq₂, hsnd₂⟩ := can_send hsnd₁
    (by rw [hmq₁, Mq.Sendable, hempty, hi.attr]; decide)
  rw [hmq₁, hi.attr] at hmq₂ hsnd₂
  obtain ⟨s₃, hreceive, hmq₃, hsnd₃, hrcv₃⟩ :=
    can_receive (s := s₂) (m := (some (), block mqMsgSize (Lib.fgets newline (mqMsgSize - 1) (s.stdin ())).1))
      (by rw [hrcv₂, hrcv₁, hrcv]) (by rw [hmq₂, Mq.Receivable]; simp [hempty, hi.attr])
  refine ⟨s₃, .silent trivial hread rfl (.silent trivial hsend rfl (.shown trivial hreceive ?_ (.refl _))), ?_⟩
  · simp [Ev.prints, cString_received hfits, hwhole]
  · rw [isQuit_received hfits] at hrcv₃
    rw [isQuit_block hfits] at hsnd₂
    cases hquit : isQuit (Lib.fgets newline (mqMsgSize - 1) (s.stdin ())).1 with
    | true =>
      rw [hquit] at hrcv₃
      exact .inl (by rw [hrcv₃]; rfl)
    | false =>
      rw [hquit] at hrcv₃ hsnd₂
      exact .inr (.inl ⟨hrcv₃, by rw [hsnd₃, hsnd₂]; rfl, by simp [hmq₃, hmq₂, hempty]⟩)

theorem between_shows {typed : Unit → List UInt8} {s : St Unit} {o : Option (List UInt8)} {p : Echo}
    (hi : ChatInv typed s) (hclean : nul ∉ typed ()) (hb : Between s) (h : s.echo.next o = some p) :
    ∃ s', Answers step (fun _ _ => True) Ev.prints s (some o) s' ∧ Between s' := by
  obtain ⟨⟨hdone, rfl⟩, -⟩ := guarded_eq_some.mp h
  rcases hb with hstop | hq | ⟨hrcv, hsnd⟩
  · rw [St.echo, hstop] at hdone
    cases hdone
  · have hahead : s.ahead = [] := by
      rw [St.ahead, hq.2.1, hq.2.2]
      rfl
    rw [St.echo, hahead]
    exact quiet_shows hi hclean hq
  · obtain ⟨hlink, hempty, -⟩ := hi.early hrcv
    have hahead : s.ahead = [] := by
      rw [St.ahead, hsnd, hempty]
      rfl
    rw [St.echo, hahead]
    obtain ⟨s₁, hropen, hrcv₁, hlink₁, hempty₁, hsnd₁, hin₁⟩ := can_openReceiver hrcv hempty
    obtain ⟨s₂, hsopen, hsnd₂, hrcv₂, hmq₂, hin₂⟩ := can_openSender (by rw [hsnd₁, hsnd]) hlink₁
    have hi₂ := step_inv (step_inv hi hropen) hsopen
    obtain ⟨s', hans, hb'⟩ := quiet_shows hi₂ hclean ⟨by rw [hrcv₂, hrcv₁], hsnd₂, by rw [hmq₂, hempty₁]⟩
    rw [hin₂, hin₁] at hans
    exact ⟨s', .silent trivial hropen rfl (.silent trivial hsopen rfl hans), hb'⟩

/-- With one sender the receiver prints what a program that reads and prints would, whatever
    the two do at the same time and whatever fails. -/
theorem chat_echoes {typed : List UInt8} (hclean : nul ∉ typed) (buffer : List UInt8) :
    Traces step (fun _ _ => True) Ev.prints (launched (fun _ : Unit => typed) buffer) =
      Traces Echo.next (fun _ _ => True) some ⟨typed, false⟩ :=
  (maps_echo hclean buffer).traces_eq (P := Between) (.inr (.inr ⟨rfl, rfl⟩))
    fun _ _ _ hr hb h => between_shows (reach_inv hr) hclean hb h

theorem hi_is_echoed :
    ([some hi, some (quit ++ [newline])] : List (Option (List UInt8))) ∈ Traces step (fun _ _ => True) Ev.prints
      (launched (fun _ : Unit => hi ++ quit ++ [newline]) []) := by
  rw [chat_echoes (by decide) []]
  exact exec_traces [some hi, some (quit ++ [newline])] (by decide)

/-! ## Without a failing call -/

def Ev.fails : Ev ι → Bool
  | .receiverOpenFail => true
  | .mqReceiveFail => true
  | .senderOpenFail _ => true
  | .mqSendFail _ _ => true
  | _ => false

def Succeeds (_ : St ι) (e : Ev ι) : Prop := e.fails = false

instance (s : St ι) (e : Ev ι) : Decidable (Succeeds s e) := inferInstanceAs (Decidable (_ = _))

/-- What a sender has read, each text as far as its first zero byte. -/
def St.read (s : St ι) (i : ι) : List (List UInt8) := textsOf i s.messages ++ (s.sender i).inHand.map (upTo nul)

/-- It has read nothing after a "quit". -/
def St.ReadsToQuit (s : St ι) : Prop := ∀ i, ∀ text ∈ (s.read i).dropLast, isQuit text = false

structure Alive (s : St ι) : Prop where
  receiver : s.receiver ≠ .exited
  sender : ∀ i unsent, s.sender i ≠ .exited unsent
  linked : s.receiver = .mqReceive → s.linked = true

omit [DecidableEq ι] in
theorem launched_alive (typed : ι → List UInt8) (buffer : List UInt8) : Alive (launched typed buffer) where
  receiver := by rw [launched]; nofun
  sender i unsent := by rw [launched]; nofun
  linked h := by cases h

/-- A sender goes on. -/
theorem Alive.sender_moves {s : St ι} (h : Alive s) (i : ι) {pc : SenderPc} (hpc : ∀ unsent, pc ≠ .exited unsent) :
    ∀ j unsent, update s.sender i pc j ≠ .exited unsent := by
  intro j unsent
  by_cases hj : j = i
  · subst hj
    simpa using hpc unsent
  · simpa [hj] using h.sender j unsent

theorem step_alive {s s' : St ι} {e : Ev ι} (ha : Alive s) (hok : Succeeds s e) (h : step s e = some s') :
    Alive s' := by
  cases e with
  | receiverOpen =>
    obtain ⟨-, rfl⟩ := guarded_eq_some.mp h
    exact ⟨nofun, ha.sender, fun _ => rfl⟩
  | mqReceive m out =>
    obtain ⟨⟨hpc, -⟩, rfl⟩ := guarded_eq_some.mp h
    refine ⟨?_, ha.sender, fun _ => ha.linked hpc⟩
    simp only
    split <;> nofun
  | mqUnlink =>
    obtain ⟨-, rfl⟩ := guarded_eq_some.mp h
    exact ⟨nofun, ha.sender, nofun⟩
  | senderOpen i =>
    obtain ⟨-, rfl⟩ := guarded_eq_some.mp h
    exact ⟨ha.receiver, ha.sender_moves i nofun, ha.linked⟩
  | fgets i =>
    obtain ⟨-, rfl⟩ := guarded_eq_some.mp h
    exact ⟨ha.receiver, ha.sender_moves i nofun, ha.linked⟩
  | mqSend i text =>
    obtain ⟨-, rfl⟩ := guarded_eq_some.mp h
    exact ⟨ha.receiver, ha.sender_moves i (by intro u; split <;> nofun), ha.linked⟩
  | receiverOpenFail | mqReceiveFail | senderOpenFail | mqSendFail => cases hok

/-- A sender that goes on without reading keeps what it has read. -/
theorem read_update {s : St ι} (i j : ι) {pc : SenderPc} (h : pc.inHand = (s.sender i).inHand) :
    ({ s with sender := update s.sender i pc } : St ι).read j = s.read j := by
  by_cases hj : j = i
  · subst hj
    simp [St.read, St.messages, h]
  · simp [St.read, St.messages, hj]

/-- Only fgets reads. -/
theorem step_read {typed : ι → List UInt8} {s s' : St ι} {e : Ev ι} (hi : ChatInv typed s) (h : step s e = some s')
    (j : ι) : s'.read j = s.read j ∨ s.sender j = .fgets ∧ e = .fgets j ∧ ∃ text, s'.read j = s.read j ++ [text] := by
  have hsize : s.mq.attr.mqMsgsize = mqMsgSize := by rw [hi.attr]
  cases e with
  | receiverOpen =>
    obtain ⟨hpc, rfl⟩ := guarded_eq_some.mp h
    obtain ⟨hlink, hempty, -⟩ := hi.early hpc
    exact .inl (by simp [St.read, St.messages, hlink, hempty])
  | mqReceive m out =>
    obtain ⟨⟨-, hrcv, -⟩, rfl⟩ := guarded_eq_some.mp h
    have hsame : (s.received ++ [m]) ++ s.mq.receive.msgs = s.received ++ s.mq.msgs := by
      rw [hrcv.msgs]
      simp
    exact .inl (by simp only [St.read, St.messages, hsame])
  | receiverOpenFail | mqReceiveFail | mqUnlink =>
    obtain ⟨-, rfl⟩ := guarded_eq_some.mp h
    exact .inl rfl
  | senderOpen i =>
    obtain ⟨⟨hpc, -⟩, rfl⟩ := guarded_eq_some.mp h
    exact .inl (read_update i j (by rw [hpc]; rfl))
  | senderOpenFail i =>
    obtain ⟨hpc, rfl⟩ := guarded_eq_some.mp h
    exact .inl (read_update i j (by rw [hpc]; rfl))
  | mqSendFail i text =>
    obtain ⟨hpc, rfl⟩ := guarded_eq_some.mp h
    exact .inl (read_update i j (by rw [hpc]; rfl))
  | fgets i =>
    obtain ⟨hpc, rfl⟩ := guarded_eq_some.mp h
    by_cases hj : j = i
    · subst hj
      refine .inr ⟨hpc, rfl, upTo nul (Lib.fgets newline (s.mq.attr.mqMsgsize - 1) (s.stdin j)).1, ?_⟩
      simp [St.read, St.messages, hpc, SenderPc.inHand]
    · exact .inl (by simp [St.read, St.messages, hj])
  | mqSend i text =>
    obtain ⟨⟨hpc, -⟩, rfl⟩ := guarded_eq_some.mp h
    have hfits := hi.fits i text hpc
    by_cases hj : j = i
    · subst hj
      exact .inl (by simp [St.read, St.messages, hpc, hsize, textsOf_sent _ _ hfits]; simp [SenderPc.inHand])
    · exact .inl (by simp [St.read, St.messages, hsize, textsOf_sent _ _ hfits, hj, Ne.symm hj])

theorem step_readsToQuit {typed : ι → List UInt8} {s s' : St ι} {e : Ev ι} (hi : ChatInv typed s)
    (hq : s.ReadsToQuit) (h : step s e = some s') : s'.ReadsToQuit := by
  intro i text ht
  rcases step_read hi h i with hsame | ⟨hpc, -, t, hsnoc⟩
  · rw [hsame] at ht
    exact hq i text ht
  · -- a sender that reads has sent no "quit", and has nothing in its hands
    rw [hsnoc, List.dropLast_concat, St.read, hpc] at ht
    have ht : text ∈ textsOf i s.messages := by simpa [SenderPc.inHand] using ht
    by_contra hquit
    have hret := (hi.quits i).mpr ⟨text, ht, by simpa using hquit⟩
    rw [hpc] at hret
    cases hret

theorem reach_readsToQuit {typed : ι → List UInt8} {buffer : List UInt8} {s : St ι}
    (h : Reach step (fun _ _ => True) (launched typed buffer) s) : s.ReadsToQuit :=
  h.inv_with (fun _ hr => reach_inv hr) (fun i text ht => by cases ht)
    fun _ _ _ hi hq _ hs => step_readsToQuit hi hq hs

theorem ChatInv.read_eq {typed : ι → List UInt8} {s : St ι} (hi : ChatInv typed s) (i : ι) :
    ∃ texts, s.read i = texts.map (upTo nul) ∧ Reads newline (mqMsgSize - 1) (typed i) texts (s.stdin i) := by
  obtain ⟨sent, hsent, hreads⟩ := hi.reads i
  exact ⟨_, by rw [St.read, hsent, List.map_append], hreads⟩

/-- If the text of number `n` begins with "quit", no more than `n + 1` are read. -/
theorem read_le {typed : ι → List UInt8} {s : St ι} {i : ι} {n : Nat} (hi : ChatInv typed s) (hq : s.ReadsToQuit)
    (hquit : isQuit (piece newline (mqMsgSize - 1) n (typed i)) = true) : (s.read i).length ≤ n + 1 := by
  by_contra hlen
  have hn : n < (s.read i).dropLast.length := by simp; omega
  have hmem := List.getElem_mem hn
  have hpiece : (s.read i).dropLast[n] = upTo nul (piece newline (mqMsgSize - 1) n (typed i)) := by
    obtain ⟨texts, hread, hreads⟩ := hi.read_eq i
    have hlen : (s.read i).length = texts.length := by rw [hread, List.length_map]
    have hnth := (List.getElem?_eq_some_iff.mp (hreads.getElem?_eq (n := n) (by omega))).2
    simp only [List.getElem_dropLast, hread, List.getElem_map, hnth]
  rw [hpiece] at hmem
  rw [← isQuit_upTo, hq i _ hmem] at hquit
  cases hquit

/-! ## With one sender, without a failing call -/

def SenderPc.opensLeft : SenderPc → Nat
  | .mqOpen => 1
  | _ => 0

def ReceiverPc.left : ReceiverPc → Nat
  | .mqOpen => 2
  | .mqReceive => 1
  | .mqUnlink => 1
  | _ => 0

/-- What is left to do until the text of number `n` has been received: each text is read,
    sent and received. -/
def St.left (s : St Unit) (n : Nat) : Nat :=
  3 * (n + 1 - (s.read ()).length) + 2 * (s.sender ()).inHand.length + s.mq.msgs.length +
    (s.sender ()).opensLeft + s.receiver.left

theorem step_left {typed : Unit → List UInt8} {s s' : St Unit} {e : Ev Unit} {n : Nat} (hi : ChatInv typed s)
    (hn : (s'.read ()).length ≤ n + 1) (hok : Succeeds s e) (h : step s e = some s') : s'.left n < s.left n := by
  have hread := step_read hi h ()
  cases e with
  | fgets i =>
    obtain ⟨hpc, rfl⟩ := guarded_eq_some.mp h
    rcases hread with hsame | ⟨-, -, t, hsnoc⟩
    · have := congrArg List.length hsame
      simp [St.read, St.messages, hpc, SenderPc.inHand] at this
    · rw [hsnoc] at hn
      simp only [St.left, hsnoc, hpc, Function.update_self, SenderPc.inHand, SenderPc.opensLeft, List.length_append,
        List.length_singleton, List.length_nil] at hn ⊢
      omega
  | mqSend i text =>
    obtain ⟨⟨hpc, -⟩, rfl⟩ := guarded_eq_some.mp h
    have hsame := hread.resolve_right (by rintro ⟨-, he, -⟩; cases he)
    have hhand : (s.sender i).inHand = [text] ∧ (s.sender i).opensLeft = 0 := by
      rw [hpc]
      exact ⟨rfl, rfl⟩
    have hopened : ∀ b : Bool, (if b = true then SenderPc.returned else .fgets).opensLeft = 0 := by
      intro b
      split <;> rfl
    simp only [St.left, hsame, hhand, Function.update_self, SenderPc.inHand_sent, hopened, Mq.send_msgs,
      List.length_append, List.length_singleton, List.length_nil]
    omega
  | mqReceive m out =>
    obtain ⟨⟨hpc, hrcv, -⟩, rfl⟩ := guarded_eq_some.mp h
    have hsame := hread.resolve_right (by rintro ⟨-, he, -⟩; cases he)
    have hleft : s.receiver.left = 1 := by rw [hpc]; rfl
    have hleft' : (if isQuit (received s.buffer m.2) = true then ReceiverPc.mqUnlink else .mqReceive).left = 1 := by
      split <;> rfl
    have hlen := congrArg List.length hrcv.msgs
    rw [List.length_cons] at hlen
    simp only [St.left, hsame, hleft, hleft', hlen]
    omega
  | receiverOpen =>
    obtain ⟨hpc, rfl⟩ := guarded_eq_some.mp h
    have hsame := hread.resolve_right (by rintro ⟨-, he, -⟩; cases he)
    obtain ⟨hlink, hempty, -⟩ := hi.early hpc
    have hleft : s.receiver.left = 2 := by rw [hpc]; rfl
    have hleft' : ReceiverPc.mqReceive.left = 1 := rfl
    rw [St.left, St.left, hsame]
    simp only [hleft, hleft', hlink, hempty, Bool.false_eq_true, if_false, List.length_nil]
    omega
  | mqUnlink =>
    obtain ⟨hpc, rfl⟩ := guarded_eq_some.mp h
    have hsame := hread.resolve_right (by rintro ⟨-, he, -⟩; cases he)
    simp [St.left, hsame, hpc, ReceiverPc.left]
  | senderOpen i =>
    obtain ⟨⟨hpc, -⟩, rfl⟩ := guarded_eq_some.mp h
    have hsame := hread.resolve_right (by rintro ⟨-, he, -⟩; cases he)
    simp [St.left, hsame, hpc, SenderPc.opensLeft, SenderPc.inHand]
  | receiverOpenFail | mqReceiveFail | senderOpenFail | mqSendFail => cases hok

/-- Once the receiver has stopped, the sender has. -/
theorem returned_of_stopped {typed : Unit → List UInt8} {s : St Unit} (hi : ChatInv typed s)
    (h : s.receiver.stopped = true) : s.sender () = .returned := by
  obtain ⟨before, m, hrec, hquit, -⟩ := hi.stopped h
  have hm : m ∈ s.messages := by simp [St.messages, hrec]
  obtain ⟨i, text, hfits, rfl⟩ := hi.messages m hm
  rw [said_block hfits] at hquit
  refine (hi.quits ()).mpr ⟨upTo nul text, ?_, hquit⟩
  exact List.mem_map.mpr ⟨_, List.mem_filter.mpr ⟨hm, by simp⟩, said_block hfits _⟩

/-- The sender's last text is still to be received. -/
theorem queued_of_returned {typed : Unit → List UInt8} {s : St Unit} (hi : ChatInv typed s)
    (h : s.sender () = .returned) (hrun : s.receiver.stopped = false) : s.mq.msgs ≠ [] := by
  intro hempty
  obtain ⟨text, ht, hquit⟩ := (hi.quits ()).mp h
  rw [St.messages, hempty, List.append_nil] at ht
  obtain ⟨m, hm, rfl⟩ := List.mem_map.mp ht
  rw [hi.running hrun m (List.mem_filter.mp hm).1] at hquit
  cases hquit

theorem can_step {typed : Unit → List UInt8} {s : St Unit} (hi : ChatInv typed s) (ha : Alive s)
    (h : ¬ (s.receiver = .returned ∧ s.sender () = .returned)) : ∃ e s', Succeeds s e ∧ step s e = some s' := by
  have hsize : s.mq.attr.mqMsgsize = mqMsgSize := by rw [hi.attr]
  cases hrcv : s.receiver with
  | mqOpen => exact ⟨.receiverOpen, _, rfl, guarded_of hrcv⟩
  | mqUnlink => exact ⟨.mqUnlink, _, rfl, guarded_of hrcv⟩
  | exited => exact absurd hrcv ha.receiver
  | returned => exact absurd ⟨hrcv, returned_of_stopped hi (by rw [hrcv]; rfl)⟩ h
  | mqReceive =>
    -- the receiver takes what there is; where there is nothing, the sender can go on
    cases hmq : s.mq.msgs with
    | cons m rest =>
      obtain ⟨s', h', -⟩ := can_receive (m := m) hrcv ⟨Nat.le_of_eq hsize, by rw [hmq]; rfl⟩
      exact ⟨.mqReceive m _, s', rfl, h'⟩
    | nil =>
      cases hsnd : s.sender () with
      | mqOpen =>
        obtain ⟨s', h', -⟩ := can_openSender hsnd (ha.linked hrcv)
        exact ⟨.senderOpen (), s', rfl, h'⟩
      | fgets =>
        obtain ⟨s', h', -⟩ := can_read hsnd
        exact ⟨.fgets (), s', rfl, h'⟩
      | mqSend text =>
        obtain ⟨s', h', -⟩ := can_send hsnd (by rw [Mq.Sendable, hmq, hi.attr]; decide)
        exact ⟨.mqSend () text, s', rfl, h'⟩
      | returned => exact absurd hmq (queued_of_returned hi hsnd (by rw [hrcv]; rfl))
      | exited unsent => exact absurd hsnd (ha.sender () unsent)

theorem stuck_iff {typed : Unit → List UInt8} {s : St Unit} (hi : ChatInv typed s) (ha : Alive s) :
    Stuck step Succeeds s ↔ s.receiver = .returned ∧ s.sender () = .returned := by
  constructor
  · intro hstuck
    by_contra hnot
    obtain ⟨e, s', hok, h⟩ := can_step hi ha hnot
    exact hstuck e s' hok h
  · rintro ⟨hrcv, hsnd⟩ e s' hok h
    cases e with
    | receiverOpen | mqUnlink =>
      obtain ⟨hpc, -⟩ := guarded_eq_some.mp h
      rw [hrcv] at hpc; cases hpc
    | mqReceive m out =>
      obtain ⟨⟨hpc, -⟩, -⟩ := guarded_eq_some.mp h
      rw [hrcv] at hpc; cases hpc
    | fgets i =>
      obtain ⟨hpc, -⟩ := guarded_eq_some.mp h
      rw [hsnd] at hpc; cases hpc
    | senderOpen i | mqSend i text =>
      obtain ⟨⟨hpc, -⟩, -⟩ := guarded_eq_some.mp h
      rw [hsnd] at hpc; cases hpc
    | receiverOpenFail | mqReceiveFail | senderOpenFail | mqSendFail => cases hok

/-- A sender that has returned has read a "quit". -/
theorem quit_of_returned {typed : Unit → List UInt8} {s : St Unit} (hi : ChatInv typed s)
    (h : s.sender () = .returned) : ∃ n, isQuit (piece newline (mqMsgSize - 1) n (typed ())) = true := by
  obtain ⟨text, ht, hquit⟩ := (hi.quits ()).mp h
  obtain ⟨sent, hsent, hreads⟩ := hi.reads ()
  rw [hsent] at ht
  obtain ⟨whole, hwhole, rfl⟩ := List.mem_map.mp ht
  rw [isQuit_upTo] at hquit
  obtain ⟨n, hn⟩ := List.mem_iff_getElem?.mp (List.mem_append_left (s.sender ()).inHand hwhole)
  rw [hreads.getElem?_eq (List.getElem?_eq_some_iff.mp hn).1] at hn
  exact ⟨n, by rw [Option.some.inj hn]; exact hquit⟩

/-- With one sender and no failing call nobody waits for ever, and the two stop if and only if
    one of the pieces that fgets reads begins with "quit". -/
theorem chat_ends_iff (typed buffer : List UInt8) :
    (∀ s, Reach step Succeeds (launched (fun _ : Unit => typed) buffer) s →
      (Stuck step Succeeds s ↔ s.receiver = .returned ∧ s.sender () = .returned)) ∧
    ((∃ bound, ∀ tr s, Run step Succeeds (launched (fun _ : Unit => typed) buffer) tr s → tr.length ≤ bound) ↔
      ∃ n, isQuit (piece newline (mqMsgSize - 1) n typed) = true) := by
  have hinv : ∀ s, Reach step Succeeds (launched (fun _ : Unit => typed) buffer) s →
      ChatInv (fun _ => typed) s ∧ s.ReadsToQuit ∧ Alive s := fun s hr =>
    ⟨reach_inv (hr.mono fun _ _ _ => trivial),
      reach_readsToQuit (hr.mono fun _ _ _ => trivial),
      hr.inv (launched_alive _ _) fun _ _ _ ha hok h => step_alive ha hok h⟩
  have hstuck : ∀ s, Reach step Succeeds (launched (fun _ : Unit => typed) buffer) s →
      (Stuck step Succeeds s ↔ s.receiver = .returned ∧ s.sender () = .returned) := fun s hr =>
    stuck_iff (hinv s hr).1 (hinv s hr).2.2
  refine ⟨hstuck, ?_, ?_⟩
  · rintro ⟨bound, hbound⟩
    by_contra hno
    obtain ⟨tr, s, hr, hlen⟩ := exists_run_length (fun s hr hs =>
      hno (quit_of_returned (hinv s hr).1 ((hstuck s hr).mp hs).2)) (bound + 1)
    have := hbound tr s hr
    omega
  · rintro ⟨n, hquit⟩
    refine ⟨(launched (fun _ : Unit => typed) buffer).left n, fun tr s hr => ?_⟩
    have := hr.length_le (μ := fun s => s.left n) fun s e s' hs hok h => by
      have hs' := hinv s' (hs.step hok h)
      exact step_left (hinv s hs).1 (read_le hs'.1 hs'.2.1 hquit) hok h
    omega

theorem quit_ends_it : ∃ bound, ∀ tr s,
    Run step Succeeds (launched (fun _ : Unit => quit) []) tr s → tr.length ≤ bound :=
  (chat_ends_iff quit []).2.mpr ⟨0, by decide⟩

end Alambix.Ex15

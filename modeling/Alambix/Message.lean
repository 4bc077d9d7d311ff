/-
  Alambix.Message — the bytes of a drink on its way through the queue.

  alambix_get_ordered_drink answers a `char *`: the drink's name, its terminator, and
  whatever memory follows (`DrinkPtr`). mq_send copies the MQ_MSG_SIZE bytes it finds there
  (`mqSend`); nothing pads the name. mq_receive writes the bytes of the message over the
  front of the bartender's `buffer` and leaves the rest of it as it was (`mqReceive`);
  nothing clears it between two drinks.

  Proved: the buffers alambix_still_start is handed are the blocks sent, whatever the
  buffer held before (`bartenderBuffers_sent`), so each name of at most 47 bytes is read
  back, and a longer one leaves no terminator in the buffer (`drink_names_round_trip`).
  In the program, where a drink stands for its pointer, the k-th drink started is read as
  its name (`started_drinks_are_named`).
-/

import Alambix.Delivery
import Alambix.Lib.CString

namespace Alambix

open Lib Lib.Transition

def nul : UInt8 := 0

/-- What a `char *` of the library points to. -/
structure DrinkPtr where
  name : List UInt8
  noNul : nul ∉ name
  /-- The memory after the terminator. -/
  after : Nat → UInt8

namespace DrinkPtr

def byte (p : DrinkPtr) (i : Nat) : UInt8 :=
  if h : i < p.name.length then p.name[i] else if i = p.name.length then nul else p.after (i - p.name.length - 1)

/-- The first `n` bytes at the pointer. -/
def bytes (p : DrinkPtr) (n : Nat) : List UInt8 := (List.range n).map p.byte

end DrinkPtr

/-- The message `mq_send(mq, ordered_drink, mq_bartender_attr.mq_msgsize, 0)` queues. -/
def mqSend (orderedDrink : DrinkPtr) : List UInt8 := orderedDrink.bytes mqBartenderAttr.mqMsgsize

/-- `char buffer[MQ_MSG_SIZE]`. -/
abbrev Buffer := Vector UInt8 mqMsgSize

/-- The buffer after an mq_receive of this message. -/
def mqReceive (buffer : Buffer) (msg : List UInt8) : Buffer := Vector.ofFn fun i => msg[i.val]?.getD buffer[i]

/-- What alambix_still_start is handed for each message received, the buffer holding
    `buffer` when the bartender starts. -/
def bartenderBuffers (buffer : Buffer) : List (List UInt8) → List Buffer
  | [] => []
  | msg :: msgs => mqReceive buffer msg :: bartenderBuffers (mqReceive buffer msg) msgs

/-! ## What is sent and what is read -/

theorem DrinkPtr.bytes_eq (p : DrinkPtr) (n : Nat) :
    p.bytes n = (p.name ++ nul :: (List.range n).map p.after).take n := by
  apply List.ext_getElem
  · simp [bytes]; omega
  · intro i h1 h2
    simp only [bytes, List.getElem_map, List.getElem_range, byte, List.getElem_take, List.getElem_append]
    split
    · rfl
    · rename_i hlen
      by_cases he : i = p.name.length
      · simp [he]
      · rw [if_neg he, List.getElem_cons, dif_neg (by omega)]
        simp

theorem mqSend_length (p : DrinkPtr) : (mqSend p).length = mqMsgSize := by
  simp [mqSend, DrinkPtr.bytes, mqBartenderAttr]

/-- The C string in a block sent. -/
theorem cString_mqSend (p : DrinkPtr) :
    cString nul (mqSend p) = if p.name.length < mqMsgSize then some p.name else none := by
  show cString nul (p.bytes mqMsgSize) = _
  rw [DrinkPtr.bytes_eq, cString_take p.noNul]

/-- A message of the buffer's size leaves nothing of what the buffer held. -/
theorem mqReceive_whole (buffer : Buffer) {msg : List UInt8} (h : msg.length = mqMsgSize) :
    (mqReceive buffer msg).toList = msg := by
  apply List.ext_getElem
  · simp [h]
  · intro i h1 h2
    simp [mqReceive, h2]

theorem bartenderBuffers_sent (buffer : Buffer) (drinks : List DrinkPtr) :
    (bartenderBuffers buffer (drinks.map mqSend)).map Vector.toList = drinks.map mqSend := by
  induction drinks generalizing buffer with
  | nil => rfl
  | cons p ps ih =>
    simp only [List.map_cons, bartenderBuffers, ih]
    rw [mqReceive_whole buffer (mqSend_length p)]

/-- The k-th buffer handed over is the k-th block sent. -/
theorem handed_of_sent (buffer : Buffer) {drinks : List DrinkPtr} {k : Nat} {p : DrinkPtr} (hk : drinks[k]? = some p) :
    ∃ handed, (bartenderBuffers buffer (drinks.map mqSend))[k]? = some handed ∧ handed.toList = mqSend p := by
  have hsent : ((bartenderBuffers buffer (drinks.map mqSend)).map Vector.toList)[k]? = some (mqSend p) := by
    rw [bartenderBuffers_sent, List.getElem?_map, hk]
    rfl
  rw [List.getElem?_map] at hsent
  exact Option.map_eq_some_iff.mp hsent

/-- 47 bytes is the longest name that is read back. -/
theorem name_fits_iff (p : DrinkPtr) : cString nul (mqSend p) = some p.name ↔ p.name.length ≤ 47 := by
  have hsize : mqMsgSize = 48 := rfl
  rw [cString_mqSend]
  split
  · exact iff_of_true rfl (by omega)
  · exact iff_of_false nofun (by omega)

theorem long_name_unterminated {p : DrinkPtr} (h : 48 ≤ p.name.length) : nul ∉ mqSend p := by
  have hsize : mqMsgSize = 48 := rfl
  rw [← cString_eq_none, cString_mqSend, if_neg (by omega)]

/-- Whatever the memory after each name and whatever the buffer held, alambix_still_start
    is handed the k-th name, if it has at most 47 bytes; a name of 48 bytes or more leaves
    no terminator in the buffer. -/
theorem drink_names_round_trip (buffer : Buffer) (drinks : List DrinkPtr) (k : Fin drinks.length) :
    ∃ handed, (bartenderBuffers buffer (drinks.map mqSend))[k.val]? = some handed ∧
      (drinks[k].name.length ≤ 47 → cString nul handed.toList = some drinks[k].name) ∧
      (48 ≤ drinks[k].name.length → nul ∉ handed.toList) := by
  have hk : drinks[k.val]? = some drinks[k] := by simp
  obtain ⟨handed, hget, hbytes⟩ := handed_of_sent buffer hk
  refine ⟨handed, hget, fun hshort => ?_, fun hlong => ?_⟩
  · rw [hbytes]
    exact (name_fits_iff _).mpr hshort
  · rw [hbytes]
    exact long_name_unterminated hlong

/-- A name of `n` bytes `b`, the memory after it full of `b`. -/
def longName (b : UInt8) (n : Nat) (h : b ≠ nul) : DrinkPtr where
  name := List.replicate n b
  noNul hm := h (List.eq_of_mem_replicate hm).symm
  after _ := b

/-- Two names of 48 and 2 bytes, received one after the other. -/
def longThenShort : List DrinkPtr := [longName 97 48 (by decide), longName 98 2 (by decide)]

/-- The long one has no end in the buffer, and nothing of it is left under the short one. -/
theorem short_name_after_a_long_one :
    ∃ long short, bartenderBuffers (Vector.replicate mqMsgSize 120) (longThenShort.map mqSend) = [long, short] ∧
      nul ∉ long.toList ∧ cString nul short.toList = some [98, 98] := by
  have hround := drink_names_round_trip (Vector.replicate mqMsgSize 120) longThenShort
  obtain ⟨long, hget, -, hlong⟩ := hround ⟨0, by decide⟩
  obtain ⟨short, hget', hshort, -⟩ := hround ⟨1, by decide⟩
  refine ⟨long, short, ?_, hlong (by decide), hshort (by decide)⟩
  apply List.ext_getElem?
  intro i
  match i with
  | 0 => exact hget
  | 1 => exact hget'
  | i + 2 => rfl

/-! ## In the program -/

/-- The order of a round, a drink standing for its pointer: the string behind the pointer
    the k-th alambix_still_start is given is the name of the k-th drink started, as long
    as the name fits. -/
theorem started_drinks_are_named [DecidableEq DrinkPtr] {s₀ s : St DrinkPtr} (h0 : Ready s₀)
    {wanted : Client → List DrinkPtr} (h : Reach step (fun _ e => e.inRound = true) (roundOf s₀ wanted) s)
    (buffer : Buffer) (k : Fin s.started.length) (hfits : s.started[k].name.length ≤ 47) :
    ∃ handed, (bartenderBuffers buffer (s.received.map mqSend))[k.val]? = some handed ∧
      cString nul handed.toList = some s.started[k].name := by
  obtain ⟨hl, -⟩ := round_line (fun _ _ h => h) h0 h
  have hk : s.received[k.val]? = some s.started[k] := by
    rw [hl.started, List.getElem?_append_left k.isLt]
    simp
  obtain ⟨handed, hget, hbytes⟩ := handed_of_sent buffer hk
  refine ⟨handed, hget, ?_⟩
  rw [hbytes]
  exact (name_fits_iff _).mpr hfits

end Alambix
